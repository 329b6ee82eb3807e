import X64SmpOs.Lib.Runs
import X64SmpOs.Kernel.Task

/-!
# Task switching on several processors

Three entries select a task from the shared table: `lapic_timer_entry` and
`lapic_sched_broadcast_entry` under `taskspinlock`, `task_exit` without it. Each
processor runs its entries with interrupts off; the steps of different
processors interleave freely.

* `Machine.next`: one step of one processor;
* `SmpInv`: current tasks are distinct, in the table and not selectable, and a
  task under selection belongs to nobody else;
* `distinct_of_noOverlap`: in a run in which no processor scans the table while
  another is on the way from its scan to its store, current tasks are distinct.
-/

namespace X64SmpOs.Smp

open Task64 Runs

variable {ι : Type} [DecidableEq ι]

/-- Where a processor stands. The selection `scan`, `claim`, `store` is one
sequence of the three entries; `locked` tells whether `taskspinlock` is held. -/
inductive Pc
  /-- The current task or the idle loop, interrupts on. -/
  | run
  | timerLock
  | timerCheck
  | timerMark
  | broadcastLock
  | exitClean
  | exitClear
  | scan (locked : Bool)
  | claim (locked : Bool) (p : Nat)
  | store (locked : Bool) (p : Nat)
  | setRunning (p : Nat)
  | unlock
  deriving DecidableEq, Repr

/-- `cur c` is `[gs:32]` of processor `c`, `none` for `0`. -/
structure Machine (ι : Type) where
  ctx : TaskCtx
  lock : Bool
  cur : ι → Option Nat
  pc : ι → Pc

/-- An interrupt, the end of the current task, or the next step of an entry. -/
inductive SmpAct (ι : Type)
  | timer (c : ι)
  | broadcast (c : ι)
  | exit (c : ι)
  | step (c : ι)
  deriving DecidableEq, Repr

def Machine.goto (s : Machine ι) (c : ι) (pc : Pc) : Machine ι :=
    { s with pc := Function.update s.pc c pc }

def Machine.setCur (s : Machine ι) (c : ι) (p : Option Nat) : Machine ι :=
  { s with cur := Function.update s.cur c p }

/-- The step of an entry; `none` while it spins or when there is no entry. -/
def Machine.advance (s : Machine ι) (c : ι) : Option (Machine ι) :=
  match s.pc c with
  | .run => none
  | .timerLock => if s.lock then none else some ({ s with lock := true }.goto c .timerCheck)
  | .timerCheck =>
    match s.cur c with
    | none => some (s.goto c (.scan true))
    | some p =>
      let r := decreaseTaskCounter s.ctx p
      -- `cmp rax, 0; ja exit` compares unsigned
      some ({ s with ctx := r.2 }.goto c (if r.1 ≠ 0 then .unlock else .timerMark))
  | .timerMark =>
    match s.cur c with
    | none => none
    | some p => some ({ s with ctx := setTaskWaiting s.ctx p }.goto c (.scan true))
  | .broadcastLock => if s.lock then none else some ({ s with lock := true }.goto c (.scan true))
  | .exitClean =>
    match s.cur c with
    | none => none
    | some p => some ({ s with ctx := taskClean s.ctx p }.goto c .exitClear)
  | .exitClear => some ((s.setCur c none).goto c (.scan false))
  | .scan locked =>
    let r := scanTasks s.ctx
    match r.1 with
    | none => some ({ s with ctx := r.2 }.goto c (if locked then .unlock else .run))
    | some p => some ({ s with ctx := r.2 }.goto c (.claim locked p))
  | .claim locked p => some ({ s with ctx := claimTask s.ctx p }.goto c (.store locked p))
  | .store locked p =>
    some ((s.setCur c (some p)).goto c (if locked then .setRunning p else .run))
  | .setRunning p => some ({ s with ctx := setTaskRunning s.ctx p }.goto c .unlock)
  | .unlock => some ({ s with lock := false }.goto c .run)

/-- The broadcast entry returns at once when a task is current; `task_exit` is
where the current task returns to. -/
def Machine.next (s : Machine ι) : SmpAct ι → Option (Machine ι)
  | .timer c => if s.pc c = .run then some (s.goto c .timerLock) else none
  | .broadcast c =>
    if s.pc c = .run then
      if s.cur c = none then some (s.goto c .broadcastLock) else some s
    else none
  | .exit c => if s.pc c = .run ∧ s.cur c ≠ none then some (s.goto c .exitClean) else none
  | .step c => s.advance c

def smpStep : Machine ι → SmpAct ι → Machine ι → Prop := stepOf Machine.next

/-- No task is current on two processors. -/
def Distinct (s : Machine ι) : Prop := ∀ c d p, s.cur c = some p → s.cur d = some p → c = d

/-- The task under selection. -/
def Pc.pick : Pc → Option Nat
  | .claim _ p | .store _ p => some p
  | _ => none

/-- On the way from a scan to the store; under the lock also from the marking of
the current task on. -/
def Switching (s : Machine ι) (d : ι) : Prop :=
  (s.pc d).pick ≠ none ∨ (s.pc d = .scan true ∧ s.cur d ≠ none)

/-- A processor scans the table only while no other is switching. -/
def NoOverlap (s : Machine ι) (a : SmpAct ι) (_ : Machine ι) : Prop :=
  ∀ c b, a = .step c → s.pc c = .scan b → ∀ d, d ≠ c → ¬ Switching s d

/-! ## The invariant -/

def Pc.Locked : Pc → Prop
  | .timerCheck | .timerMark | .setRunning _ | .unlock => True
  | .scan b | .claim b _ | .store b _ => b = true
  | _ => False

/-- From the marking of the current task to the store. -/
def Pc.Leaving : Pc → Prop
  | .scan true | .claim true _ | .store true _ => True
  | _ => False

theorem Pc.Leaving.scan_or_pick {pc : Pc} (h : pc.Leaving) : pc = .scan true ∨ pc.pick ≠ none := by
  cases pc with
  | scan b =>
    cases b with
    | true => exact Or.inl rfl
    | false => exact False.elim h
  | claim b p => exact Or.inr nofun
  | store b p => exact Or.inr nofun
  | _ => exact False.elim h

/-- The current task runs, unless it is being left or has been cleaned. -/
structure CurOk (s : Machine ι) (c : ι) (p : Nat) : Prop where
  alive : s.pc c ≠ .exitClear → s.ctx.Holds p
  state : s.ctx.state p = .running ∨ ((s.pc c).Leaving ∧ (s.ctx.state p).Idle) ∨
    (s.pc c = .exitClear ∧ s.ctx.state p = .died)

/-- A task is in the slot of its number. -/
def SlotOk (g : TaskCtx) : Prop := ∀ i p, g.tasks i = some p → (g.task p).pid = i

structure SmpInv (s : Machine ι) : Prop where
  lockOne : ∀ c d, (s.pc c).Locked → (s.pc d).Locked → c = d
  lockHeld : ∀ c, (s.pc c).Locked → s.lock = true
  slot : SlotOk s.ctx
  distinct : Distinct s
  cur : ∀ c p, s.cur c = some p → CurOk s c p
  setRunning : ∀ c p, s.pc c = .setRunning p → s.cur c = some p
  pickOne : ∀ c d, (s.pc c).pick ≠ none → (s.pc d).pick ≠ none → c = d
  pick : ∀ c p, (s.pc c).pick = some p → s.ctx.Holds p ∧ ∀ d, s.cur d = some p → d = c
  stored : ∀ c b p, s.pc c = .store b p → s.ctx.state p = .running

theorem goto_pc_self (s : Machine ι) (c : ι) (pc : Pc) : (s.goto c pc).pc c = pc :=
  Function.update_self ..

theorem goto_pc_ne (s : Machine ι) {c d : ι} (pc : Pc) (h : d ≠ c) :
    (s.goto c pc).pc d = s.pc d := Function.update_of_ne h ..

@[simp] theorem goto_ctx (s : Machine ι) (c : ι) (pc : Pc) : (s.goto c pc).ctx = s.ctx := rfl

@[simp] theorem goto_cur (s : Machine ι) (c : ι) (pc : Pc) : (s.goto c pc).cur = s.cur := rfl

/-! ## What a step of one processor leaves alone -/

/-- Tasks other than `mine` stay in the table, and at most become ready. -/
def Frame (g g' : TaskCtx) (mine : Nat → Prop) : Prop :=
  ∀ p, ¬ mine p → (g.Holds p → g'.Holds p) ∧
    (g'.state p = g.state p ∨ (g.state p = .waiting ∧ g'.state p = .ready))

theorem Frame.refl (g : TaskCtx) (mine : Nat → Prop) : Frame g g mine :=
  fun _ _ => ⟨id, Or.inl rfl⟩

theorem frame_woken {g g' : TaskCtx} (h : Woken g g') (mine : Nat → Prop) : Frame g g' mine :=
  fun p _ => ⟨fun hp => by rwa [TaskCtx.Holds, h.tasks], h.state p⟩

theorem frame_setTask (g : TaskCtx) {q : Nat} (t : Task) {mine : Nat → Prop} (hq : mine q) :
    Frame g (g.setTask q t) mine := by
  intro p hp
  have hne : p ≠ q := fun he => hp (he ▸ hq)
  exact ⟨id, Or.inl (by rw [TaskCtx.state, TaskCtx.setTask_ne _ _ hne]; rfl)⟩

theorem slotOk_setTask {g : TaskCtx} (h : SlotOk g) {q : Nat} {t : Task}
    (ht : t.pid = (g.task q).pid) : SlotOk (g.setTask q t) := by
  intro i p hp
  by_cases hpq : p = q
  · subst hpq
    rw [TaskCtx.setTask_self, ht]
    exact h i p hp
  · rw [TaskCtx.setTask_ne _ _ hpq]
    exact h i p hp

theorem frame_taskClean {g : TaskCtx} (hslot : SlotOk g)
    {q : Nat} (hq : g.Holds q) {mine : Nat → Prop} (hm : mine q) :
    Frame g (taskClean g q) mine := by
  intro p hp
  have hne : p ≠ q := fun he => hp (he ▸ hm)
  refine ⟨?_, Or.inl ?_⟩
  · rintro ⟨i, hi, hip⟩
    obtain ⟨j, -, hjq⟩ := hq
    have hij : i ≠ j := fun he => hne (Option.some.inj (hip.symm.trans (he ▸ hjq)))
    refine ⟨i, hi, ?_⟩
    simp only [taskClean, TaskCtx.setTask_tasks, TaskCtx.setTask_self, hslot j q hjq]
    rwa [Function.update_of_ne hij]
  · simp only [taskClean, TaskCtx.state]
    rw [TaskCtx.setTask_ne _ _ hne]

/-- The tasks of a processor. -/
def Mine (s : Machine ι) (c : ι) (p : Nat) : Prop := s.cur c = some p ∨ (s.pc c).pick = some p

omit [DecidableEq ι] in
theorem CurOk.frame {s t : Machine ι} {d : ι} {p : Nat} (h : CurOk s d p) (hpc : t.pc d = s.pc d)
    (hp : (s.ctx.Holds p → t.ctx.Holds p) ∧ (t.ctx.state p = s.ctx.state p ∨
      (s.ctx.state p = .waiting ∧ t.ctx.state p = .ready))) : CurOk t d p := by
  refine ⟨fun he => hp.1 (h.alive (hpc ▸ he)), ?_⟩
  rw [hpc]
  rcases hp.2 with h1 | ⟨h1, h2⟩
  · rw [h1]
    exact h.state
  · rcases h.state with h3 | h3 | ⟨-, h3⟩
    · rw [h1] at h3
      cases h3
    · exact Or.inr (Or.inl ⟨h3.1, Or.inl h2⟩)
    · rw [h1] at h3
      cases h3

omit [DecidableEq ι] in
/-- The tasks of another processor are not mine. -/
theorem SmpInv.not_mine {s : Machine ι} (hs : SmpInv s) {c d : ι} (hd : d ≠ c) {p : Nat}
    (hp : Mine s d p) : ¬ Mine s c p := by
  rintro (h | h) <;> rcases hp with h' | h'
  · exact hd (hs.distinct d c p h' h)
  · exact hd ((hs.pick d p h').2 c h).symm
  · exact hd ((hs.pick c p h).2 d h')
  · exact hd (hs.pickOne d c (by simp [h']) (by simp [h]))

/-- **Step rule.** A step that changes processor `c` and the tasks of `c` keeps
the invariant when it keeps `c`'s part. -/
theorem SmpInv.of_step {s t : Machine ι} {c : ι} {pc : Pc} (hs : SmpInv s) (hc : t.pc c = pc)
    (hpc : ∀ d, d ≠ c → t.pc d = s.pc d) (hcur : ∀ d, d ≠ c → t.cur d = s.cur d)
    (hframe : Frame s.ctx t.ctx (Mine s c))
    (hslot : SlotOk t.ctx)
    (hlock : (pc.Locked → t.lock = true ∧ ∀ d, d ≠ c → ¬ (s.pc d).Locked) ∧
      ∀ d, d ≠ c → (s.pc d).Locked → t.lock = true)
    (hnew : ∀ p, t.cur c = some p → CurOk t c p ∧ ∀ d, d ≠ c → ¬ Mine s d p)
    (hrun : ∀ p, pc = .setRunning p → t.cur c = some p)
    (hpick : ∀ p, pc.pick = some p → t.ctx.Holds p ∧
      ∀ d, d ≠ c → s.cur d ≠ some p ∧ (s.pc d).pick = none)
    (hstored : ∀ b p, pc = .store b p → t.ctx.state p = .running) : SmpInv t := by
  subst hc
  have hkeep : ∀ d, d ≠ c → ∀ p, Mine s d p → (s.ctx.Holds p → t.ctx.Holds p) ∧
      (t.ctx.state p = s.ctx.state p ∨ (s.ctx.state p = .waiting ∧ t.ctx.state p = .ready)) :=
    fun d hd p hp => hframe p (hs.not_mine hd hp)
  constructor
  case lockOne =>
    exact unique_of_step hs.lockOne (fun d hd h => hpc d hd ▸ h) fun h => (hlock.1 h).2
  case lockHeld =>
    intro d h1
    rcases eq_or_ne d c with rfl | hd
    · exact (hlock.1 h1).1
    · exact hlock.2 d hd (hpc d hd ▸ h1)
  case slot => exact hslot
  case distinct =>
    intro d e p
    refine unique_of_step (fun d e => hs.distinct d e p) (fun d hd h => (hcur d hd).symm.trans h)
      (fun h d hd hp => (hnew p h).2 d hd (Or.inl hp)) d e
  case cur =>
    intro d p h1
    rcases eq_or_ne d c with rfl | hd
    · exact (hnew p h1).1
    · rw [hcur d hd] at h1
      exact (hs.cur d p h1).frame (hpc d hd) (hkeep d hd p (Or.inl h1))
  case setRunning =>
    intro d p h1
    rcases eq_or_ne d c with rfl | hd
    · exact hrun p h1
    · rw [hpc d hd] at h1
      rw [hcur d hd]
      exact hs.setRunning d p h1
  case pickOne =>
    refine unique_of_step hs.pickOne (fun d hd h => hpc d hd ▸ h) fun h d hd hne => ?_
    obtain ⟨p, hp⟩ := Option.ne_none_iff_exists'.mp h
    exact hne ((hpick p hp).2 d hd).2
  case pick =>
    intro d p h1
    rcases eq_or_ne d c with rfl | hd
    · refine ⟨(hpick p h1).1, fun e he => ?_⟩
      by_contra hne
      exact ((hpick p h1).2 e hne).1 (hcur e hne ▸ he)
    · rw [hpc d hd] at h1
      obtain ⟨h2, h3⟩ := hs.pick d p h1
      refine ⟨(hkeep d hd p (Or.inr h1)).1 h2, fun e he => ?_⟩
      rcases eq_or_ne e c with rfl | hec
      · exact absurd (Or.inr h1) ((hnew p he).2 d hd)
      · exact h3 e (hcur e hec ▸ he)
  case stored =>
    intro d b p h1
    rcases eq_or_ne d c with rfl | hd
    · exact hstored b p h1
    · rw [hpc d hd] at h1
      have hpk : (s.pc d).pick = some p := by rw [h1]; rfl
      rcases (hkeep d hd p (Or.inr hpk)).2 with h2 | ⟨h2, -⟩
      · rw [h2]
        exact hs.stored d b p h1
      · rw [hs.stored d b p h1] at h2
        cases h2

/-! ## The steps -/

section Steps

variable {s t : Machine ι} {c : ι}

omit [DecidableEq ι] in
theorem CurOk.running {p : Nat} (h : CurOk s c p) (h1 : ¬ (s.pc c).Leaving)
    (h2 : s.pc c ≠ .exitClear) : s.ctx.Holds p ∧ s.ctx.state p = .running := by
  rcases h.state with h3 | h3 | h3
  · exact ⟨h.alive h2, h3⟩
  · exact absurd h3.1 h1
  · exact absurd h3.1 h2

omit [DecidableEq ι] in
/-- The lock's part of the step rule when the processor does not take the lock. -/
theorem SmpInv.lock_same (hs : SmpInv s) {pc : Pc} (h : pc.Locked → (s.pc c).Locked) :
    (pc.Locked → s.lock = true ∧ ∀ d, d ≠ c → ¬ (s.pc d).Locked) ∧
      ∀ d, d ≠ c → (s.pc d).Locked → s.lock = true :=
  ⟨fun hc => ⟨hs.lockHeld c (h hc), fun d hd hd' => hd (hs.lockOne d c hd' (h hc))⟩,
    fun d _ hd => hs.lockHeld d hd⟩

omit [DecidableEq ι] in
theorem SmpInv.lock_free (hs : SmpInv s) (hl : s.lock = false) (d : ι) : ¬ (s.pc d).Locked := by
  intro hd
  rw [hs.lockHeld d hd] at hl
  cases hl

omit [DecidableEq ι] in
/-- The current task's part of the step rule when it stays. -/
theorem SmpInv.cur_same (hs : SmpInv s) (hcur : t.cur c = s.cur c)
    (hok : ∀ p, s.cur c = some p → CurOk t c p) :
    ∀ p, t.cur c = some p → CurOk t c p ∧ ∀ d, d ≠ c → ¬ Mine s d p := by
  intro p hp
  rw [hcur] at hp
  exact ⟨hok p hp, fun d hd => hs.not_mine (Ne.symm hd) (Or.inl hp)⟩

/-- A step between two places outside the selection, with the task table as it is. -/
theorem SmpInv.move (hs : SmpInv s) {pc : Pc} (lock : Bool)
    (hold : ¬ (s.pc c).Leaving ∧ s.pc c ≠ .exitClear)
    (hpick : pc.pick = none) (hrun : ∀ p, pc ≠ .setRunning p)
    (hlock : (pc.Locked → lock = true ∧ ∀ d, d ≠ c → ¬ (s.pc d).Locked) ∧
      ∀ d, d ≠ c → (s.pc d).Locked → lock = true) :
    SmpInv ({ s with lock := lock }.goto c pc) := by
  refine hs.of_step (goto_pc_self _ c pc) (fun d hd => goto_pc_ne _ pc hd) (fun _ _ => rfl)
    (Frame.refl _ _) hs.slot hlock (hs.cur_same rfl fun p hp => ?_)
    (fun p hp => absurd hp (hrun p)) (fun p hp => ?_) (fun b p hp => ?_)
  · obtain ⟨h1, h2⟩ := (hs.cur c p hp).running hold.1 hold.2
    exact ⟨fun _ => h1, Or.inl h2⟩
  · rw [hpick] at hp
    cases hp
  · rw [hp] at hpick
    cases hpick

/-- A step that writes a descriptor of the processor's own. -/
theorem SmpInv.write (hs : SmpInv s) {q : Nat} (hq : Mine s c q) {d : Task}
    (hpid : d.pid = (s.ctx.task q).pid) {pc : Pc} (hlock : pc.Locked → (s.pc c).Locked)
    (hok : ∀ p, s.cur c = some p →
      CurOk ({ s with ctx := s.ctx.setTask q d }.goto c pc) c p)
    (hpick : pc.pick ≠ none → pc.pick = (s.pc c).pick) (hrun : ∀ p, pc ≠ .setRunning p)
    (hstored : ∀ b p, pc = .store b p → (s.ctx.setTask q d).state p = .running) :
    SmpInv ({ s with ctx := s.ctx.setTask q d }.goto c pc) := by
  refine hs.of_step (goto_pc_self _ c pc) (fun d hd => goto_pc_ne _ pc hd) (fun _ _ => rfl)
    (frame_setTask _ _ hq) (slotOk_setTask hs.slot hpid) (hs.lock_same hlock)
    (hs.cur_same rfl hok) (fun p hp => absurd hp (hrun p)) (fun p hp => ?_) hstored
  have hp' : (s.pc c).pick = some p := by rw [← hpick (by simp [hp]), hp]
  obtain ⟨h1, h2⟩ := hs.pick c p hp'
  refine ⟨h1, fun e he => ⟨fun hep => he (h2 e hep), ?_⟩⟩
  by_contra hne
  exact he (hs.pickOne e c hne (by simp [hp']))

/-- `task_clean` empties the slot of the processor's own task. -/
theorem clean_inv (hs : SmpInv s) (hpc : s.pc c = .exitClean) {p : Nat} (hp : s.cur c = some p) :
    SmpInv ({ s with ctx := taskClean s.ctx p }.goto c .exitClear) := by
  have hc := goto_pc_self { s with ctx := taskClean s.ctx p } c .exitClear
  obtain ⟨hholds, -⟩ := (hs.cur c p hp).running (by rw [hpc]; exact id) (by rw [hpc]; nofun)
  refine hs.of_step hc (fun d hd => goto_pc_ne _ _ hd) (fun _ _ => rfl)
    (frame_taskClean hs.slot hholds (Or.inl hp)) ?_ (hs.lock_same False.elim)
    (hs.cur_same rfl fun q hq => ?_) nofun nofun nofun
  · intro i q hq
    simp only [taskClean, goto_ctx] at hq ⊢
    by_cases hi : i = ((s.ctx.setTask p { s.ctx.task p with state := .died }).task p).pid
    · rw [hi, Function.update_self] at hq
      cases hq
    · rw [Function.update_of_ne hi] at hq
      exact slotOk_setTask (t := { s.ctx.task p with state := .died }) hs.slot rfl i q hq
  · obtain rfl := Option.some.inj (hp.symm.trans hq)
    refine ⟨fun he => absurd hc he, Or.inr (Or.inr ⟨hc, ?_⟩)⟩
    simp [taskClean, TaskCtx.state]

omit [DecidableEq ι] in
/-- A processor that is not switching has no task that a scan may choose. -/
theorem not_idle_of_not_switching (hs : SmpInv s) {d : ι} (hno : ¬ Switching s d) :
    (s.pc d).pick = none ∧ ∀ p, s.cur d = some p → ¬ (s.ctx.state p).Idle := by
  have hpick : (s.pc d).pick = none := by
    by_contra hne
    exact hno (Or.inl hne)
  refine ⟨hpick, fun p hp hidle => ?_⟩
  rcases (hs.cur d p hp).state with h | ⟨h, -⟩ | ⟨-, h⟩
  · rw [h] at hidle
    rcases hidle with h | h <;> cases h
  · rcases h.scan_or_pick with h | h
    · exact hno (Or.inr ⟨h, by simp [hp]⟩)
    · exact h hpick
  · rw [h] at hidle
    rcases hidle with h | h <;> cases h

/-- The tasks are woken, and the processor goes on with the choice or without one. -/
theorem scan_goto_inv (hs : SmpInv s) {b : Bool} (hpc : s.pc c = .scan b)
    (hno : ∀ d, d ≠ c → ¬ Switching s d) {pc : Pc} (hlk : pc.Locked → b = true)
    (hleave : b = true → pc.Leaving ∨ (scanTasks s.ctx).1 = none)
    (hrun : ∀ p, pc ≠ .setRunning p) (hstore : ∀ b' p, pc ≠ .store b' p)
    (hpk : ∀ p, pc.pick = some p → (scanTasks s.ctx).1 = some p) :
    SmpInv ({ s with ctx := (scanTasks s.ctx).2 }.goto c pc) := by
  obtain ⟨hwoken, hchoice⟩ := scanTasks_spec s.ctx
  have hc := goto_pc_self { s with ctx := (scanTasks s.ctx).2 } c pc
  have hslot : SlotOk (scanTasks s.ctx).2 := by
    intro i p hp
    rw [hwoken.pid]
    rw [hwoken.tasks] at hp
    exact hs.slot i p hp
  refine hs.of_step hc (fun d hd => goto_pc_ne _ _ hd) (fun _ _ => rfl)
    (frame_woken hwoken _) hslot (hs.lock_same (by rw [hpc]; exact hlk))
    (hs.cur_same rfl fun p hp => ?_) (fun p hp => absurd hp (hrun p)) (fun p hp => ?_)
    (fun b' p hp => absurd hp (hstore b' p))
  · have hholds := (hs.cur c p hp).alive (by rw [hpc]; nofun)
    refine ⟨fun _ => by rw [TaskCtx.Holds, goto_ctx, hwoken.tasks]; exact hholds, ?_⟩
    rcases (hs.cur c p hp).state with h | ⟨h1, h2⟩ | ⟨h1, -⟩
    · rcases hwoken.state p with h' | ⟨h', -⟩
      · exact Or.inl (h'.trans h)
      · rw [h] at h'
        cases h'
    · have hb : b = true := by
        rw [hpc] at h1
        cases b with
        | false => exact False.elim h1
        | true => rfl
      rcases hleave hb with hl | hl
      · refine Or.inr (Or.inl ⟨by rw [hc]; exact hl, ?_⟩)
        rcases hwoken.state p with h' | ⟨-, h'⟩
        · rw [goto_ctx, h']
          exact h2
        · exact Or.inl h'
      · exact absurd hl (scanTasks_some hholds h2)
    · rw [hpc] at h1
      cases h1
  · obtain ⟨h1, h2, -⟩ := hchoice p (hpk p hp)
    refine ⟨by rw [TaskCtx.Holds, goto_ctx, hwoken.tasks]; exact h1, fun d hd => ?_⟩
    obtain ⟨hpick, hidle⟩ := not_idle_of_not_switching hs (hno d hd)
    exact ⟨fun hcd => hidle p hcd h2, hpick⟩

/-- The scan wakes tasks and may choose one; nobody else is switching. -/
theorem scan_inv (hs : SmpInv s) {b : Bool} (hpc : s.pc c = .scan b)
    (hno : ∀ d, d ≠ c → ¬ Switching s d) (hst : s.advance c = some t) : SmpInv t := by
  simp only [Machine.advance, hpc] at hst
  have hkeep := @scan_goto_inv _ _ s c hs b hpc hno
  cases hr : (scanTasks s.ctx).1 with
  | none =>
    simp only [hr, Option.some.injEq] at hst
    subst hst
    cases b with
    | true => exact hkeep (fun _ => rfl) (fun _ => Or.inr hr) nofun nofun nofun
    | false => exact hkeep False.elim nofun nofun nofun nofun
  | some p =>
    simp only [hr, Option.some.injEq] at hst
    subst hst
    refine hkeep id (fun hb => Or.inl ?_) nofun nofun (fun q hq => ?_)
    · rw [hb]
      trivial
    · rw [hr]
      exact hq

/-- The store makes the task under selection the current one. -/
theorem store_inv (hs : SmpInv s) {b : Bool} {p : Nat} (hpc : s.pc c = .store b p) :
    SmpInv ((s.setCur c (some p)).goto c (if b then .setRunning p else .run)) := by
  have hcur : ((s.setCur c (some p)).goto c (if b then .setRunning p else .run)).cur c = some p :=
    Function.update_self ..
  have hpick : (s.pc c).pick = some p := by rw [hpc]; rfl
  obtain ⟨hholds, -⟩ := hs.pick c p hpick
  refine hs.of_step (goto_pc_self _ c _) (fun d hd => goto_pc_ne _ _ hd)
    (fun d hd => Function.update_of_ne hd ..) (Frame.refl _ _) hs.slot (hs.lock_same ?_)
    (fun q hq => ?_) (fun q hq => ?_) (fun q hq => ?_) (fun b' q hq => ?_)
  · rw [hpc]
    cases b with
    | true => exact fun _ => rfl
    | false => exact False.elim
  · obtain rfl := Option.some.inj (hcur.symm.trans hq)
    exact ⟨⟨fun _ => hholds, Or.inl (hs.stored c b p hpc)⟩,
      fun d hd => hs.not_mine (Ne.symm hd) (Or.inr hpick)⟩
  · cases b with
    | true =>
      cases hq
      exact hcur
    | false => cases hq
  · cases b <;> cases hq
  · cases b <;> cases hq

/-- `[gs:32]` is cleared. -/
theorem clear_inv (hs : SmpInv s) : SmpInv ((s.setCur c none).goto c (.scan false)) := by
  have hcur : ((s.setCur c none).goto c (.scan false)).cur c = none := Function.update_self ..
  refine hs.of_step (goto_pc_self _ c _) (fun d hd => goto_pc_ne _ _ hd)
    (fun d hd => Function.update_of_ne hd ..) (Frame.refl _ _) hs.slot (hs.lock_same nofun)
    (fun q hq => ?_) nofun nofun nofun
  rw [hcur] at hq
  cases hq

theorem mark_inv (hs : SmpInv s) (hpc : s.pc c = .timerMark) {p : Nat} (hp : s.cur c = some p) :
    SmpInv ({ s with ctx := setTaskWaiting s.ctx p }.goto c (.scan true)) := by
  obtain ⟨h1, -⟩ := (hs.cur c p hp).running (by rw [hpc]; exact id) (by rw [hpc]; nofun)
  refine hs.write (d := { s.ctx.task p with state := .waiting }) (Or.inl hp) rfl
    (fun _ => by rw [hpc]; trivial) (fun q hq => ?_) (fun h => absurd rfl h) nofun nofun
  obtain rfl := Option.some.inj (hp.symm.trans hq)
  refine ⟨fun _ => h1, Or.inr (Or.inl ⟨?_, Or.inr ?_⟩)⟩
  · rw [goto_pc_self]
    trivial
  · simp [TaskCtx.state]

theorem check_inv (hs : SmpInv s) (hpc : s.pc c = .timerCheck) {p : Nat} (hp : s.cur c = some p)
    {pc : Pc} (hpc' : pc = .unlock ∨ pc = .timerMark) :
    SmpInv ({ s with ctx := (decreaseTaskCounter s.ctx p).2 }.goto c pc) := by
  obtain ⟨h1, h2⟩ := (hs.cur c p hp).running (by rw [hpc]; exact id) (by rw [hpc]; nofun)
  refine hs.write (d := { s.ctx.task p with counter := (decreaseTaskCounter s.ctx p).1 })
    (Or.inl hp) rfl (fun _ => by rw [hpc]; trivial) (fun q hq => ?_) ?_ ?_ ?_
  · obtain rfl := Option.some.inj (hp.symm.trans hq)
    refine ⟨fun _ => h1, Or.inl ?_⟩
    rw [goto_ctx, TaskCtx.state, TaskCtx.setTask_self]
    exact h2
  · intro hpick
    rcases hpc' with rfl | rfl <;> exact absurd rfl hpick
  · intro q hq
    rcases hpc' with rfl | rfl <;> cases hq
  · intro b q hq
    rcases hpc' with rfl | rfl <;> cases hq

theorem claim_inv (hs : SmpInv s) {b : Bool} {p : Nat} (hpc : s.pc c = .claim b p) :
    SmpInv ({ s with ctx := claimTask s.ctx p }.goto c (.store b p)) := by
  have hpick : (s.pc c).pick = some p := by rw [hpc]; rfl
  refine hs.write (d := { s.ctx.task p with state := .running }) (Or.inr hpick) rfl
    (fun h => by rw [hpc]; exact h) (fun q hq => ?_) (fun _ => by rw [hpick]; rfl) nofun
    (fun b' q hq => ?_)
  · have hok := hs.cur c q hq
    refine ⟨fun _ => hok.alive (by rw [hpc]; nofun), ?_⟩
    rw [goto_pc_self, goto_ctx]
    by_cases hqp : q = p
    · subst hqp
      exact Or.inl (by simp [TaskCtx.state])
    · rw [TaskCtx.state, TaskCtx.setTask_ne _ _ hqp]
      rcases hok.state with h | ⟨h1, h2⟩ | ⟨h1, -⟩
      · exact Or.inl h
      · rw [hpc] at h1
        exact Or.inr (Or.inl ⟨by cases b <;> exact h1, h2⟩)
      · rw [hpc] at h1
        cases h1
  · cases hq
    simp [TaskCtx.state]

theorem setRunning_inv (hs : SmpInv s) {p : Nat} (hpc : s.pc c = .setRunning p) :
    SmpInv ({ s with ctx := setTaskRunning s.ctx p }.goto c .unlock) := by
  have hcur := hs.setRunning c p hpc
  obtain ⟨h1, -⟩ := (hs.cur c p hcur).running (by rw [hpc]; exact id) (by rw [hpc]; nofun)
  refine hs.write (d := { s.ctx.task p with state := .running }) (Or.inl hcur) rfl
    (fun _ => by rw [hpc]; trivial) (fun q hq => ?_) (fun h => absurd rfl h) nofun nofun
  obtain rfl := Option.some.inj (hcur.symm.trans hq)
  exact ⟨fun _ => h1, Or.inl (by simp [TaskCtx.state])⟩

/-- Taking the lock. -/
theorem lock_inv (hs : SmpInv s) (hfree : s.lock = false)
    (hold : s.pc c = .timerLock ∨ s.pc c = .broadcastLock) {pc : Pc} (hpick : pc.pick = none)
    (hrun : ∀ p, pc ≠ .setRunning p) : SmpInv ({ s with lock := true }.goto c pc) := by
  have hnone := hs.lock_free hfree
  refine hs.move true ?_ hpick hrun ⟨fun _ => ⟨rfl, fun d _ => hnone d⟩, fun _ _ _ => rfl⟩
  rcases hold with h | h <;> rw [h] <;> exact ⟨id, nofun⟩

/-- One step of an entry. -/
theorem advance_inv (hs : SmpInv s)
    (hno : ∀ b, s.pc c = .scan b → ∀ d, d ≠ c → ¬ Switching s d)
    (hst : s.advance c = some t) : SmpInv t := by
  cases hpc : s.pc c with
  | scan b => exact scan_inv hs hpc (hno b hpc) hst
  | run => simp [Machine.advance, hpc] at hst
  | timerLock =>
    simp only [Machine.advance, hpc] at hst
    split at hst
    · cases hst
    · rename_i hfree
      cases hst
      exact lock_inv hs (by simpa using hfree) (Or.inl hpc) rfl nofun
  | broadcastLock =>
    simp only [Machine.advance, hpc] at hst
    split at hst
    · cases hst
    · rename_i hfree
      cases hst
      exact lock_inv hs (by simpa using hfree) (Or.inr hpc) rfl nofun
  | timerCheck =>
    simp only [Machine.advance, hpc] at hst
    cases hcur : s.cur c with
    | none =>
      simp only [hcur, Option.some.injEq] at hst
      subst hst
      refine hs.move s.lock ?_ rfl nofun (hs.lock_same ?_)
      · rw [hpc]
        exact ⟨id, nofun⟩
      · rw [hpc]
        exact fun _ => trivial
    | some p =>
      simp only [hcur, Option.some.injEq] at hst
      subst hst
      apply check_inv hs hpc hcur
      split
      · exact Or.inl rfl
      · exact Or.inr rfl
  | timerMark =>
    cases hcur : s.cur c with
    | none => simp [Machine.advance, hpc, hcur] at hst
    | some p =>
      simp only [Machine.advance, hpc, hcur, Option.some.injEq] at hst
      exact hst ▸ mark_inv hs hpc hcur
  | exitClean =>
    cases hcur : s.cur c with
    | none => simp [Machine.advance, hpc, hcur] at hst
    | some p =>
      simp only [Machine.advance, hpc, hcur, Option.some.injEq] at hst
      exact hst ▸ clean_inv hs hpc hcur
  | exitClear =>
    simp only [Machine.advance, hpc, Option.some.injEq] at hst
    exact hst ▸ clear_inv hs
  | claim b p =>
    simp only [Machine.advance, hpc, Option.some.injEq] at hst
    exact hst ▸ claim_inv hs hpc
  | store b p =>
    simp only [Machine.advance, hpc, Option.some.injEq] at hst
    exact hst ▸ store_inv hs hpc
  | setRunning p =>
    simp only [Machine.advance, hpc, Option.some.injEq] at hst
    exact hst ▸ setRunning_inv hs hpc
  | unlock =>
    simp only [Machine.advance, hpc, Option.some.injEq] at hst
    subst hst
    have hlocked : (s.pc c).Locked := by rw [hpc]; trivial
    refine hs.move false ?_ rfl nofun ⟨False.elim, fun d hd hd' => ?_⟩
    · rw [hpc]
      exact ⟨id, nofun⟩
    · exact absurd (hs.lockOne d c hd' hlocked) hd

end Steps

theorem smpInv_step (s : Machine ι) (a : SmpAct ι) (t : Machine ι) (hs : SmpInv s)
    (hno : NoOverlap s a t) (hst : smpStep s a t) : SmpInv t := by
  simp only [smpStep, stepOf, Machine.next] at hst
  -- an entry begins where the processor was running
  have hbegin : ∀ c, s.pc c = .run → ∀ pc, ¬ Pc.Locked pc → pc.pick = none →
      (∀ p, pc ≠ .setRunning p) → SmpInv (s.goto c pc) := by
    intro c hpc pc hlk hpick hrun
    refine hs.move s.lock ?_ hpick hrun (hs.lock_same (fun h => absurd h hlk))
    rw [hpc]
    exact ⟨id, nofun⟩
  cases a with
  | step c => exact advance_inv hs (fun b hb d hd => hno c b rfl hb d hd) hst
  | timer c =>
    simp only at hst
    split at hst
    · cases hst
      exact hbegin c ‹_› _ id rfl nofun
    · cases hst
  | broadcast c =>
    simp only at hst
    split at hst
    · split at hst
      · cases hst
        exact hbegin c ‹_› _ id rfl nofun
      · cases hst
        exact hs
    · cases hst
  | exit c =>
    simp only at hst
    split at hst
    · rename_i hc
      cases hst
      exact hbegin c hc.1 _ id rfl nofun
    · cases hst

/-- Every processor runs its current task or the idle loop, so that none holds the lock,
every task is in the slot of its number, and the current tasks are distinct
running tasks of the table. -/
structure Start (s : Machine ι) : Prop where
  pc : ∀ c, s.pc c = .run
  slot : SlotOk s.ctx
  distinct : Distinct s
  cur : ∀ c p, s.cur c = some p → s.ctx.Holds p ∧ s.ctx.state p = .running

omit [DecidableEq ι] in
theorem smpInv_start {s : Machine ι} (h : Start s) : SmpInv s := by
  refine ⟨fun c d hc => ?_, fun c hc => ?_, h.slot, h.distinct, fun c p hp => ?_, fun c p hp => ?_,
    fun c d hc => ?_, fun c p hp => ?_, fun c b p hp => ?_⟩
  · rw [h.pc] at hc
    exact False.elim hc
  · rw [h.pc] at hc
    exact False.elim hc
  · obtain ⟨h1, h2⟩ := h.cur c p hp
    exact ⟨fun _ => h1, Or.inl h2⟩
  · rw [h.pc] at hp
    cases hp
  · rw [h.pc] at hc
    exact absurd rfl hc
  · rw [h.pc] at hp
    cases hp
  · rw [h.pc] at hp
    cases hp

/-- **Scheduling safety.** For any number of processors and any interleaving in
which no processor scans the table while another is switching, no reachable
state has a task current on two processors. -/
theorem distinct_of_noOverlap {s t : Machine ι} (hs : Start s) {as : List (SmpAct ι)}
    (hno : Every smpStep NoOverlap s as) (hr : Run smpStep s as t) : Distinct t :=
  (run_inv smpInv_step (smpInv_start hs) hno hr).distinct

/-- Two processors with a task each, the second at the end of its slice, and a
third task that is ready. -/
def sampleTasks : TaskCtx where
  tasks i := if i < 3 then some (0x1000 + i) else none
  task p := ⟨p - 0x1000, 1, 1, if p < 0x1002 then .running else .ready⟩

def sample : Machine (Fin 2) where
  ctx := sampleTasks
  lock := false
  cur c := some (0x1000 + c)
  pc _ := .run

theorem sample_start : Start sample := by
  refine ⟨fun _ => rfl, fun i p hp => ?_, fun c d p hc hd => ?_, fun c p hp => ?_⟩
  · simp only [sample, sampleTasks] at hp ⊢
    split at hp
    · obtain rfl := Option.some.inj hp
      omega
    · cases hp
  · have h1 := Option.some.inj hc
    have h2 := Option.some.inj hd
    omega
  · obtain rfl := Option.some.inj hp
    have hlt := c.isLt
    refine ⟨⟨c, by simp only [taskMaxNums]; omega, if_pos (by omega)⟩, ?_⟩
    exact if_pos (by omega)

/-- The first processor's task ends and its scan chooses the third task; before
it is claimed, a tick on the second processor chooses it too. -/
def sampleOverlap : List (SmpAct (Fin 2)) :=
  [.exit 0, .step 0, .step 0, .step 0] ++
    [.timer 1, .step 1, .step 1, .step 1, .step 1, .step 1, .step 1] ++ [.step 0, .step 0]

theorem distinct_sample_fails :
    Start sample ∧ ∃ t, Run smpStep sample sampleOverlap t ∧ ¬ Distinct t := by
  refine ⟨sample_start, ?_⟩
  have hcur : (exec Machine.next sample sampleOverlap).map (fun t => (t.cur 0, t.cur 1)) =
      some (some 0x1002, some 0x1002) := by decide +kernel
  obtain ⟨t, ht, hcur⟩ := Option.map_eq_some_iff.mp hcur
  obtain ⟨h0, h1⟩ := Prod.mk.inj hcur
  exact ⟨t, run_of_exec ht, fun hd => absurd (hd 0 1 _ h0 h1) (by decide)⟩

/-- `NoOverlap`, evaluated. -/
def checkOverlap (s : Machine (Fin 2)) : SmpAct (Fin 2) → Bool
  | .step c => [0, 1].all fun d =>
    d = c || ((s.pc d).pick = none && (s.pc d ≠ .scan true || s.cur d = none))
  | _ => true

theorem noOverlap_of_check (s : Machine (Fin 2)) (a : SmpAct (Fin 2)) (t : Machine (Fin 2))
    (h : checkOverlap s a = true) : NoOverlap s a t := by
  rintro c b rfl - d hd hsw
  have hall : ∀ e : Fin 2, e = 0 ∨ e = 1 := by decide
  have hd' : (s.pc d).pick = none ∧ (s.pc d ≠ .scan true ∨ s.cur d = none) := by
    simp only [checkOverlap, List.all_cons, List.all_nil, Bool.and_true, Bool.and_eq_true,
      Bool.or_eq_true, decide_eq_true_eq] at h
    rcases hall d with rfl | rfl
    · exact h.1.resolve_left hd
    · exact h.2.resolve_left hd
  rcases hsw with hp | ⟨h1, h2⟩
  · exact hp hd'.1
  · exact hd'.2.elim (fun hne => hne h1) h2

/-- The same two switches one after the other. -/
theorem distinct_sample_holds :
    ∃ t, exec Machine.next sample
      ([.exit 0, .step 0, .step 0, .step 0, .step 0, .step 0] ++
        [.timer 1, .step 1, .step 1, .step 1, .step 1, .step 1, .step 1]) = some t ∧
      Distinct t := by
  obtain ⟨t, ht⟩ := Option.isSome_iff_exists.mp (show (exec Machine.next sample
    ([.exit 0, .step 0, .step 0, .step 0, .step 0, .step 0] ++
      [.timer 1, .step 1, .step 1, .step 1, .step 1, .step 1, .step 1])).isSome from by
    decide +kernel)
  exact ⟨t, ht, distinct_of_noOverlap sample_start
    (every_of_check noOverlap_of_check (by decide +kernel)) (run_of_exec ht)⟩

end X64SmpOs.Smp

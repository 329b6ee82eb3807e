import X64SmpOs.Kernel.ApInit
import X64SmpOs.Kernel.Pick

/-!
# Timer interrupts before there are tasks

The boot of the x64 kernel from `ap_init` on. `x64_kernel_main` goes on to `task_init`
when the processors have been counted, and these start their timers and enable
interrupts whenever they come to it.

* `timerEntryChecked`: `lapic_timer_entry`, with no result where
  `get_next_ready_task` reads through `NULL`;
* `Early.next`: a step of `ap_init` or of a trampoline, of `x64_kernel_main` or of
  `x64_ap_main`, or a timer interrupt;
* `entrySafe_iff`: a run keeps clear of the empty slot 0 exactly when no timer interrupt
  is taken before the first task is in the table.
-/

namespace X64SmpOs.EarlySched

open Task64 Runs Sched Pick

/-! ## The handler -/

section Handler

variable {ι : Type} [DecidableEq ι]

def switchTaskChecked (s : Cpus ι) (c : ι) : Option (Cpus ι) :=
  (getNextReadyTaskChecked s.ctx).map fun r =>
    match r.1 with
    | none => { s with ctx := r.2 }
    | some p =>
      { ctx := setTaskRunning r.2 p
        cur := Function.update s.cur c (some p)
        picks := s.picks ++ [p] }

def timerEntryChecked (s : Cpus ι) (c : ι) : Option (Cpus ι) :=
  match s.cur c with
  | none => switchTaskChecked s c
  | some p =>
    let r := decreaseTaskCounter s.ctx p
    if r.1 ≠ 0 then some { s with ctx := r.2 }
    else switchTaskChecked { s with ctx := setTaskWaiting r.2 p } c

variable {s : Cpus ι} {c : ι}

theorem switchTaskChecked_of_slot (h0 : s.ctx.tasks 0 ≠ none) :
    switchTaskChecked s c = some (s.switchTask c) := by
  unfold switchTaskChecked Cpus.switchTask
  rw [getNextReadyTaskChecked_of_slot h0]
  obtain ⟨choice, g⟩ := getNextReadyTask s.ctx
  cases choice with
  | none => rfl
  | some p => rfl

/-- With slot 0 occupied the handler is that of `Kernel.Sched`. -/
theorem timerEntryChecked_of_slot (h0 : s.ctx.tasks 0 ≠ none) :
    timerEntryChecked s c = some (s.timerTick c) := by
  cases hc : s.cur c with
  | none =>
    simp only [timerEntryChecked, Cpus.timerTick, hc]
    exact switchTaskChecked_of_slot h0
  | some p =>
    by_cases hend : (decreaseTaskCounter s.ctx p).1 = 0
    · simp only [timerEntryChecked, Cpus.timerTick, hc, hend, ne_eq, not_true_eq_false, ↓reduceIte]
      exact switchTaskChecked_of_slot h0
    · simp only [timerEntryChecked, Cpus.timerTick, hc, ne_eq, hend, not_false_eq_true, ↓reduceIte]

/-- With no task at all it reads through `NULL`. -/
theorem timerEntryChecked_empty (hempty : ∀ i, s.ctx.tasks i = none) (hcur : s.cur c = none) :
    timerEntryChecked s c = none := by
  have hno : ∀ state, ¬ HasTask s.ctx state := by
    rintro state ⟨p, ⟨i, -, hi⟩, -⟩
    rw [hempty i] at hi
    cases hi
  have hscan : scanTasksChecked s.ctx = none := by
    obtain ⟨hnone, hwait⟩ := scanLoop_idle (hno .ready)
    have hfalse := fun htrue => hno .waiting (hwait.mp htrue)
    unfold scanTasksChecked
    generalize scanLoop s.ctx (List.range taskMaxNums) none false = r at hnone hfalse
    obtain ⟨high, w⟩ := r
    obtain rfl : high = none := hnone
    cases w with
    | true => exact absurd rfl hfalse
    | false => simp [idleTaskChecked, hempty 0]
  simp [timerEntryChecked, switchTaskChecked, getNextReadyTaskChecked, hcur, hscan]

/-- What the choice does to the table and the current tasks. -/
theorem switchTask_spec (s : Cpus ι) (c : ι) :
    (s.switchTask c).ctx.tasks = s.ctx.tasks ∧
      ∀ d p, (s.switchTask c).cur d = some p → s.cur d = some p ∨ s.ctx.Holds p := by
  unfold Cpus.switchTask
  split
  · rename_i g hg
    exact ⟨(getNextReadyTask_none hg).1.tasks, fun d p hp => Or.inl hp⟩
  · rename_i q g hg
    obtain ⟨hq, -, g1, hwoken, rfl⟩ := getNextReadyTask_some hg
    refine ⟨hwoken.tasks, fun d p hp => ?_⟩
    dsimp only at hp
    by_cases hd : d = c
    · rw [hd, Function.update_self] at hp
      exact Or.inr (Option.some.inj hp ▸ hq)
    · rw [Function.update_of_ne hd] at hp
      exact Or.inl hp

theorem timerTick_spec (s : Cpus ι) (c : ι) :
    (s.timerTick c).ctx.tasks = s.ctx.tasks ∧
      ∀ d p, (s.timerTick c).cur d = some p → s.cur d = some p ∨ s.ctx.Holds p := by
  cases hc : s.cur c with
  | none =>
    simp only [Cpus.timerTick, hc]
    exact switchTask_spec s c
  | some p =>
    by_cases hend : (decreaseTaskCounter s.ctx p).1 = 0
    · simp only [Cpus.timerTick, hc, hend, ne_eq, not_true_eq_false, ↓reduceIte]
      exact switchTask_spec { s with ctx := setTaskWaiting (decreaseTaskCounter s.ctx p).2 p } c
    · simp only [Cpus.timerTick, hc, ne_eq, hend, not_false_eq_true, ↓reduceIte]
      exact ⟨rfl, fun d q hq => Or.inl hq⟩

/-- An idle processor stays idle when nothing can run. -/
theorem timerTick_idle (hcur : s.cur c = none) (hr : ¬ HasTask s.ctx .ready)
    (hw : ¬ HasTask s.ctx .waiting) : (s.timerTick c).cur c = none := by
  have hnone : getNextReadyTask s.ctx = (none, s.ctx) := by
    rw [getNextReadyTask, scanTasks_idle hr hw]
  simp only [Cpus.timerTick, hcur, Cpus.switchTask, hnone]

end Handler

/-! ## The boot -/

variable {ι : Type} [DecidableEq ι]

/-- Where `x64_kernel_main` stands. -/
inductive MainPc
  | apInit
  /-- So many calls of `ktask_create` are left. -/
  | taskInit (left : Nat)
  /-- The timer of the boot processor runs. -/
  | idle
  deriving DecidableEq, Repr

/-- `sti c` tells whether processor `c` has executed the `sti` of `x64_ap_main`; its timer
has been started before. In `cpus` the boot processor is `none`. -/
structure Early (ι : Type) where
  init : ApBoot.ApInit ι
  main : MainPc
  sti : ι → Bool
  cpus : Cpus (Option ι)

inductive EarlyAct (ι : Type)
  | init (a : ApBoot.InitAct ι)
  /-- `ap_init` has returned; its result is not looked at. -/
  | apInitDone
  /-- The next `ktask_create` of `task_init`; `none` when an allocation fails. -/
  | create (task : Option Nat)
  | timerStart
  | sti (c : ι)
  | timer (c : Option ι)
  deriving DecidableEq, Repr

namespace Early

/-- `left` calls of `task_init` are to follow this one. -/
def create (s : Early ι) (task : Option Nat) (left : Nat) : Early ι :=
  match task with
  | none => { s with main := .taskInit left }
  | some p =>
    { s with
      main := .taskInit left
      cpus := { s.cpus with ctx := ktaskCreate s.cpus.ctx p (initNames.getD (13 - left) []) 3 } }

/-- The boot processor executes `ap_init` before anything else. A processor that is reset
starts over, and has no task when it comes back. -/
def initNext (s : Early ι) (a : ApBoot.InitAct ι) : Option (Early ι) :=
  (s.init.next a).bind fun i =>
    match a with
    | .bsp _ => if s.main = .apInit then some { s with init := i } else none
    | .acceptInit c =>
      some { s with
        init := i
        sti := Function.update s.sti c false
        cpus := { s.cpus with cur := Function.update s.cpus.cur (some c) none } }
    | .acceptStartup _ | .ap _ => some { s with init := i }

/-- Whether processor `c` takes timer interrupts. -/
def takesTimer (s : Early ι) : Option ι → Bool
  | none => s.main = .idle
  | some c => (s.init.boot.ap c).pc = .running ∧ s.sti c

/-- `task_init` creates fourteen tasks. -/
def next (s : Early ι) : EarlyAct ι → Option (Early ι)
  | .init a => s.initNext a
  | .apInitDone =>
    if s.main = .apInit ∧ (s.init.bsp = .finished ∨ s.init.bsp = .failed) then
      some { s with main := .taskInit 14 }
    else none
  | .create task =>
    match s.main with
    | .taskInit (left + 1) =>
      if ∀ p, task = some p → ¬ s.cpus.ctx.Holds p then some (s.create task left) else none
    | _ => none
  | .timerStart => if s.main = .taskInit 0 then some { s with main := .idle } else none
  | .sti c =>
    if (s.init.boot.ap c).pc = .running then
      some { s with sti := Function.update s.sti c true }
    else none
  | .timer c => if s.takesTimer c then some { s with cpus := s.cpus.timerTick c } else none

end Early

def earlyStep : Early ι → EarlyAct ι → Early ι → Prop := stepOf Early.next

/-- A timer interrupt reads through no `NULL`, and a processor without a task stays
without one when none can run. -/
def EntrySafe (s : Early ι) (a : EarlyAct ι) (t : Early ι) : Prop :=
  ∀ c, a = .timer c → timerEntryChecked s.cpus c = some t.cpus ∧
    (s.cpus.cur c = none → ¬ HasTask s.cpus.ctx .ready → ¬ HasTask s.cpus.ctx .waiting →
      t.cpus.cur c = none)

/-- A timer interrupt finds a task in the table. -/
def TasksExist (s : Early ι) (a : EarlyAct ι) (_ : Early ι) : Prop :=
  ∀ c, a = .timer c → ∃ i, s.cpus.ctx.tasks i ≠ none

/-- The start of `ap_init`: no task, and no processor with interrupts enabled. -/
structure EarlyStart (s : Early ι) : Prop where
  main : s.main = .apInit
  sti : ∀ c, s.sti c = false
  tasks : ∀ i, s.cpus.ctx.tasks i = none
  cur : ∀ c, s.cpus.cur c = none

/-! ## The invariant -/

/-- Slot 0 is filled first, and a current task is in the table. -/
structure EarlyInv (s : Early ι) : Prop where
  front : s.cpus.ctx.tasks 0 = none → ∀ i, s.cpus.ctx.tasks i = none
  held : ∀ c p, s.cpus.cur c = some p → s.cpus.ctx.tasks 0 ≠ none

theorem getFreeTaskIndex_empty {g : TaskCtx} (h0 : g.tasks 0 = none) : getFreeTaskIndex g = 0 := by
  unfold getFreeTaskIndex
  rw [show taskMaxNums = 99 + 1 from rfl, List.range_succ_eq_map, List.find?_cons_of_pos]
  · rfl
  · simpa using h0

/-- Behind a creation slot 0 is filled. -/
theorem ktaskCreate_front (g : TaskCtx) (p : Nat) {name : List Memory.Byte}
    (hname : name.length < 64) (priority : Int) :
    (ktaskCreate g p name priority).tasks 0 ≠ none := by
  have hnumber : newNumber g name = Words.u64OfInt (getFreeTaskIndex g) :=
    TaskCreate.strcpyOver_short hname (TaskCreate.u64OfInt_lt _)
  by_cases h0 : g.tasks 0 = none
  · simp [ktaskCreate, addTask, hnumber, getFreeTaskIndex_empty h0, Words.u64OfInt]
  · simp only [ktaskCreate, addTask, TaskCtx.setTask_self, TaskCtx.setTask_tasks]
    by_cases hi : 0 = newNumber g name
    · rw [← hi, Function.update_self]
      rintro ⟨⟩
    · rwa [Function.update_of_ne hi]

section Steps

variable {s : Early ι}

omit [DecidableEq ι] in
/-- The table stays, and current tasks at most come from it. -/
theorem EarlyInv.same_tasks (hs : EarlyInv s) {t : Early ι}
    (htasks : t.cpus.ctx.tasks = s.cpus.ctx.tasks)
    (hcur : ∀ c p, t.cpus.cur c = some p → s.cpus.cur c = some p ∨ s.cpus.ctx.Holds p) :
    EarlyInv t := by
  refine ⟨?_, fun c p hp => ?_⟩
  · rw [htasks]
    exact hs.front
  · rw [htasks]
    rcases hcur c p hp with h | ⟨i, -, hi⟩
    · exact hs.held c p h
    · intro h0
      rw [hs.front h0 i] at hi
      cases hi

omit [DecidableEq ι] in
theorem EarlyInv.create (hs : EarlyInv s) (task : Option Nat) (left : Nat) :
    EarlyInv (s.create task left) := by
  cases task with
  | none => exact hs.same_tasks rfl fun c p hp => Or.inl hp
  | some p =>
    have hname : (initNames.getD (13 - left) []).length < 64 := by
      have hshort : ∀ i < 14, (initNames.getD i []).length < 64 := by decide
      exact hshort (13 - left) (by omega)
    have hfront := ktaskCreate_front s.cpus.ctx p hname 3
    exact ⟨fun h0 => absurd h0 hfront, fun _ _ _ => hfront⟩

theorem EarlyInv.initNext (hs : EarlyInv s) {a : ApBoot.InitAct ι} {t : Early ι}
    (h : s.initNext a = some t) : EarlyInv t := by
  obtain ⟨i, -, h⟩ := Option.bind_eq_some_iff.mp h
  cases a with
  | bsp ok =>
    dsimp only at h
    split at h
    · cases h
      exact hs.same_tasks rfl fun c p hp => Or.inl hp
    · cases h
  | acceptInit c =>
    cases h
    refine hs.same_tasks rfl fun d p hp => ?_
    dsimp only at hp
    by_cases hd : d = some c
    · rw [hd, Function.update_self] at hp
      cases hp
    · rw [Function.update_of_ne hd] at hp
      exact Or.inl hp
  | acceptStartup c =>
    cases h
    exact hs.same_tasks rfl fun c p hp => Or.inl hp
  | ap c =>
    cases h
    exact hs.same_tasks rfl fun c p hp => Or.inl hp

theorem earlyInv_step (s : Early ι) (a : EarlyAct ι) (t : Early ι) (hs : EarlyInv s)
    (h : earlyStep s a t) : EarlyInv t := by
  unfold earlyStep stepOf at h
  cases a with
  | init a => exact hs.initNext h
  | apInitDone =>
    simp only [Early.next] at h
    split at h
    · cases h
      exact hs.same_tasks rfl fun c p hp => Or.inl hp
    · cases h
  | create task =>
    simp only [Early.next] at h
    split at h
    · split at h
      · cases h
        exact hs.create task _
      · cases h
    · cases h
  | timerStart =>
    simp only [Early.next] at h
    split at h
    · cases h
      exact hs.same_tasks rfl fun c p hp => Or.inl hp
    · cases h
  | sti c =>
    simp only [Early.next] at h
    split at h
    · cases h
      exact hs.same_tasks rfl fun c p hp => Or.inl hp
    · cases h
  | timer c =>
    simp only [Early.next] at h
    split at h
    · cases h
      obtain ⟨htasks, hcur⟩ := timerTick_spec s.cpus c
      exact hs.same_tasks htasks hcur
    · cases h

end Steps

/-! ## Interrupts along runs -/

theorem timer_spec {s t : Early ι} {c : Option ι} (h : earlyStep s (.timer c) t) :
    t.cpus = s.cpus.timerTick c := by
  obtain ⟨u, hu⟩ : ∃ u, s.cpus.timerTick c = u := ⟨_, rfl⟩
  simp only [earlyStep, stepOf, Early.next, hu] at h ⊢
  split at h
  · cases h
    rfl
  · cases h

/-- An interrupt is safe when and only when there is a task. -/
theorem entrySafe_iff_step (s : Early ι) (a : EarlyAct ι) (t : Early ι) (hs : EarlyInv s)
    (h : earlyStep s a t) : EntrySafe s a t ↔ TasksExist s a t := by
  constructor
  · rintro hsafe c rfl
    by_contra hno
    have hempty : ∀ i, s.cpus.ctx.tasks i = none := by
      intro i
      by_contra hi
      exact hno ⟨i, hi⟩
    have hcur : s.cpus.cur c = none := by
      cases hc : s.cpus.cur c with
      | none => rfl
      | some p => exact absurd (hempty 0) (hs.held c p hc)
    have hsome := (hsafe c rfl).1
    rw [timerEntryChecked_empty hempty hcur] at hsome
    cases hsome
  · rintro hexist c rfl
    obtain ⟨i, hi⟩ := hexist c rfl
    have h0 : s.cpus.ctx.tasks 0 ≠ none := fun h0 => hi (hs.front h0 i)
    rw [timer_spec h]
    exact ⟨timerEntryChecked_of_slot h0, timerTick_idle⟩

omit [DecidableEq ι] in
theorem earlyInv_start {s : Early ι} (hs : EarlyStart s) : EarlyInv s := by
  refine ⟨fun _ => hs.tasks, fun c p hp => ?_⟩
  rw [hs.cur c] at hp
  cases hp

/-- **Timer interrupts are safe** along a run from the start of `ap_init` exactly when each
of them finds a task in the table. -/
theorem entrySafe_iff {s : Early ι} (hs : EarlyStart s) (as : List (EarlyAct ι)) :
    Every earlyStep EntrySafe s as ↔ Every earlyStep TasksExist s as :=
  every_iff (C := TasksExist) (fun s a t hi _ h => earlyInv_step s a t hi h) entrySafe_iff_step
    (earlyInv_start hs) as

section Sample

/-- The one application processor. -/
def onlyAp : Fin 1 := Fin.last 0

def boot : Early (Fin 1) where
  init := ApBoot.sampleInit
  main := .apInit
  sti _ := false
  cpus := ⟨⟨fun _ => none, fun _ => ⟨0, 0, 0, .init⟩⟩, fun _ => none, []⟩

theorem earlyStart_boot : EarlyStart boot := ⟨rfl, fun _ => rfl, fun _ => rfl, fun _ => rfl⟩

/-- The whole of `ap_init`, and the processor up to its release of `ap_boot_lock`. -/
def apArrives : List (ApBoot.InitAct (Fin 1)) :=
  ApBoot.sampleStarted ++ List.replicate 4 (.bsp true) ++ List.replicate 13 (.ap onlyAp) ++
    [.bsp true]

/-- The processor has enabled interrupts, and `task_init` is about to create its first
task. -/
def counted : List (EarlyAct (Fin 1)) := apArrives.map .init ++ [.apInitDone, .sti onlyAp]

def existCheck (s : Early (Fin 1)) : EarlyAct (Fin 1) → Bool
  | .timer _ => (s.cpus.ctx.tasks 0).isSome
  | _ => true

theorem tasksExist_of_check (s : Early (Fin 1)) (a : EarlyAct (Fin 1)) (t : Early (Fin 1))
    (h : existCheck s a = true) : TasksExist s a t := by
  rintro c rfl
  exact ⟨0, Option.isSome_iff_ne_none.mp h⟩

/-- The interrupt comes behind the first creation. -/
theorem entrySafe_sample_holds :
    Every earlyStep EntrySafe boot (counted ++ [.create (some 0x300000), .timer (some onlyAp)]) :=
  (entrySafe_iff earlyStart_boot _).mpr (every_of_check tasksExist_of_check (by decide +kernel))

/-- **The interrupt comes first**, and reads the state of the task in the empty slot 0. -/
theorem entrySafe_sample_fails :
    EarlyStart boot ∧ ¬ Every earlyStep EntrySafe boot (counted ++ [.timer (some onlyAp)]) := by
  refine ⟨earlyStart_boot, fun h => ?_⟩
  have hat : (exec Early.next boot counted).map
      (fun s => ((s.next (.timer (some onlyAp))).isSome,
        (timerEntryChecked s.cpus (some onlyAp)).isNone)) = some (true, true) := by decide +kernel
  obtain ⟨s, hs, hs'⟩ := Option.map_eq_some_iff.mp hat
  obtain ⟨hnext, hnone⟩ := Prod.mk.inj hs'
  obtain ⟨t, ht⟩ := Option.isSome_iff_exists.mp hnext
  have hsome := (every_at h hs ht (some onlyAp) rfl).1
  rw [hsome] at hnone
  cases hnone

end Sample

end X64SmpOs.EarlySched

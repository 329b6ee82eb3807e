import X64SmpOs.Lib.Runs
import X64SmpOs.Kernel.Task
import X64SmpOs.Kernel.TaskName

/-!
# Scheduling by whole entries

The processors of the x64 kernel when every timer tick, scheduler broadcast,
task exit and `ktask_create` is one step.

* `getFreeTaskIndex`, `addTask`, `ktaskCreate`: new tasks;
* `timerTick`, `schedBroadcast`, `taskExit`: the entries, `Cpus.next` a step;
* `FreeNumber`: the copied name leaves the new task the number of an empty slot;
* `TableInv`: the slots, the current tasks and the states fit together, after
  `task_init` and any run whose names do so (`tableInv_run`);
* `tableInv_run_overrun`: a name of 64 bytes leaves a waiting task current;
* `picked_before`: a task that is ready when another one's slice ends is picked
  before that one is picked again.
-/

namespace X64SmpOs.Sched

open Words Memory Task64 Runs

/-! ## New tasks -/

def getFreeTaskIndex (g : TaskCtx) : Int :=
  match (List.range taskMaxNums).find? (fun i => g.tasks i = none) with
  | some i => i
  | none => -1

def addTask (g : TaskCtx) (task : Nat) : TaskCtx :=
  { g with tasks := Function.update g.tasks (g.task task).pid (some task) }

/-- `pid` of a new task. It lies right behind `name[64]`, and `strcpy` comes after the
assignment. -/
def newNumber (g : TaskCtx) (name : List Byte) : Nat :=
  TaskCreate.strcpyOver name 64 (u64OfInt (getFreeTaskIndex g))

/-- `task` is the address `kzalloc` returns for the descriptor. The other fields here are
assigned behind the copy; what a name that runs past the descriptor writes there is not
followed. -/
def ktaskCreate (g : TaskCtx) (task : Nat) (name : List Byte) (priority : Int) : TaskCtx :=
  let t : Task :=
    { pid := newNumber g name
      counter := u64OfInt priority
      priority := u64OfInt priority
      state := .ready }
  addTask (g.setTask task t) task

/-- The number of the new task is that of an empty slot. -/
def FreeNumber (g : TaskCtx) (name : List Byte) : Prop :=
  newNumber g name < taskMaxNums ∧ g.tasks (newNumber g name) = none

instance (g : TaskCtx) (name : List Byte) : Decidable (FreeNumber g name) :=
  inferInstanceAs (Decidable (_ ∧ _))

instance (g : TaskCtx) (p : Nat) : Decidable (g.Holds p) :=
  inferInstanceAs (Decidable (∃ i, i < taskMaxNums ∧ g.tasks i = some p))

/-! ## The entries -/

variable {ι : Type} [DecidableEq ι]

/-- `cur c` is `[gs:32]` of processor `c`. `picks` lists what `get_next_ready_task`
has returned, the last task at the end; no step reads it. -/
structure Cpus (ι : Type) where
  ctx : TaskCtx
  cur : ι → Option Nat
  picks : List Nat

inductive SchedAct (ι : Type)
  | timer (c : ι)
  | broadcast (c : ι)
  | exit (c : ι)
  /-- `ktask_create`; `none` when `kzalloc` returns `NULL`. -/
  | create (task : Option Nat) (name : List Byte) (priority : Int)
  deriving DecidableEq, Repr

namespace Cpus

/-- `.switch_task` and `.seize_spinlock`: the picked task becomes the current one. -/
def switchTask (s : Cpus ι) (c : ι) : Cpus ι :=
  match getNextReadyTask s.ctx with
  | (none, g) => { s with ctx := g }
  | (some p, g) =>
    { ctx := setTaskRunning g p
      cur := Function.update s.cur c (some p)
      picks := s.picks ++ [p] }

/-- `lapic_timer_entry`. -/
def timerTick (s : Cpus ι) (c : ι) : Cpus ι :=
  match s.cur c with
  | none => s.switchTask c
  | some p =>
    let r := decreaseTaskCounter s.ctx p
    -- `cmp rax, 0; ja exit`
    if r.1 ≠ 0 then { s with ctx := r.2 }
    else { s with ctx := setTaskWaiting r.2 p }.switchTask c

/-- `lapic_sched_broadcast_entry`. -/
def schedBroadcast (s : Cpus ι) (c : ι) : Cpus ι :=
  match s.cur c with
  | none => s.switchTask c
  | some _ => s

/-- `task_exit`, which leaves the state to `get_next_ready_task`. -/
def taskExit (s : Cpus ι) (c : ι) (p : Nat) : Cpus ι :=
  let s := { s with ctx := taskClean s.ctx p, cur := Function.update s.cur c none }
  match getNextReadyTask s.ctx with
  | (none, g) => { s with ctx := g }
  | (some q, g) =>
    { ctx := g
      cur := Function.update s.cur c (some q)
      picks := s.picks ++ [q] }

/-- A task is created only while a slot is free; `kzalloc` hands out no address
that is in use. -/
def next (s : Cpus ι) : SchedAct ι → Option (Cpus ι)
  | .timer c => some (s.timerTick c)
  | .broadcast c => some (s.schedBroadcast c)
  | .exit c => (s.cur c).map (s.taskExit c)
  | .create none _ _ => some s
  | .create (some p) name priority =>
    if getFreeTaskIndex s.ctx = -1 ∨ s.ctx.Holds p then none
    else some { s with ctx := ktaskCreate s.ctx p name priority }

end Cpus

def schedStep : Cpus ι → SchedAct ι → Cpus ι → Prop := stepOf Cpus.next

/-- Every creation finds an empty slot for the number that its name leaves; no other step is
concerned. -/
def NamesFit (s : Cpus ι) (a : SchedAct ι) (_ : Cpus ι) : Prop :=
  ∀ p name priority, a = .create (some p) name priority → FreeNumber s.ctx name

/-- The name ends inside `name[64]`. -/
def ShortName : SchedAct ι → Prop
  | .create _ name _ => name.length < 64
  | _ => True

instance : (a : SchedAct ι) → Decidable (ShortName a)
  | .create _ name _ => inferInstanceAs (Decidable (name.length < 64))
  | .timer _ => .isTrue trivial
  | .broadcast _ => .isTrue trivial
  | .exit _ => .isTrue trivial

/-- The characters of a string constant, without its NUL. -/
def cText (s : String) : List Byte := s.toList.map fun c => BitVec.ofNat 8 c.toNat

/-- The names of the fourteen tasks of `task_init`. -/
def initNames : List (List Byte) :=
  ["init0", "init1", "init2", "init3", "init4", "init5", "init6", "init7", "init8", "init9",
    "inita", "initb", "initc", "initd"].map cText

/-- `task_init` creates its tasks with priority 3. -/
def taskInit (tasks : List (Option Nat)) : List (SchedAct ι) :=
  List.zipWith (fun task name => .create task name 3) tasks initNames

/-- The state after `task_init`: no processor has a task yet. -/
def Start (s : Cpus ι) : Prop :=
  ∃ (g : TaskCtx) (tasks : List (Option Nat)), (∀ i, g.tasks i = none) ∧ tasks.length = 14 ∧
    exec Cpus.next ⟨g, fun _ => none, []⟩ (taskInit tasks) = some s

/-! ## What `get_next_ready_task` does -/

/-- Without a choice no task of the table can run. With one, it was ready or
waiting, runs now, and the others are woken at most. -/
theorem getNextReadyTask_none {g g' : TaskCtx} (h : getNextReadyTask g = (none, g')) :
    Woken g g' ∧ ∀ p, g.Holds p → ¬ (g.state p).Idle := by
  unfold getNextReadyTask at h
  split at h
  · rename_i g1 hs
    obtain ⟨-, rfl⟩ := Prod.mk.inj h
    have hw := (scanTasks_spec g).1
    rw [hs] at hw
    exact ⟨hw, fun p hp hidle => scanTasks_some hp hidle (by rw [hs])⟩
  · cases (Prod.mk.inj h).1

theorem getNextReadyTask_some {g g' : TaskCtx} {p : Nat} (h : getNextReadyTask g = (some p, g')) :
    g.Holds p ∧ (g.state p).Idle ∧ ∃ g1, Woken g g1 ∧ g' = claimTask g1 p := by
  unfold getNextReadyTask at h
  split at h
  · cases (Prod.mk.inj h).1
  · rename_i q g1 hs
    obtain ⟨hq, rfl⟩ := Prod.mk.inj h
    obtain rfl := Option.some.inj hq
    obtain ⟨hw, hp⟩ := scanTasks_spec g
    rw [hs] at hw hp
    obtain ⟨h1, h2, -⟩ := hp q rfl
    exact ⟨h1, h2, g1, hw, rfl⟩

/-! ## The invariant -/

/-- Every task is in the slot of its number, every processor has its own task of
the table, and the states say which tasks are current. -/
structure TableInv (s : Cpus ι) : Prop where
  slot : ∀ i p, s.ctx.tasks i = some p → i < taskMaxNums ∧ (s.ctx.task p).pid = i
  held : ∀ c p, s.cur c = some p → s.ctx.Holds p
  distinct : ∀ c d p, s.cur c = some p → s.cur d = some p → c = d
  running : ∀ p, s.ctx.Holds p → (s.ctx.state p = .running ↔ ∃ c, s.cur c = some p)
  others : ∀ p, s.ctx.Holds p → (∀ c, s.cur c ≠ some p) → (s.ctx.state p).Idle

theorem idle_ne_running {st : TaskState} (h : st.Idle) : st ≠ .running := by
  rcases h with rfl | rfl
  · exact nofun
  · exact nofun

section Moves

variable {s : Cpus ι} {c : ι} {p : Nat} {g : TaskCtx}

/-- The same tasks with the same numbers. -/
structure SameTable (g g' : TaskCtx) : Prop where
  tasks : g'.tasks = g.tasks
  pid : ∀ p, (g'.task p).pid = (g.task p).pid

theorem SameTable.holds {g g' : TaskCtx} (h : SameTable g g') (p : Nat) :
    g'.Holds p ↔ g.Holds p := by
  rw [TaskCtx.Holds, TaskCtx.Holds, h.tasks]

theorem sameTable_setTask (g : TaskCtx) {p : Nat} {t : Task} (h : t.pid = (g.task p).pid) :
    SameTable g (g.setTask p t) := by
  refine ⟨rfl, fun q => ?_⟩
  by_cases hq : q = p
  · rw [hq, TaskCtx.setTask_self, h]
  · rw [TaskCtx.setTask_ne _ _ hq]

omit [DecidableEq ι] in
theorem TableInv.slot_same (hs : TableInv s) (hg : SameTable s.ctx g) (i p : Nat)
    (h : g.tasks i = some p) : i < taskMaxNums ∧ (g.task p).pid = i := by
  rw [hg.tasks] at h
  rw [hg.pid]
  exact hs.slot i p h

omit [DecidableEq ι] in
/-- Waking tasks, or counting a slice down, keeps the invariant. -/
theorem TableInv.woken (hs : TableInv s) (hw : Woken s.ctx g) : TableInv { s with ctx := g } := by
  have hg : SameTable s.ctx g := ⟨hw.tasks, hw.pid⟩
  have hrun : ∀ q, g.state q = .running ↔ s.ctx.state q = .running := by
    intro q
    rcases hw.state q with h | ⟨h1, h2⟩
    · rw [h]
    · rw [h1, h2]
      exact ⟨nofun, nofun⟩
  refine ⟨hs.slot_same hg, fun d q hd => (hg.holds q).mpr (hs.held d q hd), hs.distinct, ?_, ?_⟩
  · intro q hq
    rw [hrun]
    exact hs.running q ((hg.holds q).mp hq)
  · intro q hq hno
    have hidle := hs.others q ((hg.holds q).mp hq) hno
    rcases hw.state q with h | ⟨-, h2⟩
    · exact h ▸ hidle
    · exact Or.inl h2

/-- The current task is given up: it is marked, and no longer current. -/
theorem TableInv.give_up (hs : TableInv s) (hc : s.cur c = some p) (hg : SameTable s.ctx g)
    (hp : (g.state p).Idle) (ho : ∀ q, q ≠ p → g.state q = s.ctx.state q) :
    TableInv { s with ctx := g, cur := Function.update s.cur c none } := by
  have hcur : ∀ d q, Function.update s.cur c none d = some q ↔ d ≠ c ∧ s.cur d = some q := by
    intro d q
    by_cases hd : d = c
    · subst hd
      simp
    · simp [hd]
  have hne : ∀ d q, d ≠ c → s.cur d = some q → q ≠ p :=
    fun d q hd hq he => hd (hs.distinct d c p (he ▸ hq) hc)
  refine ⟨hs.slot_same hg, ?_, ?_, ?_, ?_⟩
  · intro d q hd
    exact (hg.holds q).mpr (hs.held d q ((hcur d q).mp hd).2)
  · intro d e q hd he
    exact hs.distinct d e q ((hcur d q).mp hd).2 ((hcur e q).mp he).2
  · intro q hq
    have hq' := (hg.holds q).mp hq
    simp only [hcur]
    by_cases hqp : q = p
    · subst hqp
      constructor
      · exact fun h => absurd h (idle_ne_running hp)
      · rintro ⟨d, hd, hdq⟩
        exact absurd rfl (hne d q hd hdq)
    · rw [ho q hqp, hs.running q hq']
      constructor
      · rintro ⟨d, hd⟩
        exact ⟨d, fun he => hqp (Option.some.inj ((he ▸ hd).symm.trans hc)), hd⟩
      · rintro ⟨d, -, hd⟩
        exact ⟨d, hd⟩
  · intro q hq hno
    by_cases hqp : q = p
    · exact hqp ▸ hp
    · rw [ho q hqp]
      apply hs.others q ((hg.holds q).mp hq)
      intro d hd
      exact hno d ((hcur d q).mpr ⟨fun he => hqp (Option.some.inj ((he ▸ hd).symm.trans hc)), hd⟩)

/-- A processor without a task takes one that can run. -/
theorem TableInv.take (hs : TableInv s) (hc : s.cur c = none) (hp : s.ctx.Holds p)
    (hidle : (s.ctx.state p).Idle) (hg : SameTable s.ctx g) (hrun : g.state p = .running)
    (ho : ∀ q, q ≠ p → g.state q = s.ctx.state q) (picks : List Nat) :
    TableInv ⟨g, Function.update s.cur c (some p), picks⟩ := by
  have hno : ∀ d, s.cur d ≠ some p :=
    fun d hd => idle_ne_running hidle ((hs.running p hp).mpr ⟨d, hd⟩)
  have hcur : ∀ d q, Function.update s.cur c (some p) d = some q ↔
      (d = c ∧ q = p) ∨ s.cur d = some q := by
    intro d q
    by_cases hd : d = c
    · subst hd
      simp [hc, eq_comm]
    · simp [hd]
  refine ⟨hs.slot_same hg, ?_, ?_, ?_, ?_⟩
  · intro d q hd
    rcases (hcur d q).mp hd with ⟨-, rfl⟩ | hd
    · exact (hg.holds q).mpr hp
    · exact (hg.holds q).mpr (hs.held d q hd)
  · intro d e q hd he
    rcases (hcur d q).mp hd with ⟨h1, hq⟩ | h1
    · rcases (hcur e q).mp he with ⟨h2, -⟩ | h2
      · rw [h1, h2]
      · exact absurd (hq ▸ h2) (hno e)
    · rcases (hcur e q).mp he with ⟨-, hq⟩ | h2
      · exact absurd (hq ▸ h1) (hno d)
      · exact hs.distinct d e q h1 h2
  · intro q hq
    simp only [hcur]
    by_cases hqp : q = p
    · subst hqp
      exact ⟨fun _ => ⟨c, Or.inl ⟨rfl, rfl⟩⟩, fun _ => hrun⟩
    · rw [ho q hqp, hs.running q ((hg.holds q).mp hq)]
      simp [hqp]
  · intro q hq hnot
    have hqp : q ≠ p := fun he => hnot c ((hcur c q).mpr (Or.inl ⟨rfl, he⟩))
    rw [ho q hqp]
    exact hs.others q ((hg.holds q).mp hq) fun d hd => hnot d ((hcur d q).mpr (Or.inr hd))

omit [DecidableEq ι] in
theorem holds_taskClean (hs : TableInv s) (hp : s.ctx.Holds p) (q : Nat) :
    (taskClean s.ctx p).Holds q ↔ s.ctx.Holds q ∧ q ≠ p := by
  obtain ⟨i, hi, hip⟩ := hp
  have htasks : (taskClean s.ctx p).tasks = Function.update s.ctx.tasks i none := by
    simp [taskClean, (hs.slot i p hip).2]
  simp only [TaskCtx.Holds, htasks]
  constructor
  · rintro ⟨j, hj, hjq⟩
    by_cases hji : j = i
    · rw [hji, Function.update_self] at hjq
      cases hjq
    · rw [Function.update_of_ne hji] at hjq
      refine ⟨⟨j, hj, hjq⟩, ?_⟩
      rintro rfl
      exact hji ((hs.slot j q hjq).2.symm.trans (hs.slot i q hip).2)
  · rintro ⟨⟨j, hj, hjq⟩, hne⟩
    have hji : j ≠ i := fun he => hne (Option.some.inj ((he ▸ hjq).symm.trans hip))
    exact ⟨j, hj, by rw [Function.update_of_ne hji, hjq]⟩

/-- The current task dies and leaves the table. -/
theorem TableInv.clean (hs : TableInv s) (hc : s.cur c = some p) :
    TableInv { s with ctx := taskClean s.ctx p, cur := Function.update s.cur c none } := by
  have hholds := holds_taskClean hs (hs.held c p hc)
  have htask : ∀ q, q ≠ p → (taskClean s.ctx p).task q = s.ctx.task q :=
    fun q hq => TaskCtx.setTask_ne _ _ hq
  have hcur : ∀ d q, Function.update s.cur c none d = some q ↔ d ≠ c ∧ s.cur d = some q := by
    intro d q
    by_cases hd : d = c
    · subst hd
      simp
    · simp [hd]
  have hne : ∀ d q, d ≠ c → s.cur d = some q → q ≠ p :=
    fun d q hd hq he => hd (hs.distinct d c p (he ▸ hq) hc)
  refine ⟨?_, ?_, ?_, ?_, ?_⟩
  · intro i q hq
    have hold : s.ctx.tasks i = some q := by
      simp only [taskClean, TaskCtx.setTask_tasks] at hq
      by_cases hi : i = (s.ctx.task p).pid
      · simp [hi] at hq
      · simpa [hi] using hq
    have hslot := hs.slot i q hold
    have hqp : q ≠ p := ((hholds q).mp ⟨i, hslot.1, hq⟩).2
    rw [htask q hqp]
    exact hslot
  · intro d q hd
    obtain ⟨hdc, hd⟩ := (hcur d q).mp hd
    exact (hholds q).mpr ⟨hs.held d q hd, hne d q hdc hd⟩
  · intro d e q hd he
    exact hs.distinct d e q ((hcur d q).mp hd).2 ((hcur e q).mp he).2
  · intro q hq
    obtain ⟨hq, hqp⟩ := (hholds q).mp hq
    rw [TaskCtx.state, htask q hqp]
    apply (hs.running q hq).trans
    simp only [hcur]
    constructor
    · rintro ⟨d, hd⟩
      exact ⟨d, fun he => hqp (Option.some.inj ((he ▸ hd).symm.trans hc)), hd⟩
    · rintro ⟨d, -, hd⟩
      exact ⟨d, hd⟩
  · intro q hq hno
    obtain ⟨hq, hqp⟩ := (hholds q).mp hq
    rw [TaskCtx.state, htask q hqp]
    apply hs.others q hq
    intro d hd
    exact hno d ((hcur d q).mpr ⟨fun he => hqp (Option.some.inj ((he ▸ hd).symm.trans hc)), hd⟩)

theorem getFreeTaskIndex_spec {g : TaskCtx} (h : getFreeTaskIndex g ≠ -1) :
    ∃ i < taskMaxNums, getFreeTaskIndex g = (i : Int) ∧ g.tasks i = none := by
  unfold getFreeTaskIndex at h ⊢
  split at h
  · rename_i i hi
    have hfree := List.find?_some hi
    have hmem := List.mem_of_find?_eq_some hi
    exact ⟨i, List.mem_range.mp hmem, rfl, by simpa using hfree⟩
  · exact absurd rfl h

/-- A name that fits leaves the number of the first empty slot. -/
theorem freeNumber_of_short {g : TaskCtx} (hfree : getFreeTaskIndex g ≠ -1) {name : List Byte}
    (hname : name.length < 64) : FreeNumber g name := by
  obtain ⟨i, hi, hindex, hnone⟩ := getFreeTaskIndex_spec hfree
  have hnumber : newNumber g name = i := by
    rw [newNumber, TaskCreate.strcpyOver_short hname (TaskCreate.u64OfInt_lt _), hindex]
    exact u64OfInt_natCast (Nat.lt_trans hi (by decide))
  rw [FreeNumber, hnumber]
  exact ⟨hi, hnone⟩

/-- A new task is ready, in the slot of its number. -/
theorem ktaskCreate_spec {g : TaskCtx} {name : List Byte} (hname : FreeNumber g name) (p : Nat)
    (priority : Int) :
    ∃ i < taskMaxNums, g.tasks i = none ∧
      (ktaskCreate g p name priority).tasks = Function.update g.tasks i (some p) ∧
      (ktaskCreate g p name priority).task p =
        ⟨i, u64OfInt priority, u64OfInt priority, .ready⟩ ∧
      ∀ q, q ≠ p → (ktaskCreate g p name priority).task q = g.task q := by
  refine ⟨newNumber g name, hname.1, hname.2, ?_, ?_, fun q hq => TaskCtx.setTask_ne _ _ hq⟩
  · simp [ktaskCreate, addTask]
  · simp [ktaskCreate, addTask]

/-- It joins the tasks of the table. -/
theorem holds_ktaskCreate {g : TaskCtx} {name : List Byte} (hname : FreeNumber g name) (p : Nat)
    (priority : Int) (q : Nat) :
    (ktaskCreate g p name priority).Holds q ↔ g.Holds q ∨ q = p := by
  obtain ⟨i, hi, hnone, htasks, -, -⟩ := ktaskCreate_spec hname p priority
  simp only [TaskCtx.Holds, htasks]
  constructor
  · rintro ⟨j, hj, hjq⟩
    by_cases hji : j = i
    · rw [hji, Function.update_self] at hjq
      exact Or.inr (Option.some.inj hjq).symm
    · rw [Function.update_of_ne hji] at hjq
      exact Or.inl ⟨j, hj, hjq⟩
  · rintro (⟨j, hj, hjq⟩ | rfl)
    · have hji : j ≠ i := by
        rintro rfl
        rw [hnone] at hjq
        cases hjq
      exact ⟨j, hj, by rw [Function.update_of_ne hji, hjq]⟩
    · exact ⟨i, hi, Function.update_self ..⟩

omit [DecidableEq ι] in
theorem TableInv.create (hs : TableInv s) {name : List Byte} (hname : FreeNumber s.ctx name)
    (hp : ¬ s.ctx.Holds p) (priority : Int) :
    TableInv { s with ctx := ktaskCreate s.ctx p name priority } := by
  obtain ⟨i, hi, hnone, htasks, hself, hother⟩ := ktaskCreate_spec hname p priority
  have hholds := holds_ktaskCreate hname p priority
  have hcurp : ∀ d, s.cur d ≠ some p := fun d hd => hp (hs.held d p hd)
  refine ⟨?_, fun d q hd => (hholds q).mpr (Or.inl (hs.held d q hd)), hs.distinct, ?_, ?_⟩
  · intro j q hjq
    rw [htasks] at hjq
    by_cases hji : j = i
    · rw [hji, Function.update_self] at hjq
      obtain rfl := Option.some.inj hjq
      exact ⟨hji ▸ hi, by rw [hself, hji]⟩
    · rw [Function.update_of_ne hji] at hjq
      obtain ⟨hj, hpidq⟩ := hs.slot j q hjq
      have hqp : q ≠ p := fun he => hp ⟨j, hj, he ▸ hjq⟩
      exact ⟨hj, by rw [hother q hqp, hpidq]⟩
  · intro q hq
    rcases (hholds q).mp hq with hq | rfl
    · have hqp : q ≠ p := fun he => hp (he ▸ hq)
      rw [TaskCtx.state, hother q hqp]
      exact hs.running q hq
    · rw [TaskCtx.state, hself]
      constructor
      · intro h
        cases h
      · rintro ⟨d, hd⟩
        exact absurd hd (hcurp d)
  · intro q hq hno
    rcases (hholds q).mp hq with hq | rfl
    · have hqp : q ≠ p := fun he => hp (he ▸ hq)
      rw [TaskCtx.state, hother q hqp]
      exact hs.others q hq hno
    · rw [TaskCtx.state, hself]
      exact Or.inl rfl

/-! ## Steps and runs -/

theorem state_claimTask (g : TaskCtx) (p : Nat) :
    (claimTask g p).state p = .running ∧ ∀ q, q ≠ p → (claimTask g p).state q = g.state q := by
  refine ⟨by simp [claimTask, TaskCtx.state], fun q hq => ?_⟩
  rw [TaskCtx.state, claimTask, TaskCtx.setTask_ne _ _ hq]
  rfl

theorem state_setTaskRunning (g : TaskCtx) (p : Nat) :
    (setTaskRunning g p).state p = .running ∧
      ∀ q, q ≠ p → (setTaskRunning g p).state q = g.state q := state_claimTask g p

/-- The pick of a processor without a task. -/
theorem TableInv.pick (hs : TableInv s) (hc : s.cur c = none)
    (h : getNextReadyTask s.ctx = (some p, g)) (picks : List Nat) :
    TableInv ⟨g, Function.update s.cur c (some p), picks⟩ ∧
      TableInv ⟨setTaskRunning g p, Function.update s.cur c (some p), picks⟩ := by
  obtain ⟨hp, hidle, g1, hw, rfl⟩ := getNextReadyTask_some h
  have hs1 := hs.woken hw
  have hp1 : g1.Holds p := by rwa [TaskCtx.Holds, hw.tasks]
  have hidle1 : (g1.state p).Idle := by
    rcases hw.state p with h1 | ⟨-, h1⟩
    · exact h1 ▸ hidle
    · exact Or.inl h1
  obtain ⟨h1, h2⟩ := state_claimTask g1 p
  obtain ⟨h3, h4⟩ := state_setTaskRunning (claimTask g1 p) p
  have hsame : SameTable g1 (claimTask g1 p) := sameTable_setTask g1 rfl
  have hsame' : SameTable (claimTask g1 p) (setTaskRunning (claimTask g1 p) p) :=
    sameTable_setTask _ rfl
  refine ⟨hs1.take hc hp1 hidle1 hsame h1 h2 picks, hs1.take hc hp1 hidle1
    ⟨hsame'.tasks.trans hsame.tasks, fun q => (hsame'.pid q).trans (hsame.pid q)⟩ h3
    (fun q hq => (h4 q hq).trans (h2 q hq)) picks⟩

theorem TableInv.switchTask (hs : TableInv s) (hc : s.cur c = none) :
    TableInv (s.switchTask c) := by
  unfold Cpus.switchTask
  split
  · rename_i g' h
    exact hs.woken (getNextReadyTask_none h).1
  · rename_i q g' h
    exact (hs.pick hc h _).2

theorem woken_decrease (g : TaskCtx) (p : Nat) : Woken g (decreaseTaskCounter g p).2 := by
  have hsame := sameTable_setTask g (p := p)
    (t := { g.task p with counter := sub64 (g.task p).counter 1 }) rfl
  refine ⟨hsame.tasks, hsame.pid, fun q => ?_, fun q => Or.inl ?_⟩ <;> by_cases hq : q = p
  · subst hq
    simp [decreaseTaskCounter]
  · simp [decreaseTaskCounter, TaskCtx.setTask_ne _ _ hq]
  · subst hq
    simp [decreaseTaskCounter, TaskCtx.state]
  · simp [decreaseTaskCounter, TaskCtx.state, TaskCtx.setTask_ne _ _ hq]

/-- The state in which the ended slice is marked. -/
def Cpus.marked (s : Cpus ι) (c : ι) (p : Nat) : Cpus ι :=
  { s with
    ctx := setTaskWaiting (decreaseTaskCounter s.ctx p).2 p
    cur := Function.update s.cur c none }

theorem TableInv.marked (hs : TableInv s) (hc : s.cur c = some p) : TableInv (s.marked c p) := by
  have hw := woken_decrease s.ctx p
  have hsame := sameTable_setTask (decreaseTaskCounter s.ctx p).2 (p := p)
    (t := { (decreaseTaskCounter s.ctx p).2.task p with state := .waiting }) rfl
  apply hs.give_up hc ⟨hsame.tasks.trans hw.tasks, fun q => (hsame.pid q).trans (hw.pid q)⟩
  · simp [TaskCtx.state, TaskState.Idle]
  · intro q hq
    simp [decreaseTaskCounter, TaskCtx.state, TaskCtx.setTask_ne _ _ hq]

/-- A tick that ends the slice gives the processor up and picks: the marked task
itself can be picked, so a pick is made. -/
theorem timerTick_expired (hs : TableInv s) (hc : s.cur c = some p)
    (hend : (decreaseTaskCounter s.ctx p).1 = 0) :
    s.timerTick c = (s.marked c p).switchTask c := by
  have hm := hs.marked hc
  have hp : (s.marked c p).ctx.Holds p := hs.held c p hc
  have hidle : ((s.marked c p).ctx.state p).Idle := by
    simp [Cpus.marked, setTaskWaiting, TaskCtx.state, TaskState.Idle]
  have hctx : setTaskWaiting (decreaseTaskCounter s.ctx p).2 p = (s.marked c p).ctx := rfl
  have hpicks : (s.marked c p).picks = s.picks := rfl
  have hcur : (s.marked c p).cur = Function.update s.cur c none := rfl
  simp only [Cpus.timerTick, hc, hend, ne_eq, not_true_eq_false, ↓reduceIte, Cpus.switchTask, hctx]
  split
  · rename_i g' h
    exact absurd hidle ((getNextReadyTask_none h).2 p hp)
  · rw [hpicks, hcur, Function.update_idem]

theorem TableInv.timerTick (hs : TableInv s) : TableInv (s.timerTick c) := by
  cases hc : s.cur c with
  | none =>
    simp only [Cpus.timerTick, hc]
    exact hs.switchTask hc
  | some p =>
    by_cases hend : (decreaseTaskCounter s.ctx p).1 = 0
    · rw [timerTick_expired hs hc hend]
      exact (hs.marked hc).switchTask (Function.update_self ..)
    · simp only [Cpus.timerTick, hc, ne_eq, hend, not_false_eq_true, ↓reduceIte]
      exact hs.woken (woken_decrease s.ctx p)

theorem TableInv.taskExit (hs : TableInv s) (hc : s.cur c = some p) :
    TableInv (s.taskExit c p) := by
  have hclean := hs.clean hc
  simp only [Cpus.taskExit]
  split
  · rename_i g' h
    exact hclean.woken (getNextReadyTask_none h).1
  · rename_i q g' h
    exact (hclean.pick (Function.update_self ..) h _).1

/-- **Step.** Every entry keeps the invariant, and every creation with a name that fits. -/
theorem tableInv_step {a : SchedAct ι} {t : Cpus ι} (hs : TableInv s) (hn : NamesFit s a t)
    (h : schedStep s a t) : TableInv t := by
  simp only [schedStep, stepOf] at h
  cases a with
  | timer c => exact Option.some.inj h ▸ hs.timerTick
  | broadcast c =>
    obtain rfl := Option.some.inj h
    unfold Cpus.schedBroadcast
    split
    · exact hs.switchTask ‹_›
    · exact hs
  | exit c =>
    obtain ⟨p, hc, rfl⟩ := Option.map_eq_some_iff.mp h
    exact hs.taskExit hc
  | create task name priority =>
    cases task with
    | none => exact Option.some.inj h ▸ hs
    | some p =>
      simp only [Cpus.next] at h
      split at h
      · cases h
      · rename_i hno
        obtain ⟨-, hp⟩ := not_or.mp hno
        exact Option.some.inj h ▸ hs.create (hn p name priority rfl) hp priority

theorem TableInv.run {t : Cpus ι} {as : List (SchedAct ι)} (hs : TableInv s)
    (hn : Every schedStep NamesFit s as) (h : Run schedStep s as t) : TableInv t :=
  run_inv (I := TableInv) (fun _ _ _ hs hn h => tableInv_step hs hn h) hs hn h

/-- A creation is made only while a slot is free, so a short name fits. -/
theorem namesFit_of_short {a : SchedAct ι} {t : Cpus ι} (ha : ShortName a)
    (h : schedStep s a t) : NamesFit s a t := by
  rintro p name priority rfl
  simp only [schedStep, stepOf, Cpus.next] at h
  split at h
  · cases h
  · rename_i hno
    exact freeNumber_of_short (not_or.mp hno).1 ha

theorem every_namesFit {as : List (SchedAct ι)} (h : ∀ a ∈ as, ShortName a) (s : Cpus ι) :
    Every schedStep NamesFit s as :=
  every_of_mem (fun a ha _ _ => namesFit_of_short (h a ha)) s

omit [DecidableEq ι] in
theorem shortName_taskInit (tasks : List (Option Nat)) :
    ∀ a ∈ taskInit (ι := ι) tasks, ShortName a := by
  have hshort : ∀ name ∈ initNames, name.length < 64 := by decide
  intro a ha
  obtain ⟨i, hi, rfl⟩ := List.mem_iff_getElem.mp ha
  simp only [taskInit, List.getElem_zipWith]
  exact hshort _ (List.getElem_mem _)

omit [DecidableEq ι] in
theorem tableInv_empty {g : TaskCtx} (hg : ∀ i, g.tasks i = none) (picks : List Nat) :
    TableInv (⟨g, fun _ : ι => none, picks⟩) := by
  have hno : ∀ q, ¬ g.Holds q := by
    rintro q ⟨i, -, hi⟩
    rw [hg i] at hi
    cases hi
  refine ⟨fun i q hi => ?_, nofun, nofun, fun q hq => absurd hq (hno q),
    fun q hq => absurd hq (hno q)⟩
  rw [hg i] at hi
  cases hi

theorem tableInv_start (h : Start s) : TableInv s := by
  obtain ⟨g, tasks, hg, -, hrun⟩ := h
  exact (tableInv_empty hg []).run (every_namesFit (shortName_taskInit tasks) _) (run_of_exec hrun)

end Moves

/-- **The table invariant.** It holds after `task_init` and any sequence of ticks,
broadcasts, exits and creations whose names leave the numbers of empty slots. -/
theorem tableInv_run {s t : Cpus ι} {as : List (SchedAct ι)} (hs : Start s)
    (hn : Every schedStep NamesFit s as) (hr : Run schedStep s as t) : TableInv t :=
  (tableInv_start hs).run hn hr

/-! ## No starvation -/

/-- `u` stands in the list before every `t`. -/
def Before (u t : Nat) (l : List Nat) : Prop := ∀ pre post, l = pre ++ t :: post → u ∈ pre

theorem before_of_not_mem {u t : Nat} {l : List Nat} (h : t ∉ l) : Before u t l := by
  rintro pre post rfl
  exact absurd (by simp) h

theorem Before.snoc {u t : Nat} {l : List Nat} (h : Before u t l) (hu : u ∈ l) (p : Nat) :
    Before u t (l ++ [p]) := by
  intro pre post heq
  rcases List.eq_nil_or_concat post with rfl | ⟨post', q, rfl⟩
  · rw [(List.append_inj' heq rfl).1] at hu
    exact hu
  · rw [List.concat_eq_append, ← List.cons_append, ← List.append_assoc] at heq
    exact h pre post' (List.append_inj' heq rfl).1

/-- A ready task in the table is picked from the ready ones; nobody is woken. -/
theorem getNextReadyTask_ready {g : TaskCtx} {u : Nat} (hu : g.Holds u) (hr : g.state u = .ready) :
    ∃ p, getNextReadyTask g = (some p, claimTask g p) ∧ g.state p = .ready := by
  obtain ⟨i, hi, hiu⟩ := hu
  cases hs : scanLoop g (List.range taskMaxNums) none false with
  | mk high w =>
    cases high with
    | none =>
      have hnone : (scanLoop g (List.range taskMaxNums) none false).1 = none := by rw [hs]
      exact absurd hr ((scanLoop_none hnone).2 i (List.mem_range.mpr hi) u hiu).1
    | some p =>
      have hsome : (scanLoop g (List.range taskMaxNums) none false).1 = some p := by rw [hs]
      rcases scanLoop_some hsome with h | ⟨j, -, -, h⟩
      · cases h
      · exact ⟨p, by rw [getNextReadyTask, scanTasks, hs], h⟩

/-- The task `T` has used its slice and waits, `U` is ready. -/
structure Waits (s : Cpus ι) (T U : Nat) : Prop where
  holdsT : s.ctx.Holds T
  waiting : s.ctx.state T = .waiting
  holdsU : s.ctx.Holds U
  ready : s.ctx.state U = .ready

section Waits

variable {s t : Cpus ι} {c : ι} {T U : Nat}

omit [DecidableEq ι] in
theorem Waits.of_same (h : Waits s T U) {p : Nat} (hT : p ≠ T) (hU : p ≠ U)
    (hholds : ∀ q, q ≠ p → s.ctx.Holds q → t.ctx.Holds q)
    (hstate : ∀ q, q ≠ p → t.ctx.state q = s.ctx.state q) : Waits t T U where
  holdsT := hholds T hT.symm h.holdsT
  waiting := (hstate T hT.symm).trans h.waiting
  holdsU := hholds U hU.symm h.holdsU
  ready := (hstate U hU.symm).trans h.ready

omit [DecidableEq ι] in
/-- Neither of the two is a current task. -/
theorem Waits.not_current (h : Waits s T U) (hs : TableInv s) {d : ι} {p : Nat}
    (hd : s.cur d = some p) : p ≠ T ∧ p ≠ U := by
  have hrun := (hs.running p (hs.held d p hd)).mpr ⟨d, hd⟩
  constructor
  · rintro rfl
    exact absurd (h.waiting.symm.trans hrun) nofun
  · rintro rfl
    exact absurd (h.ready.symm.trans hrun) nofun

/-- What a step may add to the picks: `U`, or a task other than `T` while both
stay as they are. -/
def Fair (s t : Cpus ι) (T U : Nat) : Prop :=
  (t.picks = s.picks ∧ Waits t T U) ∨
    ∃ p, t.picks = s.picks ++ [p] ∧ p ≠ T ∧ (p = U ∨ Waits t T U)

omit [DecidableEq ι] in
/-- A pick among ready tasks. -/
theorem Waits.pick (h : Waits s T U) :
    ∃ p, getNextReadyTask s.ctx = (some p, claimTask s.ctx p) ∧ p ≠ T ∧
      (p = U ∨ ∀ t : Cpus ι, t.ctx = claimTask s.ctx p ∨
        t.ctx = setTaskRunning (claimTask s.ctx p) p → Waits t T U) := by
  obtain ⟨p, hp, hready⟩ := getNextReadyTask_ready h.holdsU h.ready
  have hpT : p ≠ T := by
    rintro rfl
    exact absurd (h.waiting.symm.trans hready) nofun
  refine ⟨p, hp, hpT, ?_⟩
  by_cases hpU : p = U
  · exact Or.inl hpU
  · right
    intro t ht
    have h1 := (state_claimTask s.ctx p).2
    have h2 := (state_setTaskRunning (claimTask s.ctx p) p).2
    rcases ht with ht | ht
    · exact h.of_same hpT hpU (fun q _ hq => ht ▸ hq) (fun q hq => ht ▸ h1 q hq)
    · exact h.of_same hpT hpU (fun q _ hq => ht ▸ hq)
        (fun q hq => ht ▸ (h2 q hq).trans (h1 q hq))

theorem Waits.switchTask (h : Waits s T U) (c : ι) : Fair s (s.switchTask c) T U := by
  obtain ⟨p, hp, hpT, hkeep⟩ := h.pick
  right
  unfold Cpus.switchTask
  rw [hp]
  exact ⟨p, rfl, hpT, hkeep.imp_right fun hk => hk _ (Or.inr rfl)⟩

/-- A processor gives its task up, then picks. -/
theorem Waits.marked (h : Waits s T U) (hs : TableInv s) {p : Nat} (hc : s.cur c = some p) :
    Waits (s.marked c p) T U := by
  obtain ⟨hT, hU⟩ := h.not_current hs hc
  apply h.of_same hT hU
  · exact fun q _ hq => hq
  · intro q hq
    simp [Cpus.marked, setTaskWaiting, decreaseTaskCounter, TaskCtx.state,
      TaskCtx.setTask_ne _ _ hq]

theorem Waits.timerTick (h : Waits s T U) (hs : TableInv s) : Fair s (s.timerTick c) T U := by
  cases hc : s.cur c with
  | none =>
    simp only [Cpus.timerTick, hc]
    exact h.switchTask c
  | some p =>
    by_cases hend : (decreaseTaskCounter s.ctx p).1 = 0
    · rw [timerTick_expired hs hc hend]
      exact (h.marked hs hc).switchTask c
    · obtain ⟨hT, hU⟩ := h.not_current hs hc
      simp only [Cpus.timerTick, hc, ne_eq, hend, not_false_eq_true, ↓reduceIte]
      refine Or.inl ⟨rfl, h.of_same hT hU (fun q _ hq => hq) fun q hq => ?_⟩
      simp [decreaseTaskCounter, TaskCtx.state, TaskCtx.setTask_ne _ _ hq]

theorem Waits.taskExit (h : Waits s T U) (hs : TableInv s) {p : Nat} (hc : s.cur c = some p) :
    Fair s (s.taskExit c p) T U := by
  obtain ⟨hT, hU⟩ := h.not_current hs hc
  have hclean : Waits
    { s with ctx := taskClean s.ctx p, cur := Function.update s.cur c none } T U := by
    apply h.of_same hT hU
    · exact fun q hq hold => (holds_taskClean hs (hs.held c p hc) q).mpr ⟨hold, hq⟩
    · intro q hq
      simp [taskClean, TaskCtx.state, TaskCtx.setTask_ne _ _ hq]
  obtain ⟨q, hq, hqT, hkeep⟩ := hclean.pick
  right
  unfold Cpus.taskExit
  simp only [hq]
  exact ⟨q, rfl, hqT, hkeep.imp_right fun hk => hk _ (Or.inl rfl)⟩

/-- **Step.** While `U` is ready and `T` waits, no entry picks `T`. -/
theorem waits_step {a : SchedAct ι} (h : Waits s T U) (hs : TableInv s) (hn : NamesFit s a t)
    (ht : schedStep s a t) : Fair s t T U := by
  simp only [schedStep, stepOf] at ht
  cases a with
  | timer c => exact Option.some.inj ht ▸ h.timerTick hs
  | broadcast c =>
    obtain rfl := Option.some.inj ht
    unfold Cpus.schedBroadcast
    split
    · exact h.switchTask c
    · exact Or.inl ⟨rfl, h⟩
  | exit c =>
    obtain ⟨p, hc, rfl⟩ := Option.map_eq_some_iff.mp ht
    exact h.taskExit hs hc
  | create task name priority =>
    cases task with
    | none => exact Or.inl ⟨Option.some.inj ht ▸ rfl, Option.some.inj ht ▸ h⟩
    | some p =>
      simp only [Cpus.next] at ht
      split at ht
      · cases ht
      · rename_i hno
        obtain ⟨-, hp⟩ := not_or.mp hno
        obtain rfl := Option.some.inj ht
        obtain ⟨i, -, hnone, htasks, -, hother⟩ :=
          ktaskCreate_spec (hn p name priority rfl) p priority
        have hT : p ≠ T := fun he => hp (he ▸ h.holdsT)
        have hU : p ≠ U := fun he => hp (he ▸ h.holdsU)
        refine Or.inl ⟨rfl, h.of_same hT hU (fun q _ hq => ?_) fun q hq => ?_⟩
        · obtain ⟨j, hj, hjq⟩ := hq
          have hji : j ≠ i := by
            rintro rfl
            rw [hnone] at hjq
            cases hjq
          exact ⟨j, hj, by rw [htasks, Function.update_of_ne hji, hjq]⟩
        · rw [TaskCtx.state, hother q hq]
          rfl

/-- The slice of `T`, current on `c`, ends with this tick. -/
def SliceEnds (s : Cpus ι) (c : ι) (T : Nat) : Prop :=
  s.cur c = some T ∧ (decreaseTaskCounter s.ctx T).1 = 0

theorem picks_switchTask (s : Cpus ι) (c : ι) :
    (s.switchTask c).picks = s.picks ∨ ∃ p, (s.switchTask c).picks = s.picks ++ [p] := by
  unfold Cpus.switchTask
  split
  · exact Or.inl rfl
  · exact Or.inr ⟨_, rfl⟩

/-- A step picks one task at most. -/
theorem picks_step {a : SchedAct ι} (h : schedStep s a t) :
    t.picks = s.picks ∨ ∃ p, t.picks = s.picks ++ [p] := by
  simp only [schedStep, stepOf] at h
  cases a with
  | timer c =>
    obtain rfl := Option.some.inj h
    cases hc : s.cur c with
    | none =>
      simp only [Cpus.timerTick, hc]
      exact picks_switchTask s c
    | some p =>
      by_cases hend : (decreaseTaskCounter s.ctx p).1 = 0
      · simp only [Cpus.timerTick, hc, hend, ne_eq, not_true_eq_false, ↓reduceIte]
        exact picks_switchTask { s with ctx := setTaskWaiting (decreaseTaskCounter s.ctx p).2 p } c
      · simp only [Cpus.timerTick, hc, ne_eq, hend, not_false_eq_true, ↓reduceIte]
        exact Or.inl trivial
  | broadcast c =>
    obtain rfl := Option.some.inj h
    unfold Cpus.schedBroadcast
    split
    · exact picks_switchTask s c
    · exact Or.inl rfl
  | exit c =>
    obtain ⟨p, -, rfl⟩ := Option.map_eq_some_iff.mp h
    unfold Cpus.taskExit
    simp only
    split
    · exact Or.inl rfl
    · exact Or.inr ⟨_, rfl⟩
  | create task name priority =>
    cases task with
    | none => exact Or.inl (Option.some.inj h ▸ rfl)
    | some p =>
      simp only [Cpus.next] at h
      split at h
      · cases h
      · exact Or.inl (Option.some.inj h ▸ rfl)

/-- Since `s`, either `T` has not been picked and both still wait, or `U` has been
picked first. -/
def Ahead (s : Cpus ι) (T U : Nat) (t : Cpus ι) : Prop :=
  ∃ new, t.picks = s.picks ++ new ∧ ((T ∉ new ∧ Waits t T U) ∨ (U ∈ new ∧ Before U T new))

omit [DecidableEq ι] in
/-- The first pick of `U` comes before every pick of `T`. -/
theorem Fair.ahead (h : Fair s t T U) {u : Cpus ι} {new : List Nat} (hs : s.picks = u.picks ++ new)
    (hnew : T ∉ new) : Ahead u T U t := by
  rcases h with ⟨hpicks, hw⟩ | ⟨p, hpicks, hpT, hcase⟩
  · exact ⟨new, by rw [hpicks, hs], Or.inl ⟨hnew, hw⟩⟩
  · have hmem : T ∉ new ++ [p] := by simp [hnew, Ne.symm hpT]
    refine ⟨new ++ [p], by rw [hpicks, hs, List.append_assoc], ?_⟩
    rcases hcase with rfl | hw
    · exact Or.inr ⟨by simp, before_of_not_mem hmem⟩
    · exact Or.inl ⟨hmem, hw⟩

theorem ahead_step {u : Cpus ι} {a : SchedAct ι} (h : Ahead u T U s) (hs : TableInv s)
    (hn : NamesFit s a t) (ht : schedStep s a t) : Ahead u T U t := by
  obtain ⟨new, hnew, ⟨hT, hw⟩ | ⟨hU, hb⟩⟩ := h
  · exact (waits_step hw hs hn ht).ahead hnew hT
  · rcases picks_step ht with hpicks | ⟨p, hpicks⟩
    · exact ⟨new, by rw [hpicks, hnew], Or.inr ⟨hU, hb⟩⟩
    · exact ⟨new ++ [p], by rw [hpicks, hnew, List.append_assoc],
        Or.inr ⟨List.mem_append_left _ hU, hb.snoc hU p⟩⟩

/-- **No starvation.** When the slice of `T` ends while `U` is ready, `U` is picked
before `T` is picked again. -/
theorem picked_before {s₀ s t : Cpus ι} {as₀ as : List (SchedAct ι)} {c : ι} {T U : Nat}
    (hs₀ : Start s₀) (hn₀ : Every schedStep NamesFit s₀ as₀) (hr₀ : Run schedStep s₀ as₀ s)
    (hT : SliceEnds s c T) (hU : s.ctx.Holds U) (hready : s.ctx.state U = .ready)
    (hn : Every schedStep NamesFit s (.timer c :: as)) (hr : Run schedStep s (.timer c :: as) t) :
    ∃ new, t.picks = s.picks ++ new ∧ Before U T new := by
  have hs := (tableInv_start hs₀).run hn₀ hr₀
  obtain ⟨hc, hend⟩ := hT
  obtain ⟨u, hu, hr⟩ := hr
  obtain ⟨hfirst, hn⟩ := hn u hu
  -- the tick marks `T` and picks among the ready tasks
  have hw : Waits (s.marked c T) T U := by
    have hne : U ≠ T := by
      rintro rfl
      have hrun := (hs.running U hU).mpr ⟨c, hc⟩
      exact absurd (hready.symm.trans hrun) nofun
    refine ⟨hs.held c T hc, ?_, hU, ?_⟩
    · simp [Cpus.marked, setTaskWaiting, TaskCtx.state]
    · rw [← hready]
      simp [Cpus.marked, setTaskWaiting, decreaseTaskCounter, TaskCtx.state,
        TaskCtx.setTask_ne _ _ hne]
  have htick : s.timerTick c = u := by
    simp only [schedStep, stepOf, Cpus.next, Option.some.injEq] at hu
    exact hu
  have hahead : Ahead s T U u := by
    rw [← htick, timerTick_expired hs hc hend]
    exact (hw.switchTask c).ahead (List.append_nil _).symm List.not_mem_nil
  have hinv : TableInv t ∧ Ahead s T U t :=
    run_inv (I := fun v => TableInv v ∧ Ahead s T U v)
      (fun _ _ _ h hn hv => ⟨tableInv_step h.1 hn hv, ahead_step h.2 h.1 hn hv⟩)
      ⟨tableInv_step hs hfirst hu, hahead⟩ hn hr
  obtain ⟨-, new, hnew, ⟨hT, -⟩ | ⟨-, hb⟩⟩ := hinv
  · exact ⟨new, hnew, before_of_not_mem hT⟩
  · exact ⟨new, hnew, hb⟩

end Waits

/-! ## Two processors -/

/-- Two processors after `task_init`, the descriptors at addresses `1 .. 14`. -/
def sampleStart : Cpus Bool :=
  (exec Cpus.next ⟨⟨fun _ => none, fun _ => ⟨0, 0, 0, .init⟩⟩, fun _ => none, []⟩
    (taskInit ((List.range 14).map fun i => some (i + 1)))).getD ⟨⟨fun _ => none, fun _ =>
      ⟨0, 0, 0, .init⟩⟩, fun _ => none, []⟩

theorem eq_some_getD {α : Type} {o : Option α} (d : α) (h : o.isSome = true) :
    o = some (o.getD d) := by
  cases o with
  | none => cases h
  | some a => rfl

theorem sample_start : Start sampleStart :=
  ⟨_, _, fun _ => rfl, by decide, eq_some_getD _ (by decide +kernel)⟩

/-- Both processors take a task, the second one's slice ends, the first one's
task exits, and a task is created. -/
def sampleActs : List (SchedAct Bool) :=
  [.timer false, .broadcast true, .timer true, .timer true, .timer true, .exit false,
    .create (some 20) (cText "task") 5]

def sampleEnd : Cpus Bool := (exec Cpus.next sampleStart sampleActs).getD sampleStart

theorem tableInv_run_sample : TableInv sampleEnd :=
  tableInv_run sample_start (every_namesFit (by decide) _)
    (run_of_exec (eq_some_getD _ (by decide +kernel)))

/-- The first processor runs task 1, which is in slot 0. On the second one all other tasks
exit, and a name of 64 bytes puts its NUL over the number of a new task, which takes slot 0.
The slice of task 1 ends while the new task runs on the second processor. -/
def overrun : List (SchedAct Bool) :=
  [.timer false, .broadcast true] ++ List.replicate 13 (.exit true) ++
    .create (some 20) (List.replicate 64 0x61) 5 :: .timer true :: List.replicate 3 (.timer false)

/-- **A name of 64 bytes** leaves a waiting task current: it is in no slot any more, and its
processor finds no other. -/
theorem tableInv_run_overrun : Start sampleStart ∧
    ∃ t, Run schedStep sampleStart overrun t ∧ t.cur false = some 1 ∧ t.ctx.state 1 = .waiting ∧
      ¬ TableInv t := by
  have hlast : (exec Cpus.next sampleStart overrun).map (fun t => (t.cur false, t.ctx.state 1)) =
      some (some 1, .waiting) := by decide +kernel
  obtain ⟨t, ht, hlast⟩ := Option.map_eq_some_iff.mp hlast
  obtain ⟨hcur, hwait⟩ := Prod.mk.inj hlast
  refine ⟨sample_start, t, run_of_exec ht, hcur, hwait, fun hinv => ?_⟩
  have hrun := (hinv.running 1 (hinv.held false 1 hcur)).mpr ⟨false, hcur⟩
  exact absurd (hwait.symm.trans hrun) (by decide)

example : sampleEnd.picks = [1, 2, 3, 4] := by decide +kernel

/-- The second processor is about to end its slice of task 2, task 3 is ready. -/
def sampleMid : Cpus Bool :=
  (exec Cpus.next sampleStart [.timer false, .broadcast true, .timer true, .timer true]).getD
    sampleStart

/-- Three more tasks are picked and exit. -/
def sampleRest : List (SchedAct Bool) := [.timer true, .exit true, .exit true, .timer false]

theorem picked_before_sample :
    ∃ new, ((exec Cpus.next sampleMid sampleRest).getD sampleMid).picks = sampleMid.picks ++ new ∧
      Before 3 2 new :=
  picked_before sample_start (every_namesFit (by decide) _)
    (run_of_exec (eq_some_getD sampleStart (by decide +kernel)))
    ⟨by decide +kernel, by decide +kernel⟩ (by decide +kernel) (by decide +kernel)
    (every_namesFit (by decide) _) (run_of_exec (eq_some_getD sampleMid (by decide +kernel)))

end X64SmpOs.Sched

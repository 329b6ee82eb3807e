import Mathlib.Data.List.MinMax
import Mathlib.Data.List.Perm.Subperm
import X64SmpOs.Kernel.Task

/-!
# The scheduler of the x86 kernel

`kernel/task.c` and `kernel/sched.c`. A task is known by its slot in `g_tasks`;
the states are those of the x64 kernel.

* `taskWakeup`, `subTaskCounter`, `getNextReadyTask`, `sched`: the code,
  `clockInterrupt` what `clock_handle` makes of it;
* `schedule`: which task runs after each interrupt, and whether the interrupt
  reset the slices;
* `RoundBased`: the schedule `sched.c` describes;
* `roundBased_iff`: with a task besides the idle one the code keeps to it only
  until the first slice is used up;
* `two_tasks_run`: from then on two tasks take turns and no slice is ever reset.
-/

namespace X64SmpOs.X86

open Words
open Task64 (TaskState)

/-! ## The code -/

/-- The scheduling fields of `task_t`; `counter` and `priority` are `size_t`. -/
structure Task where
  state : TaskState
  priority : Nat
  counter : Nat
  deriving DecidableEq, Repr

def taskMaxNums : Nat := 4

/-- The slots the loops go through: all but the idle task's. -/
def slots : List Nat := List.range' 1 (taskMaxNums - 1)

/-- `g_tasks`. -/
abbrev Table := Nat → Option Task

structure Sched where
  tasks : Table
  current : Option Nat
  cpuTickes : Nat

def setTask (g : Table) (i : Nat) (t : Task) : Table := Function.update g i (some t)

/-- The priority of the task in a slot. -/
def priority (g : Table) (i : Nat) : Nat :=
  match g i with
  | none => 0
  | some t => t.priority

/-- `task_wakeup`. -/
def taskWakeup (s : Sched) : Sched :=
  { s with
    tasks := fun i =>
      if i ∈ slots then
        (s.tasks i).map fun t =>
          if t.state = .sleeping ∧ t.counter ≤ s.cpuTickes then
            { t with state := .ready, counter := t.priority }
          else t
      else s.tasks i }

/-- `sub_task_counter` on the task itself. -/
def Task.subCounter (t : Task) : Nat × Task :=
  if t.counter = 0 then (1, { t with state := .waiting })
  else (0, { t with counter := t.counter - 1 })

def subTaskCounter (s : Sched) (i : Nat) : Nat × Sched :=
  let s := taskWakeup s
  match s.tasks i with
  | none => (0, s)
  | some t => (t.subCounter.1, { s with tasks := setTask s.tasks i t.subCounter.2 })

/-- The first loop of `get_next_ready_task`. -/
def scanLoop (g : Table) : List Nat → Option Nat → Bool → Option Nat × Bool
  | [], highPrioTask, hasWaitTask => (highPrioTask, hasWaitTask)
  | i :: is, highPrioTask, hasWaitTask =>
    match g i with
    | none => scanLoop g is highPrioTask hasWaitTask
    | some t =>
      if t.state = .waiting then scanLoop g is highPrioTask true
      else if t.state = .ready then
        match highPrioTask with
        | none => scanLoop g is (some i) hasWaitTask
        | some j =>
          if t.priority > priority g j then scanLoop g is (some i) hasWaitTask
          else scanLoop g is (some j) hasWaitTask
      else scanLoop g is highPrioTask hasWaitTask

/-- The second loop, which resets the slices of the waiting tasks. -/
def resetLoop (g : Table) : List Nat → Option Nat → Option Nat × Table
  | [], highPrioTask => (highPrioTask, g)
  | i :: is, highPrioTask =>
    match g i with
    | none => resetLoop g is highPrioTask
    | some t =>
      if t.state ≠ .waiting then resetLoop g is highPrioTask
      else
        let g := setTask g i { t with counter := t.priority }
        match highPrioTask with
        | none => resetLoop g is (some i)
        | some j =>
          if t.priority > priority g j then resetLoop g is (some i)
          else resetLoop g is (some j)

/-- The task chosen, the table, and whether the slices were reset. -/
def getNextReadyTask (g : Table) : Option Nat × Table × Bool :=
  match scanLoop g slots none false with
  | (some i, _) => (some i, g, false)
  | (none, true) =>
    let r := resetLoop g slots none
    (r.1, r.2, true)
  | (none, false) => ((g 0).map fun _ => 0, g, false)

/-- `task->state = state` through a pointer into the table. -/
def setState (g : Table) (i : Nat) (state : TaskState) : Table :=
  match g i with
  | none => g
  | some t => setTask g i { t with state }

/-- `sched` up to its call of `sched_task`. -/
def sched (s : Sched) : Sched × Bool :=
  let (next, g, reset) := getNextReadyTask s.tasks
  let g := match s.current with
    | none => g
    | some c => setState g c .ready
  match next.or s.current with
  | none => ({ s with tasks := g }, reset)
  | some c => ({ s with tasks := setState g c .running, current := some c }, reset)

def clockHander (s : Sched) : Sched := { s with cpuTickes := u32 (s.cpuTickes + 1) }

/-- What `clock_handle` does to the scheduler. -/
def clockInterrupt (s : Sched) : Sched × Bool :=
  match s.current with
  | none => sched (clockHander s)
  | some c =>
    let r := subTaskCounter s c
    if r.1 = 1 then sched (clockHander r.2) else (r.2, false)

/-- The task that runs after each of `n` interrupts, and whether the interrupt
reset the slices. -/
def schedule : Nat → Sched → List (Option Nat × Bool)
  | 0, _ => []
  | n + 1, s => ((clockInterrupt s).1.current, (clockInterrupt s).2) ::
    schedule n (clockInterrupt s).1

/-! ## The schedule that is described -/

/-- The occupied slots besides the idle task's. -/
def nonIdle (g : Table) : List Nat := slots.filter fun i => (g i).isSome

/-- Every task once, higher priorities first. -/
structure RoundOrder (g : Table) (order : List Nat) : Prop where
  perm : order.Perm (nonIdle g)
  sorted : order.Pairwise fun i j => priority g j ≤ priority g i

/-- The slices of a round; its first interrupt resets them or not. -/
def round (g : Table) (reset : Bool) (order : List Nat) : List (Option Nat × Bool) :=
  match order.flatMap fun i => List.replicate (priority g i) i with
  | [] => []
  | i :: is => (some i, reset) :: is.map fun j => (some j, false)

/-- Round after round: every task runs for as many interrupts as its priority
says, and the slices are reset when all are used up. -/
def rounds (g : Table) : List (List Nat) → List (Option Nat × Bool)
  | [] => []
  | order :: orders => round g false order ++ orders.flatMap (round g true)

/-- The idle task runs when there is no other; else the schedule goes round by round. -/
def RoundBased (g : Table) (l : List (Option Nat × Bool)) : Prop :=
  if nonIdle g = [] then l = List.replicate l.length (some 0, false)
  else ∃ orders : List (List Nat), (∀ order ∈ orders, RoundOrder g order) ∧ l <+: rounds g orders

/-- The tasks have been created, the idle task in slot 0, and no interrupt has
come yet. -/
structure Start (s : Sched) : Prop where
  idle : (s.tasks 0).isSome = true
  current : s.current = none
  task : ∀ i t, s.tasks i = some t → t.state = .ready ∧ t.counter = t.priority ∧ 1 ≤ t.priority

/-! ## What `get_next_ready_task` chooses -/

/-- The slots of the ready tasks. -/
def readySlots (g : Table) (is : List Nat) : List Nat :=
  is.filter fun i => (g i).any fun t => t.state = .ready

def anyWaiting (g : Table) (is : List Nat) : Bool :=
  is.any fun i => (g i).any fun t => t.state = .waiting

/-- The loop keeps the first of the ready tasks with the highest priority. -/
theorem scanLoop_eq (g : Table) (is : List Nat) (high : Option Nat) (w : Bool) :
    scanLoop g is high w =
      ((readySlots g is).foldl (List.argAux fun b c => priority g c < priority g b) high,
        w || anyWaiting g is) := by
  induction is generalizing high w with
  | nil => simp [scanLoop, readySlots, anyWaiting]
  | cons i is ih =>
    unfold scanLoop
    cases hi : g i with
    | none => simp [ih, readySlots, anyWaiting, hi]
    | some t =>
      have hprio : priority g i = t.priority := by simp [priority, hi]
      by_cases hw : t.state = .waiting
      · simp [ih, readySlots, anyWaiting, hi, hw]
      · by_cases hr : t.state = .ready
        · cases high with
          | none => simp [ih, readySlots, anyWaiting, hi, hr, List.argAux]
          | some j =>
            simp only [hr, reduceCtorEq, ↓reduceIte, gt_iff_lt, ih]
            by_cases hlt : priority g j < t.priority
            · simp [readySlots, anyWaiting, hi, hr, List.argAux, hprio, hlt]
            · simp [readySlots, anyWaiting, hi, hr, List.argAux, hprio, hlt]
        · simp [ih, readySlots, anyWaiting, hi, hw, hr]

/-- **A choice among ready tasks.** -/
theorem getNextReadyTask_ready {g : Table} {i : Nat}
    (h : (readySlots g slots).argmax (priority g) = some i) :
    getNextReadyTask g = (some i, g, false) := by
  have hscan := scanLoop_eq g slots none false
  rw [← List.argmax, h] at hscan
  rw [getNextReadyTask, hscan]

/-- The first maximum of a list is the first maximum of every part of it that has it. -/
theorem argmax_filter {f : Nat → Nat} {p : Nat → Bool} {l : List Nat} {m : Nat}
    (h : l.argmax f = some m) (hm : p m = true) : (l.filter p).argmax f = some m := by
  induction l generalizing m with
  | nil => cases h
  | cons x l ih =>
    rw [List.argmax_cons] at h
    cases hl : l.argmax f with
    | none =>
      rw [List.argmax_eq_none] at hl
      subst hl
      obtain rfl := Option.some.inj h
      simp [hm]
    | some c =>
      rw [hl] at h
      simp only at h
      split_ifs at h with hlt
      · obtain rfl := Option.some.inj h
        have hrest := ih hl hm
        by_cases hx : p x = true
        · rw [List.filter_cons_of_pos hx, List.argmax_cons, hrest]
          exact if_pos hlt
        · rwa [List.filter_cons_of_neg hx]
      · obtain rfl := Option.some.inj h
        rw [List.filter_cons_of_pos hm, List.argmax_cons]
        cases hrest : (l.filter p).argmax f with
        | none => rfl
        | some d =>
          have hd : d ∈ l := (List.mem_filter.mp (List.argmax_mem hrest)).1
          have hle := List.le_of_mem_argmax hd hl
          exact if_neg (by omega)

/-! ## Whose turn it is -/

/-- The same slots are occupied, with the same priorities. -/
def SameTasks (g g' : Table) : Prop := ∀ i, (g' i).map Task.priority = (g i).map Task.priority

section Same

variable {g g' : Table}

theorem SameTasks.priority (h : SameTasks g g') : X86.priority g' = X86.priority g := by
  funext i
  have hi := h i
  unfold X86.priority
  cases hg : g i <;> cases hg' : g' i <;> simp_all

theorem SameTasks.isSome (h : SameTasks g g') (i : Nat) : (g' i).isSome = (g i).isSome := by
  have hi := congrArg Option.isSome (h i)
  rwa [Option.isSome_map, Option.isSome_map] at hi

theorem SameTasks.nonIdle (h : SameTasks g g') : nonIdle g' = nonIdle g := by
  unfold X86.nonIdle
  simp only [h.isSome]

theorem SameTasks.trans {g'' : Table} (h : SameTasks g g') (h' : SameTasks g' g'') :
    SameTasks g g'' := fun i => (h' i).trans (h i)

theorem sameTasks_setTask {i : Nat} {t t' : Task} (h : g i = some t)
    (ht : t'.priority = t.priority) : SameTasks g (setTask g i t') := by
  intro j
  by_cases hj : j = i
  · subst hj
    simp [setTask, h, ht]
  · simp [setTask, hj]

theorem setState_eq {i : Nat} {t : Task} (h : g i = some t) (state : TaskState) :
    setState g i state = setTask g i { t with state } := by
  rw [setState, h]

end Same

/-- The task in slot `c` runs and has `k` of its slice left, all others are ready. -/
structure Turn (g : Table) (s : Sched) (c k : Nat) : Prop where
  same : SameTasks g s.tasks
  holds : c ∈ nonIdle g
  current : s.current = some c
  running : ∃ t, s.tasks c = some t ∧ t.state = .running ∧ t.counter = k
  others : ∀ i t, s.tasks i = some t → i ≠ c → t.state = .ready

theorem taskWakeup_of_awake {s : Sched} (h : ∀ i t, s.tasks i = some t → t.state ≠ .sleeping) :
    taskWakeup s = s := by
  have hsame : (taskWakeup s).tasks = s.tasks := by
    funext i
    simp only [taskWakeup]
    split
    · cases hi : s.tasks i with
      | none => rfl
      | some t => simp [h i t hi]
    · rfl
  calc
    taskWakeup s = { s with tasks := (taskWakeup s).tasks } := rfl
    _ = s := by rw [hsame]

section Turns

variable {g : Table} {s : Sched} {c d k : Nat}

theorem Turn.awake (h : Turn g s c k) : taskWakeup s = s := by
  apply taskWakeup_of_awake
  intro i t hi
  by_cases hic : i = c
  · obtain ⟨u, hu, hrun, -⟩ := h.running
    subst hic
    obtain rfl := Option.some.inj (hu.symm.trans hi)
    rw [hrun]
    exact nofun
  · rw [h.others i t hi hic]
    exact nofun

/-- An interrupt within the slice. -/
theorem Turn.count (h : Turn g s c (k + 1)) :
    (clockInterrupt s).2 = false ∧ Turn g (clockInterrupt s).1 c k := by
  obtain ⟨t, ht, hrun, hk⟩ := h.running
  have hsub : subTaskCounter s c =
      (0, { s with tasks := setTask s.tasks c { t with counter := k } }) := by
    simp [subTaskCounter, h.awake, ht, Task.subCounter, hk]
  have hstep : clockInterrupt s =
      ({ s with tasks := setTask s.tasks c { t with counter := k } }, false) := by
    simp [clockInterrupt, h.current, hsub]
  rw [hstep]
  refine ⟨rfl, h.same.trans (sameTasks_setTask ht rfl), h.holds, h.current,
    ⟨{ t with counter := k }, Function.update_self .., hrun, rfl⟩, fun i u hi hic => ?_⟩
  apply h.others i u _ hic
  simpa [setTask, hic] using hi

/-- Another task becomes the current one. -/
theorem turn_sched {next : Nat} (hsame : SameTasks g s.tasks) (hnext : next ∈ nonIdle g)
    (hchoice : getNextReadyTask s.tasks = (some next, s.tasks, false))
    (hothers : ∀ i t, s.tasks i = some t → s.current ≠ some i → t.state = .ready)
    (hne : s.current ≠ some next) :
    (sched s).2 = false ∧ ∃ k, Turn g (sched s).1 next k ∧
      ∀ t, s.tasks next = some t → t.counter = k := by
  have hocc : (s.tasks next).isSome = true := by
    rw [hsame.isSome]
    exact (List.mem_filter.mp hnext).2
  obtain ⟨t, ht⟩ := Option.isSome_iff_exists.mp hocc
  -- the table when the last task has been made ready
  have hready : ∃ g', SameTasks s.tasks g' ∧ g' next = some t ∧
      (∀ i u, g' i = some u → i ≠ next → u.state = .ready) ∧
      sched s = ({ s with tasks := setState g' next .running, current := some next }, false) := by
    cases hc : s.current with
    | none =>
      refine ⟨s.tasks, fun _ => rfl, ht, fun i u hi _ => hothers i u hi (by simp [hc]), ?_⟩
      simp [sched, hchoice, hc]
    | some c =>
      have hnc : next ≠ c := fun he => hne (he ▸ hc)
      cases hcur : s.tasks c with
      | none =>
        refine ⟨s.tasks, fun _ => rfl, ht, fun i u hi _ => hothers i u hi fun he => ?_, ?_⟩
        · rw [hc] at he
          obtain rfl := Option.some.inj he
          rw [hcur] at hi
          cases hi
        · simp [sched, hchoice, hc, setState, hcur]
      | some u =>
        refine ⟨setTask s.tasks c { u with state := .ready }, sameTasks_setTask hcur rfl,
          by simpa [setTask, hnc] using ht, fun i v hi _ => ?_, ?_⟩
        · by_cases hic : i = c
          · subst hic
            simp only [setTask, Function.update_self, Option.some.injEq] at hi
            rw [← hi]
          · simp only [setTask, Function.update_of_ne hic] at hi
            exact hothers i v hi (by rw [hc]; exact fun he => hic (Option.some.inj he).symm)
        · simp [sched, hchoice, hc, setState_eq hcur]
  obtain ⟨g', hg', hgt, hgo, hstep⟩ := hready
  rw [hstep, setState_eq hgt]
  refine ⟨rfl, t.counter, ⟨hsame.trans (hg'.trans (sameTasks_setTask hgt rfl)), hnext, rfl,
    ⟨{ t with state := .running }, Function.update_self .., rfl, rfl⟩, fun i u hi hic => ?_⟩, ?_⟩
  · apply hgo i u _ hic
    simpa [setTask, hic] using hi
  · intro u hu
    obtain rfl := Option.some.inj (ht.symm.trans hu)
    rfl

/-- The end of a slice, when another task is ready. -/
theorem Turn.switch (h : Turn g s c 0)
    (hd : ((nonIdle g).filter (· ≠ c)).argmax (priority g) = some d) :
    (clockInterrupt s).2 = false ∧ ∃ k, Turn g (clockInterrupt s).1 d k := by
  obtain ⟨t, ht, hrun, hk⟩ := h.running
  let m : Sched := { s with tasks := setTask s.tasks c { t with state := .waiting } }
  have hsub : subTaskCounter s c = (1, m) := by
    simp [subTaskCounter, h.awake, ht, Task.subCounter, hk, m]
  have hstep : clockInterrupt s = sched (clockHander m) := by
    simp [clockInterrupt, h.current, hsub]
  have hsame : SameTasks g m.tasks := h.same.trans (sameTasks_setTask ht rfl)
  -- all tasks but the marked one are ready
  have hready : readySlots m.tasks slots = (nonIdle g).filter (· ≠ c) := by
    rw [nonIdle, List.filter_filter]
    apply List.filter_congr
    intro i _
    by_cases hic : i = c
    · simp [m, setTask, hic]
    · have hi : m.tasks i = s.tasks i := Function.update_of_ne hic ..
      rw [hi, ← h.same.isSome i]
      cases hsi : s.tasks i with
      | none => simp
      | some u => simp [h.others i u hsi hic, hic]
  have hchoice : getNextReadyTask m.tasks = (some d, m.tasks, false) := by
    apply getNextReadyTask_ready
    rw [hready, hsame.priority, hd]
  obtain ⟨hmem, hdc⟩ := List.mem_filter.mp (List.argmax_mem hd)
  have hothers : ∀ i u, m.tasks i = some u → m.current ≠ some i → u.state = .ready := by
    intro i u hi hne
    have hic : i ≠ c := fun he => hne (he ▸ h.current)
    have hi' : s.tasks i = some u := by simpa [m, setTask, hic] using hi
    exact h.others i u hi' hic
  have hne : m.current ≠ some d := by
    have hcur : m.current = some c := h.current
    rw [hcur]
    rintro he
    simp [Option.some.inj he] at hdc
  obtain ⟨h1, k, h2, -⟩ := turn_sched (s := clockHander m) hsame hmem hchoice hothers hne
  rw [hstep]
  exact ⟨h1, k, h2⟩

/-- The first interrupt. -/
theorem turn_start (hs : Start s) {a : Nat}
    (ha : (nonIdle s.tasks).argmax (priority s.tasks) = some a) :
    (clockInterrupt s).2 = false ∧
      Turn s.tasks (clockInterrupt s).1 a (priority s.tasks a) := by
  have hready : readySlots s.tasks slots = nonIdle s.tasks := by
    apply List.filter_congr
    intro i _
    cases hi : s.tasks i with
    | none => rfl
    | some t => simp [(hs.task i t hi).1]
  have hchoice : getNextReadyTask s.tasks = (some a, s.tasks, false) := by
    apply getNextReadyTask_ready
    rw [hready, ha]
  have hstep : clockInterrupt s = sched (clockHander s) := by simp [clockInterrupt, hs.current]
  have hmem := List.argmax_mem ha
  have hne : s.current ≠ some a := by
    rw [hs.current]
    exact nofun
  obtain ⟨h1, k, h2, h3⟩ := turn_sched (s := clockHander s) (g := s.tasks)
    (fun _ => rfl) hmem hchoice
    (fun i t hi _ => (hs.task i t hi).1) hne
  obtain ⟨t, ht⟩ := Option.isSome_iff_exists.mp (List.mem_filter.mp hmem).2
  have hk : k = priority s.tasks a := by
    rw [← h3 t ht, (hs.task a t ht).2.1, priority, ht]
  rw [hstep, ← hk]
  exact ⟨h1, h2⟩

end Turns

/-! ## The schedule -/

theorem length_schedule (n : Nat) (s : Sched) : (schedule n s).length = n := by
  induction n generalizing s with
  | zero => rfl
  | succ n ih => rw [schedule, List.length_cons, ih]

theorem take_schedule {m n : Nat} (h : m ≤ n) (s : Sched) :
    (schedule n s).take m = schedule m s := by
  induction n generalizing m s with
  | zero =>
    obtain rfl : m = 0 := by omega
    rfl
  | succ n ih =>
    cases m with
    | zero => rfl
    | succ m => rw [schedule, List.take_succ_cons, ih (by omega), schedule]

/-- A slice, once begun, is used up. -/
theorem schedule_turn {g : Table} {s : Sched} {c k : Nat} (h : Turn g s c k) :
    schedule k s = List.replicate k (some c, false) := by
  induction k generalizing s with
  | zero => rfl
  | succ k ih =>
    obtain ⟨h1, h2⟩ := h.count
    rw [schedule, ih h2, h1, h2.current, List.replicate_succ]

/-- The first slice is one interrupt longer than the priority. -/
theorem schedule_first {s : Sched} (hs : Start s) {a : Nat}
    (ha : (nonIdle s.tasks).argmax (priority s.tasks) = some a) :
    schedule (priority s.tasks a + 1) s =
      List.replicate (priority s.tasks a + 1) (some a, false) := by
  obtain ⟨h1, h2⟩ := turn_start hs ha
  rw [schedule, schedule_turn h2, h1, h2.current, List.replicate_succ]

/-- The idle task alone. -/
structure Alone (s : Sched) : Prop where
  nonIdle : nonIdle s.tasks = []
  idle : (s.tasks 0).isSome = true
  current : s.current = none ∨ s.current = some 0

theorem Alone.free {s : Sched} (h : Alone s) {i : Nat} (hi : i ∈ slots) : s.tasks i = none := by
  have hno := List.filter_eq_nil_iff.mp h.nonIdle i hi
  simpa using hno

/-- Only the idle task's slot is written. -/
theorem Alone.of_same {s t : Sched} (h : Alone s) (hsame : ∀ i, i ≠ 0 → t.tasks i = s.tasks i)
    (hidle : (t.tasks 0).isSome = true) (hc : t.current = some 0) : Alone t := by
  refine ⟨?_, hidle, Or.inr hc⟩
  rw [← h.nonIdle]
  apply List.filter_congr
  intro i hi
  have hne : i ≠ 0 := fun he => absurd (he ▸ hi : 0 ∈ slots) (by decide)
  rw [hsame i hne]

theorem setState_isSome (g : Table) (i j : Nat) (state : TaskState) :
    (setState g i state j).isSome = (g j).isSome := by
  unfold setState
  cases hi : g i with
  | none => rfl
  | some t =>
    by_cases hj : j = i
    · subst hj
      simp [setTask, hi]
    · simp [setTask, hj]

theorem setState_of_ne (g : Table) {i j : Nat} (state : TaskState) (h : j ≠ i) :
    setState g i state j = g j := by
  unfold setState
  cases g i with
  | none => rfl
  | some t => exact Function.update_of_ne h ..

theorem alone_sched {s : Sched} (h : Alone s) :
    (sched s).2 = false ∧ Alone (sched s).1 ∧ (sched s).1.current = some 0 := by
  have hready : readySlots s.tasks slots = [] :=
    List.filter_eq_nil_iff.mpr fun i hi => by simp [h.free hi]
  have hwait : anyWaiting s.tasks slots = false := by
    apply List.any_eq_false.mpr
    intro i hi
    simp [h.free hi]
  have hchoice : getNextReadyTask s.tasks = (some 0, s.tasks, false) := by
    have hscan := scanLoop_eq s.tasks slots none false
    rw [hready, hwait] at hscan
    obtain ⟨t, ht⟩ := Option.isSome_iff_exists.mp h.idle
    simp [getNextReadyTask, hscan, ht]
  rcases h.current with hc | hc
  · have hstep : sched s =
        ({ s with tasks := setState s.tasks 0 .running, current := some 0 }, false) := by
      simp [sched, hchoice, hc]
    rw [hstep]
    refine ⟨rfl, h.of_same (fun i hi => setState_of_ne _ _ hi) ?_ rfl, rfl⟩
    rw [setState_isSome, h.idle]
  · have hstep : sched s = ({ s with
        tasks := setState (setState s.tasks 0 .ready) 0 .running
        current := some 0 }, false) := by
      simp [sched, hchoice, hc]
    rw [hstep]
    refine ⟨rfl, h.of_same (fun i hi => ?_) ?_ rfl, rfl⟩
    · exact (setState_of_ne _ _ hi).trans (setState_of_ne _ _ hi)
    · rw [setState_isSome, setState_isSome, h.idle]

theorem alone_interrupt {s : Sched} (h : Alone s) :
    (clockInterrupt s).2 = false ∧ Alone (clockInterrupt s).1 ∧
      (clockInterrupt s).1.current = some 0 := by
  rcases h.current with hc | hc
  · have hstep : clockInterrupt s = sched (clockHander s) := by simp [clockInterrupt, hc]
    rw [hstep]
    exact alone_sched ⟨h.nonIdle, h.idle, h.current⟩
  · obtain ⟨t, ht⟩ := Option.isSome_iff_exists.mp h.idle
    -- the idle task does not sleep for the others
    have hwake : (taskWakeup s).tasks = s.tasks := by
      funext i
      simp only [taskWakeup]
      split
      · rw [h.free ‹_›]
        rfl
      · rfl
    have hsub : subTaskCounter s 0 = (t.subCounter.1,
        { taskWakeup s with tasks := setTask s.tasks 0 t.subCounter.2 }) := by
      simp [subTaskCounter, hwake, ht]
    have hnext : Alone { taskWakeup s with tasks := setTask s.tasks 0 t.subCounter.2 } :=
      h.of_same (fun i hi => Function.update_of_ne hi ..) (by simp [setTask]) hc
    simp only [clockInterrupt, hc, hsub]
    split
    · exact alone_sched ⟨hnext.nonIdle, hnext.idle, hnext.current⟩
    · exact ⟨rfl, hnext, hc⟩

theorem schedule_alone {s : Sched} (h : Alone s) (n : Nat) :
    schedule n s = List.replicate n (some 0, false) := by
  induction n generalizing s with
  | zero => rfl
  | succ n ih =>
    obtain ⟨h1, h2, h3⟩ := alone_interrupt h
    rw [schedule, ih h2, h1, h3, List.replicate_succ]

/-! ## Rounds -/

section Rounds

variable {g : Table}

theorem nodup_nonIdle (g : Table) : (nonIdle g).Nodup := by
  have hslots : slots.Nodup := by decide
  exact hslots.filter _

/-- A round begins with the slice of its first task. -/
theorem round_cons (reset : Bool) {i : Nat} (order : List Nat) (hi : 1 ≤ priority g i) :
    round g reset (i :: order) = (some i, reset) ::
      (List.replicate (priority g i - 1) (some i, false) ++ round g false order) := by
  obtain ⟨p, hp⟩ := Nat.exists_eq_add_of_le' hi
  have htail : ∀ l : List Nat, (l.map fun j => ((some j, false) : Option Nat × Bool)) =
      match l with
      | [] => []
      | i :: is => (some i, false) :: is.map fun j => (some j, false) := by
    intro l
    cases l with
    | nil => rfl
    | cons i is => rfl
  simp only [round, List.flatMap_cons, hp, List.replicate_succ, List.cons_append,
    Nat.add_sub_cancel, List.map_append, List.map_replicate]
  rw [htail]

/-- No order makes the first slice longer than the priority. -/
theorem not_prefix_rounds {a : Nat} (hne : nonIdle g ≠ []) (hp : ∀ i ∈ nonIdle g, 1 ≤ priority g i)
    {orders : List (List Nat)} (ho : ∀ order ∈ orders, RoundOrder g order) :
    ¬ List.replicate (priority g a + 1) (some a, false) <+: rounds g orders := by
  intro h
  have hbegin : ∀ order, RoundOrder g order → ∃ i is, order = i :: is ∧ 1 ≤ priority g i := by
    intro order hord
    cases order with
    | nil => exact absurd (List.Perm.nil_eq hord.perm).symm hne
    | cons i is => exact ⟨i, is, rfl, hp i (hord.perm.mem_iff.mp (List.mem_cons_self ..))⟩
  cases orders with
  | nil =>
    have hlen := h.length_le
    simp [rounds] at hlen
  | cons order orders =>
    have hord := ho order (List.mem_cons_self ..)
    obtain ⟨i, is, rfl, hi⟩ := hbegin order hord
    -- the round begins with `a` and stays with it as long as its priority says
    obtain ⟨p, hip⟩ := Nat.exists_eq_add_of_le' hi
    rw [rounds, round_cons false is hi, List.replicate_succ, List.cons_append,
      List.cons_prefix_cons] at h
    obtain ⟨hhead, h⟩ := h
    obtain rfl : a = i := Option.some.inj (Prod.mk.inj hhead).1
    rw [hip, Nat.add_sub_cancel, List.replicate_succ', List.append_assoc,
      List.prefix_append_right_inj] at h
    cases is with
    | cons j js =>
      have hj := hp j (hord.perm.mem_iff.mp (by simp))
      rw [round_cons false js hj, List.cons_append, List.cons_prefix_cons] at h
      obtain rfl : a = j := Option.some.inj (Prod.mk.inj h.1).1
      have hnodup := (hord.perm.nodup_iff).mpr (nodup_nonIdle g)
      simp at hnodup
    | nil =>
      cases orders with
      | nil =>
        have hlen := h.length_le
        simp [round] at hlen
      | cons order' orders =>
        obtain ⟨j, js, rfl, hj⟩ := hbegin order' (ho order' (by simp))
        rw [List.flatMap_cons, round_cons true js hj] at h
        simp [round] at h

/-- The order that begins with a given first task. -/
theorem exists_roundOrder {a : Nat} (ha : (nonIdle g).argmax (priority g) = some a) :
    ∃ order, RoundOrder g (a :: order) := by
  have hmem := List.argmax_mem ha
  refine ⟨((nonIdle g).erase a).mergeSort fun i j => decide (priority g j ≤ priority g i), ?_, ?_⟩
  · exact (List.Perm.cons a (List.mergeSort_perm ..)).trans (List.perm_cons_erase hmem).symm
  · refine List.pairwise_cons.mpr ⟨fun i hi => ?_, ?_⟩
    · have hi' := (List.mergeSort_perm ..).mem_iff.mp hi
      exact List.le_of_mem_argmax (List.mem_of_mem_erase hi') ha
    · have hsorted : (((nonIdle g).erase a).mergeSort fun i j =>
          decide (priority g j ≤ priority g i)).Pairwise fun i j =>
            decide (priority g j ≤ priority g i) = true := by
        apply List.pairwise_mergeSort
        · intro i j k h1 h2
          simp only [decide_eq_true_eq] at *
          omega
        · intro i j
          simp only [Bool.or_eq_true, decide_eq_true_eq]
          omega
      exact hsorted.imp fun h => by simpa using h

end Rounds

theorem Start.one_le {s : Sched} (hs : Start s) {i : Nat} (hi : i ∈ nonIdle s.tasks) :
    1 ≤ priority s.tasks i := by
  obtain ⟨t, ht⟩ := Option.isSome_iff_exists.mp (List.mem_filter.mp hi).2
  rw [priority, ht]
  exact (hs.task i t ht).2.2

theorem exists_first {s : Sched} (hne : nonIdle s.tasks ≠ []) :
    ∃ a, (nonIdle s.tasks).argmax (priority s.tasks) = some a :=
  Option.ne_none_iff_exists'.mp fun hnone => hne (List.argmax_eq_none.mp hnone)

/-- **The schedule.** It is the one described exactly when the idle task is alone,
or the first slice is not used up yet. -/
theorem roundBased_iff {s : Sched} (hs : Start s) (n : Nat) :
    RoundBased s.tasks (schedule n s) ↔
      nonIdle s.tasks = [] ∨ ∃ i ∈ nonIdle s.tasks, n ≤ priority s.tasks i := by
  unfold RoundBased
  by_cases hne : nonIdle s.tasks = []
  · rw [if_pos hne, length_schedule]
    exact iff_of_true (schedule_alone ⟨hne, hs.idle, Or.inl hs.current⟩ n) (Or.inl hne)
  · rw [if_neg hne, or_iff_right hne]
    obtain ⟨a, ha⟩ := exists_first hne
    have hmem := List.argmax_mem ha
    have hfirst := schedule_first hs ha
    constructor
    · rintro ⟨orders, ho, hprefix⟩
      refine ⟨a, hmem, ?_⟩
      by_contra hlt
      -- the slice of `a` is too long for every order
      have hlong : List.replicate (priority s.tasks a + 1) (some a, false) <+: schedule n s := by
        rw [← hfirst, ← take_schedule (n := n) (by omega) s]
        exact List.take_prefix ..
      exact not_prefix_rounds hne (fun i hi => hs.one_le hi) ho (hlong.trans hprefix)
    · rintro ⟨i, hi, hn⟩
      have hle : n ≤ priority s.tasks a := hn.trans (List.le_of_mem_argmax hi ha)
      obtain ⟨order, hord⟩ := exists_roundOrder ha
      refine ⟨[a :: order], by simpa using hord, ?_⟩
      obtain ⟨p, hp⟩ := Nat.exists_eq_add_of_le' (hs.one_le hmem)
      rw [← take_schedule (m := n) (n := priority s.tasks a + 1) (by omega) s, hfirst,
        List.take_replicate, Nat.min_eq_left (by omega), rounds,
        round_cons false order (hs.one_le hmem)]
      have hslice : (some a, false) :: (List.replicate (priority s.tasks a - 1) (some a, false) ++
          round s.tasks false order) = List.replicate n (some a, false) ++
            (List.replicate (priority s.tasks a - n) (some a, false) ++
              round s.tasks false order) := by
        rw [← List.append_assoc, List.replicate_append_replicate, ← List.cons_append,
          ← List.replicate_succ, hp]
        congr 2
        omega
      rw [hslice, List.append_assoc]
      exact List.prefix_append ..

/-- **Two tasks take turns.** With two tasks besides the idle one, only the first
two ever run, and no slice is ever reset. -/
theorem two_tasks_run {s : Sched} (hs : Start s) {a b : Nat}
    (ha : (nonIdle s.tasks).argmax (priority s.tasks) = some a)
    (hb : ((nonIdle s.tasks).filter (· ≠ a)).argmax (priority s.tasks) = some b) (n : Nat) :
    ∀ e ∈ schedule n s, e = (some a, false) ∨ e = (some b, false) := by
  have hba : b ≠ a := by simpa using (List.mem_filter.mp (List.argmax_mem hb)).2
  -- `a` comes after `b` again: it is still the first of the others
  have hback : ((nonIdle s.tasks).filter (· ≠ b)).argmax (priority s.tasks) = some a :=
    argmax_filter ha (by simpa using hba.symm)
  have hturns : ∀ (n : Nat) (t : Sched) (c k : Nat), Turn s.tasks t c k → c = a ∨ c = b →
      ∀ e ∈ schedule n t, e = (some a, false) ∨ e = (some b, false) := by
    intro n
    induction n with
    | zero => exact fun _ _ _ _ _ e he => absurd he List.not_mem_nil
    | succ n ih =>
      intro t c k ht hc e he
      have hnext : ∃ d k', (clockInterrupt t).2 = false ∧
          Turn s.tasks (clockInterrupt t).1 d k' ∧ (d = a ∨ d = b) := by
        cases k with
        | succ k =>
          obtain ⟨h1, h2⟩ := ht.count
          exact ⟨c, k, h1, h2, hc⟩
        | zero =>
          rcases hc with rfl | rfl
          · obtain ⟨h1, k, h2⟩ := ht.switch hb
            exact ⟨b, k, h1, h2, Or.inr rfl⟩
          · obtain ⟨h1, k, h2⟩ := ht.switch hback
            exact ⟨a, k, h1, h2, Or.inl rfl⟩
      obtain ⟨d, k', h1, h2, hd⟩ := hnext
      rw [schedule, h1, h2.current] at he
      rcases List.mem_cons.mp he with rfl | he
      · exact hd.imp (fun h => by rw [h]) (fun h => by rw [h])
      · exact ih _ d k' h2 hd e he
  cases n with
  | zero => exact fun e he => absurd he List.not_mem_nil
  | succ n =>
    obtain ⟨h1, h2⟩ := turn_start hs ha
    intro e he
    rw [schedule, h1, h2.current] at he
    rcases List.mem_cons.mp he with rfl | he
    · exact Or.inl rfl
    · exact hturns n _ a _ h2 (Or.inl rfl) e he

/-- **Starvation.** Of three tasks besides the idle one, one never runs. -/
theorem starved {s : Sched} (hs : Start s) (h3 : 3 ≤ (nonIdle s.tasks).length) :
    ∃ i ∈ nonIdle s.tasks, ∀ n, ∀ e ∈ schedule n s, e.1 ≠ some i := by
  have hshort : ∀ l, nonIdle s.tasks ⊆ l → 3 ≤ l.length := fun l hl =>
    h3.trans (List.subperm_of_subset (nodup_nonIdle s.tasks) hl).length_le
  obtain ⟨a, ha⟩ := exists_first (s := s) fun hnil => by simp [hnil] at h3
  obtain ⟨b, hb⟩ : ∃ b, ((nonIdle s.tasks).filter (· ≠ a)).argmax (priority s.tasks) = some b := by
    apply Option.ne_none_iff_exists'.mp
    intro hnone
    have hall := List.filter_eq_nil_iff.mp (List.argmax_eq_none.mp hnone)
    have hle := hshort [a] fun i hi => by simpa using hall i hi
    simp at hle
  obtain ⟨i, hi, hne⟩ : ∃ i ∈ nonIdle s.tasks, i ∉ [a, b] := by
    by_contra hno
    have hle := hshort [a, b] fun i hi => by_contra fun hne => hno ⟨i, hi, hne⟩
    simp at hle
  refine ⟨i, hi, fun n e he heq => hne ?_⟩
  rcases two_tasks_run hs ha hb n e he with rfl | rfl
  · simp [Option.some.inj heq]
  · simp [Option.some.inj heq]

/-! ## Two tasks -/

/-- The idle task, and two tasks of priorities 2 and 1. -/
def sampleSched : Sched where
  tasks i := if i = 0 then some ⟨.ready, 1, 1⟩ else if i = 1 then some ⟨.ready, 2, 2⟩
    else if i = 2 then some ⟨.ready, 1, 1⟩ else none
  current := none
  cpuTickes := 0

theorem sample_sched_ok : Start sampleSched := by
  refine ⟨rfl, rfl, fun i t hi => ?_⟩
  simp only [sampleSched] at hi
  split_ifs at hi <;> obtain rfl := Option.some.inj hi <;> decide

/-- The first task runs three times where the described schedule has two. -/
theorem roundBased_sample_fails :
    Start sampleSched ∧ ¬ RoundBased sampleSched.tasks (schedule 3 sampleSched) := by
  refine ⟨sample_sched_ok, fun h => ?_⟩
  unfold RoundBased at h
  rw [if_neg (by decide)] at h
  obtain ⟨orders, ho, hprefix⟩ := h
  have hthree : schedule 3 sampleSched = List.replicate (priority sampleSched.tasks 1 + 1)
      (some 1, false) := by decide
  rw [hthree] at hprefix
  exact not_prefix_rounds (by decide) (fun i hi => sample_sched_ok.one_le hi) ho hprefix

example : (schedule 9 sampleSched).map (·.1) =
    [some 1, some 1, some 1, some 2, some 2, some 1, some 2, some 1, some 2] := by decide

theorem roundBased_sample_holds : RoundBased sampleSched.tasks (schedule 2 sampleSched) :=
  (roundBased_iff sample_sched_ok 2).mpr (Or.inr ⟨1, by decide, by decide⟩)

end X64SmpOs.X86

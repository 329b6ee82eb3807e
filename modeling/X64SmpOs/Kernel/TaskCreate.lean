import X64SmpOs.Lib.Ledger
import X64SmpOs.Kernel.Sched

/-!
# Creating and cleaning tasks

`ktask_create`, `utask_create` and `task_clean` of `kernel/task64.c` over any
allocator, with the whole descriptor and a record of the calls of the allocator and of
the uses of descriptors.

* `taskCreate`, `taskClean`: the code, `ktaskCreate` and `utaskCreate` by name;
* `taskCreate_null`, `taskCreate_some`: the ways a creation can go;
* `taskCreate_ctx`: a creation that finds a slot is the one of `Kernel.Sched`;
* `allOrNothing_iff`: creation is all or nothing exactly when an allocation fails or
  the slot number, as the copied name leaves it, is that of an empty slot;
* `exit_never_returns`: an exit gives back two blocks of the three.
-/

namespace X64SmpOs.TaskCreate

open Words Memory Ledger Task64

universe u

/-! ## Descriptors -/

/-- `task_t` without its context, its name and its list node. -/
structure TaskT where
  pid : Nat
  function : Nat
  esp0 : Nat
  esp3 : Nat
  cs : Nat
  ss : Nat
  ds : Nat
  stack : Nat
  stackLength : Nat
  userStack : Nat
  userStackLength : Nat
  counter : Nat
  priority : Nat
  state : TaskState
  fisrtSched : Bool
  deriving DecidableEq, Repr

/-- `sizeof(task_t)`. -/
def taskSize : Nat := 373

namespace TaskT

/-- What `kzalloc` returns. -/
def zero : TaskT := ⟨0, 0, 0, 0, 0, 0, 0, 0, 0, 0, 0, 0, 0, .init, false⟩

/-- The fields the scheduler reads. -/
def sched (t : TaskT) : Task := ⟨t.pid, t.counter, t.priority, t.state⟩

end TaskT

/-- The fields behind `name` that are not assigned after the copy. -/
def TaskT.strcpyName (t : TaskT) (name : List Byte) : TaskT :=
  { t with
    pid := strcpyOver name 64 t.pid
    stack := strcpyOver name 120 t.stack
    stackLength := strcpyOver name 128 t.stackLength
    userStack := strcpyOver name 136 t.userStack
    userStackLength := strcpyOver name 144 t.userStackLength }

/-! ## The code -/

/-- `events` lists the calls of the allocator and the uses of descriptors; no step reads
it. -/
structure Kernel (σ : Type u) where
  heap : σ
  tasks : Nat → Option Nat
  task : Nat → TaskT
  events : List Event

variable {σ : Type u}

namespace Kernel

def setTask (k : Kernel σ) (p : Nat) (t : TaskT) : Kernel σ :=
  { k with
    task := Function.update k.task p t
    events := k.events ++ [.use p] }

/-- The table and the scheduling fields. -/
def ctx (k : Kernel σ) : TaskCtx := ⟨k.tasks, fun p => (k.task p).sched⟩

end Kernel

/-- The block's contents matter for descriptors only. -/
def kzalloc (A : Allocator σ) (k : Kernel σ) (len : Nat) : Nat × Kernel σ :=
  let r := A.alloc k.heap len
  (r.1, { k with
    heap := r.2
    events := k.events ++ [.alloc r.1 len] })

def kfreeS (A : Allocator σ) (k : Kernel σ) (ptr len : Nat) : Kernel σ :=
  { k with
    heap := A.free k.heap ptr len
    events := k.events ++ [.free ptr len] }

def addTask (k : Kernel σ) (p : Nat) : Kernel σ :=
  { k with tasks := Function.update k.tasks (k.task p).pid (some p) }

/-- From the index on: the descriptor is filled in and the task stored. -/
def fillTask (k : Kernel σ) (task : Nat) (name : List Byte) (function stackSize : Nat)
    (priority : Int) : Kernel σ :=
  let t := { k.task task with pid := u64OfInt (Sched.getFreeTaskIndex k.ctx) }
  let t := t.strcpyName name
  let t :=
    { t with
      state := .init
      counter := u64OfInt priority
      priority := u64OfInt priority
      function := function
      fisrtSched := true }
  let t :=
    { t with
      esp0 := u64 (t.stack + stackSize)
      esp3 := u64 (t.userStack + stackSize)
      cs := 3 * 8
      ss := 4 * 8
      ds := 4 * 8
      state := .ready }
  addTask (k.setTask task t) task

/-- The body of `ktask_create` and of `utask_create`: the task, or `0` for `NULL`. -/
def taskCreate (A : Allocator σ) (k : Kernel σ) (name : List Byte) (function stackSize : Nat)
    (priority : Int) : Nat × Kernel σ :=
  let (task, k) := kzalloc A k taskSize
  if task = 0 then (0, k)
  else
    let k := k.setTask task { TaskT.zero with stackLength := stackSize }
    let (stack, k) := kzalloc A k stackSize
    let k := k.setTask task { k.task task with stack := stack }
    if stack = 0 then (0, kfreeS A k task taskSize)
    else
      let k := k.setTask task { k.task task with userStackLength := stackSize }
      let (userStack, k) := kzalloc A k stackSize
      let k := k.setTask task { k.task task with userStack := userStack }
      if userStack = 0 then
        let k := kfreeS A k (k.task task).stack stackSize
        (0, kfreeS A k task taskSize)
      else (task, fillTask k task name function stackSize priority)

def ktaskCreate (A : Allocator σ) (k : Kernel σ) (name : List Byte) (function stackSize : Nat)
    (priority : Int) : Nat × Kernel σ := taskCreate A k name function stackSize priority

def utaskCreate (A : Allocator σ) (k : Kernel σ) (name : List Byte) (function stackSize : Nat)
    (priority : Int) : Nat × Kernel σ := taskCreate A k name function stackSize priority

/-- The slot is emptied last, by the number in the descriptor that has been freed. -/
def taskClean (A : Allocator σ) (k : Kernel σ) (p : Nat) : Kernel σ :=
  let k := k.setTask p { k.task p with state := .died }
  let k := kfreeS A k (k.task p).stack (k.task p).stackLength
  let k := kfreeS A k p taskSize
  { k with
    tasks := Function.update k.tasks (k.task p).pid none
    events := k.events ++ [.use p] }

/-! ## The ways a creation can go -/

section Creation

variable (A : Allocator σ) (h : σ) (n : Nat)

/-- The three blocks a creation asks for, each with the allocator behind it. -/
def first : Nat × σ := A.alloc h taskSize
def second : Nat × σ := A.alloc (first A h).2 n
def third : Nat × σ := A.alloc (second A h n).2 n

/-- One of the three allocations fails. -/
def AllocFails : Prop := (first A h).1 = 0 ∨ (second A h n).1 = 0 ∨ (third A h n).1 = 0

end Creation

section Spec

variable {A : Allocator σ} {k : Kernel σ} {n : Nat}

/-- **A failed creation** gives back what it has taken, and leaves the table. -/
theorem taskCreate_null (hf : AllocFails A k.heap n) (name : List Byte) (function : Nat)
    (priority : Int) :
    ∃ k', taskCreate A k name function n priority = (0, k') ∧ k'.tasks = k.tasks ∧
      ∃ es, k'.events = k.events ++ es ∧ Balanced es := by
  simp only [AllocFails, first, second, third] at hf
  simp only [taskCreate, kzalloc, kfreeS, Kernel.setTask, Function.update_self, List.append_assoc]
  generalize A.alloc k.heap taskSize = r1 at *
  by_cases h1 : r1.1 = 0
  · rw [if_pos h1]
    exact ⟨_, rfl, rfl, _, rfl, h1 ▸ balanced_null _⟩
  · rw [if_neg h1]
    generalize A.alloc r1.2 n = r2 at *
    by_cases h2 : r2.1 = 0
    · rw [if_pos h2]
      have hin : Balanced ([.use r1.1, .alloc 0 n, .use r1.1] : List Event) := fun _ => rfl
      refine ⟨_, rfl, rfl, _, rfl, ?_⟩
      rw [h2]
      exact hin.wrap h1 taskSize
    · rw [if_neg h2]
      have h3 : (A.alloc r2.2 n).1 = 0 := (hf.resolve_left h1).resolve_left h2
      rw [if_pos h3, h3]
      have hin : Balanced ([.use r1.1, .use r1.1, .alloc 0 n, .use r1.1] : List Event) :=
        fun _ => rfl
      refine ⟨_, rfl, rfl, _, rfl, ?_⟩
      exact ((balanced_use r1.1).append (hin.wrap h2 n)).wrap h1 taskSize

/-- The descriptor before its number is known. -/
def blank (A : Allocator σ) (h : σ) (n : Nat) : TaskT :=
  { TaskT.zero with
    stack := (second A h n).1
    stackLength := n
    userStack := (third A h n).1
    userStackLength := n }

/-- The state in which the descriptor is filled in. -/
structure Taken (A : Allocator σ) (k : Kernel σ) (n : Nat) (k' : Kernel σ) : Prop where
  tasks : k'.tasks = k.tasks
  task : k'.task (first A k.heap).1 = blank A k.heap n
  others : ∀ q, q ≠ (first A k.heap).1 → k'.task q = k.task q
  events : ∃ es, k'.events = k.events ++ es ∧ frees es = [] ∧
    allocs es = [((first A k.heap).1, taskSize), ((second A k.heap n).1, n),
      ((third A k.heap n).1, n)]

/-- **A creation that gets its blocks** goes on to fill in the descriptor. -/
theorem taskCreate_some (hf : ¬ AllocFails A k.heap n) (name : List Byte) (function : Nat)
    (priority : Int) :
    ∃ k', taskCreate A k name function n priority =
      ((first A k.heap).1, fillTask k' (first A k.heap).1 name function n priority) ∧
      Taken A k n k' := by
  simp only [AllocFails, first, second, third, not_or] at hf
  obtain ⟨h1, h2, h3⟩ := hf
  simp only [taskCreate, kzalloc, Kernel.setTask, h1, h2, h3, ↓reduceIte, first]
  refine ⟨_, rfl, ?_⟩
  constructor
  case tasks => rfl
  case task => simp [blank, first, second, third]
  case others =>
    intro q hq
    have hq' : q ≠ (A.alloc k.heap taskSize).1 := hq
    simp [hq']
  case events =>
    simp only [List.append_assoc]
    refine ⟨_, rfl, rfl, ?_⟩
    simp [allocs, first, second, third, h1, h2, h3]

end Spec

/-! ## Filling in -/

theorem getFreeTaskIndex_congr {g g' : TaskCtx} (h : g'.tasks = g.tasks) :
    Sched.getFreeTaskIndex g' = Sched.getFreeTaskIndex g := by
  unfold Sched.getFreeTaskIndex
  rw [h]

/-- The number a new task gets, as the copied name leaves it. -/
def slotOf (k : Kernel σ) (name : List Byte) : Nat :=
  strcpyOver name 64 (u64OfInt (Sched.getFreeTaskIndex k.ctx))

theorem slotOf_congr {k k' : Kernel σ} (h : k'.tasks = k.tasks) (name : List Byte) :
    slotOf k' name = slotOf k name := by
  unfold slotOf
  rw [@getFreeTaskIndex_congr k.ctx k'.ctx h]

theorem fillTask_pid (k : Kernel σ) (p : Nat) (name : List Byte) (function n : Nat)
    (priority : Int) : ((fillTask k p name function n priority).task p).pid = slotOf k name := by
  simp [fillTask, addTask, Kernel.setTask, TaskT.strcpyName, slotOf]

theorem fillTask_tasks (k : Kernel σ) (p : Nat) (name : List Byte) (function n : Nat)
    (priority : Int) : (fillTask k p name function n priority).tasks =
      Function.update k.tasks (slotOf k name) (some p) := by
  simp [fillTask, addTask, Kernel.setTask, TaskT.strcpyName, slotOf]

theorem fillTask_events (k : Kernel σ) (p : Nat) (name : List Byte) (function n : Nat)
    (priority : Int) : (fillTask k p name function n priority).events = k.events ++ [.use p] :=
  rfl

/-- A name that fits leaves the number as `get_free_task_index` gave it. -/
theorem slotOf_short (k : Kernel σ) {name : List Byte} (h : name.length < 64) :
    slotOf k name = u64OfInt (Sched.getFreeTaskIndex k.ctx) :=
  strcpyOver_short h (u64OfInt_lt _)

/-- **A creation that gets its blocks** is that of `Kernel.Sched`, whatever the name. -/
theorem taskCreate_ctx {A : Allocator σ} {k : Kernel σ} {n : Nat} (hf : ¬ AllocFails A k.heap n)
    (name : List Byte) (function : Nat) (priority : Int) :
    (taskCreate A k name function n priority).2.ctx =
      Sched.ktaskCreate k.ctx (first A k.heap).1 name priority := by
  obtain ⟨k', heq, htaken⟩ := taskCreate_some hf name function priority
  rw [heq]
  obtain ⟨p, hp⟩ : ∃ p, p = (first A k.heap).1 := ⟨_, rfl⟩
  have hothers := htaken.others
  rw [← hp] at hothers ⊢
  have hslot := slotOf_congr htaken.tasks name
  have htasks : (fillTask k' p name function n priority).ctx.tasks =
      Function.update k.tasks (slotOf k name) (some p) := by
    rw [← htaken.tasks, ← hslot]
    exact fillTask_tasks k' p name function n priority
  have htask : (fillTask k' p name function n priority).ctx.task =
      Function.update (fun q => (k.task q).sched) p
        ⟨slotOf k name, u64OfInt priority, u64OfInt priority, .ready⟩ := by
    funext q
    by_cases hq : q = p
    · subst hq
      have hpid := (fillTask_pid k' q name function n priority).trans hslot
      rw [Function.update_self, ← hpid]
      simp [fillTask, addTask, Kernel.setTask, Kernel.ctx, TaskT.sched]
    · rw [Function.update_of_ne hq, ← hothers q hq]
      simp [fillTask, addTask, Kernel.setTask, Kernel.ctx, hq]
  unfold Sched.ktaskCreate Sched.addTask
  simp only [TaskCtx.setTask_self, TaskCtx.setTask_tasks]
  exact congrArg₂ TaskCtx.mk htasks htask

/-! ## All or nothing -/

/-- The task is in an empty slot of the table, and no other slot has changed. -/
def Stored (k : Kernel σ) (r : Nat × Kernel σ) : Prop :=
  r.1 ≠ 0 ∧ ∃ i < taskMaxNums, (r.2.task r.1).pid = i ∧ k.tasks i = none ∧
    r.2.tasks = Function.update k.tasks i (some r.1)

/-- `NULL`, the table as it was and every block given back. -/
def Nothing (k : Kernel σ) (r : Nat × Kernel σ) : Prop :=
  r.1 = 0 ∧ r.2.tasks = k.tasks ∧ ∃ es, r.2.events = k.events ++ es ∧ Balanced es

def AllOrNothing (k : Kernel σ) (r : Nat × Kernel σ) : Prop := Stored k r ∨ Nothing k r

/-- The number the task will have is that of an empty slot. -/
def HasSlot (k : Kernel σ) (name : List Byte) : Prop :=
  slotOf k name < taskMaxNums ∧ k.tasks (slotOf k name) = none

theorem getFreeTaskIndex_cases (g : TaskCtx) :
    (∃ i < taskMaxNums, Sched.getFreeTaskIndex g = i ∧ g.tasks i = none) ∨
      (Sched.getFreeTaskIndex g = -1 ∧ ∀ i < taskMaxNums, g.tasks i ≠ none) := by
  by_cases hfree : Sched.getFreeTaskIndex g = -1
  · refine Or.inr ⟨hfree, fun i hi hnone => ?_⟩
    unfold Sched.getFreeTaskIndex at hfree
    split at hfree
    · omega
    · rename_i hfull
      exact List.find?_eq_none.mp hfull i (List.mem_range.mpr hi) (by simpa using hnone)
  · exact Or.inl (Sched.getFreeTaskIndex_spec hfree)

/-- A short name has a slot when one is empty. -/
theorem hasSlot_short (k : Kernel σ) {name : List Byte} (h : name.length < 64) :
    HasSlot k name ↔ ∃ i < taskMaxNums, k.tasks i = none := by
  unfold HasSlot
  rw [slotOf_short k h]
  rcases getFreeTaskIndex_cases k.ctx with ⟨i, hi, heq, hnone⟩ | ⟨heq, hfull⟩
  · have hu := u64OfInt_natCast (Nat.lt_trans hi (by decide : taskMaxNums < 2 ^ 64))
    rw [heq, hu]
    exact ⟨fun _ => ⟨i, hi, hnone⟩, fun _ => ⟨hi, hnone⟩⟩
  · rw [heq]
    constructor
    · rintro ⟨hlt, -⟩
      exact absurd hlt (by decide)
    · rintro ⟨i, hi, hnone⟩
      exact absurd hnone (hfull i hi)

theorem taskCreate_allOrNothing (A : Allocator σ) (k : Kernel σ) (name : List Byte)
    (function n : Nat) (priority : Int) :
    AllOrNothing k (taskCreate A k name function n priority) ↔
      AllocFails A k.heap n ∨ HasSlot k name := by
  by_cases hf : AllocFails A k.heap n
  · obtain ⟨k', heq, htasks, hevents⟩ := taskCreate_null hf name function priority
    rw [heq]
    exact ⟨fun _ => Or.inl hf, fun _ => Or.inr ⟨rfl, htasks, hevents⟩⟩
  · obtain ⟨k', heq, htaken⟩ := taskCreate_some hf name function priority
    rw [heq]
    have hne : (first A k.heap).1 ≠ 0 := fun h0 => hf (Or.inl h0)
    have hpid := (fillTask_pid k' (first A k.heap).1 name function n priority).trans
      (slotOf_congr htaken.tasks name)
    have htasks := fillTask_tasks k' (first A k.heap).1 name function n priority
    rw [slotOf_congr htaken.tasks, htaken.tasks] at htasks
    constructor
    · rintro (⟨-, i, hi, hpidi, hnone, -⟩ | ⟨h0, -⟩)
      · have hi' : slotOf k name = i := hpid.symm.trans hpidi
        rw [HasSlot, hi']
        exact Or.inr ⟨hi, hnone⟩
      · exact absurd h0 hne
    · rintro (h | ⟨hi, hnone⟩)
      · exact absurd h hf
      · exact Or.inl ⟨hne, _, hi, hpid, hnone, htasks⟩

/-- **Creation is all or nothing** exactly when an allocation fails or the number of the
new task is that of an empty slot. -/
theorem allOrNothing_iff (A : Allocator σ) (k : Kernel σ) (name : List Byte)
    (function n : Nat) (priority : Int) :
    (AllOrNothing k (ktaskCreate A k name function n priority) ↔
      AllocFails A k.heap n ∨ HasSlot k name) ∧
    (AllOrNothing k (utaskCreate A k name function n priority) ↔
      AllocFails A k.heap n ∨ HasSlot k name) :=
  ⟨taskCreate_allOrNothing A k name function n priority,
    taskCreate_allOrNothing A k name function n priority⟩

section Sample

/-- An allocator that never runs out. -/
def bump : Allocator Nat where
  alloc h len := (h, h + len)
  free h _ _ := h

/-- The task of slot `i` is at `0x200000 + 512 * i`. -/
def fullTable : Kernel Nat where
  heap := 0x300000
  tasks i := if i < taskMaxNums then some (0x200000 + 512 * i) else none
  task p := { TaskT.zero with pid := (p - 0x200000) / 512, state := .ready }
  events := []

/-- With all slots occupied a creation stores its task behind the table. -/
theorem fullTable_stores_behind :
    ¬ AllOrNothing fullTable (ktaskCreate bump fullTable [0x61] 0 4096 3) := by
  rintro (⟨-, i, hi, -, hnone, -⟩ | ⟨h0, -⟩)
  · simp [fullTable, hi] at hnone
  · exact absurd h0 (by decide)

example : ((ktaskCreate bump fullTable [0x61] 0 4096 3).2.tasks (2 ^ 64 - 1)) =
    some 0x300000 := by decide +kernel

end Sample

/-! ## Exit -/

/-- The exit from `k₂` to `k₃` gives back what the creation `r` from `k` has taken, uses
no freed descriptor and empties the task's slot. -/
def ExitReturns (k : Kernel σ) (r : Nat × Kernel σ) (k₂ k₃ : Kernel σ) : Prop :=
  ∃ es fs, r.2.events = k.events ++ es ∧ k₃.events = k₂.events ++ fs ∧
    (frees fs).Perm (allocs es) ∧ ¬ UsedAfterFree r.1 fs ∧
    k₃.tasks = Function.update k₂.tasks (r.2.task r.1).pid none

section Exit

variable (A : Allocator σ) (k : Kernel σ)

/-- **What an exit does.** The user stack is not among the blocks it gives back, and the
descriptor is, before its number is read. -/
theorem taskClean_events (p : Nat) :
    (taskClean A k p).events = k.events ++ [.use p,
      .free (k.task p).stack (k.task p).stackLength, .free p taskSize, .use p] := by
  simp [taskClean, kfreeS, Kernel.setTask]

theorem taskClean_tasks (p : Nat) :
    (taskClean A k p).tasks = Function.update k.tasks (k.task p).pid none := by
  simp [taskClean, kfreeS, Kernel.setTask]

variable (name : List Byte) (function n : Nat) (priority : Int)

theorem taskCreate_events (hne : (taskCreate A k name function n priority).1 ≠ 0) :
    ∃ es, (taskCreate A k name function n priority).2.events = k.events ++ es ∧
      (frees es).length = 0 ∧ (allocs es).length = 3 := by
  by_cases hf : AllocFails A k.heap n
  · obtain ⟨k', heq, -⟩ := taskCreate_null hf name function priority
    exact absurd (congrArg Prod.fst heq) hne
  · obtain ⟨k', heq, htaken⟩ := taskCreate_some hf name function priority
    obtain ⟨es, hes, hfrees, hallocs⟩ := htaken.events
    rw [heq]
    refine ⟨es ++ [.use (first A k.heap).1], ?_, ?_, ?_⟩
    · rw [fillTask_events, hes, List.append_assoc]
    · rw [frees_append, hfrees]
      rfl
    · rw [allocs_append, hallocs]
      rfl

/-- Two blocks for three. -/
theorem not_exitReturns (hne : (ktaskCreate A k name function n priority).1 ≠ 0)
    (k₂ : Kernel σ) :
    ¬ ExitReturns k (ktaskCreate A k name function n priority) k₂
      (taskClean A k₂ (ktaskCreate A k name function n priority).1) := by
  rintro ⟨es, fs, hes, hfs, hperm, -⟩
  obtain ⟨es', hes', -, hlen⟩ := taskCreate_events A k name function n priority hne
  have hes : es = es' := List.append_cancel_left (hes.symm.trans hes')
  have hfs := List.append_cancel_left (hfs.symm.trans (taskClean_events A k₂ _))
  have htwo : (frees fs).length = 2 := by
    rw [hfs]
    rfl
  have heq := hperm.length_eq
  rw [hes, hlen, htwo] at heq
  cases heq

/-- The number is read from a descriptor that has been freed. -/
theorem taskClean_usedAfterFree (p : Nat) :
    ∃ fs, (taskClean A k p).events = k.events ++ fs ∧ UsedAfterFree p fs :=
  ⟨_, taskClean_events A k p, [.use p, .free (k.task p).stack (k.task p).stackLength], taskSize,
    [.use p], rfl, List.mem_singleton_self _⟩

/-- A task is created and exits. -/
def cycle (k : Kernel σ) : Kernel σ :=
  let (task, k) := ktaskCreate A k name function n priority
  if task = 0 then k else taskClean A k task

/-- Each of the first `m` creations returns a task. -/
def CreatedEach (m : Nat) : Prop :=
  ∀ j < m, (ktaskCreate A ((cycle A name function n priority)^[j] k)
    name function n priority).1 ≠ 0

/-- One cycle. -/
theorem cycle_live (hne : (ktaskCreate A k name function n priority).1 ≠ 0) :
    (live [] k.events).length < (live [] (cycle A name function n priority k).events).length := by
  obtain ⟨es, hes, hfrees, hallocs⟩ := taskCreate_events A k name function n priority hne
  have hes : (ktaskCreate A k name function n priority).2.events = k.events ++ es := hes
  simp only [cycle, if_neg hne]
  rw [taskClean_events, hes, List.append_assoc, live_append]
  apply length_lt_live
  rw [frees_append, allocs_append, List.length_append, List.length_append, hfrees, hallocs]
  exact Nat.lt_of_le_of_lt (Nat.le_of_eq rfl) (by decide : 0 + 2 < 3 + 0)

/-- **Cycles** leave a block each behind. -/
theorem cycles_live {m : Nat} (hm : CreatedEach A k name function n priority m) :
    (live [] k.events).length + m ≤
      (live [] ((cycle A name function n priority)^[m] k).events).length := by
  induction m with
  | zero => exact Nat.le_refl _
  | succ m ih =>
    have hle := ih fun j hj => hm j (by omega)
    have hone := cycle_live A ((cycle A name function n priority)^[m] k) name function n priority
      (hm m (by omega))
    rw [Function.iterate_succ_apply']
    omega

end Exit

/-- **Exit returns everything for no task.** However the task has run in between, its
exit gives back less than its creation took; cycles of creation and exit pile up
blocks. -/
theorem exit_never_returns (A : Allocator σ) (k : Kernel σ) (name : List Byte)
    (function n : Nat) (priority : Int)
    (hne : (ktaskCreate A k name function n priority).1 ≠ 0) :
    (∀ k₂, ¬ ExitReturns k (ktaskCreate A k name function n priority) k₂
      (taskClean A k₂ (ktaskCreate A k name function n priority).1)) ∧
    ∀ m, 0 < m → CreatedEach A k name function n priority m →
      ¬ (live [] ((cycle A name function n priority)^[m] k).events).Perm (live [] k.events) := by
  refine ⟨not_exitReturns A k name function n priority hne, fun m hm hall hperm => ?_⟩
  have hlen := cycles_live A k name function n priority hall
  have heq := hperm.length_eq
  omega

section Sample

def emptyTable : Kernel Nat where
  heap := 0x300000
  tasks _ := none
  task _ := TaskT.zero
  events := []

theorem exit_never_returns_sample :
    ¬ ExitReturns emptyTable (ktaskCreate bump emptyTable [0x61] 0 4096 3)
      (ktaskCreate bump emptyTable [0x61] 0 4096 3).2
      (taskClean bump (ktaskCreate bump emptyTable [0x61] 0 4096 3).2
        (ktaskCreate bump emptyTable [0x61] 0 4096 3).1) :=
  (exit_never_returns bump emptyTable [0x61] 0 4096 3 (by decide)).1 _

/-- The user stack is still live when the task has exited. -/
theorem exit_keeps_user_stack :
    ¬ ExitReturns emptyTable (ktaskCreate bump emptyTable [0x61] 0 4096 3)
        (ktaskCreate bump emptyTable [0x61] 0 4096 3).2
        (taskClean bump (ktaskCreate bump emptyTable [0x61] 0 4096 3).2
          (ktaskCreate bump emptyTable [0x61] 0 4096 3).1) ∧
      live [] (cycle bump [0x61] 0 4096 3 emptyTable).events = [(0x301175, 4096)] :=
  ⟨not_exitReturns bump emptyTable [0x61] 0 4096 3 (by decide) _, by decide +kernel⟩

end Sample

end X64SmpOs.TaskCreate

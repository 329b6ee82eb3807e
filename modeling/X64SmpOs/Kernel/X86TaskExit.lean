import X64SmpOs.Kernel.TaskCreate
import X64SmpOs.Kernel.X86Heap
import X64SmpOs.Kernel.X86Sleep

/-!
# Creating and leaving tasks of the x86 kernel

`ktask_create`, `utask_create` and `task_exit` of `kernel/task.c` over any allocator,
with a record of its calls.

* `taskCreate`, `taskExit`: the code, `ktaskCreate` and `utaskCreate` by name;
* `taskCreate_cases`: a creation is refused and has given back what it took, or has
  taken three blocks;
* `taskExit_table`: on the table an exit is that of `Kernel.X86Sleep`;
* `stack_stays`, `cycle_heapLive`: what a task leaves behind;
* `exit_gives_back_less`: no exit gives back the three blocks, and cycles of creation
  and exit keep the live blocks only where no creation succeeds.
-/

namespace X64SmpOs.X86TaskExit

open Words Memory Ledger Malloc
open Task64 (TaskState)
open X86 (Table taskMaxNums)

universe u

/-! ## Descriptors -/

/-- The fields of `tss_t` a creation assigns. -/
structure Context where
  esp : Nat
  eip : Nat
  cs : Nat
  ds : Nat
  es : Nat
  fs : Nat
  gs : Nat
  ss : Nat
  deriving DecidableEq, Repr

/-- `task_t` without `runPL` and its name. -/
structure TaskT where
  context : Context
  pid : Nat
  state : TaskState
  function : Nat
  stack : Nat
  userStack : Nat
  stackSize : Nat
  fistSched : Nat
  priority : Nat
  counter : Nat
  esp0 : Nat
  ebp0 : Nat
  esp3 : Nat
  ebp3 : Nat
  deriving DecidableEq, Repr

/-- `sizeof(task_t)`. -/
def taskSize : Nat := 180

def kernelCodeSector : Nat := 1 * 8
def kernelDataSector : Nat := 2 * 8
def userCodeSector : Nat := 3 * 8 + 3
def userDataSector : Nat := 4 * 8 + 3

namespace TaskT

/-- The fields the scheduler reads, and a descriptor with them replaced. -/
def sched (t : TaskT) : X86.Task := ⟨t.state, t.priority, t.counter⟩

def setSched (t : TaskT) (u : X86.Task) : TaskT :=
  { t with
    state := u.state
    priority := u.priority
    counter := u.counter }

@[simp] theorem sched_setSched (t : TaskT) (u : X86.Task) : (t.setSched u).sched = u := rfl

end TaskT

/-- After `strcpy(task->name, name)`, the word `off` bytes behind the begin of
`task->name`, which held `old`. -/
def strcpyOver (name : List Byte) (off old : Nat) : Nat :=
  readLE 4 (TaskCreate.overlay (TaskCreate.cString name) (writeLE 4 (fun _ => 0) off old)) off

/-- The fields behind `name` that are not assigned after the copy. -/
def TaskT.strcpyName (t : TaskT) (name : List Byte) : TaskT :=
  { t with
    stack := strcpyOver name 28 t.stack
    userStack := strcpyOver name 32 t.userStack
    stackSize := strcpyOver name 36 t.stackSize }

/-! ## The code -/

/-- `events` lists the calls of the allocator; no step reads it. -/
structure Kernel (σ : Type u) where
  heap : σ
  tasks : Nat → Option Nat
  task : Nat → TaskT
  current : Option Nat
  events : List Event

variable {σ : Type u}

namespace Kernel

def setTask (k : Kernel σ) (p : Nat) (t : TaskT) : Kernel σ :=
  { k with task := Function.update k.task p t }

/-- The table as the scheduler sees it. -/
def table (k : Kernel σ) : Table := fun i => (k.tasks i).map fun p => (k.task p).sched

/-- What is written to the tasks of `g` is written to the descriptors. -/
def writeTable (k : Kernel σ) (g : Table) : Kernel σ :=
  { k with
    task := fun p =>
      match (List.range taskMaxNums).find? fun i => k.tasks i == some p with
      | none => k.task p
      | some i =>
        match g i with
        | none => k.task p
        | some u => (k.task p).setSched u }

end Kernel

def kmalloc (A : Allocator σ) (k : Kernel σ) (len : Nat) : Nat × Kernel σ :=
  let r := A.alloc k.heap len
  (r.1, { k with
    heap := r.2
    events := k.events ++ [.alloc r.1 len] })

def kfreeS (A : Allocator σ) (k : Kernel σ) (ptr len : Nat) : Kernel σ :=
  { k with
    heap := A.free k.heap ptr len
    events := k.events ++ [.free ptr len] }

def getFreeTaskIndex (tasks : Nat → Option Nat) : Int :=
  match (List.range taskMaxNums).find? fun i => (tasks i).isNone with
  | none => -1
  | some i => i

/-- From `newTask->stackSize = stackSize` on. -/
def fillTask (code data : Nat) (k : Kernel σ) (newTask pid : Nat) (name : List Byte)
    (func stackSize priority : Nat) : Kernel σ :=
  let t := { k.task newTask with stackSize := stackSize }
  let t := t.strcpyName name
  let t :=
    { t with
      function := func
      pid := pid
      state := .init
      fistSched := 1 }
  let esp := sub32 (t.stack + pageSize) 1
  let esp3 := sub32 (t.userStack + stackSize) 1
  let t :=
    { t with
      context := ⟨esp, func, code, data, data, data, data, data⟩
      esp0 := esp
      ebp0 := esp
      esp3 := esp3
      ebp3 := esp3
      counter := priority
      priority := priority
      state := .ready }
  let k := k.setTask newTask t
  { k with tasks := Function.update k.tasks pid (some newTask) }

/-- The body of `ktask_create` and of `utask_create`: the task, or `0` for `NULL`. -/
def taskCreate (code data : Nat) (A : Allocator σ) (k : Kernel σ) (name : List Byte)
    (func stackSize priority : Nat) : Nat × Kernel σ :=
  let pid := getFreeTaskIndex k.tasks
  if pid < 0 then (0, k)
  else
    let stackSize := if stackSize > pageSize then pageSize else stackSize
    let (newTask, k) := kmalloc A k taskSize
    if newTask = 0 then (0, k)
    else
      let (stack, k) := kmalloc A k pageSize
      let k := k.setTask newTask { k.task newTask with stack := stack }
      if stack = 0 then (0, kfreeS A k newTask taskSize)
      else
        let (userStack, k) := kmalloc A k stackSize
        let k := k.setTask newTask { k.task newTask with userStack := userStack }
        if userStack = 0 then
          let k := kfreeS A k (k.task newTask).stack pageSize
          (0, kfreeS A k newTask taskSize)
        else (newTask, fillTask code data k newTask pid.toNat name func stackSize priority)

def ktaskCreate (A : Allocator σ) (k : Kernel σ) (name : List Byte)
    (func stackSize priority : Nat) : Nat × Kernel σ :=
  taskCreate kernelCodeSector kernelDataSector A k name func stackSize priority

def utaskCreate (A : Allocator σ) (k : Kernel σ) (name : List Byte)
    (func stackSize priority : Nat) : Nat × Kernel σ :=
  taskCreate userCodeSector userDataSector A k name func stackSize priority

/-- `CURRENT = task; CURRENT->state = TASK_RUNNING`. A store through `NULL` is left
out. -/
def setCurrent (k : Kernel σ) (task : Option Nat) : Kernel σ :=
  match task with
  | none => { k with current := none }
  | some p =>
    let k := k.setTask p { k.task p with state := .running }
    { k with current := some p }

/-- The task `get_next_ready_task` returns is the one that runs. -/
def switchNext (k : Kernel σ) : Kernel σ :=
  let (next, g, _) := X86.getNextReadyTask k.table
  let k := k.writeTable g
  setCurrent k (next.bind k.tasks)

/-- `task_exit` up to its call of `sched_task`. -/
def taskExit (A : Allocator σ) (k : Kernel σ) (task : Nat) : Kernel σ :=
  let k := { k with tasks := Function.update k.tasks (k.task task).pid none }
  let k := kfreeS A k (k.task task).stack (k.task task).stackSize
  let k := kfreeS A k task taskSize
  switchNext k

/-! ## The ways a creation can go -/

/-- The heap's view of a call: `kfree_s` reads the length for the size of its blocks. -/
def heapView (es : List Event) : List Event := es.map (.mapLen blockLen)

theorem heapView_append (es fs : List Event) : heapView (es ++ fs) = heapView es ++ heapView fs :=
  List.map_append

/-- The requested size, cut to a page. -/
def clamp (stackSize : Nat) : Nat := if stackSize > pageSize then pageSize else stackSize

/-- `NULL`, and the heap is left with the blocks it had. -/
def Refused (k : Kernel σ) (r : Nat × Kernel σ) : Prop :=
  r.1 = 0 ∧ ∃ es, r.2.events = k.events ++ es ∧ Balanced (heapView es)

/-- The blocks of a task, in the order they are taken: descriptor, kernel stack, user
stack. -/
structure Taken (k : Kernel σ) (name : List Byte) (n : Nat) (r : Nat × Kernel σ)
    (stack userStack : Nat) : Prop where
  task_ne : r.1 ≠ 0
  stack_ne : stack ≠ 0
  userStack_ne : userStack ≠ 0
  events : r.2.events =
    k.events ++ [.alloc r.1 taskSize, .alloc stack pageSize, .alloc userStack n]
  stack : (r.2.task r.1).stack = strcpyOver name 28 stack
  stackSize : (r.2.task r.1).stackSize = strcpyOver name 36 n

/-- A block that is taken and given back around others. -/
theorem balanced_wrap {es : List Event} (h : Balanced (heapView es)) {ptr : Nat} (hp : ptr ≠ 0)
    (len : Nat) : Balanced (heapView (.alloc ptr len :: (es ++ [.free ptr len]))) := by
  have hw := h.wrap hp (blockLen len)
  simpa [heapView, Event.mapLen] using hw

theorem balanced_refused (len : Nat) : Balanced (heapView [.alloc 0 len]) := balanced_null _

/-- **Creation.** It is refused, or it has taken its three blocks. -/
theorem taskCreate_cases (code data : Nat) (A : Allocator σ) (k : Kernel σ) (name : List Byte)
    (func stackSize priority : Nat) :
    Refused k (taskCreate code data A k name func stackSize priority) ∨
      ∃ stack userStack, Taken k name (clamp stackSize)
        (taskCreate code data A k name func stackSize priority) stack userStack := by
  unfold taskCreate
  simp only [kmalloc, kfreeS, Kernel.setTask, Function.update_self, List.append_assoc]
  rw [← clamp]
  by_cases hpid : getFreeTaskIndex k.tasks < 0
  · rw [if_pos hpid]
    exact Or.inl ⟨rfl, [], (List.append_nil _).symm, balanced_nil⟩
  · rw [if_neg hpid]
    generalize A.alloc k.heap taskSize = r1
    by_cases h1 : r1.1 = 0
    · rw [if_pos h1, h1]
      exact Or.inl ⟨rfl, _, rfl, balanced_refused _⟩
    · rw [if_neg h1]
      generalize A.alloc r1.2 pageSize = r2
      by_cases h2 : r2.1 = 0
      · rw [if_pos h2, h2]
        exact Or.inl ⟨rfl, _, rfl, balanced_wrap (balanced_refused _) h1 _⟩
      · rw [if_neg h2]
        generalize A.alloc r2.2 (clamp stackSize) = r3
        by_cases h3 : r3.1 = 0
        · rw [if_pos h3, h3]
          have hstack := balanced_wrap (balanced_refused (clamp stackSize)) h2 pageSize
          exact Or.inl ⟨rfl, _, rfl, balanced_wrap hstack h1 _⟩
        · rw [if_neg h3]
          refine Or.inr ⟨r2.1, r3.1, h1, h2, h3, ?_, ?_, ?_⟩
          · simp [fillTask, Kernel.setTask]
          · simp [fillTask, Kernel.setTask, TaskT.strcpyName]
          · simp [fillTask, Kernel.setTask, TaskT.strcpyName]

/-! ## What an exit does -/

theorem switchNext_frame (k : Kernel σ) :
    (switchNext k).events = k.events ∧ (switchNext k).heap = k.heap ∧
      (switchNext k).tasks = k.tasks := by
  unfold switchNext setCurrent
  simp only
  split
  · exact ⟨rfl, rfl, rfl⟩
  · exact ⟨rfl, rfl, rfl⟩

/-- Two calls: the kernel stack with the size of the user stack, and the descriptor. -/
theorem taskExit_events (A : Allocator σ) (k : Kernel σ) (task : Nat) :
    (taskExit A k task).events = k.events ++
      [.free (k.task task).stack (k.task task).stackSize, .free task taskSize] := by
  unfold taskExit
  rw [(switchNext_frame _).1]
  simp [kfreeS]

theorem taskExit_tasks (A : Allocator σ) (k : Kernel σ) (task : Nat) :
    (taskExit A k task).tasks = Function.update k.tasks (k.task task).pid none :=
  (switchNext_frame _).2.2

/-! ## The table behind an exit -/

/-- The slots of the table hold different tasks. -/
structure OneSlot (tasks : Nat → Option Nat) : Prop where
  inj : ∀ i j p, tasks i = some p → tasks j = some p → i = j
  bound : ∀ i, taskMaxNums ≤ i → tasks i = none

namespace OneSlot

variable {k : Kernel σ}

/-- The search by task finds its slot. -/
theorem find_slot (ho : OneSlot k.tasks) {i p : Nat} (hi : k.tasks i = some p) :
    ((List.range taskMaxNums).find? fun j => k.tasks j == some p) = some i := by
  have hlt : i < taskMaxNums := by
    by_contra hge
    rw [ho.bound i (by omega)] at hi
    cases hi
  cases hf : (List.range taskMaxNums).find? fun j => k.tasks j == some p with
  | none => exact absurd hi (by simpa using List.find?_eq_none.mp hf i (List.mem_range.mpr hlt))
  | some j =>
    have hj : k.tasks j = some p := by simpa using List.find?_some hf
    rw [ho.inj i j p hi hj]

/-- The descriptors are those the scheduler has left. -/
theorem table_writeTable (ho : OneSlot k.tasks) {g : Table}
    (hsome : ∀ i, (g i).isSome = (k.table i).isSome) : (k.writeTable g).table = g := by
  funext i
  cases hi : k.tasks i with
  | none =>
    have hnone : (g i).isSome = false := by
      rw [hsome i]
      simp [Kernel.table, hi]
    rw [Option.isSome_eq_false_iff, Option.isNone_iff_eq_none] at hnone
    simp [Kernel.table, Kernel.writeTable, hi, hnone]
  | some p =>
    have hfull : (g i).isSome = true := by
      rw [hsome i]
      simp [Kernel.table, hi]
    obtain ⟨u, hu⟩ := Option.isSome_iff_exists.mp hfull
    simp [Kernel.table, Kernel.writeTable, hi, ho.find_slot hi, hu]

/-- A store to a task is one to its slot. -/
theorem table_setTask (ho : OneSlot k.tasks) {i p : Nat} (hi : k.tasks i = some p) (t : TaskT) :
    (k.setTask p t).table = X86.setTask k.table i t.sched := by
  funext j
  by_cases hj : j = i
  · subst hj
    simp [Kernel.table, Kernel.setTask, X86.setTask, hi]
  · simp only [Kernel.table, Kernel.setTask, X86.setTask, Function.update_of_ne hj]
    cases hq : k.tasks j with
    | none => rfl
    | some q =>
      have hne : q ≠ p := fun hqp => hj (ho.inj j i p (hqp ▸ hq) hi)
      simp [hne]

end OneSlot

theorem OneSlot.table_setCurrent {k : Kernel σ} (ho : OneSlot k.tasks) (c : Nat) :
    (setCurrent k (k.tasks c)).table = X86.setState k.table c .running := by
  cases hc : k.tasks c with
  | none =>
    have hnone : k.table c = none := by simp [Kernel.table, hc]
    simp only [X86.setState, hnone]
    rfl
  | some p =>
    have hsome : k.table c = some (k.task p).sched := by simp [Kernel.table, hc]
    rw [X86.setState_eq hsome]
    exact ho.table_setTask hc _

theorem switchNext_table {k : Kernel σ} (ho : OneSlot k.tasks) {cur : Option Nat} {ticks : Nat}
    {t : X86.Sched} (ht : X86.schedBySleep ⟨k.table, cur, ticks⟩ = some t) :
    (switchNext k).table = t.tasks := by
  have hwrite := ho.table_writeTable (X86.getNextReadyTask_choice k.table).1.isSome
  obtain ⟨c, hc, rfl⟩ := Option.map_eq_some_iff.mp ht
  have hc : (X86.getNextReadyTask k.table).1 = some c := hc
  have hset := OneSlot.table_setCurrent (k := k.writeTable (X86.getNextReadyTask k.table).2.1) ho c
  rw [hwrite] at hset
  simp only [switchNext, hc, Option.bind_some]
  exact hset

/-- **The table** is left as by `task_exit` on the table alone. -/
theorem taskExit_table (A : Allocator σ) {k : Kernel σ} (ho : OneSlot k.tasks) {c p : Nat}
    (hpid : (k.task p).pid = c) {ticks : Nat} {t : X86.Sched}
    (ht : X86.taskExit ⟨k.table, some c, ticks⟩ = some t) : (taskExit A k p).table = t.tasks := by
  have ho' : OneSlot (Function.update k.tasks c none) := by
    constructor
    · intro i j q hi hj
      by_cases hic : i = c
      · simp [hic] at hi
      · by_cases hjc : j = c
        · simp [hjc] at hj
        · rw [Function.update_of_ne hic] at hi
          rw [Function.update_of_ne hjc] at hj
          exact ho.inj i j q hi hj
    · intro i hi
      by_cases hic : i = c
      · simp [hic]
      · rw [Function.update_of_ne hic, ho.bound i hi]
  obtain ⟨k', hk'⟩ : ∃ k', k' = kfreeS A (kfreeS A
      { k with tasks := Function.update k.tasks (k.task p).pid none }
      (k.task p).stack (k.task p).stackSize) p taskSize := ⟨_, rfl⟩
  have htasks : k'.tasks = Function.update k.tasks c none := by
    rw [hk', ← hpid]
    rfl
  have htask : k'.task = k.task := by
    rw [hk']
    rfl
  have htable : k'.table = Function.update k.table c none := by
    funext i
    by_cases hic : i = c
    · simp [Kernel.table, htasks, hic]
    · simp [Kernel.table, htasks, htask, hic]
  have hexit : taskExit A k p = switchNext k' := by
    rw [hk']
    rfl
  rw [hexit]
  have hs : X86.schedBySleep ⟨k'.table, some c, ticks⟩ = some t := by
    rw [htable]
    exact ht
  exact switchNext_table (htasks ▸ ho') hs

/-! ## Exit -/

/-- What the exit from `k₂` to `k₃` gives back is what the creation from `k` to `k₁` has
taken, each block with its length. -/
def GivesBack (k k₁ k₂ k₃ : Kernel σ) : Prop :=
  ∃ es fs, k₁.events = k.events ++ es ∧ k₃.events = k₂.events ++ fs ∧ (frees fs).Perm (allocs es)

/-- The live blocks of the heap, with the sizes they have there. -/
def heapLive (k : Kernel σ) : List Block := live [] (heapView k.events)

inductive Kind
  | kernel
  | user
  deriving DecidableEq, Repr

/-- The arguments of a creation. -/
structure Request where
  kind : Kind
  name : List Byte
  func : Nat
  stackSize : Nat
  priority : Nat

def create (A : Allocator σ) (k : Kernel σ) (r : Request) : Nat × Kernel σ :=
  match r.kind with
  | .kernel => ktaskCreate A k r.name r.func r.stackSize r.priority
  | .user => utaskCreate A k r.name r.func r.stackSize r.priority

/-- A task is created and exits. -/
def cycle (A : Allocator σ) (k : Kernel σ) (r : Request) : Kernel σ :=
  let (task, k) := create A k r
  if task = 0 then k else taskExit A k task

def cycles (A : Allocator σ) (k : Kernel σ) (rs : List Request) : Kernel σ := rs.foldl (cycle A) k

/-- How many of the creations return a task. -/
def created (A : Allocator σ) : Kernel σ → List Request → Nat
  | _, [] => 0
  | k, r :: rs => (if (create A k r).1 = 0 then 0 else 1) + created A (cycle A k r) rs

section Exit

variable (A : Allocator σ) (k : Kernel σ) (r : Request)

theorem create_cases : Refused k (create A k r) ∨
    ∃ stack userStack, Taken k r.name (clamp r.stackSize) (create A k r) stack userStack := by
  unfold create
  cases r.kind with
  | kernel => exact taskCreate_cases _ _ A k r.name r.func r.stackSize r.priority
  | user => exact taskCreate_cases _ _ A k r.name r.func r.stackSize r.priority

theorem create_taken (hne : (create A k r).1 ≠ 0) :
    ∃ stack userStack, Taken k r.name (clamp r.stackSize) (create A k r) stack userStack := by
  rcases create_cases A k r with ⟨h0, -⟩ | ht
  · exact absurd h0 hne
  · exact ht

/-- Two blocks for three. -/
theorem not_givesBack (hne : (create A k r).1 ≠ 0) (k₂ : Kernel σ) :
    ¬ GivesBack k (create A k r).2 k₂ (taskExit A k₂ (create A k r).1) := by
  rintro ⟨es, fs, hes, hfs, hperm⟩
  obtain ⟨stack, userStack, ht⟩ := create_taken A k r hne
  have hes := List.append_cancel_left (hes.symm.trans ht.events)
  have hfs := List.append_cancel_left (hfs.symm.trans (taskExit_events A k₂ _))
  have hthree : (allocs es).length = 3 := by
    rw [hes]
    simp [allocs, ht.task_ne, ht.stack_ne, ht.userStack_ne]
  have htwo : (frees fs).length = 2 := by
    rw [hfs]
    rfl
  have heq := hperm.length_eq
  rw [hthree, htwo] at heq
  cases heq

/-- **One cycle** leaves the heap alone if no task is created, and else a block behind. -/
theorem cycle_live :
    if (create A k r).1 = 0 then heapLive (cycle A k r) = heapLive k
    else (heapLive k).length < (heapLive (cycle A k r)).length := by
  rcases create_cases A k r with ⟨h0, es, hes, hbal⟩ | ⟨stack, userStack, ht⟩
  · have hes : (create A k r).2.events = k.events ++ es := hes
    rw [if_pos h0]
    simp only [heapLive, cycle, if_pos h0]
    rw [hes, heapView_append, live_append, hbal]
  · have htask := ht.task_ne
    have hes : (create A k r).2.events = _ := ht.events
    rw [if_neg htask]
    simp only [heapLive, cycle, if_neg htask]
    rw [taskExit_events, hes, List.append_assoc, heapView_append, live_append]
    apply length_lt_live
    rw [heapView, length_frees_mapLen, length_allocs_mapLen]
    simp [allocs, frees, htask, ht.stack_ne, ht.userStack_ne]

/-- **Cycles** leave a block behind for each task. -/
theorem cycles_live (rs : List Request) :
    (heapLive k).length + created A k rs ≤ (heapLive (cycles A k rs)).length := by
  induction rs generalizing k with
  | nil => exact Nat.le_refl _
  | cons r rs ih =>
    have hrest := ih (cycle A k r)
    have hone := cycle_live A k r
    simp only [cycles, List.foldl_cons, created] at hrest ⊢
    by_cases h0 : (create A k r).1 = 0
    · rw [if_pos h0] at hone ⊢
      rw [hone] at hrest
      omega
    · rw [if_neg h0] at hone ⊢
      omega

theorem cycles_live_refused {rs : List Request} (h : created A k rs = 0) :
    heapLive (cycles A k rs) = heapLive k := by
  induction rs generalizing k with
  | nil => rfl
  | cons r rs ih =>
    rw [created] at h
    have hone := cycle_live A k r
    have h0 : (create A k r).1 = 0 := by
      by_contra hne
      rw [if_neg hne] at h
      omega
    rw [if_pos h0] at hone
    exact (ih (cycle A k r) (by omega)).trans hone

end Exit

/-- **Exit gives back everything for no task.** However a task has run in between, its
exit gives back less than its creation took; cycles of creation and exit keep the live
blocks only where no creation returns a task. -/
theorem exit_gives_back_less (A : Allocator σ) (k : Kernel σ) :
    (∀ r, (create A k r).1 ≠ 0 →
      ∀ k₂, ¬ GivesBack k (create A k r).2 k₂ (taskExit A k₂ (create A k r).1)) ∧
    ∀ rs, (heapLive (cycles A k rs)).Perm (heapLive k) ↔ created A k rs = 0 := by
  refine ⟨fun r hne k₂ => not_givesBack A k r hne k₂, fun rs => ⟨fun hperm => ?_, fun h => ?_⟩⟩
  · have hle := cycles_live A k rs
    have heq := hperm.length_eq
    omega
  · rw [cycles_live_refused A k h]

section Sample

/-- The kernel's heap as an allocator. -/
def x86Allocator (fuel : Nat) : Allocator (Heap X86Heap.Pages) where
  alloc h len := (Malloc.kmalloc X86Heap.x86 fuel h len).getD (0, h)
  free h ptr len := (X86Heap.kfreeS fuel h ptr len).getD h

def booted : Kernel (Heap X86Heap.Pages) where
  heap := emptyHeap (fun _ => 0) ⟨X86Heap.samplePages, []⟩
  tasks _ := none
  task _ := ⟨⟨0, 0, 0, 0, 0, 0, 0, 0⟩, 0, .init, 0, 0, 0, 0, 0, 0, 0, 0, 0, 0, 0⟩
  current := none
  events := []

/-- `ktask_create("idle", idle_func, 2048, 1)`. -/
def idleRequest : Request := ⟨.kernel, [0x69, 0x64, 0x6c, 0x65], 0x10000, 2048, 1⟩

theorem exit_gives_back_less_sample :
    ¬ (heapLive (cycles (x86Allocator 8) booted [idleRequest, idleRequest])).Perm
      (heapLive booted) := fun h =>
  absurd (((exit_gives_back_less (x86Allocator 8) booted).2 _).mp h) (by decide +kernel)

/-- Both stacks of the task are still live when it has exited. -/
theorem exit_keeps_both_stacks :
    ¬ GivesBack booted (create (x86Allocator 8) booted idleRequest).2
        (create (x86Allocator 8) booted idleRequest).2
        (taskExit (x86Allocator 8) (create (x86Allocator 8) booted idleRequest).2
          (create (x86Allocator 8) booted idleRequest).1) ∧
      heapLive (cycle (x86Allocator 8) booted idleRequest) =
        [(0x103000, 2048), (0x102000, 4096)] :=
  ⟨not_givesBack _ _ _ (by decide +kernel) _, by decide +kernel⟩

end Sample

/-! ## What stays behind -/

/-- On the kernel's heap a kernel stack that is given back with the size of a smaller
user stack stays where it is. -/
theorem stack_stays {s : HeapSys X86Heap.Pages} {bs lost : List Bucket} {spare : List Nat}
    (hg : X86Heap.Good s bs lost spare) {stack n fuel : Nat} (hlive : (stack, pageSize) ∈ s.live)
    (hn : n ≤ 2048) {h' : Heap X86Heap.Pages}
    (hk : X86Heap.kfreeS fuel s.heap stack n = some h') : h' = s.heap := by
  refine hg.free_other hlive (fun heq => ?_) hk
  have hpage : blockLen pageSize = 4096 := by decide
  have hle := blockLen_of_le hn
  omega

theorem strcpyOver_short {name : List Byte} {off old : Nat} (h : name.length < off)
    (hold : old < 2 ^ 32) : strcpyOver name off old = old :=
  TaskCreate.readLE_overlay_short h hold

/-- The blocks of the task are apart from each other and from the live ones. -/
structure Fresh (bs : List Block) (task stack userStack : Nat) : Prop where
  task_stack : task ≠ stack
  stack_user : stack ≠ userStack
  user_task : userStack ≠ task
  task : ∀ b ∈ bs, b.1 ≠ task
  stack : ∀ b ∈ bs, b.1 ≠ stack

/-- The descriptor is found, the kernel stack only by its own size. -/
theorem Fresh.live_after {bs : List Block} {task stack userStack : Nat}
    (hf : Fresh bs task stack userStack) (d p m : Nat) :
    (((userStack, m) :: (stack, p) :: (task, d) :: bs).erase (stack, m)).erase (task, d) =
      (userStack, m) :: ((if p = m then [] else [(stack, p)]) ++ bs) := by
  have hstack : (stack, m) ∉ bs := fun hm => hf.stack _ hm rfl
  have h1 : ((userStack, m) == (stack, m)) = false := by simp [hf.stack_user.symm]
  have h2 : ((userStack, m) == (task, d)) = false := by simp [hf.user_task]
  have h3 : ((task, d) == (stack, m)) = false := by simp [hf.task_stack]
  have h4 : ((stack, p) == (task, d)) = false := by simp [hf.task_stack.symm]
  by_cases hp : p = m
  · subst hp
    simp [h1, h2]
  · have h5 : ((stack, p) == (stack, m)) = false := by simp [hp]
    simp [h1, h2, h3, h4, h5, hp, List.erase_of_not_mem hstack]

/-- **What a task leaves behind**: its user stack, and its kernel stack too where the
user stack is a block of another size. -/
theorem cycle_heapLive (A : Allocator σ) {k : Kernel σ} {r : Request} {stack userStack : Nat}
    (ht : Taken k r.name (clamp r.stackSize) (create A k r) stack userStack)
    (hf : Fresh (heapLive k) (create A k r).1 stack userStack) (hname : r.name.length < 28)
    (hstack : stack < 2 ^ 32) :
    heapLive (cycle A k r) = (userStack, blockLen (clamp r.stackSize)) ::
      ((if 2048 < clamp r.stackSize then [] else [(stack, pageSize)]) ++ heapLive k) := by
  have hn : clamp r.stackSize ≤ pageSize := by
    unfold clamp
    split <;> omega
  have hstack' := ht.stack.trans (strcpyOver_short hname hstack)
  have hsize := ht.stackSize.trans (strcpyOver_short (show r.name.length < 36 by omega)
    (Nat.lt_of_le_of_lt hn (by decide)))
  have hevents : (create A k r).2.events = _ := ht.events
  have hlive : heapLive (cycle A k r) =
      (((userStack, blockLen (clamp r.stackSize)) :: (stack, pageSize) ::
        ((create A k r).1, blockLen taskSize) :: heapLive k).erase
          (stack, blockLen (clamp r.stackSize))).erase ((create A k r).1, blockLen taskSize) := by
    have hpage : blockLen pageSize = pageSize := by decide
    simp only [heapLive, cycle, if_neg ht.task_ne]
    rw [taskExit_events, hevents, hstack', hsize, List.append_assoc, heapView_append, live_append]
    simp [heapView, Event.mapLen, live, ht.task_ne, ht.stack_ne, ht.userStack_ne, hpage]
  rw [hlive, hf.live_after]
  by_cases hgt : 2048 < clamp r.stackSize
  · rw [if_pos hgt, if_pos (blockLen_of_gt hgt hn).symm]
  · have hle := blockLen_of_le (Nat.le_of_not_lt hgt)
    have hne : pageSize ≠ blockLen (clamp r.stackSize) := by
      have hpage : pageSize = 4096 := rfl
      omega
    rw [if_neg hgt, if_neg hne]

end X64SmpOs.X86TaskExit

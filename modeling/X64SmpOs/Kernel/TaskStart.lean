import X64SmpOs.Lib.SysV

/-!
# The first switch to a task

`first_sched_task` builds the frame its `iretq` pops, on the stack of whatever ran
before, and puts the address of `task_exit` on the stack of the task.
`move_to_user_state` does the same for user code, and keeps its flags.

* `firstSchedTask`, `moveToUserState`: the code;
* `Getter`: the C functions it calls, one word of the descriptor each;
* `Stage`: the frame while it grows; `Stage.call`, `Stage.push`: what the steps do;
* `firstSchedTask_starts`, `moveToUserState_enters`: where the processor goes on.
-/

namespace X64SmpOs.TaskStart

open Stack SysV

/-! ## The code -/

/-- `task_t`, whose fields up to these are eight bytes each but for the name. -/
def functionOff : BitVec 64 := 256
def esp0Off : BitVec 64 := 264
def esp3Off : BitVec 64 := 272
def csOff : BitVec 64 := 280
def ssOff : BitVec 64 := 288

/-- The functions that are called, the address behind a call, two addresses of code, and
the base of the segment a selector names. -/
structure Layout where
  getTaskCs : Cpu → Cpu
  getTaskSs : Cpu → Cpu
  getTaskEsp0 : Cpu → Cpu
  getTaskEsp3 : Cpu → Cpu
  getTaskFuntion : Cpu → Cpu
  behind : Nat → BitVec 64
  taskExit : BitVec 64
  x64UserMain : BitVec 64
  segmentBase : BitVec 16 → BitVec 64

def call (ra : BitVec 64) (f : Cpu → Cpu) (s : Cpu) : Cpu := f (s.pushWord ra)

/-- `mov rdi, [gs:32]` between two `swapgs`. -/
def currentTask : List Instr := [.swapgs, .loadGs .rdi 32, .swapgs]

def andImm (s : Cpu) (r : Reg) (v : BitVec 64) : Cpu := s.setReg r (s.reg r &&& v)
def orImm (s : Cpu) (r : Reg) (v : BitVec 64) : Cpu := s.setReg r (s.reg r ||| v)
def pushfq (s : Cpu) : Cpu := s.pushWord s.rflags

/-- `mov gs, ax`; the other segments have no base. -/
def movGs (k : Layout) (s : Cpu) : Cpu :=
  { s with gsBase := k.segmentBase ((s.reg .rax).setWidth 16) }

/-- In 64-bit mode five words are popped, whatever the privilege. -/
def iretq (s : Cpu) : Cpu :=
  let sp := s.reg .rsp
  { s.setReg .rsp (s.mem (cell 8 sp 3)) with
    rip := s.mem (cell 8 sp 0)
    cs := (s.mem (cell 8 sp 1)).setWidth 16
    rflags := s.mem (cell 8 sp 2)
    ss := (s.mem (cell 8 sp 4)).setWidth 16 }

/-- `.sched_kernel_task` up to the store of `task_exit` and `push rax`. -/
def pushStack (k : Layout) (s : Cpu) : Cpu :=
  let s := exec (call (k.behind 1) k.getTaskSs s) (.push .rax)
  let s := call (k.behind 2) k.getTaskEsp0 s
  run s [.addImm .rax (-8), .movImm .rcx k.taskExit, .store .rax 0 .rcx, .push .rax]

/-- The flags are read and thrown away. -/
def pushFlags (s : Cpu) : Cpu :=
  let s := run (pushfq s) [.pop .rax, .movImm .rax 0]
  exec (orImm s .rax 0b1000000000) (.push .rax)

def schedKernelTask (k : Layout) (s : Cpu) : Cpu :=
  let s := pushFlags (pushStack k s)
  let s := exec (call (k.behind 3) k.getTaskCs s) (.push .rax)
  let s := exec (call (k.behind 4) k.getTaskFuntion s) (.push .rax)
  iretq (movGs k (call (k.behind 5) k.getTaskSs s))

/-- A task of another privilege level is left to `iretq` and the stack as it is. -/
def firstSchedTask (k : Layout) (s : Cpu) : Cpu :=
  let s := call (k.behind 0) k.getTaskCs (run s currentTask)
  let s := s.setReg .rcx (s.cs.setWidth 64)
  let s := andImm (andImm s .rax 0b111) .rcx 0b111
  if s.reg .rax = s.reg .rcx then schedKernelTask k s else iretq s

def userX64DataSector : BitVec 64 := (5 <<< 3) ||| 0b011
def userX64CodeSector : BitVec 64 := (6 <<< 3) ||| 0b011

def moveToUserState (k : Layout) (s : Cpu) : Cpu :=
  let s := run (s.pushWord userX64DataSector) currentTask
  let s := exec (call (k.behind 6) k.getTaskEsp3 s) (.push .rax)
  let s := ((pushfq s).pushWord userX64CodeSector).pushWord k.x64UserMain
  -- `mov ax` keeps the rest of `rax`
  iretq (movGs k (orImm (andImm s .rax (~~~0xffff)) .rax userX64DataSector))

/-! ## The words below a stack -/

/-- The `i`-th word that is pushed on a stack. -/
def below (sp : BitVec 64) (i : Nat) : BitVec 64 := sp - BitVec.ofNat 64 (i + 1) * 8

/-- An address that is none of the first `n` words below. -/
def Clear (sp : BitVec 64) (n : Nat) (a : BitVec 64) : Prop := ∀ i < n, a ≠ below sp i

theorem below_below (sp : BitVec 64) (n i : Nat) : below (below sp n) i = below sp (n + i + 1) := by
  simp only [below]
  have h : BitVec.ofNat 64 (n + i + 1 + 1) = BitVec.ofNat 64 (n + 1) + BitVec.ofNat 64 (i + 1) := by
    rw [← BitVec.ofNat_add]
    congr 1
    omega
  rw [h, BitVec.add_mul]
  bv_omega

/-- A word on the stack is not below it. -/
theorem clear_cell (sp : BitVec 64) {i k : Nat} (hfit : i + k ≤ 2 ^ 60) :
    Clear sp k (cell 8 sp i) := by
  intro j hj h
  have hzero : BitVec.ofNat 64 (i + (j + 1)) * 8 = 0 := by
    rw [BitVec.ofNat_add, BitVec.add_mul]
    simp only [cell, TaskStart.below] at h
    generalize BitVec.ofNat 64 i * 8 = x at h ⊢
    generalize BitVec.ofNat 64 (j + 1) * 8 = y at h ⊢
    bv_omega
  exact fits_quad (i + (j + 1) + 1) (by omega) _ (by omega) (by omega) hzero

theorem OnStack.rsp {s : Cpu} {base : BitVec 64} {vs : List (BitVec 64)} (h : OnStack s base vs) :
    s.reg .rsp = base - BitVec.ofNat 64 vs.length * 8 := by
  rw [← h.2, cell, BitVec.add_sub_cancel]

theorem OnStack.below {s : Cpu} {base : BitVec 64} {vs : List (BitVec 64)}
    (h : OnStack s base vs) : s.reg .rsp - 8 = TaskStart.below base vs.length := by
  have hrsp := OnStack.rsp h
  rw [hrsp, TaskStart.below, BitVec.ofNat_add, BitVec.add_mul]
  bv_omega

/-! ## The functions that are called -/

/-- `return task->field;`, with at most `k` words of its own on the stack. It leaves `rdi`
alone, which no convention asks for and the code relies upon. -/
structure Getter (k : Nat) (off : BitVec 64) (f : Cpu → Cpu) : Prop where
  rip : ∀ s, (f s).rip = s.mem (s.reg .rsp)
  rsp : ∀ s, (f s).reg .rsp = s.reg .rsp + 8
  saved : ∀ s, ∀ r ∈ calleeSaved, (f s).reg r = s.reg r
  rax : ∀ s, Clear (s.reg .rsp) k (s.reg .rdi + off) → (f s).reg .rax = s.mem (s.reg .rdi + off)
  rdi : ∀ s, (f s).reg .rdi = s.reg .rdi
  cs : ∀ s, (f s).cs = s.cs
  interrupts : ∀ s, (f s).rflags &&& 0x200 = s.rflags &&& 0x200
  kernelGsBase : ∀ s, (f s).kernelGsBase = s.kernelGsBase
  mem : ∀ s a, Clear (s.reg .rsp) k a → (f s).mem a = s.mem a

theorem Getter.returns {k n : Nat} {off : BitVec 64} {f : Cpu → Cpu} (h : Getter k off f) (s : Cpu)
    (hfit : n + 1 + k ≤ 2 ^ 60) : Returns n f s where
  rip := h.rip s
  rsp := h.rsp s
  saved := h.saved s
  frame i hi := by
    rw [← cell_succ]
    exact h.mem s _ (clear_cell _ (by omega))

/-- `mov rax, [rdi+off]` and `ret`. -/
def readField (off : BitVec 64) (s : Cpu) : Cpu := ret (exec s (.load .rax .rdi off))

theorem getter_readField (off : BitVec 64) : Getter 0 off (readField off) where
  rip _ := rfl
  rsp s := by simp [readField, ret, exec]
  saved s r hr := by
    have hread : Instr.writes (.load .rax .rdi off) = [.rax] := rfl
    have hret := (returns_ret 0 (exec s (.load .rax .rdi off))).saved r hr
    refine hret.trans (exec_reg_of_not_mem fun hmem => ?_)
    rw [hread, List.mem_singleton] at hmem
    subst hmem
    simp [calleeSaved] at hr
  rax s _ := by simp [readField, ret, exec]
  rdi s := by simp [readField, ret, exec]
  cs _ := rfl
  interrupts _ := rfl
  kernelGsBase _ := rfl
  mem _ _ _ := rfl

/-! ## The frame -/

/-- Entered in `e`, the words `vs` have been pushed; the memory outside the `n` words below
is `m`. -/
structure Stage (e : Cpu) (n : Nat) (m : BitVec 64 → BitVec 64) (task : BitVec 64)
    (vs : List (BitVec 64)) (s : Cpu) : Prop where
  stack : OnStack s (e.reg .rsp) vs
  rdi : s.reg .rdi = task
  cs : s.cs = e.cs
  kernelGsBase : s.kernelGsBase = e.kernelGsBase
  mem : ∀ a, Clear (e.reg .rsp) n a → s.mem a = m a

section
variable {e s : Cpu} {n k : Nat} {m : BitVec 64 → BitVec 64} {task : BitVec 64}
  {vs : List (BitVec 64)}

theorem Stage.pushWord (h : Stage e n m task vs s) (hn : vs.length < n) (hfit : n ≤ 2 ^ 60)
    (v : BitVec 64) : Stage e n m task (v :: vs) (s.pushWord v) where
  stack := h.stack.pushWord (by omega) v
  rdi := by
    rw [pushWord_reg, if_neg (by decide)]
    exact h.rdi
  cs := h.cs
  kernelGsBase := h.kernelGsBase
  mem a ha := by
    have hne : a ≠ s.reg .rsp - 8 := by
      rw [OnStack.below h.stack]
      exact ha _ hn
    rw [pushWord_mem, Function.update_of_ne hne]
    exact h.mem a ha

theorem Stage.push (h : Stage e n m task vs s) (hn : vs.length < n) (hfit : n ≤ 2 ^ 60) (r : Reg) :
    Stage e n m task (s.reg r :: vs) (exec s (.push r)) :=
  h.pushWord hn hfit (s.reg r)

theorem Stage.pushfq (h : Stage e n m task vs s) (hn : vs.length < n) (hfit : n ≤ 2 ^ 60) :
    Stage e n m task (s.rflags :: vs) (TaskStart.pushfq s) :=
  h.pushWord hn hfit s.rflags

/-- A register other than `rsp` and `rdi`. -/
theorem Stage.setReg (h : Stage e n m task vs s) {r : Reg} (hr : r ≠ .rsp) (hr' : r ≠ .rdi)
    (v : BitVec 64) : Stage e n m task vs (s.setReg r v) where
  stack := h.stack.congr rfl (by rw [setReg_reg, if_neg hr.symm])
  rdi := by
    rw [setReg_reg, if_neg hr'.symm]
    exact h.rdi
  cs := h.cs
  kernelGsBase := h.kernelGsBase
  mem := h.mem

/-- **Call.** The word of the descriptor comes back in `rax`. -/
theorem Stage.call {off : BitVec 64} {f : Cpu → Cpu} (h : Stage e n m task vs s)
    (hf : Getter k off f) (hn : vs.length + 1 + k ≤ n) (hfit : n ≤ 2 ^ 60)
    (hclear : Clear (e.reg .rsp) n (task + off)) (ra : BitVec 64) :
    Stage e n m task vs (TaskStart.call ra f s) ∧
      (TaskStart.call ra f s).reg .rax = m (task + off) := by
  have hpush := h.pushWord (by omega) hfit ra
  have hrsp : (s.pushWord ra).reg .rsp = below (e.reg .rsp) vs.length := by
    rw [pushWord_reg, if_pos rfl]
    exact OnStack.below h.stack
  have hbelow : ∀ a, Clear (e.reg .rsp) n a → Clear ((s.pushWord ra).reg .rsp) k a :=
    fun a ha => by
      rw [hrsp]
      intro i hi
      rw [below_below]
      exact ha _ (by omega)
  refine ⟨⟨?_, ?_, ?_, ?_, fun a ha => ?_⟩, ?_⟩
  · exact h.stack.call (by omega) (hf.returns _ (n := vs.length) (by omega)) (Nat.le_refl _)
  · exact (hf.rdi _).trans hpush.rdi
  · exact (hf.cs _).trans hpush.cs
  · exact (hf.kernelGsBase _).trans hpush.kernelGsBase
  · exact (hf.mem _ a (hbelow a ha)).trans (hpush.mem a ha)
  · have htask : (s.pushWord ra).reg .rdi + off = task + off := by rw [hpush.rdi]
    have hrax := hf.rax (s.pushWord ra) (by rw [htask]; exact hbelow _ hclear)
    rw [htask, hpush.mem _ hclear] at hrax
    exact hrax

theorem Stage.pop {v : BitVec 64} (h : Stage e n m task (v :: vs) s) {r : Reg} (hr : r ≠ .rsp)
    (hr' : r ≠ .rdi) : Stage e n m task vs (exec s (.pop r)) where
  stack := (OnStack.pop h.stack hr).1
  rdi := by
    rw [← h.rdi]
    exact exec_reg_of_not_mem (by simp [Instr.writes, hr'.symm])
  cs := h.cs
  kernelGsBase := h.kernelGsBase
  mem := h.mem

/-- The words that are on the stack, by the order in which they were pushed. -/
theorem Stage.cell_eq (h : Stage e n m task vs s) {i : Nat} (hi : i < vs.length) :
    cell 8 (s.reg .rsp) i = below (e.reg .rsp) (vs.length - 1 - i) := by
  obtain ⟨j, hj⟩ : ∃ j, vs.length = j + i + 1 := ⟨vs.length - 1 - i, by omega⟩
  rw [OnStack.rsp h.stack, below, cell, show vs.length - 1 - i = j by omega, hj, Nat.add_right_comm,
    BitVec.ofNat_add (j + 1), BitVec.add_mul]
  generalize BitVec.ofNat 64 i * 8 = x
  generalize BitVec.ofNat 64 (j + 1) * 8 = y
  bv_omega

/-- A store apart from the frame. -/
theorem Stage.store (h : Stage e n m task vs s) (hn : vs.length ≤ n) {a v : BitVec 64}
    (ha : Clear (e.reg .rsp) n a) :
    Stage e n (Function.update m a v) task vs (s.setMem a v) where
  stack := by
    refine ⟨stackAt_congr h.stack.1 fun i hi => ?_, h.stack.2⟩
    have hne : cell 8 (s.reg .rsp) i ≠ a := by
      rw [h.cell_eq hi]
      exact (ha _ (by omega)).symm
    rw [setMem_mem, setMem_reg, Function.update_of_ne hne]
  rdi := h.rdi
  cs := h.cs
  kernelGsBase := h.kernelGsBase
  mem b hb := by
    rw [setMem_mem]
    by_cases hba : b = a
    · rw [hba, Function.update_self, Function.update_self]
    · rw [Function.update_of_ne hba, Function.update_of_ne hba]
      exact h.mem b hb

/-- **Return.** The five words of the frame. -/
theorem Stage.iretq {rip cs rflags rsp ss : BitVec 64}
    (h : Stage e n m task (rip :: cs :: rflags :: rsp :: ss :: vs) s) :
    (TaskStart.iretq s).rip = rip ∧ (TaskStart.iretq s).cs = cs.setWidth 16 ∧
      (TaskStart.iretq s).rflags = rflags ∧ (TaskStart.iretq s).reg .rsp = rsp ∧
      (TaskStart.iretq s).ss = ss.setWidth 16 := by
  have hget := Between.get h.stack
  simp only [TaskStart.iretq, setReg_reg, if_true]
  exact ⟨hget 0 rip rfl, by rw [hget 1 cs rfl], hget 2 rflags rfl, hget 3 rsp rfl,
    by rw [hget 4 ss rfl]⟩

theorem stage_currentTask {base : BitVec 64} (hstack : OnStack s base vs)
    (hbase : base = e.reg .rsp) (hcs : s.cs = e.cs) (hgs : s.kernelGsBase = e.kernelGsBase)
    (hmem : ∀ a, Clear (e.reg .rsp) n a → s.mem a = e.mem a)
    (hclear : Clear (e.reg .rsp) n (e.kernelGsBase + 32))
    (htask : e.mem (e.kernelGsBase + 32) = task) :
    Stage e n e.mem task vs (run s currentTask) where
  stack := (hbase ▸ hstack).congr rfl (run_reg_of_not_mem (by simp [currentTask, Instr.writes]))
  rdi := by
    simp only [currentTask, run, exec, setReg_reg, if_true, hgs]
    rw [hmem _ hclear, htask]
  cs := hcs
  kernelGsBase := hgs
  mem := hmem

end

/-! ## The first switch -/

/-- What `first_sched_task` finds: the descriptor of a task of the level it runs in itself,
with a stack of its own. Each function it calls uses at most `w` words of stack. -/
structure Ready (k : Layout) (w : Nat) (task : BitVec 64) (e : Cpu) : Prop where
  getTaskCs : Getter w csOff k.getTaskCs
  getTaskSs : Getter w ssOff k.getTaskSs
  getTaskEsp0 : Getter w esp0Off k.getTaskEsp0
  getTaskFuntion : Getter w functionOff k.getTaskFuntion
  fits : 6 + w ≤ 2 ^ 60
  current : e.mem (e.kernelGsBase + 32) = task
  level : e.mem (task + csOff) &&& 0b111 = e.cs.setWidth 64 &&& 0b111
  kpcr : Clear (e.reg .rsp) (6 + w) (e.kernelGsBase + 32)
  fields : ∀ off ∈ [functionOff, esp0Off, csOff, ssOff], Clear (e.reg .rsp) (6 + w) (task + off)
  stack : Clear (e.reg .rsp) (6 + w) (e.mem (task + esp0Off) - 8)
  slot : ∀ off ∈ [functionOff, csOff, ssOff], task + off ≠ e.mem (task + esp0Off) - 8

/-- The task begins with its function, interrupts on, at the top of its own stack, and its
function returns to `task_exit`. -/
structure Starts (k : Layout) (w : Nat) (task : BitVec 64) (e t : Cpu) : Prop where
  rip : t.rip = e.mem (task + functionOff)
  rsp : t.reg .rsp = e.mem (task + esp0Off) - 8
  interrupts : t.rflags &&& 0x200 = 0x200
  cs : t.cs = (e.mem (task + csOff)).setWidth 16
  ss : t.ss = (e.mem (task + ssOff)).setWidth 16
  gsBase : t.gsBase = k.segmentBase ((e.mem (task + ssOff)).setWidth 16)
  kernelGsBase : t.kernelGsBase = e.kernelGsBase
  mem : ∀ a, Clear (e.reg .rsp) (6 + w) a → a ≠ e.mem (task + esp0Off) - 8 → t.mem a = e.mem a
  returns : ∀ (n : Nat) (f : Cpu → Cpu), Returns n f t →
    (f t).rip = k.taskExit ∧ (f t).reg .rsp = e.mem (task + esp0Off)

section
variable {k : Layout} {w : Nat} {task : BitVec 64} {e s : Cpu}

theorem stage_pushFlags {m : BitVec 64 → BitVec 64} {vs : List (BitVec 64)} {n : Nat}
    (h : Stage e n m task vs s) (hn : vs.length < n) (hfit : n ≤ 2 ^ 60) :
    Stage e n m task (0x200 :: vs) (pushFlags s) := by
  have hzero := ((h.pushfq hn hfit).pop (r := .rax) (by decide) (by decide)).setReg
    (r := .rax) (by decide) (by decide) 0
  have hor := (hzero.setReg (r := .rax) (by decide) (by decide)
    ((0 : BitVec 64) ||| 0b1000000000)).push hn hfit .rax
  simp only [setReg_reg, if_true] at hor
  have hvalue : (0 : BitVec 64) ||| 0b1000000000 = 0x200 := by decide
  rw [hvalue] at hor
  simp only [pushFlags, run, orImm, exec, setReg_reg, if_true, hvalue]
  exact hor

/-- `task_exit` goes to the word below `rax`. -/
theorem run_exitSlot {v : BitVec 64} (x : BitVec 64) (hrax : s.reg .rax = v) :
    run s [.addImm .rax (-8), .movImm .rcx x, .store .rax 0 .rcx, .push .rax] =
      exec (((s.setReg .rax (v - 8)).setReg .rcx x).setMem (v - 8) x) (.push .rax) := by
  have hslot : s.reg .rax + -8 = v - 8 := by rw [hrax, BitVec.sub_eq_add_neg]
  have hzero : v - 8 + 0 = v - 8 := BitVec.add_zero _
  simp only [run, exec, setReg_reg, reduceCtorEq, if_true, if_false, hslot, hzero]

theorem stage_pushStack (h : Ready k w task e) (hs : Stage e (6 + w) e.mem task [] s) :
    Stage e (6 + w) (Function.update e.mem (e.mem (task + esp0Off) - 8) k.taskExit) task
      [e.mem (task + esp0Off) - 8, e.mem (task + ssOff)] (pushStack k s) := by
  obtain ⟨hss, hrax⟩ := hs.call h.getTaskSs (by simp only [List.length]; omega) h.fits
    (h.fields ssOff (by decide)) (k.behind 1)
  have hpush := hss.push (by simp only [List.length]; omega) h.fits .rax
  rw [hrax] at hpush
  obtain ⟨hesp0, hrax0⟩ := hpush.call h.getTaskEsp0 (by simp only [List.length]; omega) h.fits
    (h.fields esp0Off (by decide)) (k.behind 2)
  have hstore := ((hesp0.setReg (r := .rax) (by decide) (by decide)
    (e.mem (task + esp0Off) - 8)).setReg (r := .rcx) (by decide) (by decide) k.taskExit).store
      (by simp only [List.length]; omega) (v := k.taskExit) h.stack
  have hend := hstore.push (by simp only [List.length]; omega) h.fits .rax
  simp only [setMem_reg, setReg_reg, reduceCtorEq, if_true, if_false] at hend
  rw [pushStack, run_exitSlot _ hrax0]
  exact hend

/-- The word of the descriptor that a getter returns goes on top of the frame. -/
theorem Stage.pushField {m : BitVec 64 → BitVec 64} {vs : List (BitVec 64)} {n : Nat}
    {off : BitVec 64} {f : Cpu → Cpu} (h : Stage e n m task vs s) (hf : Getter w off f)
    (hn : vs.length + 1 + w ≤ n) (hfit : n ≤ 2 ^ 60) (hclear : Clear (e.reg .rsp) n (task + off))
    (ra : BitVec 64) :
    Stage e n m task (m (task + off) :: vs) (exec (TaskStart.call ra f s) (.push .rax)) := by
  obtain ⟨hcall, hrax⟩ := h.call hf hn hfit hclear ra
  have hpush := hcall.push (by omega) hfit .rax
  rw [hrax] at hpush
  exact hpush

/-- The frame is whole, and `rax` holds the selector of the data segment. -/
theorem stage_frame (h : Ready k w task e) (hs : Stage e (6 + w) e.mem task [] s) :
    ∃ t, schedKernelTask k s = iretq (movGs k t) ∧ t.reg .rax = e.mem (task + ssOff) ∧
      Stage e (6 + w) (Function.update e.mem (e.mem (task + esp0Off) - 8) k.taskExit) task
        [e.mem (task + functionOff), e.mem (task + csOff), 0x200, e.mem (task + esp0Off) - 8,
          e.mem (task + ssOff)] t := by
  have hkeep : ∀ off ∈ [functionOff, csOff, ssOff],
      Function.update e.mem (e.mem (task + esp0Off) - 8) k.taskExit (task + off) =
        e.mem (task + off) :=
    fun off hoff => Function.update_of_ne (h.slot off hoff) _ _
  have hflags := stage_pushFlags (stage_pushStack h hs) (by simp only [List.length]; omega) h.fits
  have hcs := hflags.pushField h.getTaskCs (by simp only [List.length]; omega) h.fits
    (h.fields csOff (by decide)) (k.behind 3)
  have hfunction := hcs.pushField h.getTaskFuntion (by simp only [List.length]; omega) h.fits
    (h.fields functionOff (by decide)) (k.behind 4)
  rw [hkeep csOff (by decide), hkeep functionOff (by decide)] at hfunction
  obtain ⟨hss, hrax⟩ := hfunction.call h.getTaskSs (by simp only [List.length]; omega) h.fits
    (h.fields ssOff (by decide)) (k.behind 5)
  rw [hkeep ssOff (by decide)] at hrax
  exact ⟨_, rfl, hrax, hss⟩

theorem Stage.movGs {m : BitVec 64 → BitVec 64} {vs : List (BitVec 64)} {n : Nat}
    (h : Stage e n m task vs s) (k : Layout) : Stage e n m task vs (TaskStart.movGs k s) where
  stack := h.stack
  rdi := h.rdi
  cs := h.cs
  kernelGsBase := h.kernelGsBase
  mem := h.mem

/-- A task of the level of the code itself is found by the comparison. -/
theorem firstSchedTask_eq (h : Ready k w task e) :
    ∃ s, firstSchedTask k e = schedKernelTask k s ∧ Stage e (6 + w) e.mem task [] s := by
  have hnil : OnStack e (e.reg .rsp) [] := ⟨trivial, cell_zero _ _⟩
  have hcurrent := stage_currentTask hnil rfl rfl rfl (fun _ _ => rfl) h.kpcr h.current
  obtain ⟨hcs, hrax⟩ := hcurrent.call h.getTaskCs (by simp only [List.length]; omega) h.fits
    (h.fields csOff (by decide)) (k.behind 0)
  have hlevel := h.level
  rw [← hrax, ← hcs.cs] at hlevel
  refine ⟨_, if_pos ?_, ((hcs.setReg (by decide) (by decide) _).setReg (by decide) (by decide)
    _).setReg (by decide) (by decide) _⟩
  simp only [andImm, setReg_reg, reduceCtorEq, if_true, if_false]
  exact hlevel

/-- **The first switch.** -/
theorem firstSchedTask_starts (h : Ready k w task e) : Starts k w task e (firstSchedTask k e) := by
  obtain ⟨s, hs, hstage⟩ := firstSchedTask_eq h
  obtain ⟨t, ht, hrax, hframe⟩ := stage_frame h hstage
  obtain ⟨hrip, hcs, hrflags, hrsp, hss⟩ := (hframe.movGs k).iretq
  have hmem : (iretq (movGs k t)).mem (e.mem (task + esp0Off) - 8) = k.taskExit := by
    have hslot := (hframe.movGs k).mem _ h.stack
    rw [Function.update_self] at hslot
    exact hslot
  rw [hs, ht]
  refine ⟨hrip, hrsp, ?_, hcs, hss, ?_, hframe.kernelGsBase, fun a ha hne => ?_,
    fun n f hf => ⟨?_, ?_⟩⟩
  · rw [hrflags]
    decide
  · simp only [iretq, movGs, hrax]
    rfl
  · have hkeep := (hframe.movGs k).mem a ha
    rw [Function.update_of_ne hne] at hkeep
    exact hkeep
  · rw [hf.rip, hrsp, hmem]
  · rw [hf.rsp, hrsp, BitVec.sub_add_cancel]

end

/-- The addresses are those of no build. -/
def layout : Layout where
  getTaskCs := readField csOff
  getTaskSs := readField ssOff
  getTaskEsp0 := readField esp0Off
  getTaskEsp3 := readField esp3Off
  getTaskFuntion := readField functionOff
  behind i := BitVec.ofNat 64 (0x1000 + 8 * i)
  taskExit := 0x1800
  x64UserMain := 0x1900
  segmentBase _ := 0

/-- A processor whose task descriptor is at `0x3000`. -/
def processor : Cpu where
  reg r := if r = .rsp then 0x2000 else 0
  rip := 0x1000
  rflags := 0x202
  cs := 0x18
  ss := 0x20
  gsBase := 0
  kernelGsBase := 0x100
  mem a :=
    if a = 0x120 then 0x3000
    else if a = 0x3000 + functionOff then 0x5000
    else if a = 0x3000 + esp0Off then 0x9000
    else if a = 0x3000 + esp3Off then 0x8000
    else if a = 0x3000 + csOff then 0x18
    else if a = 0x3000 + ssOff then 0x20
    else 0

theorem processor_esp0 : processor.mem (0x3000 + esp0Off) = 0x9000 := by decide

theorem firstSchedTask_starts_processor :
    Starts layout 0 0x3000 processor (firstSchedTask layout processor) :=
  firstSchedTask_starts {
    getTaskCs := getter_readField csOff
    getTaskSs := getter_readField ssOff
    getTaskEsp0 := getter_readField esp0Off
    getTaskFuntion := getter_readField functionOff
    fits := by decide
    current := by decide
    level := by decide
    kpcr := by unfold Clear; decide
    fields := by
      simp only [Clear, List.forall_mem_cons]
      exact ⟨by decide, by decide, by decide, by decide, nofun⟩
    stack := by rw [processor_esp0]; unfold Clear; decide
    slot := by
      rw [processor_esp0]
      simp [functionOff, csOff, ssOff] }

/-! ## User code -/

/-- What `move_to_user_state` finds: the descriptor of the task it runs in. -/
structure UserReady (k : Layout) (w : Nat) (task : BitVec 64) (e : Cpu) : Prop where
  getTaskEsp3 : Getter w esp3Off k.getTaskEsp3
  fits : 5 + w ≤ 2 ^ 60
  current : e.mem (e.kernelGsBase + 32) = task
  kpcr : Clear (e.reg .rsp) (5 + w) (e.kernelGsBase + 32)
  field : Clear (e.reg .rsp) (5 + w) (task + esp3Off)

/-- The user program begins at the top of the user stack, in user segments, with the
interrupts as they were. -/
structure Enters (k : Layout) (w : Nat) (task : BitVec 64) (e t : Cpu) : Prop where
  rip : t.rip = k.x64UserMain
  rsp : t.reg .rsp = e.mem (task + esp3Off)
  cs : t.cs = userX64CodeSector.setWidth 16
  ss : t.ss = userX64DataSector.setWidth 16
  interrupts : t.rflags &&& 0x200 = e.rflags &&& 0x200
  gsBase : t.gsBase = k.segmentBase (userX64DataSector.setWidth 16)
  kernelGsBase : t.kernelGsBase = e.kernelGsBase
  mem : ∀ a, Clear (e.reg .rsp) (5 + w) a → t.mem a = e.mem a

section
variable {k : Layout} {w : Nat} {task : BitVec 64} {e : Cpu}

theorem setWidth_mov_ax (v : BitVec 64) :
    ((v &&& ~~~0xffff) ||| userX64DataSector).setWidth 16 = userX64DataSector.setWidth 16 := by
  rw [BitVec.setWidth_or, BitVec.setWidth_and]
  have hmask : BitVec.setWidth 16 (~~~(0xffff : BitVec 64)) = 0#16 := by decide
  rw [hmask, BitVec.and_zero, BitVec.zero_or]

/-- The frame is whole, and the selector of the data segment is in `ax`. -/
theorem stage_userFrame (h : UserReady k w task e) :
    ∃ t rflags, moveToUserState k e = iretq (movGs k t) ∧
      (t.reg .rax).setWidth 16 = userX64DataSector.setWidth 16 ∧
      rflags &&& 0x200 = e.rflags &&& 0x200 ∧
      Stage e (5 + w) e.mem task
        [k.x64UserMain, userX64CodeSector, rflags, e.mem (task + esp3Off), userX64DataSector]
        t := by
  have hnil : OnStack e (e.reg .rsp) [] := ⟨trivial, cell_zero _ _⟩
  have hfit := h.fits
  have hss : Stage e (5 + w) e.mem (e.reg .rdi) [userX64DataSector]
      (e.pushWord userX64DataSector) :=
    Stage.pushWord ⟨hnil, rfl, rfl, rfl, fun _ _ => rfl⟩ (by simp only [List.length]; omega) hfit _
  have hcurrent := stage_currentTask hss.stack rfl hss.cs hss.kernelGsBase hss.mem h.kpcr h.current
  have hesp3 := hcurrent.pushField h.getTaskEsp3 (by simp only [List.length]; omega) hfit h.field
    (k.behind 6)
  have hflags : (call (k.behind 6) k.getTaskEsp3
      (run (e.pushWord userX64DataSector) currentTask)).rflags &&& 0x200 = e.rflags &&& 0x200 :=
    h.getTaskEsp3.interrupts _
  have hrflags := hesp3.pushfq (by simp only [List.length]; omega) hfit
  have hcs := hrflags.pushWord (by simp only [List.length]; omega) hfit userX64CodeSector
  have hpushed := hcs.pushWord (by simp only [List.length]; omega) hfit k.x64UserMain
  refine ⟨_, _, rfl, ?_, hflags, (hpushed.setReg (by decide) (by decide) _).setReg (by decide)
    (by decide) _⟩
  simp only [andImm, orImm, setReg_reg, if_true]
  exact setWidth_mov_ax _

/-- **Into user code.** -/
theorem moveToUserState_enters (h : UserReady k w task e) :
    Enters k w task e (moveToUserState k e) := by
  obtain ⟨t, rflags, ht, hax, hflags, hframe⟩ := stage_userFrame h
  obtain ⟨hrip, hcs, hrflags, hrsp, hss⟩ := (hframe.movGs k).iretq
  rw [ht]
  refine ⟨hrip, hrsp, hcs, hss, ?_, ?_, hframe.kernelGsBase, hframe.mem⟩
  · rw [hrflags, hflags]
  · simp only [iretq, movGs, hax]
    rfl

end

theorem moveToUserState_enters_processor :
    Enters layout 0 0x3000 processor (moveToUserState layout processor) :=
  moveToUserState_enters {
    getTaskEsp3 := getter_readField esp3Off
    fits := by decide
    current := by decide
    kpcr := by unfold Clear; decide
    field := by unfold Clear; decide }

end X64SmpOs.TaskStart

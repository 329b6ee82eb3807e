import X64SmpOs.Lib.Stack

/-!
# Straight-line code and calls on x86-64

Registers and a memory of quadwords, the few instructions that hand-written
entry code is made of, and the System V convention as a contract of the called
function.

* `exec`, `run`: an instruction, and a piece of code without a jump;
* `Returns n f s`: a called function is a state transformer, from the state with
  its return address pushed to behind its `ret`; entered in `s` it keeps the
  convention and `n` words of the caller's frame;
* `OnStack s base vs`: the words on the stack up to the address `base`, with a rule
  for each instruction that moves `rsp`.
-/

namespace X64SmpOs.SysV

open Stack

inductive Reg
  | rax | rbx | rcx | rdx | rsi | rdi | rbp | rsp
  | r8 | r9 | r10 | r11 | r12 | r13 | r14 | r15
  deriving DecidableEq, Repr

structure Cpu where
  reg : Reg → BitVec 64
  rip : BitVec 64
  rflags : BitVec 64
  cs : BitVec 16
  ss : BitVec 16
  gsBase : BitVec 64
  kernelGsBase : BitVec 64
  mem : BitVec 64 → BitVec 64

inductive Instr
  | mov (d s : Reg)
  | movImm (d : Reg) (v : BitVec 64)
  | addImm (d : Reg) (v : BitVec 64)
  /-- `lea d, [s*scale+disp]` -/
  | lea (d s : Reg) (scale disp : BitVec 64)
  /-- `mov d, [base+disp]` -/
  | load (d base : Reg) (disp : BitVec 64)
  /-- `mov [base+disp], s` -/
  | store (base : Reg) (disp : BitVec 64) (s : Reg)
  /-- `mov d, [gs:disp]` -/
  | loadGs (d : Reg) (disp : BitVec 64)
  /-- `mov [gs:disp], s` -/
  | storeGs (disp : BitVec 64) (s : Reg)
  | push (r : Reg)
  | pop (r : Reg)
  | swapgs

def Cpu.setReg (s : Cpu) (r : Reg) (v : BitVec 64) : Cpu :=
  { s with reg := Function.update s.reg r v }

def Cpu.setMem (s : Cpu) (a v : BitVec 64) : Cpu :=
  { s with mem := Function.update s.mem a v }

def Cpu.pushWord (s : Cpu) (v : BitVec 64) : Cpu :=
  (s.setMem (s.reg .rsp - 8) v).setReg .rsp (s.reg .rsp - 8)

def exec (s : Cpu) : Instr → Cpu
  | .mov d r => s.setReg d (s.reg r)
  | .movImm d v => s.setReg d v
  | .addImm d v => s.setReg d (s.reg d + v)
  | .lea d r scale disp => s.setReg d (s.reg r * scale + disp)
  | .load d base disp => s.setReg d (s.mem (s.reg base + disp))
  | .store base disp r => s.setMem (s.reg base + disp) (s.reg r)
  | .loadGs d disp => s.setReg d (s.mem (s.gsBase + disp))
  | .storeGs disp r => s.setMem (s.gsBase + disp) (s.reg r)
  | .push r => s.pushWord (s.reg r)
  | .pop r => (s.setReg .rsp (s.reg .rsp + 8)).setReg r (s.mem (s.reg .rsp))
  | .swapgs =>
    { s with
      gsBase := s.kernelGsBase
      kernelGsBase := s.gsBase }

def run (s : Cpu) : List Instr → Cpu
  | [] => s
  | i :: is => run (exec s i) is

theorem run_append (s : Cpu) (is js : List Instr) : run s (is ++ js) = run (run s is) js := by
  induction is generalizing s with
  | nil => rfl
  | cons i is ih => exact ih (exec s i)

/-- The registers an instruction writes. -/
def Instr.writes : Instr → List Reg
  | .mov d _ | .movImm d _ | .addImm d _ | .lea d _ _ _ | .load d _ _ | .loadGs d _ => [d]
  | .push _ => [.rsp]
  | .pop r => [r, .rsp]
  | .store _ _ _ | .storeGs _ _ | .swapgs => []

def ret (s : Cpu) : Cpu :=
  { s.setReg .rsp (s.reg .rsp + 8) with rip := s.mem (s.reg .rsp) }

section
variable (s : Cpu) (r r' : Reg) (a v : BitVec 64)

@[simp] theorem setReg_reg : (s.setReg r v).reg r' = if r' = r then v else s.reg r' :=
  Function.update_apply s.reg r v r'

@[simp] theorem setReg_mem : (s.setReg r v).mem = s.mem := rfl
@[simp] theorem setReg_gsBase : (s.setReg r v).gsBase = s.gsBase := rfl
@[simp] theorem setReg_kernelGsBase : (s.setReg r v).kernelGsBase = s.kernelGsBase := rfl

@[simp] theorem setMem_reg : (s.setMem a v).reg = s.reg := rfl
@[simp] theorem setMem_mem : (s.setMem a v).mem = Function.update s.mem a v := rfl
@[simp] theorem setMem_gsBase : (s.setMem a v).gsBase = s.gsBase := rfl
@[simp] theorem setMem_kernelGsBase : (s.setMem a v).kernelGsBase = s.kernelGsBase := rfl

@[simp] theorem pushWord_reg :
    (s.pushWord v).reg r = if r = .rsp then s.reg .rsp - 8 else s.reg r := by
  simp [Cpu.pushWord]

@[simp] theorem pushWord_mem :
    (s.pushWord v).mem = Function.update s.mem (s.reg .rsp - 8) v := rfl
@[simp] theorem pushWord_gsBase : (s.pushWord v).gsBase = s.gsBase := rfl
@[simp] theorem pushWord_kernelGsBase : (s.pushWord v).kernelGsBase = s.kernelGsBase := rfl

end

/-- An instruction keeps the registers it does not write, and so does code. -/
theorem exec_reg_of_not_mem {s : Cpu} {r : Reg} {i : Instr} (h : r ∉ i.writes) :
    (exec s i).reg r = s.reg r := by
  cases i <;> simp_all [exec, Instr.writes]

theorem run_reg_of_not_mem {s : Cpu} {r : Reg} {is : List Instr} (h : ∀ i ∈ is, r ∉ i.writes) :
    (run s is).reg r = s.reg r := by
  induction is generalizing s with
  | nil => rfl
  | cons i is ih =>
    have hi := h i List.mem_cons_self
    rw [run, ih fun j hj => h j (List.mem_cons_of_mem i hj), exec_reg_of_not_mem hi]

/-! ## The convention -/

def calleeSaved : List Reg := [.rbx, .rbp, .r12, .r13, .r14, .r15]

/-- Entered in `s`, with its return address on top of the stack, the function
returns there with the stack as it was and the registers it has to keep, and has
not written to the `n` words above the return address. -/
structure Returns (n : Nat) (f : Cpu → Cpu) (s : Cpu) : Prop where
  rip : (f s).rip = s.mem (s.reg .rsp)
  rsp : (f s).reg .rsp = s.reg .rsp + 8
  saved : ∀ r ∈ calleeSaved, (f s).reg r = s.reg r
  frame : ∀ i < n, (f s).mem (cell 8 (s.reg .rsp + 8) i) = s.mem (cell 8 (s.reg .rsp + 8) i)

/-- A function that only returns. -/
theorem returns_ret (n : Nat) (s : Cpu) : Returns n ret s where
  rip := rfl
  rsp := by simp [ret]
  saved r hr := by
    have hne : r ≠ .rsp := by
      rintro rfl
      simp [calleeSaved] at hr
    simp [ret, hne]
  frame _ _ := rfl

/-! ## The stack -/

/-- The words on the stack, the last of which ends at `base`. -/
def OnStack (s : Cpu) (base : BitVec 64) (vs : List (BitVec 64)) : Prop :=
  Between 8 s.mem (s.reg .rsp) base vs

section
variable {s t : Cpu} {base v : BitVec 64} {vs ws : List (BitVec 64)}

/-- Code that leaves `rsp` and the memory alone. -/
theorem OnStack.congr (h : OnStack s base vs) (hmem : t.mem = s.mem)
    (hrsp : t.reg .rsp = s.reg .rsp) : OnStack t base vs := by
  rw [OnStack, hmem, hrsp]
  exact h

/-- As many words up to the same address begin at the same address. -/
theorem OnStack.rsp_eq (h : OnStack s base vs) (h' : OnStack t base ws)
    (hlen : vs.length = ws.length) : s.reg .rsp = t.reg .rsp := by
  have heq := h.2.trans h'.2.symm
  rw [cell, cell, hlen] at heq
  exact (BitVec.add_left_inj _).mp heq

theorem OnStack.pushWord (h : OnStack s base vs) (hfit : vs.length + 1 ≤ 2 ^ 61) (v : BitVec 64) :
    OnStack (s.pushWord v) base (v :: vs) := by
  have hpush := Between.push h (fits_quad _ hfit) v
  rw [OnStack, pushWord_mem, pushWord_reg, if_pos rfl]
  exact hpush

/-- The word on top is loaded. -/
theorem OnStack.load {r : Reg} (h : OnStack s base (v :: vs)) (hr : r ≠ .rsp) :
    OnStack (exec s (.load r .rsp 0)) base (v :: vs) ∧ (exec s (.load r .rsp 0)).reg r = v := by
  have hzero : s.reg .rsp + 0 = s.reg .rsp := BitVec.add_zero _
  constructor
  · exact h.congr rfl (exec_reg_of_not_mem (List.not_mem_cons_of_ne_of_not_mem hr.symm
      List.not_mem_nil))
  · rw [exec, setReg_reg, if_pos rfl, hzero]
    exact Between.top h

theorem OnStack.pop {r : Reg} (h : OnStack s base (v :: vs)) (hr : r ≠ .rsp) :
    OnStack (exec s (.pop r)) base vs ∧ (exec s (.pop r)).reg r = v := by
  constructor
  · rw [OnStack, exec, setReg_mem, setReg_mem, setReg_reg, if_neg hr.symm, setReg_reg, if_pos rfl]
    exact Between.pop h
  · rw [exec, setReg_reg, if_pos rfl]
    exact Between.top h

theorem OnStack.ret (h : OnStack s base (v :: vs)) : OnStack (ret s) base vs ∧ (ret s).rip = v := by
  constructor
  · rw [OnStack]
    simp only [SysV.ret, setReg_mem, setReg_reg, if_pos]
    exact Between.pop h
  · exact Between.top h

/-- `add rsp` takes words off the stack. -/
theorem OnStack.drop {c : BitVec 64} (us : List (BitVec 64)) (h : OnStack s base (us ++ vs))
    (hc : BitVec.ofNat 64 us.length * 8 = c) : OnStack (exec s (.addImm .rsp c)) base vs := by
  rw [OnStack, exec, setReg_mem, setReg_reg, if_pos rfl, ← hc]
  exact Between.drop h

theorem OnStack.store {r : Reg} {u : BitVec 64} (h : OnStack s base (u :: vs))
    (hfit : vs.length + 1 ≤ 2 ^ 61) :
    OnStack (exec s (.store .rsp 0 r)) base (s.reg r :: vs) := by
  have hzero : s.reg .rsp + 0 = s.reg .rsp := BitVec.add_zero _
  rw [OnStack, exec, setMem_mem, setMem_reg, hzero]
  exact Between.setTop h (fits_quad _ hfit) _

/-- **Call.** A function that keeps the frame leaves the stack as it was. -/
theorem OnStack.call {n : Nat} {ra : BitVec 64} {f : Cpu → Cpu} (h : OnStack s base vs)
    (hfit : vs.length + 1 ≤ 2 ^ 61) (hf : Returns n f (s.pushWord ra)) (hn : vs.length ≤ n) :
    OnStack (f (s.pushWord ra)) base vs := by
  have hpop := Between.pop (h.pushWord hfit ra)
  rw [OnStack, hf.rsp]
  exact ⟨stackAt_congr hpop.1 fun i hi => hf.frame i (by omega), hpop.2⟩

/-- **Pushes.** The last register pushed is on top. -/
theorem OnStack.pushes (h : OnStack s base vs) (rs : List Reg) (hrs : Reg.rsp ∉ rs)
    (hfit : rs.length + vs.length ≤ 2 ^ 61) :
    OnStack (run s (rs.map .push)) base ((rs.map s.reg).reverse ++ vs) ∧
      ∀ r ≠ .rsp, (run s (rs.map .push)).reg r = s.reg r := by
  induction rs generalizing s vs with
  | nil => exact ⟨h, fun r _ => rfl⟩
  | cons r rs ih =>
    obtain ⟨hr, hrs⟩ := not_or.mp fun hmem => hrs (List.mem_cons.mpr hmem)
    rw [List.length_cons] at hfit
    have hreg : ∀ r' ≠ .rsp, (s.pushWord (s.reg r)).reg r' = s.reg r' := fun r' hr' => by
      rw [pushWord_reg, if_neg hr']
    obtain ⟨htop, hkeep⟩ := ih (h.pushWord (by omega) (s.reg r)) hrs
      (by rw [List.length_cons]; omega)
    have hmap : rs.map (s.pushWord (s.reg r)).reg = rs.map s.reg :=
      List.map_congr_left fun r' hr' => hreg r' fun he => hrs (he ▸ hr')
    rw [hmap] at htop
    constructor
    · rw [List.map_cons, List.map_cons, List.reverse_cons, List.append_assoc]
      exact htop
    · intro r' hr'
      exact (hkeep r' hr').trans (hreg r' hr')

end

end X64SmpOs.SysV

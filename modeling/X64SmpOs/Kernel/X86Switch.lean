import Mathlib.Data.BitVec
import X64SmpOs.Kernel.X86Sched
import X64SmpOs.Lib.Stack

/-!
# Task switches of the x86 kernel

`clock_handle` of `asm/int_isr.asm` and `sched_task` of `asm/schedAsm.asm`,
instruction by instruction. A task's registers are saved in the numbered
doublewords of the `tss_t` at the beginning of its `task_t`.

* `interrupt`, `iretd`: what the processor does, in both privilege cases;
* `clockHandle`, `schedTask`: the two routines;
* `Switch`: an interrupted task and the state in which `sched_task` is called for
  it again, `Switch.resume` the state it resumes in;
* `transparent_iff`: the task resumes as it was interrupted exactly when
  `sub_task_counter` leaves `ecx` and `edx` alone and, after a switch, the flags
  and, at ring 0, the stack of whoever calls `sched_task` are its own.

A descriptor is reached through pointers to it only, so its doublewords are kept
apart from those of the stacks.
-/

namespace X64SmpOs.X86

open Stack

/-! ## The machine -/

inductive Reg
  | eax | ebx | ecx | edx | esi | edi | ebp | esp
  deriving DecidableEq, Repr

inductive Seg
  | cs | ss | ds | es | fs | gs
  deriving DecidableEq, Repr

/-- `task_t`: the doublewords of `context`, `fist_sched` and the scheduling fields. -/
structure Descriptor where
  context : Nat → BitVec 32
  fistSched : BitVec 32
  sched : Task

/-- `mem` holds the doublewords of the stacks, `task` the descriptors by address,
`current` is `CURRENT`. -/
structure Cpu where
  reg : Reg → BitVec 32
  seg : Seg → BitVec 16
  eip : BitVec 32
  eflags : BitVec 32
  mem : BitVec 32 → BitVec 32
  task : BitVec 32 → Descriptor
  current : BitVec 32

/-- The instructions the two routines use. -/
inductive Instr
  | push (r : Reg)
  | pushf
  | pop (r : Reg)
  /-- `mov r, [esp+disp]` -/
  | load (r : Reg) (disp : BitVec 32)
  /-- `mov r, [CURRENT]` -/
  | loadCurrent (r : Reg)
  /-- `mov r, [base+4*slot]` -/
  | loadSlot (r base : Reg) (slot : Nat)
  /-- The same into the low half-word of the register. -/
  | loadSlotLow (r base : Reg) (slot : Nat)
  /-- `mov [base+4*slot], r` -/
  | storeSlot (base : Reg) (slot : Nat) (r : Reg)
  | mov (r q : Reg)
  | movImm (r : Reg) (v : BitVec 32)
  /-- `mov r, seg`: the selector, zero-extended -/
  | movFromSeg (r : Reg) (g : Seg)
  /-- `mov seg, r16` -/
  | movToSeg (g : Seg) (r : Reg)
  | addImm (r : Reg) (v : BitVec 32)
  | andImm (r : Reg) (v : BitVec 32)
  | orImm (r : Reg) (v : BitVec 32)
  | xor (r q : Reg)
  | cmp (a b : Reg)
  | cmpImm (r : Reg) (v : BitVec 32)
  | ret
  deriving DecidableEq, Repr

/-! ## Flags -/

/-- `CF`, `PF`, `AF`, `ZF`, `SF` and `OF`. -/
def statusFlags : BitVec 32 := 0x8d5

/-- `IF`, and what an interrupt gate clears with it: `TF`, `NT`, `RF` and `VM`. -/
def interruptFlag : BitVec 32 := 0x200
def gateFlags : BitVec 32 := 0x34300

/-- The low byte has an even number of ones. -/
def evenParity (v : BitVec 32) : Bool := (List.range 8).countP (v.getLsbD ·) % 2 = 0

/-- A flag's bit. -/
def flag (b : Bool) (bit : BitVec 32) : BitVec 32 := if b then bit else 0

def resultFlags (v : BitVec 32) : BitVec 32 :=
  flag (evenParity v) 0x4 ||| flag (v = 0) 0x40 ||| flag v.msb 0x80

def addFlags (a b : BitVec 32) : BitVec 32 :=
  resultFlags (a + b) ||| flag (2 ^ 32 ≤ a.toNat + b.toNat) 0x1 |||
    ((a ^^^ b ^^^ (a + b)) &&& 0x10) |||
    flag (a.msb = b.msb && (a + b).msb ≠ a.msb) 0x800

def subFlags (a b : BitVec 32) : BitVec 32 :=
  resultFlags (a - b) ||| flag (a.toNat < b.toNat) 0x1 ||| ((a ^^^ b ^^^ (a - b)) &&& 0x10) |||
    flag (a.msb ≠ b.msb && (a - b).msb ≠ a.msb) 0x800

/-! ## Execution -/

namespace Cpu

def setReg (s : Cpu) (r : Reg) (v : BitVec 32) : Cpu :=
  { s with reg := Function.update s.reg r v }

def pushVal (s : Cpu) (v : BitVec 32) : Cpu :=
  { s.setReg .esp (s.reg .esp - 4) with mem := Function.update s.mem (s.reg .esp - 4) v }

def setStatus (s : Cpu) (f : BitVec 32) : Cpu :=
  { s with eflags := s.eflags &&& ~~~statusFlags ||| f }

/-- A doubleword of the descriptor at `t`. -/
def slot (s : Cpu) (t : BitVec 32) (k : Nat) : BitVec 32 := (s.task t).context k

def setSlot (s : Cpu) (t : BitVec 32) (k : Nat) (v : BitVec 32) : Cpu :=
  { s with
    task := Function.update s.task t
      { s.task t with context := Function.update (s.task t).context k v } }

def zf (s : Cpu) : Bool := s.eflags.getLsbD 6

section Fields

variable (s : Cpu) (r : Reg) (t : BitVec 32) (k : Nat) (v f : BitVec 32)

@[simp] theorem setReg_self : (s.setReg r v).reg r = v := Function.update_self ..

@[simp] theorem setReg_ne {r q : Reg} (h : q ≠ r) : (s.setReg r v).reg q = s.reg q :=
  Function.update_of_ne h ..

@[simp] theorem setReg_mem : (s.setReg r v).mem = s.mem := rfl
@[simp] theorem setReg_seg : (s.setReg r v).seg = s.seg := rfl
@[simp] theorem setReg_task : (s.setReg r v).task = s.task := rfl
@[simp] theorem setReg_current : (s.setReg r v).current = s.current := rfl
@[simp] theorem setReg_slot : (s.setReg r v).slot t k = s.slot t k := rfl

@[simp] theorem setStatus_reg : (s.setStatus f).reg = s.reg := rfl
@[simp] theorem setStatus_mem : (s.setStatus f).mem = s.mem := rfl
@[simp] theorem setStatus_seg : (s.setStatus f).seg = s.seg := rfl
@[simp] theorem setStatus_task : (s.setStatus f).task = s.task := rfl
@[simp] theorem setStatus_current : (s.setStatus f).current = s.current := rfl
@[simp] theorem setStatus_slot : (s.setStatus f).slot t k = s.slot t k := rfl

@[simp] theorem setSlot_reg : (s.setSlot t k v).reg = s.reg := rfl
@[simp] theorem setSlot_mem : (s.setSlot t k v).mem = s.mem := rfl
@[simp] theorem setSlot_seg : (s.setSlot t k v).seg = s.seg := rfl
@[simp] theorem setSlot_self : (s.setSlot t k v).slot t k = v := by simp [setSlot, slot]

@[simp] theorem setSlot_ne {j : Nat} (h : j ≠ k) : (s.setSlot t k v).slot t j = s.slot t j := by
  simp [setSlot, slot, h]

@[simp] theorem setSlot_fistSched (u : BitVec 32) :
    ((s.setSlot t k v).task u).fistSched = (s.task u).fistSched := by
  by_cases hu : u = t
  · subst hu
    simp [setSlot]
  · simp [setSlot, hu]

@[simp] theorem pushVal_esp : (s.pushVal v).reg .esp = s.reg .esp - 4 := by simp [pushVal]

theorem pushVal_ne {r : Reg} (h : r ≠ .esp) : (s.pushVal v).reg r = s.reg r := setReg_ne s _ h

end Fields

end Cpu

def exec (s : Cpu) : Instr → Cpu
  | .push r => s.pushVal (s.reg r)
  | .pushf => s.pushVal s.eflags
  | .pop r => (s.setReg .esp (s.reg .esp + 4)).setReg r (s.mem (s.reg .esp))
  | .load r disp => s.setReg r (s.mem (s.reg .esp + disp))
  | .loadCurrent r => s.setReg r s.current
  | .loadSlot r base slot => s.setReg r (s.slot (s.reg base) slot)
  | .loadSlotLow r base slot =>
    s.setReg r ((s.reg r &&& 0xffff0000) ||| (s.slot (s.reg base) slot &&& 0xffff))
  | .storeSlot base slot r => s.setSlot (s.reg base) slot (s.reg r)
  | .mov r q => s.setReg r (s.reg q)
  | .movImm r v => s.setReg r v
  | .movFromSeg r g => s.setReg r ((s.seg g).setWidth 32)
  | .movToSeg g r => { s with seg := Function.update s.seg g ((s.reg r).setWidth 16) }
  | .addImm r v => (s.setReg r (s.reg r + v)).setStatus (addFlags (s.reg r) v)
  | .andImm r v => (s.setReg r (s.reg r &&& v)).setStatus (resultFlags (s.reg r &&& v))
  | .orImm r v => (s.setReg r (s.reg r ||| v)).setStatus (resultFlags (s.reg r ||| v))
  | .xor r q => (s.setReg r (s.reg r ^^^ s.reg q)).setStatus (resultFlags (s.reg r ^^^ s.reg q))
  | .cmp a b => s.setStatus (subFlags (s.reg a) (s.reg b))
  | .cmpImm r v => s.setStatus (subFlags (s.reg r) v)
  | .ret => { s.setReg .esp (s.reg .esp + 4) with eip := s.mem (s.reg .esp) }

def run (s : Cpu) : List Instr → Cpu
  | [] => s
  | i :: is => run (exec s i) is

/-- The privilege level of a selector. -/
def level (selector : BitVec 16) : BitVec 16 := selector &&& 0b11

/-- The interrupt gate of the clock, and the stack of the TSS for interrupts of less
privileged code. The handler runs at level 0. -/
structure Gate where
  cs : BitVec 16
  eip : BitVec 32
  ss0 : BitVec 16
  esp0 : BitVec 32
  kernel : level cs = 0

def pushAll (s : Cpu) : List (BitVec 32) → Cpu
  | [] => s
  | v :: vs => pushAll (s.pushVal v) vs

/-- The doublewords the processor pushes for every interrupt, the last one first. -/
def frame (s : Cpu) : List (BitVec 32) := [s.eip, (s.seg .cs).setWidth 32, s.eflags]

/-- Those it pushes before them when the level changes. -/
def outerFrame (s : Cpu) : List (BitVec 32) := [s.reg .esp, (s.seg .ss).setWidth 32]

def interrupt (g : Gate) (s : Cpu) : Cpu :=
  let t := if level (s.seg .cs) = level g.cs then s
    else pushAll { s.setReg .esp g.esp0 with seg := Function.update s.seg .ss g.ss0 }
      (outerFrame s).reverse
  let t := pushAll t (frame s).reverse
  { t with
    seg := Function.update t.seg .cs g.cs
    eip := g.eip
    eflags := t.eflags &&& ~~~gateFlags }

/-- `esp` and `ss` are popped only when the level changes. -/
def iretd (s : Cpu) : Cpu :=
  let sp := s.reg .esp
  let cs := (s.mem (sp + 4)).setWidth 16
  let t := { s.setReg .esp (sp + 12) with
    seg := Function.update s.seg .cs cs
    eip := s.mem sp
    eflags := s.mem (sp + 8) }
  if level cs = level (s.seg .cs) then t
  else { t.setReg .esp (s.mem (sp + 12)) with
    seg := Function.update t.seg .ss ((s.mem (sp + 16)).setWidth 16) }

/-! ## Calls of C functions -/

/-- What a C function leaves in the registers and flags that are not its caller's. -/
structure Clobber where
  ecx : BitVec 32
  edx : BitVec 32
  status : BitVec 32

/-- The state after a call that returns `eax`. -/
def Cpu.returned (s : Cpu) (eax : BitVec 32) (c : Clobber) : Cpu :=
  (((s.setReg .eax eax).setReg .ecx c.ecx).setReg .edx c.edx).setStatus (c.status &&& statusFlags)

/-- `call sub_task_counter` with the task on top of the stack. `task_wakeup` writes
the scheduling fields of sleeping tasks only, and they are left out. -/
def callSubTaskCounter (c : Clobber) (s : Cpu) : Cpu :=
  let t := s.mem (s.reg .esp)
  let r := (s.task t).sched.subCounter
  Cpu.returned { s with task := Function.update s.task t { s.task t with sched := r.2 } }
    (BitVec.ofNat 32 r.1) c

def callGetFirstSchedFlag (c : Clobber) (s : Cpu) : Cpu :=
  let t := s.mem (s.reg .esp)
  if (s.task t).fistSched = 0 then s.returned 0 c
  else Cpu.returned { s with task := Function.update s.task t { s.task t with fistSched := 0 } } 1 c

/-! ## The two routines -/

/-- `clock_handle` up to its first jump. -/
def clockEntry : List Instr := [.push .eax, .loadCurrent .eax, .cmpImm .eax 0]

/-- `.task_couter_zero` and `.save_task_scene` up to the saved `edi`. -/
def saveRegisters : List Instr :=
  [.pop .eax,
   .storeSlot .eax 11 .ebx, .storeSlot .eax 12 .ecx, .storeSlot .eax 13 .edx,
   .storeSlot .eax 15 .ebp, .storeSlot .eax 16 .esi, .storeSlot .eax 17 .edi]

/-- `eax`, `eip`, `eflags` and `cs`. -/
def saveFrame : List Instr :=
  [.mov .ecx .eax, .pop .eax, .storeSlot .ecx 10 .eax,
   .load .eax 0, .storeSlot .ecx 8 .eax,
   .load .eax 8, .storeSlot .ecx 9 .eax,
   .load .eax 4, .storeSlot .ecx 19 .eax]

def checkLevel : List Instr :=
  [.xor .ebx .ebx, .movFromSeg .ebx .cs, .andImm .eax 0b11, .andImm .ebx 0b11, .cmp .eax .ebx]

/-- Fall-through of `je .not_skip_privilege_level`. -/
def saveSkip : List Instr :=
  [.load .eax 12, .storeSlot .ecx 14 .eax, .load .eax 16, .storeSlot .ecx 20 .eax]

/-- `.not_skip_privilege_level` -/
def saveNotSkip : List Instr :=
  [.mov .eax .esp, .addImm .eax 12, .storeSlot .ecx 14 .eax,
   .xor .eax .eax, .movFromSeg .eax .ss, .storeSlot .ecx 20 .eax]

/-- Where `clock_handle` goes: back by its `iret`, or to `.deal_hander`, which calls
`clock_hander` and `sched`. -/
inductive Outcome
  | iret (s : Cpu)
  | sched (s : Cpu)

def clockHandle (c : Clobber) (s : Cpu) : Outcome :=
  let s := run s clockEntry
  -- `.fisrt_into_tasks`
  if s.zf then .sched (run s [.pop .eax])
  else
    let s := run (callSubTaskCounter c (run s [.push .eax])) [.cmpImm .eax 1]
    if s.zf then
      let s := run (run (run s saveRegisters) saveFrame) checkLevel
      .sched (run s (if s.zf then saveNotSkip else saveSkip))
    else .iret (run s [.addImm .esp 4, .pop .eax])

/-- The flags with `IF` set, on the stack. -/
def pushFlags (r : Reg) : List Instr := [.pushf, .load r 0, .addImm .esp 4, .orImm r 0x200, .push r]

/-- `mov ecx, [eax+slot*4]` and `push ecx`. -/
def pushSlot (slot : Nat) : List Instr := [.loadSlot .ecx .eax slot, .push .ecx]

/-- `.task_fist_sched`; `taskExit` is the address of `.task_exit`. -/
def taskFistSched (taskExit : BitVec 32) : List Instr :=
  [.loadSlot .esp .ecx 14, .loadSlotLow .eax .ecx 20,
   .movToSeg .ds .eax, .movToSeg .ss .eax, .movToSeg .es .eax, .movToSeg .fs .eax,
   .movToSeg .gs .eax, .movImm .eax taskExit, .push .eax] ++ pushFlags .eax ++
  [.xor .eax .eax, .loadSlot .eax .ecx 19, .push .eax, .loadSlot .eax .ecx 8, .push .eax]

/-- `.task_not_fist_sched`, which sets `edx` before and `ecx` after it has used them. -/
def loadRegisters : List Instr :=
  [.loadCurrent .eax, .loadSlot .ebx .eax 11, .loadSlot .edx .eax 13, .loadSlot .ebp .eax 15,
   .loadSlot .esi .eax 16, .loadSlot .edi .eax 17]

def pushFrame : List Instr :=
  pushSlot 20 ++ pushSlot 14 ++ pushFlags .ecx ++ [.xor .ecx .ecx] ++
    pushSlot 19 ++ pushSlot 8 ++ pushSlot 12 ++ pushSlot 10

def loadSegments : List Instr :=
  [.loadSlotLow .eax .eax 20,
   .movToSeg .ds .eax, .movToSeg .es .eax, .movToSeg .fs .eax, .movToSeg .gs .eax]

def taskNotFistSched : List Instr :=
  loadRegisters ++ pushFrame ++ loadSegments ++ [.pop .eax, .pop .ecx]

def schedTask (taskExit : BitVec 32) (c : Clobber) (s : Cpu) : Cpu :=
  let s := run s [.loadCurrent .eax, .cmpImm .eax 0]
  if s.zf then run s [.ret]
  else
    let s := callGetFirstSchedFlag c (run s [.loadCurrent .ecx, .push .ecx])
    let s := run s [.cmpImm .eax 0]
    if s.zf then iretd (run s taskNotFistSched) else iretd (run s (taskFistSched taskExit))

/-! ## An interrupted task -/

/-- A running task is interrupted in the state `cpu`. Should it lose the processor,
`sched_task` is next called for it in the state `later`, whatever has run in
between; `sub` and `first` are what the two C functions leave. -/
structure Switch where
  cpu : Cpu
  gate : Gate
  later : Cpu
  sub : Clobber
  first : Clobber
  taskExit : BitVec 32
  running : cpu.current ≠ 0
  started : (cpu.task cpu.current).fistSched = 0
  kernel : level (later.seg .cs) = 0

namespace Switch

/-- The later state, with the task as `clock_handle` saved it. -/
def back (x : Switch) (s : Cpu) : Cpu :=
  { x.later with
    current := x.cpu.current
    task := Function.update x.later.task x.cpu.current
      { x.later.task x.cpu.current with
        context := (s.task x.cpu.current).context
        fistSched := (s.task x.cpu.current).fistSched } }

/-- The state in which the task runs again. -/
def resume (x : Switch) : Cpu :=
  match clockHandle x.sub (interrupt x.gate x.cpu) with
  | .iret s => iretd s
  | .sched s => schedTask x.taskExit x.first (x.back s)

/-- The interrupt finds the slice used up. -/
def Expired (x : Switch) : Prop := (x.cpu.task x.cpu.current).sched.counter = 0

end Switch

/-- Nothing the task can see has changed. -/
structure Same (s t : Cpu) : Prop where
  reg : ∀ r, t.reg r = s.reg r
  ss : t.seg .ss = s.seg .ss
  cs : t.seg .cs = s.seg .cs
  eip : t.eip = s.eip
  eflags : t.eflags = s.eflags

/-- The flags a task gets back: `sched_task` has just found `eax` zero, and sets `IF`. -/
def restoredFlags (s : Cpu) : BitVec 32 := (s.eflags &&& ~~~statusFlags ||| 0x44) ||| interruptFlag

structure Clean (x : Switch) : Prop where
  ecx : x.sub.ecx = x.cpu.reg .ecx
  edx : x.sub.edx = x.cpu.reg .edx
  eflags : x.Expired → x.cpu.eflags = restoredFlags x.later
  stack : x.Expired → level (x.cpu.seg .cs) = 0 →
    x.cpu.reg .esp = x.later.reg .esp - 12 ∧ x.cpu.seg .ss = x.later.seg .ss

/-! ## Comparisons -/

theorem getLsbD_flag (b : Bool) (bit : BitVec 32) (i : Nat) :
    (flag b bit).getLsbD i = (b && bit.getLsbD i) := by
  cases b <;> simp [flag]

theorem zf_setStatus (s : Cpu) (f : BitVec 32) : (s.setStatus f).zf = f.getLsbD 6 := by
  have hbit : (~~~statusFlags).getLsbD 6 = false := by decide
  rw [Cpu.zf, Cpu.setStatus, BitVec.getLsbD_or, BitVec.getLsbD_and, hbit, Bool.and_false,
    Bool.false_or]

theorem zf_sub (a b : BitVec 32) : (subFlags a b).getLsbD 6 = decide (a = b) := by
  have h1 : (0x4#32).getLsbD 6 = false := by decide
  have h2 : (0x40#32).getLsbD 6 = true := by decide
  have h3 : (0x80#32).getLsbD 6 = false := by decide
  have h4 : (0x1#32).getLsbD 6 = false := by decide
  have h5 : (0x10#32).getLsbD 6 = false := by decide
  have h6 : (0x800#32).getLsbD 6 = false := by decide
  have hz : a - b = 0 ↔ a = b := by
    constructor
    · intro h
      bv_omega
    · rintro rfl
      exact BitVec.sub_self a
  simp only [subFlags, resultFlags, BitVec.getLsbD_or, BitVec.getLsbD_and, getLsbD_flag,
    BitVec.ofNat_eq_ofNat, h1, h2, h3, h4, h5, h6, Bool.and_false, Bool.and_true, Bool.or_false,
    Bool.false_or] at hz ⊢
  exact decide_eq_decide.mpr hz

theorem zf_cmpImm (s : Cpu) (r : Reg) (v : BitVec 32) :
    (run s [.cmpImm r v]).zf = decide (s.reg r = v) := by
  rw [run, run, exec, zf_setStatus, zf_sub]

/-! ## Views of the stack -/

/-- The stack of `s` holds `vs` from its top up to the address `base`. -/
def View (s : Cpu) (base : BitVec 32) (vs : List (BitVec 32)) : Prop :=
  Between 4 s.mem (s.reg .esp) base vs

/-- The registers besides those of a list, and all that is not a register or the
stack, are the same. -/
structure Keeps (rs : List Reg) (s t : Cpu) : Prop where
  reg : ∀ r, r ∉ rs → t.reg r = s.reg r
  seg : t.seg = s.seg
  task : t.task = s.task
  current : t.current = s.current

theorem Keeps.trans {rs : List Reg} {s t u : Cpu} (h : Keeps rs s t) (h' : Keeps rs t u) :
    Keeps rs s u where
  reg r hr := (h'.reg r hr).trans (h.reg r hr)
  seg := h'.seg.trans h.seg
  task := h'.task.trans h.task
  current := h'.current.trans h.current

section Views

variable {s : Cpu} {base : BitVec 32} {vs : List (BitVec 32)}

theorem View.congr {t : Cpu} (h : View s base vs) (hmem : t.mem = s.mem)
    (hesp : t.reg .esp = s.reg .esp) : View t base vs := by
  unfold View
  rw [hmem, hesp]
  exact h

theorem View.pushVal (h : View s base vs) (hn : vs.length < 2 ^ 30) (v : BitVec 32) :
    View (s.pushVal v) base (v :: vs) := by
  unfold View
  rw [Cpu.pushVal_esp]
  exact Between.push h (fits_dword _ hn) v

theorem keeps_pushVal (s : Cpu) (v : BitVec 32) : Keeps [.esp] s (s.pushVal v) where
  reg r hr := Cpu.pushVal_ne s v (by simpa using hr)
  seg := rfl
  task := rfl
  current := rfl

theorem View.pushAll (h : View s base vs) (ws : List (BitVec 32))
    (hn : vs.length + ws.length < 2 ^ 30) :
    View (pushAll s ws) base (ws.reverse ++ vs) ∧ Keeps [.esp] s (X86.pushAll s ws) := by
  induction ws generalizing s vs with
  | nil => exact ⟨h, fun _ _ => rfl, rfl, rfl, rfl⟩
  | cons w ws ih =>
    simp only [List.length_cons] at hn
    obtain ⟨h1, h2⟩ := ih (h.pushVal (by omega) w) (by simp only [List.length_cons]; omega)
    refine ⟨?_, (keeps_pushVal s w).trans h2⟩
    rw [List.reverse_cons, List.append_assoc]
    exact h1

/-- The stack of the handler: the frame, on the interrupted code's own stack or on
that of the TSS. -/
theorem view_interrupt (g : Gate) (s : Cpu) :
    let t := interrupt g s
    (if level (s.seg .cs) = 0 then View t (s.reg .esp) (frame s) ∧ t.seg .ss = s.seg .ss
      else View t g.esp0 (frame s ++ outerFrame s)) ∧
    (∀ r, r ≠ .esp → t.reg r = s.reg r) ∧ t.seg .cs = g.cs ∧ t.task = s.task ∧
      t.current = s.current := by
  have hframe : ((frame s).reverse).length = 3 := rfl
  simp only [interrupt, g.kernel]
  by_cases hl : level (s.seg .cs) = 0
  · simp only [if_pos hl]
    obtain ⟨h1, h2⟩ := View.pushAll (between_nil 4 s.mem (s.reg .esp) : View s _ [])
      (frame s).reverse
      (by simp [frame])
    rw [List.reverse_reverse, List.append_nil] at h1
    refine ⟨⟨h1, ?_⟩, fun r hr => h2.reg r (by simpa using hr), by simp, h2.task, h2.current⟩
    simp [h2.seg]
  · simp only [if_neg hl]
    generalize hu : ({ s.setReg .esp g.esp0 with seg := Function.update s.seg .ss g.ss0 } : Cpu) = u
    have hesp : u.reg .esp = g.esp0 := by simp [← hu]
    obtain ⟨h1, h2⟩ := View.pushAll (between_nil 4 u.mem (u.reg .esp) : View u _ [])
      (outerFrame s).reverse (by simp [outerFrame])
    obtain ⟨h3, h4⟩ := h1.pushAll (frame s).reverse (by simp [outerFrame, frame])
    have hkeep := h2.trans h4
    rw [List.reverse_reverse, List.reverse_reverse, List.append_nil, hesp] at h3
    refine ⟨h3, fun r hr => ?_, by simp, ?_, ?_⟩
    · rw [hkeep.reg r (by simpa using hr), ← hu]
      exact Cpu.setReg_ne s g.esp0 hr
    · rw [hkeep.task, ← hu]
      rfl
    · rw [hkeep.current, ← hu]
      rfl

/-- What `iretd` takes from the stack. -/
theorem iretd_spec {eip cs eflags : BitVec 32} (h : View s base (eip :: cs :: eflags :: vs)) :
    let t := iretd s
    t.eip = eip ∧ t.eflags = eflags ∧ t.seg .cs = cs.setWidth 16 ∧
    (∀ r, r ≠ .esp → t.reg r = s.reg r) ∧
    (level (cs.setWidth 16) = level (s.seg .cs) →
      Between 4 t.mem (t.reg .esp) base vs ∧ t.seg .ss = s.seg .ss) ∧
    ∀ esp ss ws, vs = esp :: ss :: ws → level (cs.setWidth 16) ≠ level (s.seg .cs) →
      t.reg .esp = esp ∧ t.seg .ss = ss.setWidth 16 := by
  have h1 : s.mem (s.reg .esp) = eip := h.top
  have h2 : s.mem (s.reg .esp + 4) = cs := Between.get h 1 cs rfl
  have h3 : s.mem (s.reg .esp + 8) = eflags := Between.get h 2 eflags rfl
  have hsp : s.reg .esp + 4 + 4 + 4 = s.reg .esp + 12 := by
    rw [BitVec.add_assoc, BitVec.add_assoc]
    rfl
  simp only [iretd, h1, h2, h3]
  refine ⟨?_, ?_, ?_, ?_, ?_, ?_⟩
  · split <;> rfl
  · split <;> rfl
  · split <;> simp
  · intro r hr
    split <;> simp [hr]
  · intro hl
    rw [if_pos hl]
    have hpop := h.pop.pop.pop
    rw [hsp] at hpop
    exact ⟨by simpa using hpop, by simp⟩
  · rintro esp ss ws rfl hl
    have h4 : s.mem (s.reg .esp + 12) = esp := Between.get h 3 esp rfl
    have h5 : s.mem (s.reg .esp + 16) = ss := Between.get h 4 ss rfl
    rw [if_neg hl, h4, h5]
    exact ⟨by simp, by simp⟩

end Views

/-! ## The end of a slice -/

section Counter

variable {x : Switch}

/-- What `clock_handle` compares the result of `sub_task_counter` in. -/
def Switch.counted (x : Switch) : Cpu :=
  run (callSubTaskCounter x.sub (run (run (interrupt x.gate x.cpu) clockEntry) [.push .eax]))
    [.cmpImm .eax 1]

/-- The interrupt frame, and where it ends. -/
def Switch.words (x : Switch) : List (BitVec 32) :=
  if level (x.cpu.seg .cs) = 0 then frame x.cpu else frame x.cpu ++ outerFrame x.cpu

def Switch.base (x : Switch) : BitVec 32 :=
  if level (x.cpu.seg .cs) = 0 then x.cpu.reg .esp else x.gate.esp0

theorem Switch.length_words_le (x : Switch) : x.words.length ≤ 5 := by
  unfold Switch.words
  split <;> simp [frame, outerFrame]

/-- The registers a C function leaves as they are. -/
def calleeSaved : List Reg := [.ebx, .esi, .edi, .ebp]

theorem ne_of_calleeSaved {r : Reg} (h : r ∈ calleeSaved) :
    r ≠ .eax ∧ r ≠ .ecx ∧ r ≠ .edx ∧ r ≠ .esp := by
  revert h
  cases r <;> decide

theorem clockEntry_spec (x : Switch) :
    let s := run (interrupt x.gate x.cpu) clockEntry
    View s x.base (x.cpu.reg .eax :: x.words) ∧ s.zf = false ∧ s.reg .eax = x.cpu.current ∧
      (∀ r ∈ calleeSaved, s.reg r = x.cpu.reg r) ∧ s.seg .cs = x.gate.cs ∧
      (level (x.cpu.seg .cs) = 0 → s.seg .ss = x.cpu.seg .ss) ∧ s.task = x.cpu.task := by
  obtain ⟨hview, hreg, hcs, htask, hcur⟩ := view_interrupt x.gate x.cpu
  have hwords : View (interrupt x.gate x.cpu) x.base x.words ∧
      (level (x.cpu.seg .cs) = 0 → (interrupt x.gate x.cpu).seg .ss = x.cpu.seg .ss) := by
    unfold Switch.base Switch.words
    by_cases hl : level (x.cpu.seg .cs) = 0
    · simp only [if_pos hl] at hview ⊢
      exact ⟨hview.1, fun _ => hview.2⟩
    · simp only [if_neg hl] at hview ⊢
      exact ⟨hview, fun h => absurd h hl⟩
  generalize interrupt x.gate x.cpu = s at *
  obtain ⟨hview, hss⟩ := hwords
  have hlen := x.length_words_le
  have hrun : run s clockEntry =
      run ((s.pushVal (s.reg .eax)).setReg .eax s.current) [.cmpImm .eax 0] := rfl
  have hregs : (run s clockEntry).reg = ((s.pushVal (s.reg .eax)).setReg .eax s.current).reg := rfl
  refine ⟨?_, ?_, ?_, fun r hr => ?_, hcs, hss, htask⟩
  · rw [← hreg .eax nofun]
    exact (hview.pushVal (by omega) _).congr rfl (by simp [hregs])
  · rw [hrun, zf_cmpImm, Cpu.setReg_self, hcur]
    exact decide_eq_false x.running
  · rw [hregs, Cpu.setReg_self, hcur]
  · obtain ⟨h1, -, -, h4⟩ := ne_of_calleeSaved hr
    rw [hregs, Cpu.setReg_ne _ _ h1, Cpu.pushVal_ne _ _ h4, hreg r h4]

/-- What `clock_handle` has when `sub_task_counter` has returned. -/
structure Counted (x : Switch) (s : Cpu) : Prop where
  view : View s x.base (x.cpu.current :: x.cpu.reg .eax :: x.words)
  reg : ∀ r ∈ calleeSaved, s.reg r = x.cpu.reg r
  ecx : s.reg .ecx = x.sub.ecx
  edx : s.reg .edx = x.sub.edx
  cs : s.seg .cs = x.gate.cs
  ss : level (x.cpu.seg .cs) = 0 → s.seg .ss = x.cpu.seg .ss
  started : (s.task x.cpu.current).fistSched = 0
  zf : s.zf = true ↔ x.Expired

theorem subCounter_eq_one (t : Task) : BitVec.ofNat 32 t.subCounter.1 = 1 ↔ t.counter = 0 := by
  unfold Task.subCounter
  split
  · rename_i h
    simp [h]
  · rename_i h
    simp [h]

theorem counted_spec (x : Switch) : Counted x x.counted := by
  obtain ⟨hview, -, heax, hregs, hcs, hss, htask⟩ := clockEntry_spec x
  unfold Switch.counted
  generalize run (interrupt x.gate x.cpu) clockEntry = s at *
  have hlen := x.length_words_le
  have hview' := hview.pushVal (by simp only [List.length_cons]; omega) (s.reg .eax)
  -- the argument on top of the stack is the current task
  have harg : (s.pushVal (s.reg .eax)).mem ((s.pushVal (s.reg .eax)).reg .esp) = x.cpu.current :=
    heax ▸ Between.top hview'
  have hpush : run s [.push .eax] = s.pushVal (s.reg .eax) := rfl
  rw [hpush]
  generalize hu : callSubTaskCounter x.sub (s.pushVal (s.reg .eax)) = u
  have hreg : ∀ r, r ≠ .eax → r ≠ .ecx → r ≠ .edx → u.reg r = (s.pushVal (s.reg .eax)).reg r := by
    intro r h1 h2 h3
    rw [← hu]
    simp only [callSubTaskCounter, Cpu.returned, Cpu.setStatus_reg, Cpu.setReg_ne _ _ h1,
      Cpu.setReg_ne _ _ h2, Cpu.setReg_ne _ _ h3]
  have hfields : u.mem = (s.pushVal (s.reg .eax)).mem ∧ u.seg = s.seg := by
    rw [← hu]
    exact ⟨rfl, rfl⟩
  have hecx : u.reg .ecx = x.sub.ecx ∧ u.reg .edx = x.sub.edx := by
    rw [← hu]
    simp [callSubTaskCounter, Cpu.returned]
  have hresult : u.reg .eax = BitVec.ofNat 32 (x.cpu.task x.cpu.current).sched.subCounter.1 := by
    rw [← hu]
    simp only [callSubTaskCounter, harg, Cpu.returned, Cpu.setStatus_reg, ne_eq, reduceCtorEq,
      not_false_eq_true, Cpu.setReg_ne, Cpu.setReg_self]
    exact congrArg (fun t => BitVec.ofNat 32 (t x.cpu.current).sched.subCounter.1) htask
  have hstarted : (u.task x.cpu.current).fistSched = 0 := by
    rw [← hu]
    simp only [callSubTaskCounter, harg]
    have hsame : (s.pushVal (s.reg .eax)).task = x.cpu.task := htask
    simp [Cpu.returned, Cpu.setStatus, Cpu.setReg, hsame, x.started]
  refine ⟨?_, fun r hr => ?_, hecx.1, hecx.2, ?_, fun hl => ?_, hstarted, ?_⟩
  · rw [← heax]
    exact hview'.congr hfields.1 (hreg .esp nofun nofun nofun)
  · obtain ⟨h1, h2, h3, h4⟩ := ne_of_calleeSaved hr
    have h := hreg r h1 h2 h3
    rw [Cpu.pushVal_ne _ _ h4, hregs r hr] at h
    exact h
  · exact (congrFun hfields.2 .cs).trans hcs
  · exact (congrFun hfields.2 .ss).trans (hss hl)
  · rw [zf_cmpImm, hresult, decide_eq_true_iff]
    exact subCounter_eq_one _

/-- The state `clock_handle` saves the task in. -/
def Switch.saved (x : Switch) : Cpu :=
  let s := run (run (run x.counted saveRegisters) saveFrame) checkLevel
  run s (if s.zf then saveNotSkip else saveSkip)

theorem clockHandle_eq (x : Switch) :
    clockHandle x.sub (interrupt x.gate x.cpu) =
      if x.counted.zf then .sched x.saved
      else .iret (run x.counted [.addImm .esp 4, .pop .eax]) := by
  have hzf := (clockEntry_spec x).2.1
  simp only [clockHandle, hzf, Bool.false_eq_true, ↓reduceIte]
  rfl

/-- What `iretd` takes from the interrupt frame. -/
theorem iretd_words {s : Cpu} (h : View s x.base x.words) (hcs : s.seg .cs = x.gate.cs)
    (hss : level (x.cpu.seg .cs) = 0 → s.seg .ss = x.cpu.seg .ss) :
    let t := iretd s
    t.eip = x.cpu.eip ∧ t.eflags = x.cpu.eflags ∧ t.seg .cs = x.cpu.seg .cs ∧
      t.seg .ss = x.cpu.seg .ss ∧ t.reg .esp = x.cpu.reg .esp ∧ ∀ r, r ≠ .esp →
        t.reg r = s.reg r := by
  have hwidth : ∀ g : BitVec 16, (g.setWidth 32).setWidth 16 = g := fun g => by simp
  have hlevel : level (s.seg .cs) = 0 := by rw [hcs, x.gate.kernel]
  unfold Switch.base Switch.words at h
  by_cases hl : level (x.cpu.seg .cs) = 0
  · simp only [if_pos hl] at h
    obtain ⟨h1, h2, h3, h4, h5, -⟩ := iretd_spec h
    rw [hwidth] at h3 h5
    obtain ⟨h6, h7⟩ := h5 (hl.trans hlevel.symm)
    exact ⟨h1, h2, h3, h7.trans (hss hl), h6.base_eq, h4⟩
  · simp only [if_neg hl] at h
    obtain ⟨h1, h2, h3, h4, -, h5⟩ := iretd_spec h
    rw [hwidth] at h3 h5
    obtain ⟨h6, h7⟩ := h5 _ _ _ rfl fun he => hl (he.trans hlevel)
    rw [hwidth] at h7
    exact ⟨h1, h2, h3, h7, h6, h4⟩

/-- **Within a slice** only `ecx` and `edx` can have changed. -/
theorem resume_direct (h : ¬ x.Expired) :
    Same x.cpu x.resume ↔ x.sub.ecx = x.cpu.reg .ecx ∧ x.sub.edx = x.cpu.reg .edx := by
  have hs := counted_spec x
  have hzf : x.counted.zf = false := by
    by_contra hz
    exact h (hs.zf.mp (by simpa using hz))
  have hresume : x.resume = iretd (run x.counted [.addImm .esp 4, .pop .eax]) := by
    rw [Switch.resume, clockHandle_eq, hzf]
    rfl
  generalize x.counted = s at *
  have heax : s.mem (s.reg .esp + 4) = x.cpu.reg .eax := Between.get hs.view 1 _ rfl
  have hview : View (run s [.addImm .esp 4, .pop .eax]) x.base x.words := by
    have hpop := hs.view.pop.pop
    unfold View
    simpa [run, exec] using hpop
  obtain ⟨h1, h2, h3, h4, h5, h6⟩ := iretd_words hview hs.cs hs.ss
  rw [← hresume] at h1 h2 h3 h4 h5 h6
  have hecx : x.resume.reg .ecx = x.sub.ecx := by
    rw [h6 .ecx nofun, ← hs.ecx]
    simp [run, exec]
  have hedx : x.resume.reg .edx = x.sub.edx := by
    rw [h6 .edx nofun, ← hs.edx]
    simp [run, exec]
  constructor
  · intro hsame
    exact ⟨hecx.symm.trans (hsame.reg .ecx), hedx.symm.trans (hsame.reg .edx)⟩
  · rintro ⟨hc, hd⟩
    refine ⟨fun r => ?_, h4, h3, h1, h2⟩
    by_cases hsaved : r ∈ calleeSaved
    · obtain ⟨h7, -, -, h8⟩ := ne_of_calleeSaved hsaved
      rw [h6 r h8, ← hs.reg r hsaved]
      simp [run, exec, h7, h8]
    · cases r with
      | eax =>
        rw [h6 .eax nofun, ← heax]
        simp [run, exec]
      | ecx => exact hecx.trans hc
      | edx => exact hedx.trans hd
      | esp => exact h5
      | _ => exact absurd (by decide) hsaved

end Counter

/-! ## The saved context -/

section Blocks

variable {s : Cpu} {base : BitVec 32} {vs : List (BitVec 32)}

theorem saveRegisters_spec {t : BitVec 32} (h : View s base (t :: vs)) :
    let u := run s saveRegisters
    View u base vs ∧ u.reg .eax = t ∧ u.seg = s.seg ∧
    u.slot t 11 = s.reg .ebx ∧ u.slot t 12 = s.reg .ecx ∧ u.slot t 13 = s.reg .edx ∧
    u.slot t 15 = s.reg .ebp ∧ u.slot t 16 = s.reg .esi ∧ u.slot t 17 = s.reg .edi ∧
    (u.task t).fistSched = (s.task t).fistSched := by
  have htop : s.mem (s.reg .esp) = t := Between.top h
  have hpop := Between.pop h
  unfold View
  simp [saveRegisters, run, exec, htop]
  exact hpop

theorem saveFrame_spec {eax eip cs eflags : BitVec 32}
    (h : View s base (eax :: eip :: cs :: eflags :: vs)) :
    let u := run s saveFrame
    let t := s.reg .eax
    View u base (eip :: cs :: eflags :: vs) ∧ u.reg .ecx = t ∧ u.reg .eax = cs ∧ u.seg = s.seg ∧
    u.slot t 8 = eip ∧ u.slot t 9 = eflags ∧ u.slot t 10 = eax ∧ u.slot t 19 = cs ∧
    (∀ k ∈ [11, 12, 13, 15, 16, 17], u.slot t k = s.slot t k) ∧
    (u.task t).fistSched = (s.task t).fistSched := by
  have htop : s.mem (s.reg .esp) = eax := Between.top h
  have hpop := Between.pop h
  have h0 : s.mem (s.reg .esp + 4) = eip := hpop.top
  have h1 : s.mem (s.reg .esp + 4 + 4) = cs := Between.get hpop 1 cs rfl
  have h2 : s.mem (s.reg .esp + 4 + 8) = eflags := Between.get hpop 2 eflags rfl
  unfold View
  simp [saveFrame, run, exec, htop]
  exact ⟨hpop, h1, h0, h2, h1⟩

theorem checkLevel_spec (s : Cpu) (base : BitVec 32) (vs : List (BitVec 32)) (h : View s base vs) :
    let u := run s checkLevel
    View u base vs ∧ u.reg .ecx = s.reg .ecx ∧ u.seg = s.seg ∧ u.task = s.task ∧
    (u.zf = true ↔ level ((s.reg .eax).setWidth 16) = level (s.seg .cs)) := by
  refine ⟨h.congr rfl (by simp [checkLevel, run, exec]), by simp [checkLevel, run, exec],
    rfl, rfl, ?_⟩
  have hzf : (run s checkLevel).zf =
      decide (s.reg .eax &&& 0b11 = (s.seg .cs).setWidth 32 &&& 0b11) := by
    refine (zf_setStatus _ _).trans ((zf_sub _ _).trans ?_)
    simp [exec]
  rw [hzf, decide_eq_true_iff, level, level, ← BitVec.toNat_inj, ← BitVec.toNat_inj]
  simp only [BitVec.toNat_and, BitVec.toNat_setWidth, BitVec.ofNat_eq_ofNat, BitVec.toNat_ofNat,
    Nat.reducePow, Nat.reduceMod]
  have hand : ∀ n : Nat, n &&& 3 = n % 4 := fun n => Nat.and_two_pow_sub_one_eq_mod n 2
  rw [hand, hand, hand, hand]
  omega

theorem saveSkip_spec {eip cs eflags esp ss : BitVec 32}
    (h : View s base (eip :: cs :: eflags :: esp :: ss :: vs)) :
    let u := run s saveSkip
    let t := s.reg .ecx
    u.slot t 14 = esp ∧ u.slot t 20 = ss ∧ (∀ k ∉ [14, 20], u.slot t k = s.slot t k) ∧
    (u.task t).fistSched = (s.task t).fistSched := by
  have h3 : s.mem (s.reg .esp + 12) = esp := Between.get h 3 esp rfl
  have h4 : s.mem (s.reg .esp + 16) = ss := Between.get h 4 ss rfl
  simp +contextual [saveSkip, run, exec]
  exact ⟨h3, h4⟩

theorem saveNotSkip_spec {eip cs eflags : BitVec 32} (h : View s base [eip, cs, eflags]) :
    let u := run s saveNotSkip
    let t := s.reg .ecx
    u.slot t 14 = base ∧ u.slot t 20 = (s.seg .ss).setWidth 32 ∧
    (∀ k ∉ [14, 20], u.slot t k = s.slot t k) ∧
    (u.task t).fistSched = (s.task t).fistSched := by
  have h3 := h.pop.pop.pop.base_eq
  rw [BitVec.add_assoc, BitVec.add_assoc] at h3
  simp +contextual [saveNotSkip, run, exec]
  exact h3

/-- The context of a task as `clock_handle` leaves it. -/
structure Holds (u : Cpu) (t : BitVec 32) (s : Cpu) : Prop where
  eip : u.slot t 8 = s.eip
  eflags : u.slot t 9 = s.eflags
  eax : u.slot t 10 = s.reg .eax
  ebx : u.slot t 11 = s.reg .ebx
  esp : u.slot t 14 = s.reg .esp
  ebp : u.slot t 15 = s.reg .ebp
  esi : u.slot t 16 = s.reg .esi
  edi : u.slot t 17 = s.reg .edi
  cs : u.slot t 19 = (s.seg .cs).setWidth 32
  ss : u.slot t 20 = (s.seg .ss).setWidth 32
  started : (u.task t).fistSched = 0

/-- Where the stack of the interrupted code is, in both privilege cases. -/
theorem saveStack_spec {x : Switch} (h : View s x.base x.words)
    (heax : s.reg .eax = (x.cpu.seg .cs).setWidth 32) (hcs : s.seg .cs = x.gate.cs)
    (hss : level (x.cpu.seg .cs) = 0 → s.seg .ss = x.cpu.seg .ss) :
    let v := run s checkLevel
    let u := run v (if v.zf then saveNotSkip else saveSkip)
    let t := s.reg .ecx
    u.slot t 14 = x.cpu.reg .esp ∧ u.slot t 20 = (x.cpu.seg .ss).setWidth 32 ∧
      (∀ k ∉ [14, 20], u.slot t k = s.slot t k) ∧ (u.task t).fistSched = (s.task t).fistSched := by
  obtain ⟨view, hecx, hseg, htask, hzf⟩ := checkLevel_spec s _ _ h
  dsimp only
  generalize run s checkLevel = v at *
  have hlevel : v.zf = true ↔ level (x.cpu.seg .cs) = 0 := by
    rw [hzf, heax, hcs, x.gate.kernel]
    simp
  have hslot : ∀ k, v.slot (s.reg .ecx) k = s.slot (s.reg .ecx) k := fun k =>
    congrArg (fun f => (f (s.reg .ecx)).context k) htask
  unfold Switch.base Switch.words at view
  by_cases hl : level (x.cpu.seg .cs) = 0
  · rw [if_pos hl, if_pos hl, frame] at view
    obtain ⟨h1, h2, h3, h4⟩ := saveNotSkip_spec view
    rw [hecx] at h1 h2 h3 h4
    rw [if_pos (hlevel.mpr hl)]
    refine ⟨h1, ?_, fun k hk => (h3 k hk).trans (hslot k), ?_⟩
    · rw [h2, hseg, hss hl]
    · rw [h4, htask]
  · rw [if_neg hl, if_neg hl, frame, outerFrame] at view
    obtain ⟨h1, h2, h3, h4⟩ := saveSkip_spec view
    rw [hecx] at h1 h2 h3 h4
    rw [if_neg fun h => hl (hlevel.mp h)]
    refine ⟨h1, h2, fun k hk => (h3 k hk).trans (hslot k), ?_⟩
    rw [h4, htask]

/-- Everything but `ecx` and `edx` is saved. -/
theorem saved_spec (x : Switch) :
    Holds x.saved x.cpu.current x.cpu ∧ x.saved.slot x.cpu.current 12 = x.sub.ecx ∧
      x.saved.slot x.cpu.current 13 = x.sub.edx := by
  have hs := counted_spec x
  obtain ⟨view1, eax1, seg1, h11, h12, h13, h15, h16, h17, hf1⟩ := saveRegisters_spec hs.view
  unfold Switch.saved
  generalize x.counted = s at *
  generalize run s saveRegisters = s1 at *
  -- both kinds of frame begin with the same words
  obtain ⟨rest, hwords⟩ : ∃ rest, x.words =
      x.cpu.eip :: (x.cpu.seg .cs).setWidth 32 :: x.cpu.eflags :: rest := by
    unfold Switch.words
    split <;> exact ⟨_, rfl⟩
  rw [hwords] at view1
  obtain ⟨view2, ecx2, eax2, seg2, h8, h9, h10, h19, keep2, hf2⟩ := saveFrame_spec view1
  rw [eax1] at ecx2 h8 h9 h10 h19 keep2 hf2
  generalize run s1 saveFrame = s2 at *
  rw [← hwords] at view2
  obtain ⟨h14, h20, keep3, hf3⟩ := saveStack_spec view2 eax2 (by rw [seg2, seg1, hs.cs])
    (fun hl => by rw [seg2, seg1, hs.ss hl])
  rw [ecx2] at h14 h20 keep3 hf3
  refine ⟨{
    eip := (keep3 8 (by decide)).trans h8
    eflags := (keep3 9 (by decide)).trans h9
    eax := (keep3 10 (by decide)).trans h10
    ebx := ?_
    esp := h14
    ebp := ?_
    esi := ?_
    edi := ?_
    cs := (keep3 19 (by decide)).trans h19
    ss := h20
    started := by rw [hf3, hf2, hf1, hs.started] }, ?_, ?_⟩
  · rw [keep3 11 (by decide), keep2 11 (by decide), h11, hs.reg .ebx (by decide)]
  · rw [keep3 15 (by decide), keep2 15 (by decide), h15, hs.reg .ebp (by decide)]
  · rw [keep3 16 (by decide), keep2 16 (by decide), h16, hs.reg .esi (by decide)]
  · rw [keep3 17 (by decide), keep2 17 (by decide), h17, hs.reg .edi (by decide)]
  · rw [keep3 12 (by decide), keep2 12 (by decide), h12, hs.ecx]
  · rw [keep3 13 (by decide), keep2 13 (by decide), h13, hs.edx]
end Blocks

/-! ## Back to a task -/

section Return

variable {s : Cpu} {base : BitVec 32} {vs : List (BitVec 32)}

theorem run_append (s : Cpu) (is js : List Instr) : run s (is ++ js) = run (run s is) js := by
  induction is generalizing s with
  | nil => rfl
  | cons i is ih => exact ih (exec s i)

theorem Keeps.mono {rs qs : List Reg} {s t : Cpu} (h : Keeps rs s t)
    (hsub : rs ⊆ qs) : Keeps qs s t :=
  { h with reg := fun r hr => h.reg r fun hm => hr (hsub hm) }

theorem pushSlot_spec (h : View s base vs) (hn : vs.length < 2 ^ 30) (k : Nat) :
    let u := run s (pushSlot k)
    View u base (s.slot (s.reg .eax) k :: vs) ∧ Keeps [.ecx, .esp] s u := by
  have hload : View (s.setReg .ecx (s.slot (s.reg .eax) k)) base vs := h.congr rfl (by simp)
  have hpush := hload.pushVal hn (s.slot (s.reg .eax) k)
  refine ⟨?_, fun r hr => ?_, rfl, rfl, rfl⟩
  · simpa [pushSlot, run, exec] using hpush
  · simp only [List.mem_cons, List.not_mem_nil, or_false, not_or] at hr
    simp [pushSlot, run, exec, Cpu.pushVal_ne _ _ hr.2, hr.1]

theorem pushFlags_spec (h : View s base vs) (hn : vs.length < 2 ^ 30) :
    let u := run s (pushFlags .ecx)
    View u base ((s.eflags ||| interruptFlag) :: vs) ∧ Keeps [.ecx, .esp] s u := by
  have hpush := h.pushVal hn (s.eflags ||| interruptFlag)
  refine ⟨?_, fun r hr => ?_, rfl, rfl, rfl⟩
  · refine hpush.congr ?_ ?_
    · simp [pushFlags, run, exec, Cpu.pushVal, interruptFlag]
    · simp [pushFlags, run, exec]
  · simp only [List.mem_cons, List.not_mem_nil, or_false, not_or] at hr
    simp [pushFlags, run, exec, Cpu.pushVal_ne _ _ hr.2, hr.1, hr.2]

/-- The words `iretd` and the last two pops take. -/
theorem pushFrame_spec (h : View s base []) :
    let u := run s pushFrame
    let c := s.slot (s.reg .eax)
    View u base [c 10, c 12, c 8, c 19, s.eflags ||| interruptFlag, c 14, c 20] ∧
      Keeps [.ecx, .esp] s u := by
  simp only [pushFrame, run_append]
  obtain ⟨view1, keep1⟩ := pushSlot_spec h (by simp) 20
  generalize h1 : run s (pushSlot 20) = s1 at *
  obtain ⟨view2, keep2⟩ := pushSlot_spec view1 (by simp) 14
  generalize h2 : run s1 (pushSlot 14) = s2 at *
  have hflags : s2.eflags = s.eflags := by
    rw [← h2, ← h1]
    rfl
  obtain ⟨view3, keep3⟩ := pushFlags_spec view2 (by simp)
  generalize run s2 (pushFlags .ecx) = s3 at *
  have view4 : View (run s3 [.xor .ecx .ecx]) base _ := view3.congr rfl (by simp [run, exec])
  have keep4 : Keeps [.ecx, .esp] s3 (run s3 [.xor .ecx .ecx]) :=
    { reg := fun r hr => by
        simp only [List.mem_cons, List.not_mem_nil, or_false, not_or] at hr
        simp [run, exec, hr.1]
      seg := rfl
      task := rfl
      current := rfl }
  generalize run s3 [.xor .ecx .ecx] = s4 at *
  obtain ⟨view5, keep5⟩ := pushSlot_spec view4 (by simp) 19
  generalize run s4 (pushSlot 19) = s5 at *
  obtain ⟨view6, keep6⟩ := pushSlot_spec view5 (by simp) 8
  generalize run s5 (pushSlot 8) = s6 at *
  obtain ⟨view7, keep7⟩ := pushSlot_spec view6 (by simp) 12
  generalize run s6 (pushSlot 12) = s7 at *
  obtain ⟨view8, keep8⟩ := pushSlot_spec view7 (by simp) 10
  generalize run s7 (pushSlot 10) = s8 at *
  have hk2 := keep1.trans keep2
  have hk4 := hk2.trans (keep3.trans keep4)
  have hk5 := hk4.trans keep5
  have hk6 := hk5.trans keep6
  have hk7 := hk6.trans keep7
  -- `eax` points at the descriptor throughout
  have hslot : ∀ {t : Cpu}, Keeps [.ecx, .esp] s t →
      ∀ k, t.slot (t.reg .eax) k = s.slot (s.reg .eax) k :=
    fun hk k => by rw [Cpu.slot, hk.task, hk.reg .eax (by decide), Cpu.slot]
  rw [hslot hk7, hslot hk6, hslot hk5, hslot hk4, hslot keep1, hflags] at view8
  exact ⟨view8, hk7.trans keep8⟩

/-- **The way back.** Every register but `esp` is loaded, and the stack is ready for
`iretd`. -/
theorem taskNotFistSched_spec (s : Cpu) :
    let u := run s taskNotFistSched
    let c := s.slot s.current
    View u (s.reg .esp) [c 8, c 19, s.eflags ||| interruptFlag, c 14, c 20] ∧
    u.reg .eax = c 10 ∧ u.reg .ebx = c 11 ∧ u.reg .ecx = c 12 ∧ u.reg .edx = c 13 ∧
    u.reg .ebp = c 15 ∧ u.reg .esi = c 16 ∧ u.reg .edi = c 17 ∧
    u.seg .cs = s.seg .cs ∧ u.seg .ss = s.seg .ss := by
  have hempty : View (run s loadRegisters) (s.reg .esp) [] :=
    View.congr (s := s) (between_nil 4 s.mem _) rfl (by simp [loadRegisters, run, exec])
  obtain ⟨view, keep⟩ := pushFrame_spec hempty
  have hc : ∀ k,
    (run s loadRegisters).slot ((run s loadRegisters).reg .eax) k = s.slot s.current k :=
    fun k => by simp [loadRegisters, run, exec]
  have hflags : (run s loadRegisters).eflags = s.eflags := rfl
  simp only [hc, hflags] at view
  have hreg : ∀ r, r ≠ .ecx → r ≠ .esp → (run (run s loadRegisters) pushFrame).reg r =
      (run s loadRegisters).reg r := fun r h1 h2 => keep.reg r (by simp [h1, h2])
  have hseg : (run (run s loadRegisters) pushFrame).seg = s.seg := keep.seg
  simp only [taskNotFistSched, run_append]
  generalize run (run s loadRegisters) pushFrame = t at *
  have h10 := Between.top view
  have h12 := Between.top view.pop
  refine ⟨?_, ?_, ?_, ?_, ?_, ?_, ?_, ?_, ?_, ?_⟩
  · have hpop := view.pop.pop
    unfold View
    simpa [loadSegments, run, exec] using hpop
  all_goals simp [loadSegments, run, exec, hreg, hseg, h10]
  · simp [loadRegisters, run, exec]
  · exact h12
  · simp [loadRegisters, run, exec]
  · simp [loadRegisters, run, exec]
  · simp [loadRegisters, run, exec]
  · simp [loadRegisters, run, exec]

theorem flag_status (b : Bool) {bit : BitVec 32} (h : bit &&& ~~~statusFlags = 0) :
    flag b bit &&& ~~~statusFlags = 0 := by
  cases b
  · simp [flag]
  · exact h

theorem or_status {f g : BitVec 32} (hf : f &&& ~~~statusFlags = 0)
    (hg : g &&& ~~~statusFlags = 0) :
    (f ||| g) &&& ~~~statusFlags = 0 := by
  rw [BitVec.and_comm, BitVec.and_or_distrib_left, BitVec.and_comm, hf, BitVec.and_comm, hg]
  rfl

/-- A comparison sets status flags only. -/
theorem subFlags_status (a b : BitVec 32) : subFlags a b &&& ~~~statusFlags = 0 := by
  have hresult : resultFlags (a - b) &&& ~~~statusFlags = 0 :=
    or_status (or_status (flag_status _ (by decide)) (flag_status _ (by decide)))
      (flag_status _ (by decide))
  have hadjust : (a ^^^ b ^^^ (a - b)) &&& 0x10 &&& ~~~statusFlags = 0 := by
    have hbit : (0x10 : BitVec 32) &&& ~~~statusFlags = 0 := by decide
    rw [BitVec.and_assoc, hbit]
    simp
  exact or_status (or_status (or_status hresult (flag_status _ (by decide))) hadjust)
    (flag_status _ (by decide))

/-- Status flags set in between leave no trace in the others. -/
theorem status_idem (e : BitVec 32) {f : BitVec 32} (h : f &&& ~~~statusFlags = 0) :
    (e &&& ~~~statusFlags ||| f) &&& ~~~statusFlags = e &&& ~~~statusFlags := by
  rw [BitVec.and_comm, BitVec.and_or_distrib_left, BitVec.and_comm, BitVec.and_assoc,
    BitVec.and_self, BitVec.and_comm (~~~statusFlags), h]
  simp

/-- The state in which `sched_task` restores a task that has run before. -/
theorem schedTask_eq {s : Cpu} (hcur : s.current ≠ 0) (hf : (s.task s.current).fistSched = 0)
    (e : BitVec 32) (c : Clobber) :
    ∃ u : Cpu, schedTask e c s = iretd (run u taskNotFistSched) ∧ u.reg .esp = s.reg .esp - 4 ∧
      u.seg = s.seg ∧ u.task = s.task ∧ u.current = s.current ∧
      u.eflags = s.eflags &&& ~~~statusFlags ||| 0x44 := by
  have hfirst : run s [.loadCurrent .eax, .cmpImm .eax 0] =
    (s.setReg .eax s.current).setStatus (subFlags s.current 0) := by simp [run, exec]
  have hzf : ((s.setReg .eax s.current).setStatus (subFlags s.current 0)).zf = false := by
    rw [zf_setStatus, zf_sub]
    exact decide_eq_false hcur
  let v := (s.setReg .eax s.current).setStatus (subFlags s.current 0)
  let w := callGetFirstSchedFlag c (run v [.loadCurrent .ecx, .push .ecx])
  have hcall : w = (run v [.loadCurrent .ecx, .push .ecx]).returned 0 c := by
    have htop : (run v [.loadCurrent .ecx, .push .ecx]).mem
        ((run v [.loadCurrent .ecx, .push .ecx]).reg .esp) = s.current := by
      simp [v, run, exec, Cpu.pushVal]
    simp only [w, callGetFirstSchedFlag, htop]
    exact if_pos hf
  have heax : w.reg .eax = 0 := by
    rw [hcall]
    simp [Cpu.returned]
  have hlast : (run w [.cmpImm .eax 0]).zf = true := by
    rw [zf_cmpImm, heax]
    rfl
  refine ⟨run w [.cmpImm .eax 0], ?_, ?_, ?_, ?_, ?_, ?_⟩
  · simp only [schedTask, hfirst, hzf, Bool.false_eq_true, ↓reduceIte]
    exact if_pos hlast
  · rw [hcall]
    simp [v, run, exec, Cpu.returned]
  · rw [hcall]
    rfl
  · rw [hcall]
    rfl
  · rw [hcall]
    rfl
  · have hzero : subFlags 0 0 = 0x44 := by decide
    have hclobber : c.status &&& statusFlags &&& ~~~statusFlags = 0 := by
      rw [BitVec.and_assoc, BitVec.and_not_self]
      simp
    have hw : w.eflags =
      (s.eflags &&& ~~~statusFlags ||| subFlags s.current 0) &&& ~~~statusFlags |||
        c.status &&& statusFlags := by
      rw [hcall]
      rfl
    simp only [run, exec, heax, hzero, Cpu.setStatus]
    rw [hw, status_idem _ hclobber, status_idem _ (subFlags_status _ _)]
end Return

/-! ## Transparency -/

section Transparent

variable {x : Switch}

/-- **After a switch** the flags are those of `sched_task`, and a task of ring 0 stays on
the stack `sched_task` was called on. -/
theorem resume_switched (h : x.Expired) :
    let t := x.resume
    (∀ r, r ≠ .ecx → r ≠ .edx → r ≠ .esp → t.reg r = x.cpu.reg r) ∧
    t.reg .ecx = x.sub.ecx ∧ t.reg .edx = x.sub.edx ∧
    t.seg .cs = x.cpu.seg .cs ∧ t.eip = x.cpu.eip ∧ t.eflags = restoredFlags x.later ∧
    if level (x.cpu.seg .cs) = 0 then
      t.reg .esp = x.later.reg .esp - 12 ∧ t.seg .ss = x.later.seg .ss
    else t.reg .esp = x.cpu.reg .esp ∧ t.seg .ss = x.cpu.seg .ss := by
  obtain ⟨hold, hecx, hedx⟩ := saved_spec x
  have hresume : x.resume = schedTask x.taskExit x.first (x.back x.saved) := by
    rw [Switch.resume, clockHandle_eq, if_pos ((counted_spec x).zf.mpr h)]
  have hslot : ∀ k,
    (x.back x.saved).slot x.cpu.current k = x.saved.slot x.cpu.current k := fun k => by
    simp [Switch.back, Cpu.slot]
  have hstarted : ((x.back x.saved).task (x.back x.saved).current).fistSched = 0 := by
    simpa [Switch.back] using hold.started
  obtain ⟨u, hu, hesp, hseg, htask, hcur, hflags⟩ :=
    schedTask_eq (s := x.back x.saved) x.running hstarted x.taskExit x.first
  rw [hresume, hu]
  obtain ⟨view, heax, hebx, hcx, hdx, hebp, hesi, hedi, hcs, hss⟩ := taskNotFistSched_spec u
  have hslot' : ∀ k, u.slot u.current k = x.saved.slot x.cpu.current k := fun k => by
    rw [← hslot, Cpu.slot, htask, hcur]
    rfl
  simp only [hslot', hold.eip, hold.eax, hold.ebx, hold.esp, hold.ebp, hold.esi, hold.edi, hold.cs,
    hold.ss, hecx, hedx] at view heax hebx hcx hdx hebp hesi hedi
  have hlevel : level ((run u taskNotFistSched).seg .cs) = 0 := by
    rw [hcs, hseg]
    exact x.kernel
  have hsp : u.reg .esp = x.later.reg .esp - 4 := hesp
  have hwidth : ∀ g : BitVec 16, (g.setWidth 32).setWidth 16 = g := fun g => by simp
  obtain ⟨h1, h2, h3, h4, h5, h6⟩ := iretd_spec view
  rw [hwidth] at h3 h5 h6
  refine ⟨fun r h7 h8 h9 => ?_, ?_, ?_, h3, h1, ?_, ?_⟩
  · rw [h4 r h9]
    cases r with
    | eax => exact heax
    | ebx => exact hebx
    | ecx => exact absurd rfl h7
    | edx => exact absurd rfl h8
    | esi => exact hesi
    | edi => exact hedi
    | ebp => exact hebp
    | esp => exact absurd rfl h9
  · rw [h4 .ecx nofun, hcx]
  · rw [h4 .edx nofun, hdx]
  · rw [h2, hflags]
    rfl
  · by_cases hl : level (x.cpu.seg .cs) = 0
    · rw [if_pos hl]
      obtain ⟨h7, h8⟩ := h5 (hl.trans hlevel.symm)
      refine ⟨?_, ?_⟩
      · have hbase := h7.pop.pop.base_eq
        rw [hsp] at hbase
        bv_omega
      · rw [h8, hss, hseg]
        rfl
    · rw [if_neg hl]
      obtain ⟨h7, h8⟩ := h6 _ _ _ rfl fun he => hl (he.trans hlevel)
      exact ⟨h7, h8.trans (hwidth _)⟩

/-- **Transparency.** A task resumes as it was interrupted exactly when nothing the two
routines lose was different. -/
theorem transparent_iff (x : Switch) : Same x.cpu x.resume ↔ Clean x := by
  by_cases h : x.Expired
  · obtain ⟨hreg, hecx, hedx, hcs, heip, hflags, hstack⟩ := resume_switched h
    constructor
    · intro hsame
      refine ⟨?_, ?_, fun _ => ?_, fun _ hl => ?_⟩
      · rw [← hsame.reg, hecx]
      · rw [← hsame.reg, hedx]
      · rw [← hsame.eflags, hflags]
      · rw [if_pos hl] at hstack
        rw [← hsame.reg, ← hsame.ss]
        exact hstack
    · intro hclean
      have hsp : x.resume.reg .esp = x.cpu.reg .esp ∧ x.resume.seg .ss = x.cpu.seg .ss := by
        by_cases hl : level (x.cpu.seg .cs) = 0
        · rw [if_pos hl] at hstack
          obtain ⟨h1, h2⟩ := hclean.stack h hl
          exact ⟨hstack.1.trans h1.symm, hstack.2.trans h2.symm⟩
        · rw [if_neg hl] at hstack
          exact hstack
      refine ⟨fun r => ?_, hsp.2, hcs, heip, hflags.trans (hclean.eflags h).symm⟩
      by_cases h1 : r = .ecx
      · rw [h1, hecx, hclean.ecx]
      · by_cases h2 : r = .edx
        · rw [h2, hedx, hclean.edx]
        · by_cases h3 : r = .esp
          · rw [h3, hsp.1]
          · exact hreg r h1 h2 h3
  · rw [resume_direct h]
    constructor
    · rintro ⟨h1, h2⟩
      exact ⟨h1, h2, fun he => absurd he h, fun he => absurd he h⟩
    · exact fun hclean => ⟨hclean.ecx, hclean.edx⟩

end Transparent

def sampleCpu (selector : BitVec 16) (eflags : BitVec 32) : Cpu where
  reg _ := 0
  seg _ := selector
  eip := 0x1000
  eflags := eflags
  mem _ := 0
  task _ := ⟨fun _ => 0, 0, ⟨.running, 1, 0⟩⟩
  current := 0x2000

/-- A task of ring 3 at the end of its slice; the C functions keep its registers, and
`sched_task` is called with interrupts off. -/
def sampleSwitch (eflags : BitVec 32) : Switch where
  cpu := sampleCpu 0x1b eflags
  gate := ⟨0x8, 0x3000, 0x10, 0x9000, by decide⟩
  later := sampleCpu 0x8 0x46
  sub := ⟨0, 0, 0⟩
  first := ⟨0, 0, 0⟩
  taskExit := 0x4000
  running := (by decide : (0x2000 : BitVec 32) ≠ 0)
  started := rfl
  kernel := (by decide : level 0x8 = 0)

/-- The carry flag is lost, and two flags that were clear are set. -/
theorem transparent_sample_fails :
    (sampleSwitch 0x203).resume.eflags = 0x246 ∧ ¬ ∀ x : Switch, Same x.cpu x.resume := by
  have hflags : (sampleSwitch 0x203).resume.eflags = 0x246 :=
    (resume_switched (x := sampleSwitch 0x203) rfl).2.2.2.2.2.1
  refine ⟨hflags, fun hsame => ?_⟩
  have heq := (hsame (sampleSwitch 0x203)).eflags
  rw [hflags] at heq
  exact absurd heq (by decide : (0x246 : BitVec 32) ≠ 0x203)

theorem transparent_sample_holds :
    Same (sampleSwitch 0x246).cpu (sampleSwitch 0x246).resume :=
  (transparent_iff (sampleSwitch 0x246)).mpr
    ⟨rfl, rfl, fun _ => (by decide : (0x246 : BitVec 32) = _),
    fun _ hl => absurd hl (by decide : level 0x1b ≠ 0)⟩

end X64SmpOs.X86

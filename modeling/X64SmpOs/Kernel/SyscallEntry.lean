import X64SmpOs.Lib.SysV

/-!
# System call entry

`syscall` leaves the return address in `rcx` and the flags in `r11`.
`syscall_entry` parks the user's `rsp` in the per-CPU block, pushes the other two
on the kernel stack, and calls through the table with the number in `rax` as it
is.

* `syscall`, `enter`, `leave`, `sysret`: from the instruction in user code to the
  one behind it;
* `enter_spec`, `leave_spec`: what is parked where, and taken back;
* `Law`: what a system call promises;
* `law_iff_number`: it keeps the promise for the one number that has a handler.
-/

namespace X64SmpOs.SyscallEntry

open Stack SysV

/-! ## The processor -/

def syscallSelector : BitVec 64 := 3 <<< 3
def sysretSelector : BitVec 64 := (4 <<< 3) ||| 0b011

/-- `IA32_STAR` and `IA32_FMASK` as `syscall_init` sets them. -/
def ia32Star : BitVec 64 := (sysretSelector <<< 48) ||| (syscallSelector <<< 32)
def ia32Fmask : BitVec 64 := 0x00047700

/-- `rip` is the address behind the instruction; the handler address goes in. -/
def syscall (lstar : BitVec 64) (u : Cpu) : Cpu :=
  { (u.setReg .rcx u.rip).setReg .r11 u.rflags with
    rip := lstar
    rflags := u.rflags &&& ~~~ia32Fmask
    cs := (ia32Star >>> 32).setWidth 16 &&& 0xFFFC
    ss := (ia32Star >>> 32).setWidth 16 + 8 }

def sysret (s : Cpu) : Cpu :=
  { s with
    rip := s.reg .rcx
    rflags := (s.reg .r11 &&& 0x3C7FD7) ||| 2
    cs := ((ia32Star >>> 48).setWidth 16 + 16) ||| 3
    ss := ((ia32Star >>> 48).setWidth 16 + 8) ||| 3 }

/-! ## The code -/

/-- Where the linker and the boot code put things. -/
structure Layout where
  syscallEntry : BitVec 64
  systemCallTable : BitVec 64
  sysWrite : BitVec 64
  /-- the address behind `call [rax]` -/
  afterCall : BitVec 64
  kpcr : BitVec 64

def systemCallNums : Nat := 128

/-- `{ NULL, sys_write }`, the rest zero. -/
def systemCallTable (k : Layout) : List (BitVec 64) :=
  0 :: k.sysWrite :: List.replicate (systemCallNums - 2) 0

/-- Up to `call [rax]`. -/
def switchStack : List Instr := [.swapgs, .storeGs 40 .rsp, .loadGs .rsp 48, .swapgs]

def saveReturn : List Instr := [.push .rcx, .push .r11]

def selectCall (k : Layout) : List Instr := [.mov .rcx .r10, .lea .rax .rax 8 k.systemCallTable]

def enter (k : Layout) : List Instr := switchStack ++ (saveReturn ++ selectCall k)

/-- Up to `sysret`. -/
def leave : List Instr := [.pop .r11, .pop .rcx, .swapgs, .loadGs .rsp 40, .swapgs]

/-- The calls that were made, each with the state at its target, and the state
behind `sysret`. -/
structure Outcome where
  calls : List (BitVec 64 × Cpu)
  final : Cpu

/-- The state at the target of the call, which is the word that `rax` points to. -/
def atTarget (k : Layout) (u : Cpu) : BitVec 64 × Cpu :=
  let s := run (syscall k.syscallEntry u) (enter k)
  (s.mem (s.reg .rax), s.pushWord k.afterCall)

/-- `code` is what runs at an address until it returns. -/
def syscallEntry (k : Layout) (code : BitVec 64 → Cpu → Cpu) (u : Cpu) : Outcome :=
  let (target, s) := atTarget k u
  { calls := [(target, s)]
    final := sysret (run (code target s) leave) }

/-! ## The law -/

/-- User code goes on behind its `syscall` instruction. -/
structure Resumes (u t : Cpu) : Prop where
  rsp : t.reg .rsp = u.reg .rsp
  rip : t.rip = u.rip
  rflags : t.rflags = u.rflags
  saved : ∀ r ∈ calleeSaved, t.reg r = u.reg r
  user : t.cs &&& 3 = 3

/-- A number with a handler gets that called and its result, any other number
gets nothing called. -/
structure Law (k : Layout) (code : BitVec 64 → Cpu → Cpu) (u : Cpu) : Prop where
  handled : ∀ f, (systemCallTable k)[(u.reg .rax).toNat]? = some f → f ≠ 0 →
    ∃ s, (syscallEntry k code u).calls = [(f, s)] ∧
      (syscallEntry k code u).final.reg .rax = (code f s).reg .rax ∧
      Resumes u (syscallEntry k code u).final
  refused : (∀ f, (systemCallTable k)[(u.reg .rax).toNat]? = some f → f = 0) →
    (syscallEntry k code u).calls = [] ∧ Resumes u (syscallEntry k code u).final

/-- The stack of the core, and where the three words go that are pushed on it. -/
def kernelStack (k : Layout) (u : Cpu) : BitVec 64 := u.mem (k.kpcr + 48)

def pushed (k : Layout) (u : Cpu) : List (BitVec 64) :=
  [kernelStack k u - 8, kernelStack k u - 8 - 8, kernelStack k u - 8 - 8 - 8]

/-- The state of a core in user mode: the per-CPU block is behind `swapgs`, the
table is filled in, and the block, the table and the top of the kernel stack lie
apart. -/
structure UserMode (k : Layout) (u : Cpu) : Prop where
  gs : u.kernelGsBase = k.kpcr
  table : ∀ i f, (systemCallTable k)[i]? = some f →
    u.mem (k.systemCallTable + BitVec.ofNat 64 i * 8) = f
  sysWrite : k.sysWrite ≠ 0
  stack_kpcr : k.kpcr + 40 ∉ pushed k u
  stack_table : ∀ j < systemCallNums, k.systemCallTable + BitVec.ofNat 64 j * 8 ∉ pushed k u
  table_kpcr : ∀ j < systemCallNums, k.systemCallTable + BitVec.ofNat 64 j * 8 ≠ k.kpcr + 40
  rflags : (u.rflags &&& 0x3C7FD7) ||| 2 = u.rflags

/-- A handler keeps the convention, and the per-CPU block of the entry code. -/
structure Handles (k : Layout) (f : Cpu → Cpu) (s : Cpu) : Prop where
  returns : Returns 2 f s
  kernelGsBase : (f s).kernelGsBase = s.kernelGsBase
  kpcr : (f s).mem (k.kpcr + 40) = s.mem (k.kpcr + 40)

/-! ## The stack -/

section
variable {k : Layout} {u : Cpu}

/-- The kernel stack is selected, and the user's `rsp` is in the per-CPU block. -/
theorem switchStack_spec (hu : UserMode k u) :
    let t := run (syscall k.syscallEntry u) switchStack
    t.mem = Function.update u.mem (k.kpcr + 40) (u.reg .rsp) ∧
      t.reg .rsp = kernelStack k u ∧ t.kernelGsBase = k.kpcr := by
  have hne : k.kpcr + 48 ≠ k.kpcr + 40 := by
    intro h
    exact absurd ((BitVec.add_right_inj _).mp h) (by decide)
  simp only [switchStack, run, exec, syscall, hu.gs, setReg_reg, setReg_mem, setMem_mem, setMem_reg,
    setReg_gsBase, setReg_kernelGsBase, setMem_gsBase, setMem_kernelGsBase, reduceCtorEq, if_false,
    if_true, Function.update_of_ne hne, kernelStack, and_self]

/-- The state before the call: the user's return address and flags are on the
kernel stack, and `rax` points to the word that is called. -/
structure Entered (k : Layout) (u t : Cpu) : Prop where
  stack : OnStack t (kernelStack k u) [u.rflags, u.rip]
  mem : t.mem = Function.update (Function.update (Function.update u.mem (k.kpcr + 40) (u.reg .rsp))
    (kernelStack k u - 8) u.rip) (kernelStack k u - 8 - 8) u.rflags
  rsp : t.reg .rsp = kernelStack k u - 8 - 8
  rax : t.reg .rax = u.reg .rax * 8 + k.systemCallTable
  kernelGsBase : t.kernelGsBase = k.kpcr
  saved : ∀ r ∈ calleeSaved, t.reg r = u.reg r

/-- **Entry.** -/
theorem enter_spec (hu : UserMode k u) :
    Entered k u (run (syscall k.syscallEntry u) (enter k)) := by
  obtain ⟨hmem, hrsp, hgs⟩ := switchStack_spec hu
  generalize hs : run (syscall k.syscallEntry u) switchStack = s at *
  have hkeep : ∀ r ≠ .rsp, s.reg r = (syscall k.syscallEntry u).reg r := by
    intro r hr
    rw [← hs]
    apply run_reg_of_not_mem
    simp [switchStack, Instr.writes, hr]
  have hrcx : s.reg .rcx = u.rip := by simp [hkeep, syscall]
  have hr11 : s.reg .r11 = u.rflags := by simp [hkeep, syscall]
  have hrax : s.reg .rax = u.reg .rax := by simp [hkeep, syscall]
  have hempty : OnStack s (kernelStack k u) [] := by
    rw [OnStack, hrsp]
    exact between_nil _ _ _
  obtain ⟨htop, -⟩ := hempty.pushes [.rcx, .r11] (by decide) (by decide)
  simp only [List.map_cons, List.map_nil, List.reverse_cons, List.reverse_nil, List.nil_append,
    List.cons_append, hrcx, hr11] at htop
  rw [enter, run_append, run_append, hs]
  constructor
  · exact htop.congr rfl (run_reg_of_not_mem (by simp [selectCall, Instr.writes]))
  · simp [saveReturn, selectCall, run, exec, hmem, hrsp, hrcx, hr11]
  · simp [saveReturn, selectCall, run, exec, hrsp]
  · simp [saveReturn, selectCall, run, exec, hrax]
  · exact hgs
  · intro r hr
    simp only [calleeSaved, List.mem_cons, List.not_mem_nil, or_false] at hr
    rcases hr with rfl | rfl | rfl | rfl | rfl | rfl <;>
      simp [saveReturn, selectCall, run, exec, hkeep, syscall]

/-- **Exit.** -/
theorem leave_spec {s : Cpu} {base flags ip sp kpcr : BitVec 64} (h : OnStack s base [flags, ip])
    (hgs : s.kernelGsBase = kpcr) (hsp : s.mem (kpcr + 40) = sp) :
    (run s leave).reg .r11 = flags ∧ (run s leave).reg .rcx = ip ∧ (run s leave).reg .rsp = sp ∧
      ∀ r ∉ [Reg.r11, .rcx, .rsp], (run s leave).reg r = s.reg r := by
  obtain ⟨htop, hflags⟩ := h.pop (r := .r11) (by decide)
  obtain ⟨-, hip⟩ := htop.pop (r := .rcx) (by decide)
  refine ⟨?_, ?_, ?_, ?_⟩
  · rw [← hflags, leave, run]
    apply run_reg_of_not_mem
    simp [Instr.writes]
  · rw [← hip, leave, run, run]
    apply run_reg_of_not_mem
    simp [Instr.writes]
  · rw [← hsp, ← hgs]
    simp [leave, run, exec]
  · intro r hr
    apply run_reg_of_not_mem
    simp_all [leave, Instr.writes]

/-! ## The call -/

theorem pushed_ne {a : BitVec 64} (h : a ∉ pushed k u) :
    a ≠ kernelStack k u - 8 ∧ a ≠ kernelStack k u - 8 - 8 ∧ a ≠ kernelStack k u - 8 - 8 - 8 := by
  simp only [pushed, List.mem_cons, List.not_mem_nil, or_false, not_or] at h
  exact h

/-- The target is the word the number selects, as long as it is in the table. -/
theorem target_eq (hu : UserMode k u) {f : BitVec 64}
    (hf : (systemCallTable k)[(u.reg .rax).toNat]? = some f) : (atTarget k u).1 = f := by
  have ht := enter_spec hu
  have hlen : (systemCallTable k).length = systemCallNums := by
    simp [systemCallTable, systemCallNums]
  have hlt : (u.reg .rax).toNat < systemCallNums := by
    rw [← hlen]
    exact (List.getElem?_eq_some_iff.mp hf).1
  have haddr : u.reg .rax * 8 + k.systemCallTable =
      k.systemCallTable + BitVec.ofNat 64 (u.reg .rax).toNat * 8 := by
    rw [BitVec.ofNat_toNat, BitVec.setWidth_eq, BitVec.add_comm]
  obtain ⟨h0, h1, -⟩ := pushed_ne (hu.stack_table _ hlt)
  simp only [atTarget, ht.rax, ht.mem, haddr]
  rw [Function.update_of_ne h1, Function.update_of_ne h0,
    Function.update_of_ne (hu.table_kpcr _ hlt)]
  exact hu.table _ f hf

/-- **Return.** A handler that keeps its contract brings the user back. -/
theorem resumes_of_handles (hu : UserMode k u) {f : Cpu → Cpu} (hf : Handles k f (atTarget k u).2) :
    (sysret (run (f (atTarget k u).2) leave)).reg .rax = (f (atTarget k u).2).reg .rax ∧
      Resumes u (sysret (run (f (atTarget k u).2) leave)) := by
  have ht := enter_spec hu
  have hcall : OnStack (f (atTarget k u).2) (kernelStack k u) [u.rflags, u.rip] :=
    ht.stack.call (by simp) hf.returns le_rfl
  have hsp : (f (atTarget k u).2).mem (k.kpcr + 40) = u.reg .rsp := by
    obtain ⟨h0, h1, h2⟩ := pushed_ne hu.stack_kpcr
    rw [hf.kpcr]
    simp only [atTarget, pushWord_mem, ht.rsp, ht.mem]
    rw [Function.update_of_ne h2, Function.update_of_ne h1, Function.update_of_ne h0,
      Function.update_self]
  obtain ⟨hr11, hrcx, hback, hkeep⟩ :=
    leave_spec hcall (hf.kernelGsBase.trans ht.kernelGsBase) hsp
  constructor
  · exact hkeep .rax (by decide)
  · constructor
    · exact hback
    · exact hrcx
    · simp only [sysret, hr11]
      exact hu.rflags
    · intro r hr
      have hne : r ∉ [Reg.r11, .rcx, .rsp] := by
        intro hmem
        simp only [calleeSaved, List.mem_cons, List.not_mem_nil, or_false] at hr hmem
        rcases hmem with rfl | rfl | rfl <;> simp at hr
      have hrsp : r ≠ .rsp := fun he => hne (by simp [he])
      have hpush : (atTarget k u).2.reg r = u.reg r := by
        rw [← ht.saved r hr]
        simp [atTarget, hrsp]
      exact (hkeep r hne).trans ((hf.returns.saved r hr).trans hpush)
    · simp only [sysret]
      decide

/-- No entry but the second is used. -/
theorem entry_eq_zero {i : Nat} {f : BitVec 64} (hi : i ≠ 1)
    (hf : (systemCallTable k)[i]? = some f) : f = 0 := by
  match i with
  | 0 => exact (Option.some.inj hf).symm
  | 1 => exact absurd rfl hi
  | i + 2 =>
    have hmem : f ∈ List.replicate (systemCallNums - 2) (0 : BitVec 64) := List.mem_of_getElem? hf
    exact List.eq_of_mem_replicate hmem

/-- The number is used as it is. -/
theorem rax_of_law {code : BitVec 64 → Cpu → Cpu} (h : Law k code u) : u.reg .rax = 1 := by
  by_contra hne
  have hnumber : (u.reg .rax).toNat ≠ 1 := fun h1 => hne (BitVec.eq_of_toNat_eq h1)
  obtain ⟨hcalls, -⟩ := h.refused fun f hf => entry_eq_zero hnumber hf
  exact absurd hcalls (List.cons_ne_nil _ _)

theorem law_of_rax {code : BitVec 64 → Cpu → Cpu} (hu : UserMode k u)
    (hcode : Handles k (code k.sysWrite) (atTarget k u).2) (hrax : u.reg .rax = 1) :
    Law k code u := by
  have hentry : (systemCallTable k)[(u.reg .rax).toNat]? = some k.sysWrite := by
    rw [hrax]
    rfl
  have htarget := target_eq hu hentry
  obtain ⟨hresult, hresumes⟩ := resumes_of_handles hu hcode
  constructor
  · intro f hf _
    rw [hentry] at hf
    rw [← Option.some.inj hf]
    refine ⟨(atTarget k u).2, ?_, ?_, ?_⟩
    · simp only [syscallEntry, htarget]
    · simp only [syscallEntry, htarget]
      exact hresult
    · simp only [syscallEntry, htarget]
      exact hresumes
  · intro hrefused
    exact absurd (hrefused _ hentry) hu.sysWrite

end

/-! ## A user program -/

def sampleLayout : Layout where
  syscallEntry := 0x100200
  systemCallTable := 0x110000
  sysWrite := 0x100800
  afterCall := 0x100231
  kpcr := 0x120000

/-- The program has stored an address of its own at 0x600000. -/
def sampleMem (a : BitVec 64) : BitVec 64 :=
  if a = 0x110008 then 0x100800
  else if a = 0x120030 then 0x130000
  else if a = 0x600000 then 0x401000
  else 0

def sampleUser (rax : BitVec 64) : Cpu where
  reg
    | .rax => rax
    | .rsp => 0x7FF000
    | _ => 0
  rip := 0x400010
  rflags := 0x202
  cs := 0x33
  ss := 0x2B
  gsBase := 0
  kernelGsBase := 0x120000
  mem := sampleMem

theorem sample_userMode (rax : BitVec 64) : UserMode sampleLayout (sampleUser rax) where
  gs := rfl
  table i f hf := by
    have hall : ∀ i < systemCallNums,
        sampleMem (0x110000 + BitVec.ofNat 64 i * 8) = (systemCallTable sampleLayout).getD i 0 := by
      decide +kernel
    have hi : i < systemCallNums := (List.getElem?_eq_some_iff.mp hf).1
    have h := hall i hi
    rw [List.getD_eq_getElem?_getD, hf] at h
    exact h
  sysWrite := by decide
  stack_kpcr := by
    have h : (0x120000 : BitVec 64) + 40 ∉
        [0x130000 - 8, 0x130000 - 8 - 8, 0x130000 - 8 - 8 - 8] := by
      decide
    exact h
  stack_table := by
    have h : ∀ j < systemCallNums, (0x110000 : BitVec 64) + BitVec.ofNat 64 j * 8 ∉
        [(0x130000 : BitVec 64) - 8, 0x130000 - 8 - 8, 0x130000 - 8 - 8 - 8] := by
      decide +kernel
    exact h
  table_kpcr := by
    have h : ∀ j < systemCallNums,
        (0x110000 : BitVec 64) + BitVec.ofNat 64 j * 8 ≠ 0x120000 + 40 := by
      decide +kernel
    exact h
  rflags := by
    have h : ((0x202 : BitVec 64) &&& 0x3C7FD7) ||| 2 = 0x202 := by decide
    exact h

/-- A handler that only returns. -/
theorem handles_ret (k : Layout) (s : Cpu) : Handles k ret s where
  returns := returns_ret 2 s
  kernelGsBase := rfl
  kpcr := rfl

/-! ## System calls -/

/-- **System calls.** For every state of user mode, the law holds exactly for the
number of `sys_write`. -/
theorem law_iff_number (k : Layout) (code : BitVec 64 → Cpu → Cpu) (u : Cpu) (hu : UserMode k u)
    (hcode : Handles k (code k.sysWrite) (atTarget k u).2) : Law k code u ↔ u.reg .rax = 1 :=
  ⟨rax_of_law, law_of_rax hu hcode⟩

theorem law_iff_number_write :
    Law sampleLayout (fun _ => ret) (sampleUser 1) ↔ (sampleUser 1).reg .rax = 1 :=
  law_iff_number sampleLayout (fun _ => ret) (sampleUser 1) (sample_userMode 1) (handles_ret _ _)

/-- The program chooses its number so that `rax` points to its own word, and the
kernel calls the address it finds there. -/
theorem law_user_target :
    UserMode sampleLayout (sampleUser 0x9E000) ∧
      (atTarget sampleLayout (sampleUser 0x9E000)).1 = 0x401000 ∧
      ∀ code, ¬ Law sampleLayout code (sampleUser 0x9E000) := by
  have htarget : (atTarget sampleLayout (sampleUser 0x9E000)).1 = 0x401000 := by decide +kernel
  refine ⟨sample_userMode _, htarget, ?_⟩
  intro code h
  exact absurd (rax_of_law h) (by decide)

end X64SmpOs.SyscallEntry

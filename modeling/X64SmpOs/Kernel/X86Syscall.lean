import X64SmpOs.Kernel.X86Switch

/-!
# System calls of the x86 kernel

`syscall_handle` of `asm/int_isr.asm`, instruction by instruction, and the end of the
wrappers of `lib/unistd.h`.

* `syscallHandle`: the routine, for any table of handlers;
* `Syscall`: a call from user mode, `Syscall.resume` the state after it;
* `saveScene_spec`: what the routine has saved when it calls the handler;
* `registerLaw_iff`: the caller gets the handler's result and everything else back
  exactly when the result is the number of the call and the flags are those of
  `syscall_handle` itself.
-/

namespace X64SmpOs.X86

open Stack

/-! ## `syscall_handle` -/

/-- What a C function leaves as it is: its caller's stack and segments, `CURRENT`, and
the scene saved for the current task. -/
structure Cdecl (s t : Cpu) : Prop where
  esp : t.reg .esp = s.reg .esp
  seg : t.seg = s.seg
  current : t.current = s.current
  context : (t.task s.current).context = (s.task s.current).context

/-- An entry of `system_call_table`. -/
structure Handler where
  call : Cpu → Cpu
  cdecl : ∀ s, Cdecl s (call s)

def sysSaveRegisters : List Instr :=
  [.push .eax, .loadCurrent .eax,
   .storeSlot .eax 11 .ebx, .storeSlot .eax 12 .ecx, .storeSlot .eax 13 .edx,
   .storeSlot .eax 15 .ebp, .storeSlot .eax 16 .esi, .storeSlot .eax 17 .edi]

/-- `eax`, `eip`, `cs3`, `eflags`, `esp3` and `ss3`. -/
def sysSaveFrame : List Instr :=
  [.mov .ecx .eax, .pop .eax, .storeSlot .ecx 10 .eax,
   .load .eax 0, .storeSlot .ecx 8 .eax,
   .load .eax 4, .storeSlot .ecx 19 .eax,
   .load .eax 8, .storeSlot .ecx 9 .eax,
   .load .eax 12, .storeSlot .ecx 14 .eax,
   .load .eax 16, .storeSlot .ecx 20 .eax]

/-- `mov ax, ss`, and from there to the data segments. -/
def loadStackSegment (s : Cpu) : Cpu :=
  run (s.setReg .eax ((s.reg .eax &&& 0xffff0000) ||| (s.seg .ss).setWidth 32))
    [.movToSeg .ds .eax, .movToSeg .es .eax, .movToSeg .fs .eax, .movToSeg .gs .eax]

def pushArguments : List Instr :=
  [.loadCurrent .eax, .loadSlot .ebx .eax 11, .loadSlot .ecx .eax 12, .loadSlot .edx .eax 13,
   .loadSlot .eax .eax 10, .push .edx, .push .ecx, .push .ebx]

/-- Up to `call [system_call_table+eax*4]`. -/
def saveScene (s : Cpu) : Cpu :=
  run (loadStackSegment (run (run s sysSaveRegisters) sysSaveFrame)) pushArguments

/-- From the return of the handler; behind `add esp, 12` it is the way back of
`sched_task`, instruction by instruction. -/
def restoreScene : List Instr := .addImm .esp 12 :: taskNotFistSched

def syscallHandle (table : BitVec 32 → Handler) (s : Cpu) : Cpu :=
  let s := saveScene s
  iretd (run ((table (s.reg .eax)).call s) restoreScene)

/-! ## The wrappers -/

/-- The end of `_syscall0` to `_syscall3`: the value returned, and what is stored in
`errno`. -/
def syscallReturn (res : BitVec 32) : BitVec 32 × Option (BitVec 32) :=
  if res.slt 0 then (-1, some (-res)) else (res, none)

/-! ## A call from user mode -/

/-- `cpu` is the caller's state at `int 0x80`, its `eip` behind the instruction. -/
structure Syscall where
  cpu : Cpu
  gate : Gate
  table : BitVec 32 → Handler
  user : level (cpu.seg .cs) ≠ 0

namespace Syscall

/-- The state in which the handler is called, and the one in which it returns. -/
def entered (x : Syscall) : Cpu := saveScene (interrupt x.gate x.cpu)

def returned (x : Syscall) : Cpu := (x.table (x.entered.reg .eax)).call x.entered

def result (x : Syscall) : BitVec 32 := x.returned.reg .eax

def resume (x : Syscall) : Cpu := syscallHandle x.table (interrupt x.gate x.cpu)

end Syscall

/-- The caller sees the handler's result and nothing else. -/
structure RegisterLaw (x : Syscall) : Prop where
  eax : x.resume.reg .eax = x.result
  reg : ∀ r, r ≠ .eax → x.resume.reg r = x.cpu.reg r
  ss : x.resume.seg .ss = x.cpu.seg .ss
  cs : x.resume.seg .cs = x.cpu.seg .cs
  eip : x.resume.eip = x.cpu.eip
  eflags : x.resume.eflags = x.cpu.eflags
  wrapper : syscallReturn (x.resume.reg .eax) = syscallReturn x.result

/-- The flags `pushf` finds behind `add esp, 12`, with `IF`. -/
def Syscall.flags (x : Syscall) : BitVec 32 :=
  (x.returned.eflags &&& ~~~statusFlags ||| addFlags (x.gate.esp0 - 32) 12) ||| interruptFlag

/-- The handler returns the number it was called by, and the caller's flags are those
of the way back. -/
structure Harmless (x : Syscall) : Prop where
  eax : x.result = x.cpu.reg .eax
  eflags : x.cpu.eflags = x.flags

/-! ## The saved scene -/

section Scene

variable {s : Cpu} {base : BitVec 32} {vs : List (BitVec 32)}

theorem sysSaveRegisters_spec (h : View s base vs) (hn : vs.length < 2 ^ 30) :
    let u := run s sysSaveRegisters
    let t := s.current
    View u base (s.reg .eax :: vs) ∧ u.reg .eax = t ∧ u.current = t ∧ u.seg = s.seg ∧
    u.slot t 11 = s.reg .ebx ∧ u.slot t 12 = s.reg .ecx ∧ u.slot t 13 = s.reg .edx ∧
    u.slot t 15 = s.reg .ebp ∧ u.slot t 16 = s.reg .esi ∧ u.slot t 17 = s.reg .edi := by
  have hpush := h.pushVal hn (s.reg .eax)
  refine ⟨hpush.congr rfl ?_, ?_, rfl, rfl, ?_⟩
  · simp [sysSaveRegisters, run, exec]
  · simp [sysSaveRegisters, run, exec, Cpu.pushVal]
  · simp [sysSaveRegisters, run, exec, Cpu.pushVal]

theorem sysSaveFrame_spec {eax eip cs eflags esp ss : BitVec 32}
    (h : View s base (eax :: eip :: cs :: eflags :: esp :: ss :: vs)) :
    let u := run s sysSaveFrame
    let t := s.reg .eax
    View u base (eip :: cs :: eflags :: esp :: ss :: vs) ∧ u.current = s.current ∧
    u.seg = s.seg ∧ u.slot t 8 = eip ∧ u.slot t 10 = eax ∧ u.slot t 14 = esp ∧
    u.slot t 19 = cs ∧ u.slot t 20 = ss ∧
    ∀ k ∈ [11, 12, 13, 15, 16, 17], u.slot t k = s.slot t k := by
  have htop : s.mem (s.reg .esp) = eax := Between.top h
  have hpop := Between.pop h
  have h0 : s.mem (s.reg .esp + 4) = eip := hpop.top
  have h1 : s.mem (s.reg .esp + 4 + 4) = cs := Between.get hpop 1 cs rfl
  have h3 : s.mem (s.reg .esp + 4 + 12) = esp := Between.get hpop 3 esp rfl
  have h4 : s.mem (s.reg .esp + 4 + 16) = ss := Between.get hpop 4 ss rfl
  unfold View
  simp [sysSaveFrame, run, exec, htop]
  exact ⟨hpop, rfl, h0, h3, h1, h4⟩

/-- The handler is called with the caller's `ebx`, `ecx` and `edx` as arguments, and
finds its number in `eax`. -/
theorem pushArguments_spec (h : View s base vs) (hn : vs.length + 3 < 2 ^ 30) :
    let u := run (loadStackSegment s) pushArguments
    let c := s.slot s.current
    View u base (c 11 :: c 12 :: c 13 :: vs) ∧ u.reg .eax = c 10 ∧ u.task = s.task ∧
    u.current = s.current ∧ u.seg .cs = s.seg .cs := by
  let v := run (loadStackSegment s) (pushArguments.take 5)
  have hview : View v base vs :=
    h.congr rfl (by simp [v, loadStackSegment, pushArguments, run, exec])
  have hedx : v.reg .edx = s.slot s.current 13 := by
    simp [v, loadStackSegment, pushArguments, run, exec, Cpu.slot]
  have hecx : v.reg .ecx = s.slot s.current 12 := by
    simp [v, loadStackSegment, pushArguments, run, exec, Cpu.slot]
  have hebx : v.reg .ebx = s.slot s.current 11 := by
    simp [v, loadStackSegment, pushArguments, run, exec, Cpu.slot]
  have hpush := ((hview.pushVal (by omega) (v.reg .edx)).pushVal
    (by simp only [List.length_cons]; omega) (v.reg .ecx)).pushVal
    (by simp only [List.length_cons]; omega) (v.reg .ebx)
  have hrun : run (loadStackSegment s) pushArguments =
      ((v.pushVal (v.reg .edx)).pushVal (v.reg .ecx)).pushVal (v.reg .ebx) := by
    simp [v, pushArguments, run, exec, Cpu.pushVal]
  rw [hedx, hecx, hebx] at hpush
  rw [hrun, hedx, hecx, hebx]
  refine ⟨hpush, ?_, rfl, rfl, ?_⟩
  · simp [v, Cpu.pushVal, loadStackSegment, pushArguments, run, exec, Cpu.slot]
  · simp [v, Cpu.pushVal, Cpu.setReg, loadStackSegment, pushArguments, run, exec]

end Scene

/-- What the handler is called with: the caller's registers in the saved scene, and the
three arguments on the stack of the TSS. -/
structure Entered (x : Syscall) (s : Cpu) : Prop where
  view : View s x.gate.esp0
    ([x.cpu.reg .ebx, x.cpu.reg .ecx, x.cpu.reg .edx] ++ (frame x.cpu ++ outerFrame x.cpu))
  number : s.reg .eax = x.cpu.reg .eax
  current : s.current = x.cpu.current
  cs : level (s.seg .cs) = 0
  eip : s.slot s.current 8 = x.cpu.eip
  eax : s.slot s.current 10 = x.cpu.reg .eax
  ebx : s.slot s.current 11 = x.cpu.reg .ebx
  ecx : s.slot s.current 12 = x.cpu.reg .ecx
  edx : s.slot s.current 13 = x.cpu.reg .edx
  esp : s.slot s.current 14 = x.cpu.reg .esp
  ebp : s.slot s.current 15 = x.cpu.reg .ebp
  esi : s.slot s.current 16 = x.cpu.reg .esi
  edi : s.slot s.current 17 = x.cpu.reg .edi
  codeSeg : s.slot s.current 19 = (x.cpu.seg .cs).setWidth 32
  ss : s.slot s.current 20 = (x.cpu.seg .ss).setWidth 32

/-- **The way in.** -/
theorem saveScene_spec (x : Syscall) : Entered x x.entered := by
  obtain ⟨hview, hreg, hcs, -, hcur⟩ := view_interrupt x.gate x.cpu
  simp only [if_neg x.user] at hview
  unfold Syscall.entered saveScene
  generalize interrupt x.gate x.cpu = s at *
  obtain ⟨view1, eax1, cur1, seg1, h11, h12, h13, h15, h16, h17⟩ :=
    sysSaveRegisters_spec hview (by simp [frame, outerFrame])
  generalize run s sysSaveRegisters = s1 at *
  obtain ⟨view2, cur2, seg2, h8, h10, h14, h19, h20, keep⟩ := sysSaveFrame_spec view1
  rw [eax1] at h8 h10 h14 h19 h20 keep
  generalize run s1 sysSaveFrame = s2 at *
  obtain ⟨view3, eax3, task3, cur3, seg3⟩ :=
    pushArguments_spec view2 (by simp)
  have hc : s2.current = s.current := cur2.trans cur1
  have hslot : ∀ k, (run (loadStackSegment s2) pushArguments).slot
      (run (loadStackSegment s2) pushArguments).current k = s2.slot s.current k := fun k => by
    rw [Cpu.slot, task3, cur3, hc, Cpu.slot]
  rw [hc, keep 11 (by decide), keep 12 (by decide), keep 13 (by decide), h11, h12, h13,
    hreg .ebx (by decide), hreg .ecx (by decide), hreg .edx (by decide)] at view3
  rw [hc, h10, hreg .eax (by decide)] at eax3
  constructor
  case view => exact view3
  case number => exact eax3
  case current => rw [cur3, hc, hcur]
  case cs => rw [seg3, seg2, seg1, hcs, x.gate.kernel]
  case eip => rw [hslot, h8]
  case eax => rw [hslot, h10, hreg .eax (by decide)]
  case ebx => rw [hslot, keep 11 (by decide), h11, hreg .ebx (by decide)]
  case ecx => rw [hslot, keep 12 (by decide), h12, hreg .ecx (by decide)]
  case edx => rw [hslot, keep 13 (by decide), h13, hreg .edx (by decide)]
  case esp => rw [hslot, h14]
  case ebp => rw [hslot, keep 15 (by decide), h15, hreg .ebp (by decide)]
  case esi => rw [hslot, keep 16 (by decide), h16, hreg .esi (by decide)]
  case edi => rw [hslot, keep 17 (by decide), h17, hreg .edi (by decide)]
  case codeSeg => rw [hslot, h19]
  case ss => rw [hslot, h20]

/-! ## The way back -/

section Law

variable (x : Syscall)

theorem entered_esp : x.entered.reg .esp = x.gate.esp0 - 32 := by
  have h := (saveScene_spec x).view
  have hbase := h.pop.pop.pop.pop.pop.pop.pop.pop.base_eq
  bv_omega

/-- The scene is as it was when the handler returns. -/
theorem returned_slot (k : Nat) :
    x.returned.slot x.returned.current k = x.entered.slot x.entered.current k := by
  have hcall := (x.table (x.entered.reg .eax)).cdecl x.entered
  rw [Cpu.slot, Syscall.returned, hcall.current, hcall.context, Cpu.slot]

/-- **After the call** every register comes from the saved scene, `eax` with them, and
the flags from the way back. -/
theorem resume_syscall :
    let t := x.resume
    (∀ r, t.reg r = x.cpu.reg r) ∧ t.seg .ss = x.cpu.seg .ss ∧ t.seg .cs = x.cpu.seg .cs ∧
      t.eip = x.cpu.eip ∧ t.eflags = x.flags := by
  have hin := saveScene_spec x
  have hcall : Cdecl x.entered x.returned := (x.table (x.entered.reg .eax)).cdecl x.entered
  obtain ⟨u, hu⟩ : ∃ u, u = exec x.returned (.addImm .esp 12) := ⟨_, rfl⟩
  have hresume : x.resume = iretd (run u taskNotFistSched) := by
    rw [hu]
    simp only [Syscall.resume, syscallHandle, Syscall.returned, Syscall.entered, restoreScene, run]
  have hslot : ∀ k, u.slot u.current k = x.entered.slot x.entered.current k := by
    intro k
    rw [← returned_slot]
    simp only [hu, exec, Cpu.setStatus_slot, Cpu.setReg_slot, Cpu.setStatus_current,
      Cpu.setReg_current]
  have hcs : u.seg .cs = x.entered.seg .cs := by
    simp only [hu, exec, Cpu.setStatus_seg, Cpu.setReg_seg, hcall.seg]
  have hflags : u.eflags ||| interruptFlag = x.flags := by
    simp only [hu, exec, Cpu.setStatus, Cpu.setReg, Syscall.flags, hcall.esp, entered_esp]
  obtain ⟨view, heax, hebx, hecx, hedx, hebp, hesi, hedi, hcs', -⟩ := taskNotFistSched_spec u
  simp only [hslot, hflags, hin.eip, hin.eax, hin.ebx, hin.ecx, hin.edx, hin.esp, hin.ebp,
    hin.esi, hin.edi, hin.codeSeg, hin.ss] at view heax hebx hecx hedx hebp hesi hedi
  have hlevel : level ((run u taskNotFistSched).seg .cs) = 0 := by rw [hcs', hcs, hin.cs]
  have hwidth : ∀ g : BitVec 16, (g.setWidth 32).setWidth 16 = g := fun g => by simp
  obtain ⟨h1, h2, h3, h4, -, h6⟩ := iretd_spec view
  rw [hwidth] at h3 h6
  obtain ⟨h7, h8⟩ := h6 _ _ _ rfl fun he => x.user (he.trans hlevel)
  rw [hwidth] at h8
  rw [hresume]
  refine ⟨fun r => ?_, h8, h3, h1, h2⟩
  cases r with
  | eax => rw [h4 .eax (by decide), heax]
  | ebx => rw [h4 .ebx (by decide), hebx]
  | ecx => rw [h4 .ecx (by decide), hecx]
  | edx => rw [h4 .edx (by decide), hedx]
  | esi => rw [h4 .esi (by decide), hesi]
  | edi => rw [h4 .edi (by decide), hedi]
  | ebp => rw [h4 .ebp (by decide), hebp]
  | esp => exact h7

/-- **The register law** holds exactly for the calls whose handler returns the number of
the call to a caller with the flags of the way back. -/
theorem registerLaw_iff : RegisterLaw x ↔ Harmless x := by
  obtain ⟨hreg, hss, hcs, heip, hflags⟩ := resume_syscall x
  constructor
  · intro h
    constructor
    · rw [← h.eax, hreg .eax]
    · rw [← h.eflags, hflags]
  · intro h
    have heax : x.resume.reg .eax = x.result := (hreg .eax).trans h.eax.symm
    constructor
    case eax => exact heax
    case reg => exact fun r _ => hreg r
    case ss => exact hss
    case cs => exact hcs
    case eip => exact heip
    case eflags => exact hflags.trans h.eflags.symm
    case wrapper => rw [heax]

end Law

theorem cdecl_setReg (s : Cpu) (res : BitVec 32) : Cdecl s (s.setReg .eax res) :=
  ⟨Cpu.setReg_ne s res (by decide), rfl, rfl, rfl⟩

/-- A handler that returns `res` and keeps all else. -/
def constHandler (res : BitVec 32) : Handler where
  call s := s.setReg .eax res
  cdecl s := cdecl_setReg s res

theorem sampleGate_kernel : level 0x8 = 0 := by decide

theorem sampleCpu_user : level 0x1b ≠ 0 := by decide

/-- A call with number 0 and all registers zero, the table filled with one handler. -/
def sampleSyscall (res eflags : BitVec 32) : Syscall where
  cpu := sampleCpu 0x1b eflags
  gate := ⟨0x8, 0x3000, 0x10, 0x9000, sampleGate_kernel⟩
  table _ := constHandler res
  user := sampleCpu_user

/-- A handler's result 5 comes back as 0, and `sys_write`, whose result is 0, loses its
caller's carry flag. -/
theorem registerLaw_sample_fails :
    (sampleSyscall 5 0x202).resume.reg .eax = 0 ∧ (sampleSyscall 0 0x203).resume.eflags = 0x202 ∧
      ¬ ∀ x : Syscall, RegisterLaw x := by
  have hres : (sampleSyscall 5 0x202).resume.reg .eax = 0 := (resume_syscall _).1 .eax
  have hflags : (sampleSyscall 0 0x203).resume.eflags = 0x202 := by
    rw [(resume_syscall _).2.2.2.2]
    decide +kernel
  refine ⟨hres, hflags, fun hlaw => ?_⟩
  have heq := (hlaw (sampleSyscall 0 0x203)).eflags
  rw [hflags] at heq
  exact absurd heq (by decide : (0x202 : BitVec 32) ≠ 0x203)

/-- With the flags of the way back `sys_write` does as it should. -/
theorem registerLaw_sample_holds : RegisterLaw (sampleSyscall 0 0x202) :=
  (registerLaw_iff (sampleSyscall 0 0x202)).mpr ⟨by decide +kernel, by decide +kernel⟩

end X64SmpOs.X86

import X64SmpOs.Lib.SysV

/-!
# The variadic functions

`printk` and `printf` lift their return address off the stack, push the six
argument registers in its place, and hand `vsprintf` a pointer to the second of
them as `va_list`. Before they return they put the return address back where it
was.

* `entry`, `Shim.pass`, `leave`: the code, up to and behind the two calls;
* `vaArgs_eq`: `va_arg` steps through consecutive words;
* `entry_spec`, `leave_spec`: the stack around the calls;
* `shim_variadic`: the arguments arrive in order, however many there are, and
  the caller gets its stack back.
-/

namespace X64SmpOs.Variadic

open Stack SysV

/-! ## The code -/

/-- Up to the call of `vsprintf`. -/
def liftReturn : List Instr := [.load .rax .rsp 0, .addImm .rsp 8]

def pushArguments : List Instr :=
  [.push .r9, .push .r8, .push .rcx, .push .rdx, .push .rsi, .push .rdi, .push .rax]

def formatArguments (buffer : BitVec 64) : List Instr :=
  [.mov .rdx .rsp, .addImm .rdx 16, .load .rsi .rsp 8, .movImm .rdi buffer]

def entry (buffer : BitVec 64) : List Instr :=
  liftReturn ++ (pushArguments ++ formatArguments buffer)

inductive Shim
  | printk
  | printf
  deriving DecidableEq

/-- What `vsprintf` returned goes on to `data_out(g_printBuffer, len)`, or to
`write(0, printfBuffer, len)`. -/
def Shim.pass (buffer : BitVec 64) : Shim → List Instr
  | .printk => [.mov .rsi .rax, .movImm .rdi buffer]
  | .printf => [.mov .rdx .rax, .movImm .rsi buffer, .movImm .rdi 0]

/-- Up to the `ret`. -/
def leave : List Instr := [.load .rax .rsp 0, .addImm .rsp (8 * 6), .store .rsp 0 .rax]

/-- The addresses of the buffer, and of the instructions behind the two calls. -/
structure Site where
  buffer : BitVec 64
  afterFormat : BitVec 64
  afterOutput : BitVec 64

/-- The state in which `vsprintf` is entered. -/
def atVsprintf (site : Site) (s : Cpu) : Cpu :=
  (run s (entry site.buffer)).pushWord site.afterFormat

/-- The state in which the output function is entered. -/
def Shim.atOutput (shim : Shim) (site : Site) (vsprintf : Cpu → Cpu) (s : Cpu) : Cpu :=
  (run (vsprintf (atVsprintf site s)) (shim.pass site.buffer)).pushWord site.afterOutput

def Shim.exec (shim : Shim) (site : Site) (vsprintf output : Cpu → Cpu) (s : Cpu) : Cpu :=
  ret (run (output (shim.atOutput site vsprintf s)) leave)

def printk (site : Site) (vsprintf dataOut : Cpu → Cpu) (s : Cpu) : Cpu :=
  Shim.exec .printk site vsprintf dataOut s

def printf (site : Site) (vsprintf write : Cpu → Cpu) (s : Cpu) : Cpu :=
  Shim.exec .printf site vsprintf write s

/-- `*((type*)((pArg += sizeof(va_list)) - sizeof(va_list)))`, and `pArg` behind it. -/
def vaArg (m : BitVec 64 → BitVec 64) (pArg : BitVec 64) : BitVec 64 × BitVec 64 :=
  (m (pArg + 8 - 8), pArg + 8)

/-- `n` times. -/
def vaArgs (m : BitVec 64 → BitVec 64) : BitVec 64 → Nat → List (BitVec 64)
  | _, 0 => []
  | pArg, n + 1 => (vaArg m pArg).1 :: vaArgs m (vaArg m pArg).2 n

/-- The registers of the variadic arguments; `rdi` holds the format. -/
def argumentRegs : List Reg := [.rsi, .rdx, .rcx, .r8, .r9]

/-- A call with these variadic arguments: five in registers, the rest above the
return address. -/
structure Passed (s : Cpu) (args : List (BitVec 64)) : Prop where
  regs : (argumentRegs.map s.reg).take args.length = args.take 5
  stack : StackAt 8 s.mem (s.reg .rsp + 8) (args.drop 5)

/-! ## The arguments -/

theorem vaArgs_eq {m : BitVec 64 → BitVec 64} {pArg : BitVec 64} {vs : List (BitVec 64)}
    (h : StackAt 8 m pArg vs) {n : Nat} (hn : n ≤ vs.length) : vaArgs m pArg n = vs.take n := by
  induction n generalizing pArg vs with
  | zero => rfl
  | succ n ih =>
    cases vs with
    | nil => exact absurd hn (by simp)
    | cons v vs =>
      have hstep : pArg + 8 - 8 = pArg := BitVec.add_sub_cancel pArg 8
      rw [vaArgs, vaArg, hstep, h.1, ih h.2 (by simpa using hn), List.take_succ_cons]

/-- The registers in front of the words on the stack. -/
theorem Passed.take_eq {s : Cpu} {args : List (BitVec 64)} (h : Passed s args) :
    (argumentRegs.map s.reg ++ args.drop 5).take args.length = args := by
  have hlen : (argumentRegs.map s.reg).length = 5 := rfl
  have hdrop : (args.drop 5).take (args.length - 5) = args.drop 5 :=
    List.take_of_length_le (by rw [List.length_drop])
  rw [List.take_append, h.regs, hlen, hdrop, List.take_append_drop]

/-! ## The stack -/

section
variable {s : Cpu} {base ra : BitVec 64} {stack : List (BitVec 64)}

/-- The return address is in `rax` and off the stack. -/
theorem liftReturn_spec (h : OnStack s base (ra :: stack)) :
    OnStack (run s liftReturn) base stack ∧ (run s liftReturn).reg .rax = ra ∧
      ∀ r ∉ [Reg.rax, .rsp], (run s liftReturn).reg r = s.reg r := by
  obtain ⟨hload, hrax⟩ := h.load (r := .rax) (by decide)
  refine ⟨OnStack.drop [ra] hload rfl, ?_, ?_⟩
  · exact (exec_reg_of_not_mem (i := .addImm .rsp 8) (by decide)).trans hrax
  · intro r hr
    apply run_reg_of_not_mem
    simp_all [liftReturn, Instr.writes]

theorem formatArguments_spec (buffer : BitVec 64) (t : Cpu) :
    (run t (formatArguments buffer)).mem = t.mem ∧
      (run t (formatArguments buffer)).reg .rsp = t.reg .rsp ∧
      (run t (formatArguments buffer)).reg .rdi = buffer ∧
      (run t (formatArguments buffer)).reg .rsi = t.mem (t.reg .rsp + 8) ∧
      (run t (formatArguments buffer)).reg .rdx = t.reg .rsp + 16 := by
  simp [formatArguments, run, exec]

/-- Return address, format and registers in front of the words of the caller. -/
theorem length_spliced (s : Cpu) (ra : BitVec 64) (stack : List (BitVec 64)) :
    (ra :: s.reg .rdi :: (argumentRegs.map s.reg ++ stack)).length = 7 + stack.length := by
  have hregs : (argumentRegs.map s.reg).length = 5 := rfl
  rw [List.length_cons, List.length_cons, List.length_append, hregs]
  omega

/-- **Entry.** The registers lie between the return address and the words of the
caller, and `rdx` points to the second. -/
theorem entry_spec (buffer : BitVec 64) (h : OnStack s base (ra :: stack))
    (hfit : stack.length + 8 ≤ 2 ^ 61) :
    OnStack (run s (entry buffer)) base
        (ra :: s.reg .rdi :: (argumentRegs.map s.reg ++ stack)) ∧
      (run s (entry buffer)).reg .rdi = buffer ∧
      (run s (entry buffer)).reg .rsi = s.reg .rdi ∧
      (run s (entry buffer)).reg .rdx = (run s (entry buffer)).reg .rsp + 16 := by
  obtain ⟨hlift, hrax, hkeep⟩ := liftReturn_spec h
  have hpush := (hlift.pushes [.r9, .r8, .rcx, .rdx, .rsi, .rdi, .rax] (by decide)
    (by simp only [List.length_cons, List.length_nil]; omega)).1
  -- from the last register pushed to the first
  have hwords : ([Reg.r9, .r8, .rcx, .rdx, .rsi, .rdi, .rax].map (run s liftReturn).reg).reverse ++
      stack = ra :: s.reg .rdi :: (argumentRegs.map s.reg ++ stack) := by
    simp [hrax, hkeep, argumentRegs]
  rw [hwords] at hpush
  have hfmt := (Between.pop hpush).top
  rw [entry, run_append, run_append]
  obtain ⟨hmem, hrsp, hrdi, hrsi, hrdx⟩ :=
    formatArguments_spec buffer (run (run s liftReturn) pushArguments)
  exact ⟨hpush.congr hmem hrsp, hrdi, hrsi.trans hfmt, by rw [hrdx, hrsp]⟩

/-- **Exit.** The return address is stored over the last of the six. -/
theorem leave_spec (us : List (BitVec 64)) {u : BitVec 64} (hus : us.length = 5)
    (h : OnStack s base (ra :: (us ++ u :: stack))) (hfit : stack.length + 8 ≤ 2 ^ 61) :
    OnStack (run s leave) base (ra :: stack) := by
  obtain ⟨hload, hrax⟩ := h.load (r := .rax) (by decide)
  have hdrop : OnStack (exec (exec s (.load .rax .rsp 0)) (.addImm .rsp (8 * 6))) base
      (u :: stack) :=
    OnStack.drop (ra :: us) hload (by rw [List.length_cons, hus]; rfl)
  have hstore := hdrop.store (r := .rax) (by omega)
  rw [exec_reg_of_not_mem (by decide), hrax] at hstore
  exact hstore

/-- The words of the frame of both calls, and of the caller. -/
def frameLength (args : List (BitVec 64)) : Nat := 7 + (args.drop 5).length

/-- **The arguments arrive.** -/
theorem atVsprintf_spec (site : Site) {args : List (BitVec 64)} (hargs : Passed s args)
    (h : OnStack s base (ra :: args.drop 5)) (hfit : (args.drop 5).length + 8 ≤ 2 ^ 61) :
    vaArgs (atVsprintf site s).mem ((atVsprintf site s).reg .rdx) args.length = args ∧
      (atVsprintf site s).reg .rdi = site.buffer ∧
      (atVsprintf site s).reg .rsi = s.reg .rdi := by
  obtain ⟨htop, hrdi, hrsi, hrdx⟩ := entry_spec site.buffer h hfit
  have hpush := htop.pushWord (by rw [length_spliced]; omega) site.afterFormat
  -- three words down: both return addresses and the format
  have hlist := (Between.pop (Between.pop (Between.pop hpush))).1
  have hrsp : (atVsprintf site s).reg .rsp + 8 + 8 + 8 = (atVsprintf site s).reg .rdx := by
    simp only [atVsprintf, pushWord_reg, if_pos, reduceCtorEq, if_false, hrdx,
      BitVec.sub_add_cancel, BitVec.add_assoc]
    rfl
  refine ⟨?_, ?_, ?_⟩
  · rw [← hrsp]
    have hlen : args.length ≤ (argumentRegs.map s.reg ++ args.drop 5).length := by
      have hregs : (argumentRegs.map s.reg).length = 5 := rfl
      rw [List.length_append, hregs, List.length_drop]
      omega
    exact (vaArgs_eq hlist hlen).trans hargs.take_eq
  · simpa [atVsprintf] using hrdi
  · simpa [atVsprintf] using hrsi

/-- **The stack comes back.** -/
theorem exec_spec (shim : Shim) {site : Site} {vsprintf output : Cpu → Cpu} {n : Nat}
    (h : OnStack s base (ra :: stack)) (hfit : stack.length + 8 ≤ 2 ^ 61)
    (hn : 7 + stack.length ≤ n)
    (hvsprintf : Returns n vsprintf (atVsprintf site s))
    (houtput : Returns n output (shim.atOutput site vsprintf s)) :
    OnStack (shim.exec site vsprintf output s) base stack ∧
      (shim.exec site vsprintf output s).rip = ra := by
  obtain ⟨htop, -⟩ := entry_spec site.buffer h hfit
  have hlen := length_spliced s ra stack
  have hformat := htop.call (by omega) hvsprintf (by omega)
  have hpass : OnStack (run (vsprintf (atVsprintf site s)) (shim.pass site.buffer)) base
      (ra :: s.reg .rdi :: (argumentRegs.map s.reg ++ stack)) := by
    cases shim
    · exact hformat.congr rfl (run_reg_of_not_mem (by simp [Shim.pass, Instr.writes]))
    · exact hformat.congr rfl (run_reg_of_not_mem (by simp [Shim.pass, Instr.writes]))
  have houtput := hpass.call (by omega) houtput (by omega)
  have hleave := leave_spec [s.reg .rdi, s.reg .rsi, s.reg .rdx, s.reg .rcx, s.reg .r8] rfl houtput
    hfit
  exact hleave.ret

end

/-- **The variadic call.** For any number of arguments, of which those on the
stack fit in the address space. -/
theorem shim_variadic (shim : Shim) (site : Site) (vsprintf output : Cpu → Cpu) (s : Cpu)
    (args : List (BitVec 64)) (hargs : Passed s args) (hfit : (args.drop 5).length + 8 ≤ 2 ^ 61)
    (hvsprintf : Returns (frameLength args) vsprintf (atVsprintf site s))
    (houtput : Returns (frameLength args) output (shim.atOutput site vsprintf s)) :
    vaArgs (atVsprintf site s).mem ((atVsprintf site s).reg .rdx) args.length = args ∧
      (atVsprintf site s).reg .rdi = site.buffer ∧
      (atVsprintf site s).reg .rsi = s.reg .rdi ∧
      (shim.exec site vsprintf output s).reg .rsp = s.reg .rsp + 8 ∧
      (shim.exec site vsprintf output s).rip = s.mem (s.reg .rsp) ∧
      StackAt 8 (shim.exec site vsprintf output s).mem (s.reg .rsp + 8) (args.drop 5) := by
  have htop : OnStack s (cell 8 (s.reg .rsp) ((args.drop 5).length + 1))
      (s.mem (s.reg .rsp) :: args.drop 5) := ⟨⟨rfl, hargs.stack⟩, rfl⟩
  obtain ⟨hva, hrdi, hrsi⟩ := atVsprintf_spec site hargs htop hfit
  obtain ⟨hback, hrip⟩ := exec_spec shim htop hfit le_rfl hvsprintf houtput
  have hrsp := hback.rsp_eq (t := (ret s)) htop.ret.1 rfl
  have hret : (ret s).reg .rsp = s.reg .rsp + 8 := by simp [ret]
  rw [hret] at hrsp
  have hstack := hback.1
  rw [hrsp] at hstack
  exact ⟨hva, hrdi, hrsi, hrsp, hrip, hstack⟩

/-- A call with seven arguments behind the format, two of them on the stack. -/
def sampleSite : Site := ⟨0x4000, 0x1041, 0x1050⟩

def sampleCall : Cpu where
  reg
    | .rsp => 0x8000
    | .rdi => 0x5000
    | .rsi => 1
    | .rdx => 2
    | .rcx => 3
    | .r8 => 4
    | .r9 => 5
    | _ => 0
  rip := 0x1000
  rflags := 2
  cs := 8
  ss := 16
  gsBase := 0
  kernelGsBase := 0
  mem a := if a = 0x8000 then 0x2345 else if a = 0x8008 then 6 else if a = 0x8010 then 7 else 0

theorem shim_variadic_seven :
    vaArgs (atVsprintf sampleSite sampleCall).mem ((atVsprintf sampleSite sampleCall).reg .rdx) 7 =
        [1, 2, 3, 4, 5, 6, 7] ∧
      (atVsprintf sampleSite sampleCall).reg .rdi = 0x4000 ∧
      (atVsprintf sampleSite sampleCall).reg .rsi = sampleCall.reg .rdi ∧
      (Shim.exec .printk sampleSite ret ret sampleCall).reg .rsp = sampleCall.reg .rsp + 8 ∧
      (Shim.exec .printk sampleSite ret ret sampleCall).rip = sampleCall.mem (sampleCall.reg .rsp) ∧
      StackAt 8 (Shim.exec .printk sampleSite ret ret sampleCall).mem (sampleCall.reg .rsp + 8)
        [6, 7] :=
  shim_variadic .printk sampleSite ret ret sampleCall [1, 2, 3, 4, 5, 6, 7]
    ⟨rfl, ⟨rfl, rfl, trivial⟩⟩ (by decide) (returns_ret _ _) (returns_ret _ _)

end X64SmpOs.Variadic

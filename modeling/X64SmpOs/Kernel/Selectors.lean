import X64SmpOs.Kernel.Gdt64
import X64SmpOs.Kernel.Idt
import X64SmpOs.Kernel.SyscallEntry
import X64SmpOs.Kernel.TaskCreate
import X64SmpOs.Kernel.TaskStart

/-!
# The selectors in use

The gates of the interrupt table, `syscall_init`, the creation of a task and
`move_to_user_state` name segments by number. The numbers are those of the four
segments that `gdt_init` adds, in its order.

* `Code`, `Stack`: a selector names a segment of 64-bit code, or of a stack, that the
  processor accepts at a privilege level;
* `entry_gdtInit`, `entry_run`: the four segments, and that the cores keep them;
* `segments_run`: each change of privilege leads to a segment of the right kind, after
  any number of cores.
-/

namespace X64SmpOs.Selectors

open Memory Gdt64

/-! ## Segments -/

/-- The eight bytes a selector names, within the limit. Bit 2 asks for a local table. -/
def descriptor (gdtr : Gdtr) (m : Mem) (selector : BitVec 16) : Option Nat :=
  let offset := selector.toNat / 8 * 8
  if selector.toNat / 4 % 2 = 1 ∨ gdtr.gdtMaxOffset.toNat < offset + 7 then none
  else some (readLE 8 m (gdtr.gdtBaseAddr.toNat + offset))

/-- `w` bits of a descriptor from `lo` on. -/
def bits (desc lo w : Nat) : Nat := desc / 2 ^ lo % 2 ^ w

/-- Present, not conforming, `L` without `D`, and of the level. -/
def codeDesc (desc level : Nat) : Bool :=
  bits desc 47 1 == 1 && bits desc 43 2 == 0b11 && bits desc 42 1 == 0 && bits desc 53 2 == 0b01 &&
    bits desc 45 2 == level

/-- Present, data that may be written, and of the level. -/
def stackDesc (desc level : Nat) : Bool :=
  bits desc 47 1 == 1 && bits desc 43 2 == 0b10 && bits desc 41 1 == 1 && bits desc 45 2 == level

/-- The selector is accepted for code, or for a stack, that runs at the level. -/
def Code (s : State) (selector : BitVec 16) (level : Nat) : Prop :=
  selector.toNat % 4 = level ∧
    ∃ desc, descriptor s.gdtr s.mem selector = some desc ∧ codeDesc desc level = true

def Stack (s : State) (selector : BitVec 16) (level : Nat) : Prop :=
  selector.toNat % 4 = level ∧
    ∃ desc, descriptor s.gdtr s.mem selector = some desc ∧ stackDesc desc level = true

/-- Whoever enters a privilege level, with the segments that are named for it. -/
structure Segments (s : State) : Prop where
  gate : ∀ (e : Idt.Entries64) (table : Nat) (m : Mem) (vector : BitVec 8),
    let gate := Idt.gate64 (Idt.initIdt64 e table m).1 (table + 16 * vector.toNat)
    Code s (BitVec.ofNat 16 gate.selector) 0
  syscall : ∀ (lstar : BitVec 64) (u : SysV.Cpu),
    Code s (SyscallEntry.syscall lstar u).cs 0 ∧ Stack s (SyscallEntry.syscall lstar u).ss 0
  sysret : ∀ u : SysV.Cpu,
    Code s (SyscallEntry.sysret u).cs 3 ∧ Stack s (SyscallEntry.sysret u).ss 3
  task : ∀ {σ : Type} (kernel : TaskCreate.Kernel σ) (p : Nat) (name : List Byte)
    (function stackSize : Nat) (priority : Int) (k : TaskStart.Layout) (w : Nat)
    (task : BitVec 64) (e t : SysV.Cpu),
    let filled := (TaskCreate.fillTask kernel p name function stackSize priority).task p
    e.mem (task + TaskStart.csOff) = BitVec.ofNat 64 filled.cs →
    e.mem (task + TaskStart.ssOff) = BitVec.ofNat 64 filled.ss →
    TaskStart.Starts k w task e t → Code s t.cs 0 ∧ Stack s t.ss 0
  user : ∀ (k : TaskStart.Layout) (w : Nat) (task : BitVec 64) (e t : SysV.Cpu),
    TaskStart.Enters k w task e t → Code s t.cs 3 ∧ Stack s t.ss 3

/-! ## The table -/

/-- What `gdt_init` adds, from the fourth entry on. -/
def added : List Nat := [x64R0CsDesc, x64R0DsDesc, x64R3DsDesc, x64R3CsDesc]

section
variable {gGdt gdtBase : BitVec 32} {m : Mem} {s : State} {tss : List (BitVec 64)}

/-- A segment goes behind the `n` entries there are. -/
theorem addSegment_mem (gGdt : BitVec 32) {n : Nat} (desc : Nat)
    (hs : s.gGdtr.gdtMaxOffset.toNat = 8 * n) (hn : n < 256) :
    (addSegment gGdt desc s).gGdtr.gdtMaxOffset.toNat = 8 * (n + 1) ∧
      (addSegment gGdt desc s).mem = writeLE 8 s.mem (gGdt.toNat + 8 * n) desc := by
  have hoffset : (s.gGdtr.gdtMaxOffset + 8).toNat = 8 * (n + 1) := by
    have hstep : (8 : BitVec 16).toNat = 8 := rfl
    rw [BitVec.toNat_add, hs]
    omega
  refine ⟨hoffset, ?_⟩
  rw [addSegment, hoffset, Nat.mul_div_cancel_left _ (by decide), Nat.add_sub_cancel]

theorem entry_gdtInit {i desc : Nat} (h : added[i]? = some desc) :
    readLE 8 (gdtInit gGdt (loaderGdtr gdtBase) m).mem (gGdt.toNat + (24 + 8 * i)) = desc := by
  let copied : State :=
    { mem := copyBytes m gGdt.toNat ((loaderGdtr gdtBase).gdtBaseAddr.setWidth 32).toNat 24
      gGdtr := loaderGdtr gdtBase
      gdtr := loaderGdtr gdtBase
      tssIndex := tssIndexBsp
      cores := [] }
  have hthree : copied.gGdtr.gdtMaxOffset.toNat = 8 * 3 := rfl
  obtain ⟨h1, hm1⟩ := addSegment_mem gGdt x64R0CsDesc hthree (by decide)
  obtain ⟨h2, hm2⟩ := addSegment_mem gGdt x64R0DsDesc h1 (by decide)
  obtain ⟨h3, hm3⟩ := addSegment_mem gGdt x64R3DsDesc h2 (by decide)
  obtain ⟨-, hm4⟩ := addSegment_mem gGdt x64R3CsDesc h3 (by decide)
  rw [hm3, hm2, hm1] at hm4
  have hmem : (gdtInit gGdt (loaderGdtr gdtBase) m).mem = _ := hm4
  have hlt : desc < 256 ^ 8 := by
    have hall : ∀ d ∈ added, d < 256 ^ 8 := by decide
    exact hall desc (List.mem_of_getElem? h)
  rw [hmem]
  match i, h with
  | 0, h | 1, h | 2, h | 3, h =>
    obtain rfl := Option.some.inj h
    simp (disch := omega) only [readLE_writeLE_of_disjoint, readLE_writeLE_of_lt]

theorem run_gdtr (hs : s.gdtr = s.gGdtr) : (run s tss).gdtr = (run s tss).gGdtr := by
  induction tss using List.reverseRecOn with
  | nil => exact hs
  | append_singleton tss a =>
    rw [run, List.foldl_append]
    rfl

/-- The cores write behind the four segments. -/
theorem descriptor_run (h : tss.length ≤ 255) {i desc : Nat} (hi : added[i]? = some desc)
    {selector : BitVec 16} (hsel : selector.toNat / 4 = 2 * (3 + i)) :
    descriptor (run (gdtInit gGdt (loaderGdtr gdtBase) m) tss).gdtr
      (run (gdtInit gGdt (loaderGdtr gdtBase) m) tss).mem selector = some desc := by
  have hrep : Rep gGdt _ tss (run (gdtInit gGdt (loaderGdtr gdtBase) m) tss) :=
    rep_run rep_gdtInit h
  have hlen : i < 4 := (List.getElem?_eq_some_iff.mp hi).1
  have hbase := gGdt.isLt
  have hoffset : selector.toNat / 8 * 8 = 24 + 8 * i := by omega
  have htable : ¬ (selector.toNat / 4 % 2 = 1 ∨ 56 + 16 * tss.length < 24 + 8 * i + 7) := by omega
  rw [descriptor, run_gdtr rfl, hrep.maxOffset, hrep.base, hoffset, if_neg htable,
    BitVec.toNat_setWidth, Nat.mod_eq_of_lt (by omega)]
  rw [readLE_congr (hrep.entries.sub (by omega) (by omega)), entry_gdtInit hi]

theorem code_run (h : tss.length ≤ 255) {i desc level : Nat} (hi : added[i]? = some desc)
    (hdesc : codeDesc desc level = true) {selector : BitVec 16}
    (hsel : selector.toNat = 8 * (3 + i) + level) (hlevel : level < 4) :
    Code (run (gdtInit gGdt (loaderGdtr gdtBase) m) tss) selector level :=
  ⟨by omega, desc, descriptor_run h hi (by omega), hdesc⟩

theorem stack_run (h : tss.length ≤ 255) {i desc level : Nat} (hi : added[i]? = some desc)
    (hdesc : stackDesc desc level = true) {selector : BitVec 16}
    (hsel : selector.toNat = 8 * (3 + i) + level) (hlevel : level < 4) :
    Stack (run (gdtInit gGdt (loaderGdtr gdtBase) m) tss) selector level :=
  ⟨by omega, desc, descriptor_run h hi (by omega), hdesc⟩

/-- **Segments.** `syscall` needs the data of the kernel behind its code, and `sysret` the
code of the user behind its data. -/
theorem segments_run (gGdt gdtBase : BitVec 32) (m : Mem) (tss : List (BitVec 64))
    (h : tss.length ≤ 255) : Segments (run (gdtInit gGdt (loaderGdtr gdtBase) m) tss) where
  gate e table m' vector := by
    have hgate := Idt.gate_fill64 e table m' (n := 256) vector.isLt
    simp only [Idt.initIdt64, hgate]
    exact code_run h (i := 0) rfl (by decide) (by decide) (by decide)
  syscall lstar u :=
    ⟨code_run h (i := 0) rfl (by decide) rfl (by decide),
      stack_run h (i := 1) rfl (by decide) rfl (by decide)⟩
  sysret u :=
    ⟨code_run h (i := 3) rfl (by decide) rfl (by decide),
      stack_run h (i := 2) rfl (by decide) rfl (by decide)⟩
  task kernel p name function stackSize priority k w task e t := by
    intro filled hcs hss hstarts
    have hfilled : filled.cs = 24 ∧ filled.ss = 32 := by
      simp [filled, TaskCreate.fillTask, TaskCreate.addTask, TaskCreate.Kernel.setTask]
    rw [hstarts.cs, hstarts.ss, hcs, hss, hfilled.1, hfilled.2]
    exact ⟨code_run h (i := 0) rfl (by decide) (by decide) (by decide),
      stack_run h (i := 1) rfl (by decide) (by decide) (by decide)⟩
  user k w task e t henters := by
    rw [henters.cs, henters.ss]
    exact ⟨code_run h (i := 3) rfl (by decide) (by decide) (by decide),
      stack_run h (i := 2) rfl (by decide) (by decide) (by decide)⟩

end

/-- With two cores. -/
theorem segments_run_two :
    Segments (run (gdtInit 0x110000 (loaderGdtr 0x8010) fun _ => 0) [0x2000, 0xFFFF800000103000]) :=
  segments_run 0x110000 0x8010 (fun _ => 0) [0x2000, 0xFFFF800000103000] (by decide)

end X64SmpOs.Selectors

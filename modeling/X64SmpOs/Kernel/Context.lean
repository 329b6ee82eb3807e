import X64SmpOs.Lib.Stack

/-!
# Saving and restoring the interrupt context

`asm/context.asm`, instruction by instruction, on the registers and the stack.
An interrupt leaves the five quadwords `rip cs rflags rsp ss` on the stack;
`lapic_timer_entry` calls `store_context_to_stack` first and
`restore_context_from_stack` before its `iretq`.

* `store_view`: what the first routine leaves on the stack, in both privilege
  cases, on top of the untouched interrupt frame;
* `restore_effect`: every register after the second routine, read from that
  picture of the stack;
* `roundTrip_iff`: the two routines with any handler between them are
  transparent exactly when the handler left `rcx` alone and the interrupted
  code had `rcx = rdx`: `restore_context_from_stack` pops `rdx` twice and
  never pops `rcx`.

Every access is a quadword at `rsp` plus a multiple of eight, so memory is a
map from addresses to the quadword stored there.
-/

namespace X64SmpOs.Context

open Stack

/-! ## The machine -/

inductive Reg
  | rax | rbx | rcx | rdx | rsi | rdi | rbp | r8 | r9 | r10 | r11 | r12 | r13 | r14 | r15
  deriving DecidableEq, Repr

inductive Seg
  | cs | ss | ds | fs | gs
  deriving DecidableEq, Repr

structure Cpu where
  reg : Reg → BitVec 64
  seg : Seg → BitVec 16
  rsp : BitVec 64
  rip : BitVec 64
  zf : Bool
  mem : BitVec 64 → BitVec 64

/-- The instructions the two routines use. -/
inductive Instr
  | push (r : Reg)
  | pushImm (v : BitVec 64)
  | pop (r : Reg)
  /-- `mov r, [rsp+disp]` -/
  | load (r : Reg) (disp : BitVec 64)
  /-- `mov [rsp+disp], r` -/
  | store (disp : BitVec 64) (r : Reg)
  /-- `mov r, seg`: the selector, zero-extended -/
  | movFromSeg (r : Reg) (g : Seg)
  /-- `mov seg, r16`: the low half-word of the register -/
  | movToSeg (g : Seg) (r : Reg)
  | andImm (r : Reg) (v : BitVec 64)
  | cmp (a b : Reg)
  | cmpImm (r : Reg) (v : BitVec 64)
  | ret
  deriving DecidableEq, Repr

def Cpu.setReg (s : Cpu) (r : Reg) (v : BitVec 64) : Cpu :=
  { s with reg := Function.update s.reg r v }

def Cpu.pushVal (s : Cpu) (v : BitVec 64) : Cpu :=
  { s with mem := Function.update s.mem (s.rsp - 8) v, rsp := s.rsp - 8 }

def exec (s : Cpu) : Instr → Cpu
  | .push r => s.pushVal (s.reg r)
  | .pushImm v => s.pushVal v
  | .pop r => { s.setReg r (s.mem s.rsp) with rsp := s.rsp + 8 }
  | .load r disp => s.setReg r (s.mem (s.rsp + disp))
  | .store disp r => { s with mem := Function.update s.mem (s.rsp + disp) (s.reg r) }
  | .movFromSeg r g => s.setReg r ((s.seg g).setWidth 64)
  | .movToSeg g r => { s with seg := Function.update s.seg g ((s.reg r).setWidth 16) }
  | .andImm r v => { s.setReg r (s.reg r &&& v) with zf := (s.reg r &&& v) = 0 }
  | .cmp a b => { s with zf := s.reg a = s.reg b }
  | .cmpImm r v => { s with zf := s.reg r = v }
  | .ret => { s with rip := s.mem s.rsp, rsp := s.rsp + 8 }

/-- A straight-line piece of code. -/
def run (s : Cpu) : List Instr → Cpu
  | [] => s
  | i :: is => run (exec s i) is

/-- `call f` from a call whose next instruction is at `ra`. -/
def call (ra : BitVec 64) (f : Cpu → Cpu) (s : Cpu) : Cpu := f (s.pushVal ra)

/-- What `iretq` reloads from the stack. -/
structure Frame where
  rip : BitVec 64
  cs : BitVec 64
  rflags : BitVec 64
  rsp : BitVec 64
  ss : BitVec 64
  deriving DecidableEq, Repr

def Frame.words (f : Frame) : List (BitVec 64) := [f.rip, f.cs, f.rflags, f.rsp, f.ss]

/-- The interrupt frame `iretq` would resume from. -/
def iretq (s : Cpu) : Frame :=
  ⟨s.mem s.rsp, s.mem (s.rsp + 8), s.mem (s.rsp + 16), s.mem (s.rsp + 24), s.mem (s.rsp + 32)⟩

/-! ## The two routines -/

/-- `store_context_to_stack` up to the comparison of the two privilege levels. -/
def storeRegisters : List Instr :=
  [.push .rax,
   .load .rax 8,
   .push .rdi, .push .rbx, .push .rcx, .push .rdx, .push .rsi, .push .rbp,
   .push .r8, .push .r9, .push .r10, .push .r11, .push .r12, .push .r13, .push .r14, .push .r15,
   .movFromSeg .rcx .ds, .push .rcx,
   .movFromSeg .rcx .fs, .push .rcx,
   .movFromSeg .rcx .gs, .push .rcx]

def storeCheckCross : List Instr :=
  [.load .rdi (18 * 8 + 16), .movFromSeg .rcx .cs,
   .andImm .rdi 0b111, .andImm .rcx 0b111, .cmp .rdi .rcx]

/-- Fall-through of `je .not_cross`. -/
def storeCross : List Instr := [.pushImm 1]

/-- `.not_cross` -/
def storeNotCross : List Instr := [.movFromSeg .rdi .ss, .push .rdi, .pushImm 0]

/-- `.ret`: push the return address that `rax` has held since the start. -/
def storeRet : List Instr := [.push .rax, .ret]

def storeContextToStack (s : Cpu) : Cpu :=
  let s := run (run s storeRegisters) storeCheckCross
  let s := if s.zf then run s storeNotCross else run s storeCross
  run s storeRet

def restoreFlag : List Instr := [.pop .rbx, .pop .rax, .cmpImm .rax 1]

/-- Fall-through of `je .cross`. -/
def restoreSs : List Instr := [.pop .rdi, .movToSeg .ss .rdi]

/-- `.cross` -/
def restoreCross : List Instr :=
  [.pop .rdi, .movToSeg .gs .rdi,
   .pop .rdi, .movToSeg .fs .rdi,
   .pop .rdi, .movToSeg .ds .rdi,
   .pop .r15, .pop .r14, .pop .r13, .pop .r12, .pop .r11, .pop .r10, .pop .r9, .pop .r8,
   .pop .rbp, .pop .rsi,
   -- the second of these stands where the saved `rcx` is on the stack
   .pop .rdx, .pop .rdx,
   .store 24 .rbx,
   .pop .rbx, .pop .rdi, .pop .rax,
   .ret]

def restoreContextFromStack (s : Cpu) : Cpu :=
  let s := run s restoreFlag
  let s := if s.zf then s else run s restoreSs
  run s restoreCross

/-! ## Views of the stack -/

/-- The stack of `s` holds `vs` from its top up to the address `base`. -/
def View (s : Cpu) (base : BitVec 64) (vs : List (BitVec 64)) : Prop :=
  StackAt 8 s.mem s.rsp vs ∧ cell 8 s.rsp vs.length = base

section Views

variable {base : BitVec 64} {vs : List (BitVec 64)}

theorem view_pushVal {s : Cpu} (h : View s base vs) (v : BitVec 64)
    (hn : vs.length < 2 ^ 61) : View (s.pushVal v) base (v :: vs) :=
  ⟨stackAt_push (fits_quad _ hn) h.1 v, (cell_sub _ _ _).trans h.2⟩

/-- Dropping the top word. -/
theorem view_pop {s : Cpu} {v : BitVec 64} (h : View s base (v :: vs)) (g : Reg → BitVec 64)
    (z : Bool) : View { s with reg := g, zf := z, rsp := s.rsp + 8 } base vs :=
  ⟨h.1.2, (cell_succ _ _ _).symm.trans h.2⟩

theorem run_append (s : Cpu) (is js : List Instr) : run s (is ++ js) = run (run s is) js := by
  induction is generalizing s with
  | nil => rfl
  | cons i is ih => exact ih (exec s i)

/-- Pushing registers one after the other. -/
theorem view_pushes (rs : List Reg) (s : Cpu) (h : View s base vs)
    (hn : vs.length + rs.length < 2 ^ 61) :
    View (run s (rs.map .push)) base ((rs.map s.reg).reverse ++ vs) ∧
      (run s (rs.map .push)).reg = s.reg ∧ (run s (rs.map .push)).seg = s.seg := by
  induction rs generalizing s vs with
  | nil => exact ⟨h, rfl, rfl⟩
  | cons r rs ih =>
    have h' := view_pushVal h (s.reg r) (by simp at hn; omega)
    obtain ⟨hv, hr, hs⟩ := ih (s.pushVal (s.reg r)) h' (by simp at hn ⊢; omega)
    refine ⟨?_, hr, hs⟩
    simpa [run, exec, Cpu.pushVal, List.append_assoc] using hv

/-- `push` of segment registers, each through `rcx`. -/
def pushSegs (gs : List Seg) : List Instr := gs.flatMap fun g => [.movFromSeg .rcx g, .push .rcx]

theorem view_pushSegs (gs : List Seg) (s : Cpu) (h : View s base vs)
    (hn : vs.length + gs.length < 2 ^ 61) :
    View (run s (pushSegs gs)) base
        ((gs.map fun g => (s.seg g).setWidth 64).reverse ++ vs) ∧
      (run s (pushSegs gs)).reg .rax = s.reg .rax ∧ (run s (pushSegs gs)).seg = s.seg := by
  induction gs generalizing s vs with
  | nil => exact ⟨h, rfl, rfl⟩
  | cons g gs ih =>
    let s' := (s.setReg .rcx ((s.seg g).setWidth 64)).pushVal ((s.seg g).setWidth 64)
    have hs : run s (pushSegs (g :: gs)) = run s' (pushSegs gs) := by
      simp [pushSegs, run, exec, Cpu.setReg, s']
    have h' : View s' base ((s.seg g).setWidth 64 :: vs) :=
      view_pushVal (s := s.setReg .rcx _) h _ (by simp at hn; omega)
    obtain ⟨hv, hr, hg⟩ := ih s' h' (by simp at hn ⊢; omega)
    rw [hs]
    refine ⟨?_, ?_, ?_⟩
    · simpa [s', Cpu.setReg, Cpu.pushVal, List.append_assoc] using hv
    · simpa [s', Cpu.setReg, Cpu.pushVal] using hr
    · simpa [s', Cpu.setReg, Cpu.pushVal] using hg

/-- The register file after the popped words have been written in order. -/
def popInto (g : Reg → BitVec 64) : List Reg → List (BitVec 64) → Reg → BitVec 64
  | r :: rs, v :: vs => popInto (Function.update g r v) rs vs
  | _, _ => g

theorem view_pops (rs : List Reg) (vals : List (BitVec 64)) (s : Cpu)
    (hlen : rs.length = vals.length) (h : View s base (vals ++ vs)) :
    View (run s (rs.map .pop)) base vs ∧
      (run s (rs.map .pop)).reg = popInto s.reg rs vals ∧
      (run s (rs.map .pop)).seg = s.seg := by
  induction rs generalizing s vals with
  | nil =>
    cases vals with
    | nil => exact ⟨h, rfl, rfl⟩
    | cons v vals => simp at hlen
  | cons r rs ih =>
    cases vals with
    | nil => simp at hlen
    | cons v vals =>
      have hv : s.mem s.rsp = v := h.1.1
      have h' := view_pop h (Function.update s.reg r v) s.zf
      obtain ⟨hview, hr, hg⟩ := ih vals _ (by simpa using hlen) h'
      refine ⟨?_, ?_, ?_⟩
      · simpa [run, exec, Cpu.setReg, hv] using hview
      · simpa [run, exec, Cpu.setReg, hv, popInto] using hr
      · simpa [run, exec, Cpu.setReg, hv] using hg

/-- `pop` into segment registers, each through `rdi`. -/
def popSegs (gs : List Seg) : List Instr := gs.flatMap fun g => [.pop .rdi, .movToSeg g .rdi]

/-- Popping selectors that were pushed zero-extended brings them back. -/
theorem view_popSegs (gs : List Seg) (q : Seg → BitVec 16) (s : Cpu) (hnd : gs.Nodup)
    (h : View s base ((gs.map fun g => (q g).setWidth 64) ++ vs)) :
    View (run s (popSegs gs)) base vs ∧
      (∀ r, r ≠ .rdi → (run s (popSegs gs)).reg r = s.reg r) ∧
      (∀ g, (run s (popSegs gs)).seg g = if g ∈ gs then q g else s.seg g) := by
  induction gs generalizing s with
  | nil => exact ⟨h, fun _ _ => rfl, fun _ => by simp [popSegs, run]⟩
  | cons g gs ih =>
    let s' : Cpu := { s with
      reg := Function.update s.reg .rdi ((q g).setWidth 64)
      seg := Function.update s.seg g (q g), rsp := s.rsp + 8 }
    have hv : s.mem s.rsp = (q g).setWidth 64 := h.1.1
    have hs : run s (popSegs (g :: gs)) = run s' (popSegs gs) := by
      simp [popSegs, run, exec, Cpu.setReg, hv, s']
    have h' : View s' base ((gs.map fun g => (q g).setWidth 64) ++ vs) :=
      view_pop h s.reg s.zf
    obtain ⟨hview, hr, hg⟩ := ih s' (List.nodup_cons.mp hnd).2 h'
    rw [hs]
    refine ⟨hview, fun r hrd => ?_, fun g' => ?_⟩
    · rw [hr r hrd]
      exact Function.update_of_ne hrd _ _
    · rw [hg g']
      by_cases he : g' = g
      · subst he
        simp [s', (List.nodup_cons.mp hnd).1]
      · simp [s', he]

end Views

/-! ## What the first routine leaves on the stack -/

/-- The saved words below the return address, top first. -/
def savedRegs (s : Cpu) : List (BitVec 64) :=
  [(s.seg .gs).setWidth 64, (s.seg .fs).setWidth 64, (s.seg .ds).setWidth 64,
   s.reg .r15, s.reg .r14, s.reg .r13, s.reg .r12, s.reg .r11, s.reg .r10, s.reg .r9, s.reg .r8,
   s.reg .rbp, s.reg .rsi, s.reg .rdx, s.reg .rcx, s.reg .rbx, s.reg .rdi, s.reg .rax]

/-- The flag slot, and `ss` under it when the interrupt kept the privilege level. -/
def flagSlots (s : Cpu) (f : Frame) : List (BitVec 64) :=
  if f.cs &&& 0b111 = (s.seg .cs).setWidth 64 &&& 0b111 then [0, (s.seg .ss).setWidth 64] else [1]

/-- Everything above the stack pointer while the handler's body runs. -/
def savedArea (s : Cpu) (f : Frame) (ra : BitVec 64) : List (BitVec 64) :=
  flagSlots s f ++ savedRegs s ++ ra :: f.words

theorem savedArea_length_le (s : Cpu) (f : Frame) (ra : BitVec 64) :
    (savedArea s f ra).length ≤ 26 := by
  unfold savedArea flagSlots
  split <;> simp [savedRegs, Frame.words]

/-- The general registers `store_context_to_stack` pushes after `rax`, in order. -/
def pushedRegs : List Reg :=
  [.rdi, .rbx, .rcx, .rdx, .rsi, .rbp, .r8, .r9, .r10, .r11, .r12, .r13, .r14, .r15]

theorem storeRegisters_eq : storeRegisters =
    [.push .rax, .load .rax 8] ++ (pushedRegs.map .push ++ pushSegs [.ds, .fs, .gs]) := rfl

section Store

variable {base : BitVec 64}

/-- The registers are saved above the return address and the interrupt frame,
and `rax` keeps the return address. -/
theorem view_storeRegisters {s : Cpu} {f : Frame} (h : View s base f.words) (ra : BitVec 64) :
    View (run (s.pushVal ra) storeRegisters) base (savedRegs s ++ ra :: f.words) ∧
      (run (s.pushVal ra) storeRegisters).reg .rax = ra ∧
      (run (s.pushVal ra) storeRegisters).seg = s.seg := by
  let s1 := (s.pushVal ra).pushVal (s.reg .rax)
  have h1 : View s1 base (s.reg .rax :: ra :: f.words) :=
    view_pushVal (view_pushVal h ra (by simp [Frame.words])) _ (by simp [Frame.words])
  -- the return address is one cell above the top when `rax` is loaded
  have hra : s1.mem (s1.rsp + 8) = ra := stackAt_get h1.1 1 ra rfl
  have h2 : run (s.pushVal ra) [.push .rax, .load .rax 8] = s1.setReg .rax ra :=
    calc
      _ = s1.setReg .rax (s1.mem (s1.rsp + 8)) := rfl
      _ = _ := by rw [hra]
  rw [storeRegisters_eq, run_append, run_append, h2]
  obtain ⟨h3, hr3, hg3⟩ :=
    view_pushes pushedRegs (s1.setReg .rax ra) h1 (by simp [pushedRegs, Frame.words])
  obtain ⟨h4, hr4, hg4⟩ := view_pushSegs [.ds, .fs, .gs] _ h3 (by simp [pushedRegs, Frame.words])
  rw [hg3] at h4 hg4
  rw [hr3] at hr4
  refine ⟨?_, ?_, hg4⟩
  · simpa [savedRegs, pushedRegs, s1, Cpu.setReg, Cpu.pushVal] using h4
  · simpa [Cpu.setReg] using hr4

/-- The comparison finds the interrupted `cs` and compares its level with the
current one; the stack is unchanged. -/
theorem run_storeCheckCross {s : Cpu} {f : Frame} {ra : BitVec 64} {saved : List (BitVec 64)}
    (h : View s base (saved ++ ra :: f.words)) (hlen : saved.length = 18) :
    View (run s storeCheckCross) base (saved ++ ra :: f.words) ∧
      (run s storeCheckCross).reg .rax = s.reg .rax ∧ (run s storeCheckCross).seg = s.seg ∧
      (run s storeCheckCross).zf = decide (f.cs &&& 0b111 = (s.seg .cs).setWidth 64 &&& 0b111) := by
  have hcs : s.mem (s.rsp + 160) = f.cs := by
    apply stackAt_get h.1 20 f.cs
    rw [List.getElem?_append_right (by omega), hlen]
    rfl
  refine ⟨h, ?_, rfl, ?_⟩
  · simp [storeCheckCross, run, exec, Cpu.setReg]
  · simp only [BitVec.ofNat_eq_ofNat] at hcs
    simp [storeCheckCross, run, exec, Cpu.setReg, hcs]

/-- `.ret` goes to the address in `rax` and leaves the stack as it was. -/
theorem view_storeRet {s : Cpu} {vs : List (BitVec 64)} (h : View s base vs)
    (hn : vs.length < 2 ^ 61) :
    View (run s storeRet) base vs ∧ (run s storeRet).rip = s.reg .rax := by
  have h' := view_pushVal h (s.reg .rax) hn
  exact ⟨view_pop h' s.reg s.zf, h'.1.1⟩

theorem view_storeNotCross {s : Cpu} {vs : List (BitVec 64)} (h : View s base vs)
    (hn : vs.length + 1 < 2 ^ 61) :
    View (run s storeNotCross) base (0 :: (s.seg .ss).setWidth 64 :: vs) ∧
      (run s storeNotCross).reg .rax = s.reg .rax := by
  let s' := s.setReg .rdi ((s.seg .ss).setWidth 64)
  have h1 := view_pushVal (s := s') h ((s.seg .ss).setWidth 64) (by omega)
  have h2 := view_pushVal h1 0 (by simpa using hn)
  have hs : run s storeNotCross = (s'.pushVal ((s.seg .ss).setWidth 64)).pushVal 0 := by
    simp [storeNotCross, run, exec, Cpu.setReg, s']
  rw [hs]
  exact ⟨h2, rfl⟩

theorem view_storeCross {s : Cpu} {vs : List (BitVec 64)} (h : View s base vs)
    (hn : vs.length < 2 ^ 61) :
    View (run s storeCross) base (1 :: vs) ∧ (run s storeCross).reg .rax = s.reg .rax :=
  ⟨view_pushVal h 1 hn, rfl⟩

/-- **What `store_context_to_stack` leaves.** In both privilege cases the saved
area lies on the stack, and control is back behind the call. -/
theorem store_view {s : Cpu} {f : Frame} (h : View s base f.words) (ra : BitVec 64) :
    View (call ra storeContextToStack s) base (savedArea s f ra) ∧
      (call ra storeContextToStack s).rip = ra := by
  obtain ⟨h1, hra1, hseg1⟩ := view_storeRegisters h ra
  obtain ⟨h2, hra2, hseg2, hzf⟩ := run_storeCheckCross h1 rfl
  unfold call storeContextToStack
  generalize run (run (s.pushVal ra) storeRegisters) storeCheckCross = s2 at *
  rw [hra1] at hra2
  rw [hseg1] at hzf hseg2
  simp only [savedArea, flagSlots]
  by_cases hc : f.cs &&& 0b111 = (s.seg .cs).setWidth 64 &&& 0b111
  · obtain ⟨h3, hr3⟩ := view_storeNotCross h2 (by simp [Frame.words, savedRegs])
    rw [if_pos (hzf.trans (decide_eq_true hc)), if_pos hc]
    rw [hseg2] at h3
    obtain ⟨h4, hrip⟩ := view_storeRet h3 (by simp [Frame.words, savedRegs])
    exact ⟨h4, hrip.trans (hr3.trans hra2)⟩
  · obtain ⟨h3, hr3⟩ := view_storeCross h2 (by simp [Frame.words, savedRegs])
    have hz : ¬ s2.zf = true := by rw [hzf, decide_eq_true_iff]; exact hc
    rw [if_neg hz, if_neg hc]
    obtain ⟨h4, hrip⟩ := view_storeRet h3 (by simp [Frame.words, savedRegs])
    exact ⟨h4, hrip.trans (hr3.trans hra2)⟩

end Store

/-! ## What the second routine brings back -/

/-- The general registers `restore_context_from_stack` pops before it moves the
return address, in order. -/
def poppedRegs : List Reg :=
  [.r15, .r14, .r13, .r12, .r11, .r10, .r9, .r8, .rbp, .rsi, .rdx, .rdx]

theorem restoreCross_eq : restoreCross =
    popSegs [.gs, .fs, .ds] ++ (poppedRegs.map .pop ++
      ([.store 24 .rbx] ++ ([Reg.rbx, .rdi, .rax].map .pop ++ [.ret]))) := rfl

section Restore

variable {base : BitVec 64}

/-- The flag slot tells whether `ss` is under it; in both cases the saved
registers are on top afterwards. -/
theorem view_restoreFlag {s b : Cpu} {f : Frame} {ra ra' : BitVec 64}
    (h : View b base (ra' :: savedArea s f ra)) :
    let c := run b restoreFlag
    let d := if c.zf then c else run c restoreSs
    View d base (savedRegs s ++ ra :: f.words) ∧ d.reg .rbx = ra' ∧ d.reg .rcx = b.reg .rcx := by
  have hra : b.mem b.rsp = ra' := h.1.1
  by_cases hc : f.cs &&& 0b111 = (s.seg .cs).setWidth 64 &&& 0b111
  · simp only [savedArea, flagSlots, if_pos hc, List.cons_append, List.nil_append] at h
    have hflag : b.mem (b.rsp + 8) = 0 := h.1.2.1
    let c : Cpu := { b with
      reg := Function.update (Function.update b.reg .rbx ra') .rax 0
      zf := false, rsp := b.rsp + 8 + 8 }
    have hrun : run b restoreFlag = c := by
      simp only [BitVec.ofNat_eq_ofNat] at hflag
      simp [restoreFlag, run, exec, Cpu.setReg, hra, hflag, c]
    simp only [hrun, c, Bool.false_eq_true, ↓reduceIte]
    have h2 := view_pop (view_pop h b.reg b.zf) c.reg false
    obtain ⟨h3, hr, -⟩ := view_popSegs [.ss] s.seg c (by simp) h2
    exact ⟨h3, (hr .rbx (by decide)).trans (by simp [c]), (hr .rcx (by decide)).trans (by simp [c])⟩
  · simp only [savedArea, flagSlots, if_neg hc, List.cons_append, List.nil_append] at h
    have hflag : b.mem (b.rsp + 8) = 1 := h.1.2.1
    let c : Cpu := { b with
      reg := Function.update (Function.update b.reg .rbx ra') .rax 1
      zf := true, rsp := b.rsp + 8 + 8 }
    have hrun : run b restoreFlag = c := by
      simp only [BitVec.ofNat_eq_ofNat] at hflag
      simp [restoreFlag, run, exec, Cpu.setReg, hra, hflag, c]
    simp only [hrun, c, ↓reduceIte]
    exact ⟨view_pop (view_pop h b.reg b.zf) c.reg true, by simp, by simp⟩

/-- The return address is written over the old one, and the last three pops and
the `ret` leave the interrupt frame on top. -/
theorem view_restoreRet {c : Cpu} {f : Frame} {b d a ra : BitVec 64}
    (h : View c base (b :: d :: a :: ra :: f.words)) :
    let t := run c ([.store 24 .rbx] ++ ([Reg.rbx, .rdi, .rax].map .pop ++ [.ret]))
    View t base f.words ∧ t.rip = c.reg .rbx ∧
      t.reg = popInto c.reg [.rbx, .rdi, .rax] [b, d, a] ∧ t.seg = c.seg := by
  let c' : Cpu := { c with mem := Function.update c.mem (c.rsp + 24) (c.reg .rbx) }
  have h1 : View c' base ([b, d, a] ++ c.reg .rbx :: f.words) :=
    ⟨stackAt_set (fits_quad _ (by simp [Frame.words])) h.1 3 (c.reg .rbx) (by simp [Frame.words]),
      h.2⟩
  obtain ⟨h2, hr2, hg2⟩ := view_pops [Reg.rbx, .rdi, .rax] [b, d, a] c' rfl h1
  have hstore : run c [.store 24 .rbx] = c' := rfl
  rw [run_append, run_append, hstore]
  generalize run c' ([Reg.rbx, .rdi, .rax].map .pop) = t at *
  exact ⟨view_pop h2 t.reg t.zf, h2.1.1, hr2, hg2⟩

/-- **What `restore_context_from_stack` brings back.** Every register is as it
was saved, except that `rdx` gets the saved `rcx` and `rcx` stays as the handler
left it. -/
theorem restore_effect {s b : Cpu} {f : Frame} {ra : BitVec 64}
    (h : View b base (savedArea s f ra)) (ra' : BitVec 64) :
    let t := call ra' restoreContextFromStack b
    View t base f.words ∧ t.rip = ra' ∧
      (∀ r, t.reg r = if r = .rcx then b.reg .rcx else if r = .rdx then s.reg .rcx else s.reg r) ∧
      (∀ g, g ∈ [Seg.gs, .fs, .ds] → t.seg g = s.seg g) := by
  have hlen := savedArea_length_le s f ra
  obtain ⟨h1, hbx1, hcx1⟩ := view_restoreFlag (view_pushVal h ra' (by omega))
  unfold call restoreContextFromStack
  simp only at h1 hbx1 hcx1 ⊢
  generalize (if (run (b.pushVal ra') restoreFlag).zf then run (b.pushVal ra') restoreFlag
    else run (run (b.pushVal ra') restoreFlag) restoreSs) = c1 at *
  rw [restoreCross_eq, run_append, run_append]
  obtain ⟨h2, hr2, hg2⟩ := view_popSegs [.gs, .fs, .ds] s.seg c1 (by decide) h1
  obtain ⟨h3, hr3, hg3⟩ := view_pops poppedRegs
    [s.reg .r15, s.reg .r14, s.reg .r13, s.reg .r12, s.reg .r11, s.reg .r10, s.reg .r9, s.reg .r8,
      s.reg .rbp, s.reg .rsi, s.reg .rdx, s.reg .rcx] _ rfl h2
  obtain ⟨h4, hrip4, hr4, hg4⟩ := view_restoreRet h3
  generalize run c1 (popSegs [.gs, .fs, .ds]) = c2 at *
  generalize run c2 (poppedRegs.map .pop) = c3 at *
  refine ⟨h4, ?_, fun r => ?_, fun g hg => ?_⟩
  · rw [hrip4, hr3]
    simpa [popInto, poppedRegs, hr2] using hbx1
  · rw [hr4, hr3]
    cases r <;> simp [popInto, poppedRegs, hr2, hcx1, Cpu.pushVal]
  · rw [hg4, hg3, hg2 g, if_pos hg]

end Restore

/-! ## The round trip -/

/-- The interrupted code of `s`, whose frame is `f`, resumes from `t` unchanged
after the call that returns to `ra`. -/
structure RoundTrip (s t : Cpu) (f : Frame) (ra : BitVec 64) : Prop where
  regs : ∀ r, t.reg r = s.reg r
  ds : t.seg .ds = s.seg .ds
  fs : t.seg .fs = s.seg .fs
  gs : t.seg .gs = s.seg .gs
  rsp : t.rsp = s.rsp
  rip : t.rip = ra
  frame : iretq t = f

/-- `b` is where a stack-balanced body that leaves the `n` saved words alone may
end when it starts from `s`; it may change everything else. -/
def Balanced (n : Nat) (s b : Cpu) : Prop :=
  b.rsp = s.rsp ∧ ∀ i < n, b.mem (cell 8 s.rsp i) = s.mem (cell 8 s.rsp i)

/-- A body that only writes one register is balanced. -/
theorem balanced_setReg (n : Nat) (s : Cpu) (r : Reg) (v : BitVec 64) :
    Balanced n s (s.setReg r v) := ⟨rfl, fun _ _ => rfl⟩

theorem view_balanced {s b : Cpu} {base : BitVec 64} {vs : List (BitVec 64)}
    (h : View s base vs) (hb : Balanced vs.length s b) : View b base vs := by
  obtain ⟨hrsp, hmem⟩ := hb
  unfold View
  rw [hrsp]
  exact ⟨stackAt_congr h.1 hmem, h.2⟩

theorem iretq_of_view {t : Cpu} {base : BitVec 64} {f : Frame} (h : View t base f.words) :
    iretq t = f := by
  have h0 : t.mem t.rsp = f.rip := h.1.1
  have h1 : t.mem (t.rsp + 8) = f.cs := stackAt_get h.1 1 _ rfl
  have h2 : t.mem (t.rsp + 16) = f.rflags := stackAt_get h.1 2 _ rfl
  have h3 : t.mem (t.rsp + 24) = f.rsp := stackAt_get h.1 3 _ rfl
  have h4 : t.mem (t.rsp + 32) = f.ss := stackAt_get h.1 4 _ rfl
  simp only [iretq, h0, h1, h2, h3, h4]

/-- **The round trip is transparent exactly when** the interrupted code had
`rcx = rdx` and the handler's body brought `rcx` back to that value: the saved
`rcx` is popped into `rdx`, and nothing is popped into `rcx`. -/
theorem roundTrip_iff (s b : Cpu) (f : Frame) (ra ra' : BitVec 64)
    (hs : StackAt 8 s.mem s.rsp f.words)
    (hb : Balanced (savedArea s f ra).length (call ra storeContextToStack s) b) :
    RoundTrip s (call ra' restoreContextFromStack b) f ra' ↔
      s.reg .rcx = s.reg .rdx ∧ b.reg .rcx = s.reg .rcx := by
  have hframe : View s (cell 8 s.rsp 5) f.words := ⟨hs, rfl⟩
  obtain ⟨h1, -⟩ := store_view hframe ra
  obtain ⟨h2, hrip, hreg, hseg⟩ := restore_effect (view_balanced h1 hb) ra'
  constructor
  · intro h
    have hcx := h.regs .rcx
    have hdx := h.regs .rdx
    rw [hreg] at hcx hdx
    exact ⟨by simpa using hdx, by simpa using hcx⟩
  · rintro ⟨hdx, hcx⟩
    refine ⟨fun r => ?_, hseg _ (by simp), hseg _ (by simp), hseg _ (by simp), ?_, hrip,
      iretq_of_view h2⟩
    · rw [hreg r]
      cases r <;> simp [hdx, hcx]
    · exact (BitVec.add_left_inj _).mp h2.2

/-- Kernel code interrupted at `0x101000` with its frame at `0x9000`. -/
def sampleFrame : Frame := ⟨0x101000, 0x18, 0x202, 0x9100, 0x20⟩

def sampleCpu (rcx rdx : BitVec 64) : Cpu where
  reg := fun r => if r = .rcx then rcx else if r = .rdx then rdx else 0
  seg := fun g => if g = .cs then 0x18 else 0x20
  rsp := 0x9000
  rip := 0
  zf := false
  mem := fun a =>
    if a = 0x9000 then 0x101000 else if a = 0x9008 then 0x18 else if a = 0x9010 then 0x202
    else if a = 0x9018 then 0x9100 else if a = 0x9020 then 0x20 else 0

theorem sampleCpu_stack (rcx rdx : BitVec 64) :
    StackAt 8 (sampleCpu rcx rdx).mem (sampleCpu rcx rdx).rsp sampleFrame.words :=
  ⟨rfl, rfl, rfl, rfl, rfl, trivial⟩

/-- Code that had `rcx = 1` and `rdx = 2` does not resume unchanged. -/
theorem roundTrip_sample_fails :
    ¬ ∀ (s b : Cpu) (f : Frame) (ra ra' : BitVec 64), StackAt 8 s.mem s.rsp f.words →
      Balanced (savedArea s f ra).length (call ra storeContextToStack s) b →
      RoundTrip s (call ra' restoreContextFromStack b) f ra' := by
  intro h
  have hs := sampleCpu_stack 1 2
  have hr := (h (sampleCpu 1 2) _ sampleFrame 0x102000 0x102040 hs
    (balanced_setReg _ _ .rcx 5)).regs .rdx
  have hframe : View (sampleCpu 1 2) (cell 8 (sampleCpu 1 2).rsp 5) sampleFrame.words := ⟨hs, rfl⟩
  obtain ⟨h1, -⟩ := store_view hframe 0x102000
  obtain ⟨-, -, hreg, -⟩ :=
    restore_effect (view_balanced h1 (balanced_setReg _ _ .rcx 5)) 0x102040
  rw [hreg .rdx] at hr
  exact absurd hr (by decide)

/-- With equal values in both registers and a body that keeps `rcx`, it does. -/
theorem roundTrip_sample_holds :
    RoundTrip (sampleCpu 5 5)
      (call 0x102040 restoreContextFromStack
        ((call 0x102000 storeContextToStack (sampleCpu 5 5)).setReg .rcx 5))
      sampleFrame 0x102040 :=
  (roundTrip_iff (sampleCpu 5 5) _ sampleFrame 0x102000 0x102040 (sampleCpu_stack 5 5)
    (balanced_setReg _ _ .rcx 5)).mpr ⟨rfl, by simp [Cpu.setReg, sampleCpu]⟩

end X64SmpOs.Context

import Mathlib.Data.Finset.Card
import X64SmpOs.Kernel.ApBoot

/-!
# The count of arrived processors

`ap_init` of `kernel/apic.c` on the boot processor, next to the trampolines: it sends
its messages, stores `0` to the counter at `0x9F000` and spins until as many
processors have incremented it as there are.

* `ApInit.next`: a step of `ap_init`, a message accepted, or a step of a trampoline;
* `ArrivalSafe`: the loop is left only after all increments, and with all of them done
  the counter does not hold it back;
* `arrivalSafe_of_counts`: so it is in a run in which no processor increments before
  the counter is set to `0`.
-/

namespace X64SmpOs.ApBoot

open Runs SpinLock

variable {ι : Type} [DecidableEq ι]

/-- Where `ap_init` stands. -/
inductive BspPc
  | initIpi
  | initCheck
  | startupIpi
  | startupCheck
  | secondIpi
  | secondCheck
  | storeCouts
  | waitAps
  | finished
  | failed
  deriving DecidableEq, Repr

/-- `init` and `startup` are the messages on their way to each processor. -/
structure ApInit (ι : Type) where
  boot : Boot ι
  bsp : BspPc
  init : ι → Bool
  startup : ι → Bool
  lapicNum : BitVec 32

/-- A step of `ap_init`, where `ok` is the result of `check_IPI_success`; a processor
accepts a message or executes. -/
inductive InitAct (ι : Type)
  | bsp (ok : Bool)
  | acceptInit (c : ι)
  | acceptStartup (c : ι)
  | ap (c : ι)
  deriving DecidableEq, Repr

namespace ApInit

/-- A write to the ICR with `destination_shortland = 0b11`, to all the others. -/
def sendIpi (s : ApInit ι) (deliveryMode : BitVec 3) : ApInit ι :=
  if deliveryMode = 0b101 then { s with init := fun _ => true }
  else if deliveryMode = 0b110 then { s with startup := fun _ => true }
  else s

/-- The `u16` at `0x9F000`. -/
def couts (s : ApInit ι) : BitVec 16 := s.boot.apCouts.setWidth 16

/-- The condition of the loop; both sides are `u32`. -/
def waits (s : ApInit ι) : Bool := s.couts.setWidth 32 < s.lapicNum - 1

def bspStep (s : ApInit ι) (ok : Bool) : Option (ApInit ι) :=
  match s.bsp with
  | .initIpi => some { s.sendIpi 0b101 with bsp := .initCheck }
  | .initCheck => some { s with bsp := if ok then .startupIpi else .failed }
  | .startupIpi => some { s.sendIpi 0b110 with bsp := .startupCheck }
  | .startupCheck => some { s with bsp := if ok then .secondIpi else .failed }
  | .secondIpi => some { s.sendIpi 0b101 with bsp := .secondCheck }
  | .secondCheck => some { s with bsp := if ok then .storeCouts else .failed }
  | .storeCouts =>
    some { s with
      boot := { s.boot with apCouts := s.boot.apCouts &&& 0xffff0000 }, bsp := .waitAps }
  | .waitAps => some { s with bsp := if s.waits then .waitAps else .finished }
  | .finished | .failed => none

def resetAp : Ap := ⟨.waitSipi, .realMode, 0, none⟩

/-- Between the read and the write of one instruction. -/
def midInc : Pc → Bool
  | .incStore _ => true
  | _ => false

/-- An INIT message is accepted between two instructions, and before a startup message. -/
def next (s : ApInit ι) : InitAct ι → Option (ApInit ι)
  | .bsp ok => s.bspStep ok
  | .acceptInit c =>
    if s.init c ∧ midInc (s.boot.ap c).pc = false then
      some { s with boot := s.boot.setAp c resetAp, init := Function.update s.init c false }
    else none
  | .acceptStartup c =>
    if s.startup c ∧ s.init c = false then
      (s.boot.next (.sipi c)).map fun b =>
        { s with boot := b, startup := Function.update s.startup c false }
    else none
  | .ap c => (s.boot.next (.step c)).map fun b => { s with boot := b }

end ApInit

def initStep : ApInit ι → InitAct ι → ApInit ι → Prop := stepOf ApInit.next

/-- The loop is left only after all the increments; when all are done, the loop does not
wait. -/
structure ArrivalSafe (s : ApInit ι) : Prop where
  finished : s.bsp = .finished → ∀ c, s.boot.counted c = true
  arrived : (∀ c, s.boot.counted c = true) → s.waits = false

/-- The counter has been set to `0`. -/
def BspPc.Stored : BspPc → Prop
  | .waitAps | .finished => True
  | _ => False

/-- A processor begins its increment only after the counter is set to `0`. -/
def CountsAfter (s : ApInit ι) (a : InitAct ι) (_ : ApInit ι) : Prop :=
  ∀ c, a = .ap c → (s.boot.ap c).pc = .incLoad → s.bsp.Stored

/-- The other processors wait, nothing is sent or counted yet; the words at `0x9F000`
and `0xb000` and those of the trampoline are arbitrary. -/
structure InitStart [Fintype ι] (s : ApInit ι) : Prop where
  pc : ∀ c, (s.boot.ap c).pc = .waitSipi
  counted : ∀ c, s.boot.counted c = false
  bsp : s.bsp = .initIpi
  startup : ∀ c, s.startup c = false
  lapicNum : s.lapicNum = BitVec.ofNat 32 (Fintype.card ι + 1)

/-! ## What an instruction does to the counter and its lock -/

/-- From `aps_start` to the loop at `ap_boot_lock`. -/
def Pc.Early : Pc → Prop
  | .apsStart | .protectedMode | .stackLock | .stackLoad | .stackStore | .stackUnlock
  | .enter64LongMode | .apInitFinish | .spinLock | .spinPause => True
  | _ => False

/-- Under `ap_boot_lock`. -/
def Pc.InCount : Pc → Prop
  | .incLoad | .incStore _ | .jmpEntry | .x64ApMain => True
  | _ => False

def Pc.Spins (pc : Pc) : Prop := pc = .spinLock ∨ pc = .spinPause

/-- An instruction that takes a processor to `a`. -/
inductive Counting (s t : Boot ι) (c : ι) (a : Ap) : Prop
  | early (hpc : (s.ap c).pc.Early) (hto : a.pc.Early)
      (heax : a.pc.Spins → a.eax ≠ 0 ∨ ((s.ap c).pc.Spins ∧ a.eax = (s.ap c).eax))
      (hlock : t.apBootLock = s.apBootLock) (hcouts : t.apCouts = s.apCouts)
      (hcounted : t.counted = s.counted)
  | refused (hpc : (s.ap c).pc = .spinLock) (hto : a.pc = .spinPause) (htaken : s.apBootLock ≠ 0)
      (heax : a.eax = s.apBootLock) (hlock : t.apBootLock = (s.ap c).eax)
      (hcouts : t.apCouts = s.apCouts) (hcounted : t.counted = s.counted)
  | take (hpc : (s.ap c).pc = .spinLock) (hto : a.pc = .incLoad) (hfree : s.apBootLock = 0)
      (hlock : t.apBootLock = (s.ap c).eax) (hcouts : t.apCouts = s.apCouts)
      (hcounted : t.counted = s.counted)
  | load (hpc : (s.ap c).pc = .incLoad) (hto : a.pc = .incStore s.apCouts)
      (hlock : t.apBootLock = s.apBootLock) (hcouts : t.apCouts = s.apCouts)
      (hcounted : t.counted = s.counted)
  | store (v : BitVec 32) (hpc : (s.ap c).pc = .incStore v) (hto : a.pc = .jmpEntry)
      (hlock : t.apBootLock = s.apBootLock) (hcouts : t.apCouts = v + 1)
      (hcounted : t.counted = Function.update s.counted c true)
  | jump (hpc : (s.ap c).pc = .jmpEntry) (hto : a.pc = .x64ApMain)
      (hlock : t.apBootLock = s.apBootLock) (hcouts : t.apCouts = s.apCouts)
      (hcounted : t.counted = s.counted)
  | release (hpc : (s.ap c).pc = .x64ApMain) (hto : a.pc = .running)
      (hcouts : t.apCouts = s.apCouts) (hcounted : t.counted = s.counted)

theorem advance_counting {s t : Boot ι} {c : ι} (hst : s.advance c = some t) :
    ∃ a, t.ap = Function.update s.ap c a ∧ Counting s t c a := by
  cases hpc : (s.ap c).pc with
  | waitSipi => simp [Boot.advance, hpc] at hst
  | running => simp [Boot.advance, hpc] at hst
  | stackLock =>
    simp only [Boot.advance, hpc, Option.some.injEq] at hst
    subst hst
    refine ⟨_, rfl, .early (by rw [hpc]; trivial) ?_ (fun h => Or.inl ?_) rfl rfl rfl⟩
    · dsimp only
      split <;> trivial
    · dsimp only at h ⊢
      split at h
      · assumption
      · rcases h with h | h <;> cases h
  | spinLock =>
    by_cases hlock : s.apBootLock = 0
    · simp only [Boot.advance, hpc, Option.some.injEq, hlock, ne_eq, not_true_eq_false,
        ↓reduceIte] at hst
      subst hst
      exact ⟨_, rfl, .take hpc rfl hlock rfl rfl rfl⟩
    · simp only [Boot.advance, hpc, Option.some.injEq, hlock, ne_eq, not_false_eq_true,
        ↓reduceIte] at hst
      subst hst
      exact ⟨_, rfl, .refused hpc rfl hlock rfl rfl rfl rfl⟩
  | spinPause =>
    simp only [Boot.advance, hpc, Option.some.injEq] at hst
    subst hst
    exact ⟨_, rfl, .early (by rw [hpc]; trivial) trivial (fun _ => Or.inr ⟨Or.inr hpc, rfl⟩)
      rfl rfl rfl⟩
  | apInitFinish =>
    simp only [Boot.advance, hpc, Option.some.injEq] at hst
    subst hst
    exact ⟨_, rfl, .early (by rw [hpc]; trivial) trivial
      (fun _ => Or.inl (by decide : (1 : BitVec 32) ≠ 0)) rfl rfl rfl⟩
  | incLoad =>
    simp only [Boot.advance, hpc, Option.some.injEq] at hst
    subst hst
    exact ⟨_, rfl, .load hpc rfl rfl rfl rfl⟩
  | incStore v =>
    simp only [Boot.advance, hpc, Option.some.injEq] at hst
    subst hst
    exact ⟨_, rfl, .store v hpc rfl rfl rfl rfl⟩
  | jmpEntry =>
    simp only [Boot.advance, hpc, Option.some.injEq] at hst
    subst hst
    exact ⟨_, rfl, .jump hpc rfl rfl rfl rfl⟩
  | x64ApMain =>
    simp only [Boot.advance, hpc, Option.ite_none_right_eq_some, Option.some.injEq] at hst
    obtain ⟨-, rfl⟩ := hst
    exact ⟨_, rfl, .release hpc rfl rfl rfl⟩
  | _ =>
    simp only [Boot.advance, hpc, Option.some.injEq] at hst
    subst hst
    refine ⟨_, rfl, .early (by rw [hpc]; trivial) trivial (fun h => ?_) rfl rfl rfl⟩
    rcases h with h | h <;> cases h

theorem setAp_self (s : Boot ι) (c : ι) (a : Ap) : (s.setAp c a).ap c = a := Function.update_self ..

theorem setAp_ne (s : Boot ι) {c d : ι} (a : Ap) (h : d ≠ c) : (s.setAp c a).ap d = s.ap d :=
  Function.update_of_ne h ..

/-! ## The invariant -/

/-- The increment is still to come. -/
def Pc.Before (pc : Pc) : Prop := pc.Early ∨ pc = .incLoad ∨ ∃ v, pc = .incStore v

theorem Pc.InCount.not_spins {pc : Pc} (h : pc.InCount) : ¬ pc.Spins := by
  rintro (rfl | rfl) <;> exact h

/-- After the increment. -/
def Pc.Past : Pc → Prop
  | .jmpEntry | .x64ApMain | .running => True
  | _ => False

theorem Pc.Past.not_before {pc : Pc} (h : pc.Past) : ¬ pc.Before := by
  rintro (hearly | rfl | ⟨v, rfl⟩)
  · cases pc <;> first
      | exact hearly
      | exact h
  · exact h
  · exact h

/-- The startup message is not sent yet. -/
def BspPc.Unsent : BspPc → Prop
  | .initIpi | .initCheck | .startupIpi => True
  | _ => False

section Count

variable [Fintype ι]

/-- How many processors have incremented. -/
def arrived (b : Boot ι) : Nat := (Finset.univ.filter fun c => b.counted c = true).card

omit [DecidableEq ι] in
theorem arrived_le (b : Boot ι) : arrived b ≤ Fintype.card ι := Finset.card_le_univ _

omit [DecidableEq ι] in
theorem arrived_eq {b : Boot ι} : arrived b = Fintype.card ι ↔ ∀ c, b.counted c = true := by
  rw [arrived, ← Finset.card_univ, Finset.card_filter_eq_iff]
  simp

theorem arrived_store {s t : Boot ι} {c : ι} (hc : s.counted c = false)
    (ht : t.counted = Function.update s.counted c true) : arrived t = arrived s + 1 := by
  have hinsert : (Finset.univ.filter fun d => t.counted d = true) =
      insert c (Finset.univ.filter fun d => s.counted d = true) := by
    ext d
    by_cases hd : d = c <;> simp [ht, hd]
  rw [arrived, hinsert, Finset.card_insert_of_notMem (by simp [hc]), arrived]

structure InitInv (s : ApInit ι) : Prop where
  locked : Excl s.boot.apBootLock fun c => (s.boot.ap c).pc.InCount
  eax : ∀ c, (s.boot.ap c).pc.Spins → (s.boot.ap c).eax ≠ 0
  once : ∀ c, s.boot.counted c = true → s.startup c = false ∧ ¬ (s.boot.ap c).pc.Before
  waiting : ∀ c, s.startup c = true → (s.boot.ap c).pc = .waitSipi
  unsent : s.bsp.Unsent → ∀ c, (s.boot.ap c).pc = .waitSipi ∧ s.startup c = false
  reading : ∀ c v, (s.boot.ap c).pc = .incStore v → v = s.boot.apCouts ∧ s.bsp.Stored
  stored : s.bsp.Stored → s.boot.apCouts.toNat % 2 ^ 16 = arrived s.boot
  fresh : ¬ s.bsp.Stored → ∀ c, s.boot.counted c = false
  finished : s.bsp = .finished → ∀ c, s.boot.counted c = true
  lapicNum : s.lapicNum = BitVec.ofNat 32 (Fintype.card ι + 1)

omit [DecidableEq ι] in
/-- With the counter right, the loop waits exactly while a processor is missing. -/
theorem InitInv.waits_iff (hcard : Fintype.card ι < 2 ^ 16) {s : ApInit ι} (h : InitInv s)
    (hst : s.bsp.Stored) : s.waits = true ↔ arrived s.boot < Fintype.card ι := by
  have hcouts : (s.couts.setWidth 32).toNat = arrived s.boot := by
    have hle := arrived_le s.boot
    simp only [ApInit.couts, BitVec.toNat_setWidth, h.stored hst]
    omega
  have hnum : (s.lapicNum - 1).toNat = Fintype.card ι := by
    rw [h.lapicNum]
    simp only [BitVec.toNat_sub, BitVec.toNat_ofNat, BitVec.ofNat_eq_ofNat]
    omega
  rw [ApInit.waits, decide_eq_true_iff, BitVec.lt_def, hcouts, hnum]

omit [DecidableEq ι] in
theorem InitInv.safe (hcard : Fintype.card ι < 2 ^ 16) {s : ApInit ι} (h : InitInv s) :
    ArrivalSafe s := by
  refine ⟨h.finished, fun hall => ?_⟩
  by_cases hst : s.bsp.Stored
  · by_contra hw
    have hlt := (h.waits_iff hcard hst).mp (by simpa using hw)
    exact absurd (arrived_eq.mpr hall) (by omega)
  · -- nobody has arrived, so there is nobody
    have hempty : Fintype.card ι = 0 := Fintype.card_eq_zero_iff.mpr
      ⟨fun c => by simpa [h.fresh hst c] using hall c⟩
    rw [ApInit.waits, h.lapicNum, hempty]
    simp

/-- The store of a `u16`. -/
theorem low_cleared (v : BitVec 32) : (v &&& 0xffff0000).toNat % 2 ^ 16 = 0 := by
  have hlow : (v &&& 0xffff0000).setWidth 16 = 0 := by
    rw [BitVec.setWidth_and]
    exact BitVec.and_zero
  rw [← BitVec.toNat_setWidth, hlow]
  rfl

section Steps

variable {s t : ApInit ι} {c : ι}

omit [DecidableEq ι] in
/-- `ap_init` goes on without a message that starts processors and without a store. -/
theorem InitInv.bsp (hs : InitInv s) {bsp : BspPc} {init : ι → Bool}
    (hunsent : bsp.Unsent → s.bsp.Unsent)
    (hstored : bsp.Stored ↔ s.bsp.Stored)
    (hfinished : bsp = .finished → ∀ c, s.boot.counted c = true) :
    InitInv { s with bsp := bsp, init := init } where
  locked := hs.locked
  eax := hs.eax
  once := hs.once
  waiting := hs.waiting
  unsent h := hs.unsent (hunsent h)
  reading c v h := (hs.reading c v h).imp_right hstored.mpr
  stored h := hs.stored (hstored.mp h)
  fresh h := hs.fresh fun hst => h (hstored.mpr hst)
  finished := hfinished
  lapicNum := hs.lapicNum

omit [DecidableEq ι] in
/-- The startup message finds everybody waiting. -/
theorem startupIpi_inv (hs : InitInv s) (hb : s.bsp = .startupIpi) :
    InitInv { s with startup := fun _ => true, bsp := .startupCheck } := by
  have hunsent := hs.unsent (by rw [hb]; trivial)
  have hfresh := hs.fresh (by rw [hb]; exact id)
  exact {
    locked := hs.locked
    eax := hs.eax
    once := fun c hc => absurd ((hfresh c).symm.trans hc) nofun
    waiting := fun c _ => (hunsent c).1
    unsent := False.elim
    reading := fun c v h => absurd ((hunsent c).1.symm.trans h) nofun
    stored := False.elim
    fresh := fun _ => hfresh
    finished := nofun
    lapicNum := hs.lapicNum }

omit [DecidableEq ι] in
/-- Nobody has incremented when the counter is set to `0`. -/
theorem storeCouts_inv (hs : InitInv s) (hb : s.bsp = .storeCouts) :
    InitInv { s with
      boot := { s.boot with apCouts := s.boot.apCouts &&& 0xffff0000 }
      bsp := .waitAps } := by
  have hfresh := hs.fresh (by rw [hb]; exact id)
  have hreading : ∀ c v, (s.boot.ap c).pc ≠ .incStore v := fun c v h => by
    have hst := (hs.reading c v h).2
    rw [hb] at hst
    exact hst
  have hnone : arrived s.boot = 0 := by simp [arrived, hfresh]
  exact {
    locked := hs.locked
    eax := hs.eax
    once := hs.once
    waiting := hs.waiting
    unsent := False.elim
    reading := fun c v h => absurd h (hreading c v)
    stored := fun _ => (low_cleared s.boot.apCouts).trans hnone.symm
    fresh := fun h => absurd trivial h
    finished := nofun
    lapicNum := hs.lapicNum }

omit [DecidableEq ι] in
theorem bspStep_inv (hcard : Fintype.card ι < 2 ^ 16) (hs : InitInv s) {ok : Bool}
    (hst : s.bspStep ok = some t) : InitInv t := by
  have hcheck : ∀ bsp : BspPc, ¬ s.bsp.Stored → ¬ bsp.Stored → (bsp.Unsent → s.bsp.Unsent) →
      bsp ≠ .finished → InitInv { s with bsp := bsp } := fun bsp h1 h2 h3 h4 =>
    hs.bsp h3 ⟨fun h => absurd h h2, fun h => absurd h h1⟩ fun h => absurd h h4
  cases hb : s.bsp with
  | finished => simp [ApInit.bspStep, hb] at hst
  | failed => simp [ApInit.bspStep, hb] at hst
  | initIpi =>
    simp only [ApInit.bspStep, hb, Option.some.injEq] at hst
    subst hst
    exact hs.bsp (fun _ => by rw [hb]; trivial) (by rw [hb]; exact Iff.rfl) nofun
  | secondIpi =>
    simp only [ApInit.bspStep, hb, Option.some.injEq] at hst
    subst hst
    exact hs.bsp False.elim (by rw [hb]; exact Iff.rfl) nofun
  | initCheck =>
    simp only [ApInit.bspStep, hb, Option.some.injEq] at hst
    subst hst
    cases ok with
    | true =>
      exact hcheck .startupIpi (by rw [hb]; exact id) id (fun _ => by rw [hb]; trivial) nofun
    | false => exact hcheck .failed (by rw [hb]; exact id) id False.elim nofun
  | startupCheck =>
    simp only [ApInit.bspStep, hb, Option.some.injEq] at hst
    subst hst
    cases ok with
    | true => exact hcheck .secondIpi (by rw [hb]; exact id) id False.elim nofun
    | false => exact hcheck .failed (by rw [hb]; exact id) id False.elim nofun
  | secondCheck =>
    simp only [ApInit.bspStep, hb, Option.some.injEq] at hst
    subst hst
    cases ok with
    | true => exact hcheck .storeCouts (by rw [hb]; exact id) id False.elim nofun
    | false => exact hcheck .failed (by rw [hb]; exact id) id False.elim nofun
  | startupIpi =>
    simp only [ApInit.bspStep, hb, Option.some.injEq] at hst
    subst hst
    have hsent := startupIpi_inv hs hb
    exact hsent
  | storeCouts =>
    simp only [ApInit.bspStep, hb, Option.some.injEq] at hst
    subst hst
    exact storeCouts_inv hs hb
  | waitAps =>
    simp only [ApInit.bspStep, hb, Option.some.injEq] at hst
    subst hst
    have hstored : s.bsp.Stored := by rw [hb]; trivial
    cases hw : s.waits with
    | true => exact hs.bsp False.elim (by rw [hb]; exact Iff.rfl) nofun
    | false =>
      refine hs.bsp False.elim (by rw [hb]; exact Iff.rfl) fun _ => arrived_eq.mp ?_
      have hge := mt (hs.waits_iff hcard hstored).mpr (by simp [hw])
      have hle := arrived_le s.boot
      omega

/-- **Step rule**, for a step of one processor. -/
theorem InitInv.of_step (hs : InitInv s) {b : Boot ι} {a : Ap} (startup init : ι → Bool)
    (hap : b.ap = Function.update s.boot.ap c a)
    (hlocked : Excl b.apBootLock fun d => (b.ap d).pc.InCount) (heax : a.pc.Spins → a.eax ≠ 0)
    (hother : ∀ d, d ≠ c → b.counted d = s.boot.counted d ∧ startup d = s.startup d)
    (honce : b.counted c = true → startup c = false ∧ ¬ a.pc.Before)
    (hwaiting : startup c = true → a.pc = .waitSipi)
    (hunsent : s.bsp.Unsent → a.pc = .waitSipi ∧ startup c = false)
    (hreading : ∀ v, a.pc = .incStore v → v = b.apCouts ∧ s.bsp.Stored)
    (hcouts : b.apCouts = s.boot.apCouts ∨ ∀ d, d ≠ c → ¬ (s.boot.ap d).pc.InCount)
    (hstored : s.bsp.Stored → b.apCouts.toNat % 2 ^ 16 = arrived b)
    (hkeep : s.boot.counted c = true → b.counted c = true)
    (hfresh : ¬ s.bsp.Stored → b.counted c = s.boot.counted c) :
    InitInv { s with boot := b, startup := startup, init := init } := by
  have hself : b.ap c = a := by rw [hap, Function.update_self]
  have hne : ∀ d, d ≠ c → b.ap d = s.boot.ap d := fun d hd => by rw [hap, Function.update_of_ne hd]
  refine ⟨hlocked, fun d hd => ?_, fun d hd => ?_, fun d hd => ?_, fun h d => ?_, fun d v hd => ?_,
    hstored, fun h d => ?_, fun h d => ?_, hs.lapicNum⟩ <;> by_cases hdc : d = c
  · subst hdc
    simp only [hself] at hd ⊢
    exact heax hd
  · simp only [hne d hdc] at hd ⊢
    exact hs.eax d hd
  · subst hdc
    simp only [hself]
    exact honce hd
  · simp only [hne d hdc, (hother d hdc).2]
    exact hs.once d ((hother d hdc).1.symm.trans hd)
  · subst hdc
    simp only [hself]
    exact hwaiting hd
  · simp only [hne d hdc]
    exact hs.waiting d ((hother d hdc).2.symm.trans hd)
  · subst hdc
    simp only [hself]
    exact hunsent h
  · simp only [hne d hdc, (hother d hdc).2]
    exact hs.unsent h d
  · subst hdc
    simp only [hself] at hd
    exact hreading v hd
  · simp only [hne d hdc] at hd
    rcases hcouts with h | h
    · rw [h]
      exact hs.reading d v hd
    · exact absurd (by rw [hd]; trivial) (h d hdc)
  · subst hdc
    exact (hfresh h).trans (hs.fresh h d)
  · exact (hother d hdc).1.trans (hs.fresh h d)
  · subst hdc
    exact hkeep (hs.finished h d)
  · exact (hother d hdc).1.trans (hs.finished h d)

/-- A processor accepts an INIT message and is back where it waits. -/
theorem acceptInit_inv (hs : InitInv s) (init : ι → Bool) :
    InitInv { s with boot := s.boot.setAp c ApInit.resetAp, init := init } := by
  refine hs.of_step (c := c) (a := ApInit.resetAp) s.startup init rfl
    (hs.locked.mono id fun d hd => ?_) (fun h => ?_) (fun _ _ => ⟨rfl, rfl⟩)
    (fun h => ⟨(hs.once c h).1, ?_⟩) (fun _ => rfl) (fun h => ⟨rfl, (hs.unsent h c).2⟩) nofun
    (Or.inl rfl) hs.stored id fun _ => rfl
  · by_cases hdc : d = c
    · subst hdc
      rw [setAp_self] at hd
      exact hd.elim
    · rwa [setAp_ne _ _ hdc] at hd
  · rcases h with h | h <;> cases h
  · rintro (h | h | ⟨v, h⟩)
    · exact h
    · cases h
    · cases h

/-- A processor accepts its startup message. -/
theorem acceptStartup_inv (hs : InitInv s) (hstartup : s.startup c = true) :
    InitInv { s with
      boot := s.boot.goto c .apsStart
      startup := Function.update s.startup c false } := by
  have hcounted : s.boot.counted c ≠ true := fun h => by
    rw [(hs.once c h).1] at hstartup
    cases hstartup
  refine hs.of_step (c := c) _ s.init rfl (hs.locked.mono id fun d hd => ?_) (fun h => ?_)
    (fun d hd => ⟨rfl, Function.update_of_ne hd ..⟩) (fun h => absurd h hcounted) (fun h => ?_)
    (fun h => ?_) nofun (Or.inl rfl) hs.stored id fun _ => rfl
  · by_cases hdc : d = c
    · subst hdc
      rw [Boot.goto, setAp_self] at hd
      exact hd.elim
    · rwa [Boot.goto, setAp_ne _ _ hdc] at hd
  · rcases h with h | h <;> cases h
  · rw [Function.update_self] at h
    cases h
  · rw [(hs.unsent h c).2] at hstartup
    cases hstartup

/-- An instruction that leaves the counter alone. -/
theorem quiet_inv (hs : InitInv s) {b : Boot ι} {a : Ap}
    (hap : b.ap = Function.update s.boot.ap c a)
    (hcouts : b.apCouts = s.boot.apCouts) (hcounted : b.counted = s.boot.counted)
    (hpc : (s.boot.ap c).pc ≠ .waitSipi)
    (hlocked : Excl b.apBootLock fun d => (b.ap d).pc.InCount) (heax : a.pc.Spins → a.eax ≠ 0)
    (hbefore : a.pc.Before → (s.boot.ap c).pc.Before)
    (hreading : ∀ v, a.pc = .incStore v → v = s.boot.apCouts ∧ s.bsp.Stored) :
    InitInv { s with boot := b } := by
  have hstart : s.startup c = false := by
    by_contra h
    exact hpc (hs.waiting c (by simpa using h))
  refine hs.of_step s.startup s.init hap hlocked heax (fun d _ => ⟨by rw [hcounted], rfl⟩)
    (fun h => ⟨hstart, fun hb => (hs.once c (hcounted ▸ h)).2 (hbefore hb)⟩)
    (fun h => absurd (hstart.symm.trans h) nofun) (fun h => absurd (hs.unsent h c).1 hpc)
    (fun v hv => hcouts ▸ hreading v hv) (Or.inl hcouts) (fun h => ?_)
    (fun h => by rw [hcounted, h]) (fun _ => by rw [hcounted])
  rw [hcouts, hs.stored h, arrived, arrived, hcounted]

/-- The write of the increment. -/
theorem store_inv (hs : InitInv s) {b : Boot ι} {a : Ap} {v : BitVec 32}
    (hap : b.ap = Function.update s.boot.ap c a) (hpc : (s.boot.ap c).pc = .incStore v)
    (hto : a.pc = .jmpEntry) (hlock : b.apBootLock = s.boot.apBootLock) (hcouts : b.apCouts = v + 1)
    (hcounted : b.counted = Function.update s.boot.counted c true)
    (hcard : Fintype.card ι < 2 ^ 16) :
    InitInv { s with boot := b } := by
  obtain ⟨hv, hst⟩ := hs.reading c v hpc
  have hin : (s.boot.ap c).pc.InCount := by rw [hpc]; trivial
  have hstart : s.startup c = false := by
    by_contra h
    have hwait := hs.waiting c (by simpa using h)
    rw [hpc] at hwait
    cases hwait
  have hnew : s.boot.counted c = false := by
    by_contra h
    exact (hs.once c (by simpa using h)).2 (Or.inr (Or.inr ⟨v, hpc⟩))
  have harrived := arrived_store hnew hcounted
  refine hs.of_step s.startup s.init hap (hs.locked.mono (fun h => hlock ▸ h) fun d hd => ?_)
    (fun h => ?_) (fun d hd => ⟨by rw [hcounted, Function.update_of_ne hd], rfl⟩)
    (fun _ => ⟨hstart, ?_⟩) (fun h => absurd (hstart.symm.trans h) nofun) (fun h => ?_)
    (fun w hw => absurd (hto.symm.trans hw) nofun)
    (Or.inr fun d hd hd' => hd (hs.locked.one d c hd' hin))
    (fun _ => ?_) (fun _ => by rw [hcounted, Function.update_self]) (fun h => absurd hst h)
  · by_cases hdc : d = c
    · exact hdc ▸ hin
    · rwa [hap, Function.update_of_ne hdc] at hd
  · have hin' : a.pc.InCount := by rw [hto]; trivial
    exact absurd h hin'.not_spins
  · have hpast : a.pc.Past := by rw [hto]; trivial
    exact hpast.not_before
  · have hunsent := (hs.unsent h c).1
    rw [hpc] at hunsent
    cases hunsent
  · have hle := arrived_le b
    have hcount := hs.stored hst
    have hone : (1 : BitVec 32).toNat = 1 := rfl
    rw [hcouts, hv, BitVec.toNat_add, hone]
    omega

omit [Fintype ι] in
/-- Who is under the lock after the step of a processor. -/
theorem inCount_step {b : Boot ι} {a : Ap} (hap : b.ap = Function.update s.boot.ap c a) {d : ι}
    (hd : (b.ap d).pc.InCount) :
    (d = c ∧ a.pc.InCount) ∨ (d ≠ c ∧ (s.boot.ap d).pc.InCount) := by
  by_cases hdc : d = c
  · subst hdc
    rw [hap, Function.update_self] at hd
    exact Or.inl ⟨rfl, hd⟩
  · rw [hap, Function.update_of_ne hdc] at hd
    exact Or.inr ⟨hdc, hd⟩

/-- A step that does not take the lock, and does not free it. -/
theorem InitInv.locked_step (hs : InitInv s) {b : Boot ι} {a : Ap}
    (hap : b.ap = Function.update s.boot.ap c a) (hin : a.pc.InCount → (s.boot.ap c).pc.InCount)
    (hlock : s.boot.apBootLock ≠ 0 → b.apBootLock ≠ 0) :
    Excl b.apBootLock fun d => (b.ap d).pc.InCount := by
  refine hs.locked.mono hlock fun d hd => ?_
  rcases inCount_step hap hd with ⟨rfl, h⟩ | ⟨-, h⟩
  · exact hin h
  · exact h

theorem ap_inv (hcard : Fintype.card ι < 2 ^ 16) (hs : InitInv s)
    (hafter : (s.boot.ap c).pc = .incLoad → s.bsp.Stored) {b : Boot ι}
    (hst : s.boot.advance c = some b) : InitInv { s with boot := b } := by
  obtain ⟨a, hap, hcounting⟩ := advance_counting hst
  cases hcounting with
  | early hpc hto heax hlock hcouts hcounted =>
    have hnot : ¬ a.pc.InCount ∧ ∀ v, a.pc ≠ .incStore v := by
      cases hp : a.pc <;> rw [hp] at hto <;> first
        | exact hto.elim
        | exact ⟨id, nofun⟩
    refine quiet_inv hs hap hcouts hcounted (fun h => ?_)
      (hs.locked_step hap (fun h => absurd h hnot.1) (hlock ▸ id)) (fun h => ?_)
        (fun _ => Or.inl hpc)
      (fun v h => absurd h (hnot.2 v))
    · rw [h] at hpc
      exact hpc
    · rcases heax h with h | ⟨h1, h2⟩
      · exact h
      · exact h2 ▸ hs.eax c h1
  | refused hpc hto htaken heax hlock hcouts hcounted =>
    refine quiet_inv hs hap hcouts hcounted (by rw [hpc]; nofun) (hs.locked_step hap ?_ fun _ => ?_)
      (fun _ => heax ▸ htaken) (fun _ => Or.inl (by rw [hpc]; trivial)) (by rw [hto]; nofun)
    · rw [hto]
      exact False.elim
    · rw [hlock]
      exact hs.eax c (Or.inl hpc)
  | take hpc hto hfree hlock hcouts hcounted =>
    have hin : a.pc.InCount := by rw [hto]; trivial
    refine quiet_inv hs hap hcouts hcounted (by rw [hpc]; nofun)
      (hs.locked.acquire (c := c) hfree ?_ fun d hd => ?_) (fun h => absurd h hin.not_spins)
      (fun _ => Or.inl (by rw [hpc]; trivial)) (by rw [hto]; nofun)
    · rw [hlock]
      exact hs.eax c (Or.inl hpc)
    · exact (inCount_step hap hd).imp And.left And.right
  | load hpc hto hlock hcouts hcounted =>
    have hin : a.pc.InCount := by rw [hto]; trivial
    refine quiet_inv hs hap hcouts hcounted (by rw [hpc]; nofun)
      (hs.locked_step hap (fun _ => by rw [hpc]; trivial) (hlock ▸ id))
      (fun h => absurd h hin.not_spins) (fun _ => Or.inr (Or.inl hpc)) (fun v h => ⟨?_, hafter hpc⟩)
    rw [hto] at h
    cases h
    rfl
  | store v hpc hto hlock hcouts hcounted =>
    exact store_inv hs hap hpc hto hlock hcouts hcounted hcard
  | jump hpc hto hlock hcouts hcounted =>
    have hin : a.pc.InCount := by rw [hto]; trivial
    have hpast : a.pc.Past := by rw [hto]; trivial
    exact quiet_inv hs hap hcouts hcounted (by rw [hpc]; nofun)
      (hs.locked_step hap (fun _ => by rw [hpc]; trivial) (hlock ▸ id))
      (fun h => absurd h hin.not_spins) (fun h => absurd h hpast.not_before) (by rw [hto]; nofun)
  | release hpc hto hcouts hcounted =>
    have hpast : a.pc.Past := by rw [hto]; trivial
    refine quiet_inv hs hap hcouts hcounted (by rw [hpc]; nofun)
      (hs.locked.release (c := c) (by rw [hpc]; trivial) fun d hd => ?_) (fun h => ?_)
      (fun h => absurd h hpast.not_before) (by rw [hto]; nofun)
    · rcases inCount_step hap hd with ⟨-, h⟩ | h
      · rw [hto] at h
        exact h.elim
      · exact h
    · rw [hto] at h
      rcases h with h | h <;> cases h

end Steps

theorem initInv_step (hcard : Fintype.card ι < 2 ^ 16) (s : ApInit ι) (a : InitAct ι) (t : ApInit ι)
    (hs : InitInv s) (hafter : CountsAfter s a t) (hst : initStep s a t) : InitInv t := by
  simp only [initStep, stepOf] at hst
  cases a with
  | bsp ok => exact bspStep_inv hcard hs hst
  | acceptInit c =>
    simp only [ApInit.next, Option.ite_none_right_eq_some, Option.some.injEq] at hst
    obtain ⟨-, rfl⟩ := hst
    exact acceptInit_inv hs _
  | acceptStartup c =>
    simp only [ApInit.next, Option.ite_none_right_eq_some, Option.map_eq_some_iff, Boot.next,
      Option.some.injEq] at hst
    obtain ⟨⟨hstartup, -⟩, b, ⟨-, rfl⟩, rfl⟩ := hst
    exact acceptStartup_inv hs hstartup
  | ap c =>
    simp only [ApInit.next, Option.map_eq_some_iff, Boot.next] at hst
    obtain ⟨b, hb, rfl⟩ := hst
    exact ap_inv hcard hs (hafter c rfl) hb

omit [DecidableEq ι] in
theorem initInv_start {s : ApInit ι} (h : InitStart s) : InitInv s := by
  have hpc : ∀ {P : Pc → Prop} (c : ι), P (s.boot.ap c).pc → P .waitSipi := fun c hc => h.pc c ▸ hc
  refine ⟨⟨fun c _ hc => (hpc c hc).elim, fun c hc => (hpc c hc).elim⟩, fun c hc => ?_,
    fun c hc => ?_, fun c _ => h.pc c, fun _ c => ⟨h.pc c, h.startup c⟩, fun c v hc => ?_,
    fun hst => ?_, fun _ => h.counted, fun hf => ?_, h.lapicNum⟩
  · rcases hc with hc | hc <;> exact absurd ((h.pc c).symm.trans hc) nofun
  · exact absurd ((h.counted c).symm.trans hc) nofun
  · exact absurd ((h.pc c).symm.trans hc) nofun
  · rw [h.bsp] at hst
    exact hst.elim
  · exact absurd (h.bsp.symm.trans hf) nofun

/-- **Arrival.** For any number of processors below `2 ^ 16`, whatever memory holds at
first, and any interleaving in which no processor begins its increment before the
counter is set to `0`, every state is safe. -/
theorem arrivalSafe_of_counts (hcard : Fintype.card ι < 2 ^ 16) {s t : ApInit ι} (hs : InitStart s)
    {as : List (InitAct ι)} (hafter : Every initStep CountsAfter s as) (hr : Run initStep s as t) :
    ArrivalSafe t :=
  (run_inv (initInv_step hcard) (initInv_start hs) hafter hr).safe hcard

end Count

/-! ## One processor -/

def sampleInit : ApInit (Fin 1) where
  boot := ⟨fun _ => ⟨.waitSipi, .realMode, 0, none⟩, 0, 0x9000, 0, 0, fun _ => false⟩
  bsp := .initIpi
  init _ := false
  startup _ := false
  lapicNum := 2

theorem sampleInit_start : InitStart sampleInit :=
  ⟨fun _ => rfl, fun _ => rfl, rfl, fun _ => rfl, rfl⟩

/-- `ap_init` up to the startup message, and the processor to its start. -/
def sampleStarted : List (InitAct (Fin 1)) :=
  [.bsp true, .bsp true, .acceptInit 0, .bsp true, .acceptStartup 0]

/-- The processor has incremented before `ap_init` stores `0`: the loop waits for ever. -/
theorem arrivalSafe_sample_fails :
    InitStart sampleInit ∧ ∃ t, Run initStep sampleInit
      (sampleStarted ++ List.replicate 11 (.ap 0) ++ List.replicate 4 (.bsp true)) t ∧
        ¬ ArrivalSafe t := by
  refine ⟨sampleInit_start, ?_⟩
  have hstate : (exec ApInit.next sampleInit
      (sampleStarted ++ List.replicate 11 (.ap 0) ++ List.replicate 4 (.bsp true))).map
        (fun t => (t.boot.counted 0, t.waits)) = some (true, true) := by decide +kernel
  obtain ⟨t, ht, hstate⟩ := Option.map_eq_some_iff.mp hstate
  obtain ⟨hcounted, hwaits⟩ := Prod.mk.inj hstate
  refine ⟨t, run_of_exec ht, fun hsafe => ?_⟩
  have hall : ∀ c, t.boot.counted c = true := fun c => by rwa [Subsingleton.elim c 0]
  exact absurd (hwaits.symm.trans (hsafe.arrived hall)) nofun

def checkAfter (s : ApInit (Fin 1)) : InitAct (Fin 1) → Bool
  | .ap c => (s.boot.ap c).pc ≠ .incLoad || s.bsp = .waitAps
  | _ => true

theorem countsAfter_of_check (s : ApInit (Fin 1)) (a : InitAct (Fin 1)) (t : ApInit (Fin 1))
    (h : checkAfter s a = true) : CountsAfter s a t := by
  rintro c rfl hpc
  have hbsp : s.bsp = .waitAps := by simpa [checkAfter, hpc] using h
  rw [hbsp]
  trivial

/-- The processor reaches its increment after the store, and the loop is left. -/
theorem arrivalSafe_sample_holds :
    ∃ t, exec ApInit.next sampleInit (sampleStarted ++ List.replicate 4 (.bsp true) ++
      List.replicate 13 (.ap 0) ++ [.bsp true]) = some t ∧ ArrivalSafe t := by
  obtain ⟨t, ht⟩ := Option.isSome_iff_exists.mp (show (exec ApInit.next sampleInit
    (sampleStarted ++ List.replicate 4 (.bsp true) ++ List.replicate 13 (.ap 0) ++
      [.bsp true])).isSome from by decide +kernel)
  exact ⟨t, ht, arrivalSafe_of_counts (by decide) sampleInit_start
    (every_of_check countsAfter_of_check (by decide +kernel)) (run_of_exec ht)⟩

end X64SmpOs.ApBoot

import Mathlib.Data.BitVec
import Mathlib.Data.Fintype.Card
import X64SmpOs.Lib.Runs
import X64SmpOs.Lib.SpinLock

/-!
# The trampoline of the application processors

`boot/aps_boot.asm`, from `aps_start` to the jump to `x64_ap_main`, for any number
of processors. `ap_stack_lock` guards `ap_stack_offset` in 32-bit code, `ap_boot_lock`
the counter at `0x9F000` in 64-bit code; `jnz spin_pause` in the 32-bit loop means the
label of the 64-bit one.

* `Boot.next`: one step of one processor;
* `BootSafe`: who is past the switch to long mode has a stack of its own;
* `bootSafe_iff_free`: a run keeps to that exactly when every exchange with
  `ap_stack_lock` finds it free.
-/

namespace X64SmpOs.ApBoot

open Runs SpinLock

variable {ι : Type} [DecidableEq ι]

inductive Mode
  | realMode
  | protectedMode
  | longMode
  deriving DecidableEq, Repr

/-- Where a processor stands, by the labels of the code. -/
inductive Pc
  | waitSipi
  | apsStart
  | protectedMode
  /-- The 32-bit `.spin_lock`, and the instructions under the lock. -/
  | stackLock
  | stackLoad
  | stackStore
  | stackUnlock
  | enter64LongMode
  | apInitFinish
  /-- The 64-bit `spin_lock` and `spin_pause`. -/
  | spinLock
  | spinPause
  /-- `inc dword [0x9F000]`, which reads and then writes. -/
  | incLoad
  | incStore (v : BitVec 32)
  | jmpEntry
  /-- `x64_ap_main` up to its release of `ap_boot_lock`. -/
  | x64ApMain
  | running
  deriving DecidableEq, Repr

/-- `esp` is `none` until the code has set it. -/
structure Ap where
  pc : Pc
  mode : Mode
  eax : BitVec 32
  esp : Option (BitVec 32)

/-- The processors and the doublewords they share. `counted` records who has executed
the increment. -/
structure Boot (ι : Type) where
  ap : ι → Ap
  apStackLock : BitVec 32
  apStackOffset : BitVec 32
  apBootLock : BitVec 32
  apCouts : BitVec 32
  counted : ι → Bool

/-- A startup message is accepted, or the next instruction. -/
inductive BootAct (ι : Type)
  | sipi (c : ι)
  | step (c : ι)
  deriving DecidableEq, Repr

namespace Boot

def setAp (s : Boot ι) (c : ι) (a : Ap) : Boot ι := { s with ap := Function.update s.ap c a }

def goto (s : Boot ι) (c : ι) (pc : Pc) : Boot ι := s.setAp c { s.ap c with pc := pc }

def advance (s : Boot ι) (c : ι) : Option (Boot ι) :=
  let a := s.ap c
  match a.pc with
  | .waitSipi => none
  | .apsStart => some (s.setAp c { a with mode := .protectedMode, pc := .protectedMode })
  | .protectedMode => some (s.setAp c { a with eax := 1, pc := .stackLock })
  | .stackLock =>
    let old := s.apStackLock
    let s := { s with apStackLock := a.eax }
    -- the pause of the 64-bit loop
    some (s.setAp c { a with eax := old, pc := if old ≠ 0 then .spinPause else .stackLoad })
  | .stackLoad =>
    some (s.setAp c { a with
      eax := s.apStackOffset, esp := some s.apStackOffset, pc := .stackStore })
  | .stackStore =>
    some ({ s with apStackOffset := a.eax + 128 }.setAp c
      { a with eax := a.eax + 128, pc := .stackUnlock })
  | .stackUnlock => some ({ s with apStackLock := 0 }.goto c .enter64LongMode)
  | .enter64LongMode => some (s.setAp c { a with mode := .longMode, pc := .apInitFinish })
  | .apInitFinish => some (s.setAp c { a with eax := 1, pc := .spinLock })
  | .spinLock =>
    let old := s.apBootLock
    let s := { s with apBootLock := a.eax }
    some (s.setAp c { a with eax := old, pc := if old ≠ 0 then .spinPause else .incLoad })
  | .spinPause => some (s.goto c .spinLock)
  | .incLoad => some (s.goto c (.incStore s.apCouts))
  | .incStore v =>
    some ({ s with
      apCouts := v + 1
      counted := Function.update s.counted c true }.goto c .jmpEntry)
  | .jmpEntry => some (s.goto c .x64ApMain)
  -- the C code is 64-bit code
  | .x64ApMain =>
    if a.mode = .longMode then some ({ s with apBootLock := 0 }.goto c .running) else none
  | .running => none

def next (s : Boot ι) : BootAct ι → Option (Boot ι)
  | .sipi c => if (s.ap c).pc = .waitSipi then some (s.goto c .apsStart) else none
  | .step c => s.advance c

end Boot

def bootStep : Boot ι → BootAct ι → Boot ι → Prop := stepOf Boot.next

/-- From the `ap_boot_lock` loop on. -/
def Pc.Booted : Pc → Prop
  | .spinLock | .spinPause | .incLoad | .incStore _ | .jmpEntry | .x64ApMain | .running => True
  | _ => False

/-- Under `ap_stack_lock`. -/
def Pc.InStack : Pc → Prop
  | .stackLoad | .stackStore | .stackUnlock => True
  | _ => False

/-- Stack pointers are handed out to one processor at a time, whoever has come to the
`ap_boot_lock` loop has one and runs in long mode, and no two are the same. -/
structure BootSafe (s : Boot ι) : Prop where
  locked : Excl s.apStackLock fun c => (s.ap c).pc.InStack
  booted : ∀ c, (s.ap c).pc.Booted → (s.ap c).esp ≠ none ∧ (s.ap c).mode = .longMode
  distinct : ∀ c d p, (s.ap c).esp = some p → (s.ap d).esp = some p → c = d

/-- An exchange with `ap_stack_lock` finds it free. -/
def FindsFree (s : Boot ι) (a : BootAct ι) (_ : Boot ι) : Prop :=
  ∀ c, a = .step c → (s.ap c).pc = .stackLock → s.apStackLock = 0

/-- Every processor waits for its startup message, and nothing is handed out yet. The
word at `ap_boot_lock` and the counter are whatever memory holds. -/
structure Start (s : Boot ι) : Prop where
  pc : ∀ c, (s.ap c).pc = .waitSipi
  esp : ∀ c, (s.ap c).esp = none
  stackLock : s.apStackLock = 0
  stackOffset : s.apStackOffset = 0x9000

/-! ## The stacks handed out -/

/-- What `ap_stack_offset` holds after `k` processors. -/
def stackAt (k : Nat) : BitVec 32 := 0x9000 + 128 * BitVec.ofNat 32 k

theorem stackAt_succ (k : Nat) : stackAt (k + 1) = stackAt k + 128 := by
  unfold stackAt
  rw [← BitVec.toNat_inj]
  simp only [BitVec.toNat_add, BitVec.toNat_mul, BitVec.toNat_ofNat, BitVec.ofNat_eq_ofNat]
  omega

theorem stackAt_injOn {i j : Nat} (hi : i < 2 ^ 25) (hj : j < 2 ^ 25) (h : stackAt i = stackAt j) :
    i = j := by
  unfold stackAt at h
  rw [← BitVec.toNat_inj] at h
  simp only [BitVec.toNat_add, BitVec.toNat_mul, BitVec.toNat_ofNat, BitVec.ofNat_eq_ofNat] at h
  omega

/-- The processors in the order they got their stacks. -/
structure Handed (s : Boot ι) (order : List ι) : Prop where
  nodup : order.Nodup
  mem : ∀ c ∈ order, (s.ap c).esp ≠ none
  esp : ∀ c p, (s.ap c).esp = some p → ∃ i, order[i]? = some c ∧ p = stackAt i
  free : (∀ c, (s.ap c).pc ≠ .stackStore) → s.apStackOffset = stackAt order.length
  busy : ∀ c, (s.ap c).pc = .stackStore → (s.ap c).eax + 128 = stackAt order.length

omit [DecidableEq ι] in
/-- **Distinct stacks**, as long as the offset does not come round. -/
theorem Handed.distinct [Fintype ι] {s : Boot ι} {order : List ι} (h : Handed s order)
    (hcard : Fintype.card ι ≤ 2 ^ 25) {c d : ι} {p : BitVec 32} (hc : (s.ap c).esp = some p)
    (hd : (s.ap d).esp = some p) : c = d := by
  have hlen : order.length ≤ 2 ^ 25 := h.nodup.length_le_card.trans hcard
  obtain ⟨i, hi, hpi⟩ := h.esp c p hc
  obtain ⟨j, hj, hpj⟩ := h.esp d p hd
  have hi' := (List.getElem?_eq_some_iff.mp hi).1
  have hj' := (List.getElem?_eq_some_iff.mp hj).1
  have hij : i = j := stackAt_injOn (by omega) (by omega) (hpi.symm.trans hpj)
  subst hij
  exact Option.some.inj (hi.symm.trans hj)

/-! ## The invariant -/

/-- Before the load of `esp`. -/
def Pc.Fresh : Pc → Prop
  | .waitSipi | .apsStart | .protectedMode | .stackLock | .stackLoad => True
  | _ => False

/-- What a processor has where it stands. -/
structure Placed (a : Ap) : Prop where
  eax : a.pc = .stackLock → a.eax ≠ 0
  esp : a.esp = none ↔ a.pc.Fresh
  mode : a.pc.Booted ∨ a.pc = .apInitFinish → a.mode = .longMode

structure BootInv (s : Boot ι) : Prop where
  locked : Excl s.apStackLock fun c => (s.ap c).pc.InStack
  placed : ∀ c, Placed (s.ap c)
  handed : ∃ order, Handed s order

section Invariant

variable {s t : Boot ι} {c : ι} {a : Ap}

/-- **Step rule.** -/
theorem BootInv.of_step (hs : BootInv s) (hap : t.ap = Function.update s.ap c a)
    (hlocked : Excl t.apStackLock fun d => (t.ap d).pc.InStack) (hplaced : Placed a)
    (hhanded : ∃ order, Handed t order) : BootInv t := by
  refine ⟨hlocked, fun d => ?_, hhanded⟩
  rw [hap]
  by_cases hd : d = c
  · rw [hd, Function.update_self]
    exact hplaced
  · rw [Function.update_of_ne hd]
    exact hs.placed d

/-- A step away from the stack offset. -/
theorem Handed.move {order : List ι} (h : Handed s order) (hap : t.ap = Function.update s.ap c a)
    (hesp : a.esp = (s.ap c).esp) (hoffset : t.apStackOffset = s.apStackOffset)
    (hpc : (s.ap c).pc ≠ .stackStore ∧ a.pc ≠ .stackStore) : Handed t order := by
  have hself : t.ap c = a := by rw [hap, Function.update_self]
  have hother : ∀ d, d ≠ c → t.ap d = s.ap d := fun d hd => by rw [hap, Function.update_of_ne hd]
  have hsame : ∀ d, (t.ap d).esp = (s.ap d).esp := by
    intro d
    by_cases hd : d = c
    · rw [hd, hself, hesp]
    · rw [hother d hd]
  have hstore : ∀ d, (t.ap d).pc = .stackStore → d ≠ c ∧ (s.ap d).pc = .stackStore := by
    intro d hd
    by_cases hdc : d = c
    · rw [hdc, hself] at hd
      exact absurd hd hpc.2
    · exact ⟨hdc, hother d hdc ▸ hd⟩
  refine ⟨h.nodup, fun d hd => hsame d ▸ h.mem d hd, fun d p hd => h.esp d p (hsame d ▸ hd),
    fun hno => ?_, fun d hd => ?_⟩
  · rw [hoffset]
    refine h.free fun d hd => ?_
    by_cases hdc : d = c
    · exact hpc.1 (hdc ▸ hd)
    · exact hno d (hother d hdc ▸ hd)
  · obtain ⟨hdc, hpcd⟩ := hstore d hd
    rw [hother d hdc]
    exact h.busy d hpcd

/-- A step on neither of the words the stack lock is about. -/
theorem plain_inv (hs : BootInv s) (hap : t.ap = Function.update s.ap c a)
    (hlock : t.apStackLock = s.apStackLock) (hoffset : t.apStackOffset = s.apStackOffset)
    (hesp : a.esp = (s.ap c).esp) (hpc : (s.ap c).pc ≠ .stackStore ∧ a.pc ≠ .stackStore)
    (hin : ¬ a.pc.InStack) (hplaced : Placed a) : BootInv t := by
  refine hs.of_step hap (hs.locked.mono (fun h => hlock ▸ h) fun d hd => ?_) hplaced ?_
  · rw [hap] at hd
    by_cases hdc : d = c
    · rw [hdc, Function.update_self] at hd
      exact absurd hd hin
    · rwa [Function.update_of_ne hdc] at hd
  · obtain ⟨order, h⟩ := hs.handed
    exact ⟨order, h.move hap hesp hoffset hpc⟩

/-- An exchange with a free `ap_stack_lock`. -/
theorem stackLock_inv (hs : BootInv s) (hpc : (s.ap c).pc = .stackLock) (hfree : s.apStackLock = 0)
    (hst : s.advance c = some t) : BootInv t := by
  obtain ⟨heax, hesp, -⟩ := hs.placed c
  simp only [Boot.advance, hpc, hfree, ne_eq, not_true_eq_false, ↓reduceIte,
    Option.some.injEq] at hst
  subst hst
  refine hs.of_step rfl (hs.locked.acquire (c := c) hfree (heax hpc) fun d hd => ?_)
    ⟨nofun, ?_, fun h => ?_⟩ ?_
  · by_cases hdc : d = c
    · exact Or.inl hdc
    · exact Or.inr (by simpa [Boot.setAp, hdc] using hd)
  · rw [hpc] at hesp
    exact ⟨fun _ => trivial, fun _ => hesp.mpr trivial⟩
  · rcases h with h | h <;> cases h
  · obtain ⟨order, h⟩ := hs.handed
    exact ⟨order, h.move rfl rfl rfl ⟨by rw [hpc]; nofun, nofun⟩⟩

/-- The next stack goes to the processor that holds the lock. -/
theorem stackLoad_inv (hs : BootInv s) (hpc : (s.ap c).pc = .stackLoad)
    (hst : s.advance c = some t) : BootInv t := by
  obtain ⟨-, hesp, -⟩ := hs.placed c
  have hnone : (s.ap c).esp = none := hesp.mpr (by rw [hpc]; trivial)
  have hin : (s.ap c).pc.InStack := by rw [hpc]; trivial
  simp only [Boot.advance, hpc, Option.some.injEq] at hst
  subst hst
  refine hs.of_step rfl (hs.locked.mono id fun d hd => ?_) ⟨nofun, ⟨nofun, nofun⟩, fun h => ?_⟩ ?_
  · by_cases hdc : d = c
    · exact hdc ▸ hin
    · simpa [Boot.setAp, hdc] using hd
  · rcases h with h | h <;> cases h
  · obtain ⟨order, h⟩ := hs.handed
    -- nobody else is at the store
    have hno : ∀ d, (s.ap d).pc ≠ .stackStore := by
      intro d hd
      have hdc := hs.locked.one d c (by rw [hd]; trivial) hin
      rw [hdc, hpc] at hd
      cases hd
    have hoffset := h.free hno
    have hnew : c ∉ order := fun hc => h.mem c hc hnone
    refine ⟨order ++ [c], ?_, fun d hd => ?_, fun d p hd => ?_, fun hall => ?_, fun d hd => ?_⟩
    · refine List.nodup_append.mpr ⟨h.nodup, List.nodup_singleton c, fun d hd e he hde => hnew ?_⟩
      rw [← List.mem_singleton.mp he, ← hde]
      exact hd
    · by_cases hdc : d = c
      · simp [Boot.setAp, hdc]
      · have hd' : d ∈ order := by simpa [hdc] using hd
        simpa [Boot.setAp, hdc] using h.mem d hd'
    · by_cases hdc : d = c
      · subst hdc
        refine ⟨order.length, by simp, ?_⟩
        rw [← hoffset]
        simpa [Boot.setAp] using hd.symm
      · obtain ⟨i, hi, hp⟩ := h.esp d p (by simpa [Boot.setAp, hdc] using hd)
        exact ⟨i, by rw [List.getElem?_append_left (List.getElem?_eq_some_iff.mp hi).1, hi], hp⟩
    · exact absurd (by simp [Boot.setAp]) (hall c)
    · by_cases hdc : d = c
      · rw [List.length_append, List.length_singleton, stackAt_succ, ← hoffset]
        simp [Boot.setAp, hdc]
      · exact absurd (by simpa [Boot.setAp, hdc] using hd) (hno d)

/-- The offset of the next processor is stored. -/
theorem stackStore_inv (hs : BootInv s) (hpc : (s.ap c).pc = .stackStore)
    (hst : s.advance c = some t) : BootInv t := by
  obtain ⟨-, hesp, -⟩ := hs.placed c
  have hin : (s.ap c).pc.InStack := by rw [hpc]; trivial
  simp only [Boot.advance, hpc, Option.some.injEq] at hst
  subst hst
  refine hs.of_step rfl (hs.locked.mono id fun d hd => ?_) ⟨nofun, ?_, fun h => ?_⟩ ?_
  · by_cases hdc : d = c
    · exact hdc ▸ hin
    · simpa [Boot.setAp, hdc] using hd
  · rw [hesp, hpc]
    exact Iff.rfl
  · rcases h with h | h <;> cases h
  · obtain ⟨order, h⟩ := hs.handed
    have hsame : ∀ d, ({ s with apStackOffset := (s.ap c).eax + 128 }.setAp c
        { s.ap c with eax := (s.ap c).eax + 128, pc := .stackUnlock } : Boot ι).ap d =
          if d = c then { s.ap c with eax := (s.ap c).eax + 128, pc := .stackUnlock } else s.ap d :=
      fun d => Function.update_apply ..
    refine ⟨order, h.nodup, fun d hd => ?_, fun d p hd => ?_, fun _ => h.busy c hpc, fun d hd => ?_⟩
    · rw [hsame]
      split
      · rename_i hdc
        exact hdc ▸ h.mem d hd
      · exact h.mem d hd
    · rw [hsame] at hd
      split at hd
      · rename_i hdc
        exact hdc ▸ h.esp c p hd
      · exact h.esp d p hd
    · rw [hsame] at hd
      split at hd
      · cases hd
      · rename_i hdc
        exact absurd (hs.locked.one d c (by rw [hd]; trivial) hin) hdc

/-- The lock is released. -/
theorem stackUnlock_inv (hs : BootInv s) (hpc : (s.ap c).pc = .stackUnlock)
    (hst : s.advance c = some t) : BootInv t := by
  obtain ⟨-, hesp, -⟩ := hs.placed c
  have hin : (s.ap c).pc.InStack := by rw [hpc]; trivial
  simp only [Boot.advance, hpc, Option.some.injEq] at hst
  subst hst
  refine hs.of_step rfl (hs.locked.release (c := c) hin fun d hd => ?_)
    ⟨nofun, ?_, fun h => ?_⟩ ?_
  · by_cases hdc : d = c
    · simp [Boot.goto, Boot.setAp, hdc, Pc.InStack] at hd
    · exact ⟨hdc, by simpa [Boot.goto, Boot.setAp, hdc] using hd⟩
  · rw [hesp, hpc]
    exact Iff.rfl
  · rcases h with h | h <;> cases h
  · obtain ⟨order, h⟩ := hs.handed
    exact ⟨order, h.move rfl rfl rfl ⟨by rw [hpc]; nofun, nofun⟩⟩

/-- From the `ap_boot_lock` loop on. -/
theorem booted_inv (hs : BootInv s) (hap : t.ap = Function.update s.ap c a)
    (hlock : t.apStackLock = s.apStackLock) (hoffset : t.apStackOffset = s.apStackOffset)
    (hesp : a.esp = (s.ap c).esp) (hmode : a.mode = (s.ap c).mode) (hold : (s.ap c).pc.Booted)
    (hnew : a.pc.Booted) : BootInv t := by
  obtain ⟨-, hesp', hmode'⟩ := hs.placed c
  have hne : ∀ {pc : Pc}, pc.Booted → pc ≠ .stackStore ∧ pc ≠ .stackLock ∧ ¬ pc.InStack ∧
    ¬ pc.Fresh := by
    intro pc h
    cases pc <;> first
      | exact h.elim
      | exact ⟨nofun, nofun, id, id⟩
  obtain ⟨h1, -, -, h2⟩ := hne hold
  obtain ⟨h3, h4, h5, h6⟩ := hne hnew
  refine plain_inv hs hap hlock hoffset hesp ⟨h1, h3⟩ h5 ⟨fun h => absurd h h4, ?_, fun _ => ?_⟩
  · rw [hesp, hesp']
    exact ⟨fun h => absurd h h2, fun h => absurd h h6⟩
  · rw [hmode]
    exact hmode' (Or.inl hold)

/-- One instruction. -/
theorem advance_inv (hs : BootInv s) (hfree : (s.ap c).pc = .stackLock → s.apStackLock = 0)
    (hst : s.advance c = some t) : BootInv t := by
  obtain ⟨-, hesp, hmode⟩ := hs.placed c
  cases hpc : (s.ap c).pc with
  | waitSipi => simp [Boot.advance, hpc] at hst
  | running => simp [Boot.advance, hpc] at hst
  | stackLock => exact stackLock_inv hs hpc (hfree hpc) hst
  | stackLoad => exact stackLoad_inv hs hpc hst
  | stackStore => exact stackStore_inv hs hpc hst
  | stackUnlock => exact stackUnlock_inv hs hpc hst
  | apsStart =>
    simp only [Boot.advance, hpc, Option.some.injEq] at hst
    subst hst
    rw [hpc] at hesp
    refine plain_inv (c := c) hs rfl rfl rfl rfl (by rw [hpc]; exact ⟨nofun, nofun⟩) id
      ⟨nofun, hesp, ?_⟩
    rintro (h | h) <;> cases h
  | protectedMode =>
    simp only [Boot.advance, hpc, Option.some.injEq] at hst
    subst hst
    rw [hpc] at hesp
    refine plain_inv (c := c) hs rfl rfl rfl rfl (by rw [hpc]; exact ⟨nofun, nofun⟩) id
      ⟨fun _ => (by decide : (1 : BitVec 32) ≠ 0), hesp, ?_⟩
    rintro (h | h) <;> cases h
  | enter64LongMode =>
    simp only [Boot.advance, hpc, Option.some.injEq] at hst
    subst hst
    rw [hpc] at hesp
    exact plain_inv (c := c) hs rfl rfl rfl rfl (by rw [hpc]; exact ⟨nofun, nofun⟩) id
      ⟨nofun, hesp, fun _ => rfl⟩
  | apInitFinish =>
    simp only [Boot.advance, hpc, Option.some.injEq] at hst
    subst hst
    rw [hpc] at hesp
    exact plain_inv (c := c) hs rfl rfl rfl rfl (by rw [hpc]; exact ⟨nofun, nofun⟩) id
      ⟨nofun, hesp, fun _ => hmode (Or.inr hpc)⟩
  | spinLock =>
    simp only [Boot.advance, hpc, Option.some.injEq] at hst
    subst hst
    refine booted_inv (c := c) hs rfl rfl rfl rfl rfl (by rw [hpc]; trivial) ?_
    dsimp only
    split <;> trivial
  | x64ApMain =>
    simp only [Boot.advance, hpc, Option.ite_none_right_eq_some, Option.some.injEq] at hst
    obtain ⟨-, rfl⟩ := hst
    exact booted_inv (c := c) hs rfl rfl rfl rfl rfl (by rw [hpc]; trivial) trivial
  | _ =>
    simp only [Boot.advance, hpc, Option.some.injEq] at hst
    subst hst
    exact booted_inv (c := c) hs rfl rfl rfl rfl rfl (by rw [hpc]; trivial) trivial

end Invariant

theorem bootInv_step (s : Boot ι) (a : BootAct ι) (t : Boot ι) (hs : BootInv s)
    (hfree : FindsFree s a t) (hst : bootStep s a t) : BootInv t := by
  simp only [bootStep, stepOf] at hst
  cases a with
  | sipi c =>
    simp only [Boot.next, Option.ite_none_right_eq_some, Option.some.injEq] at hst
    obtain ⟨hpc, rfl⟩ := hst
    obtain ⟨-, hesp, -⟩ := hs.placed c
    rw [hpc] at hesp
    refine plain_inv (c := c) hs rfl rfl rfl rfl (by rw [hpc]; exact ⟨nofun, nofun⟩) id
      ⟨nofun, hesp, ?_⟩
    rintro (h | h) <;> cases h
  | step c => exact advance_inv hs (hfree c rfl) hst

omit [DecidableEq ι] in
theorem bootInv_start {s : Boot ι} (h : Start s) : BootInv s := by
  have hnone : ∀ c, ¬ (s.ap c).pc.InStack := fun c hc => by
    rw [h.pc] at hc
    exact hc
  refine ⟨⟨fun c _ hc => absurd hc (hnone c), fun c hc => absurd hc (hnone c)⟩,
    fun c => ⟨?_, ?_, ?_⟩, [], List.nodup_nil, nofun, fun c p hc => ?_, fun _ => h.stackOffset,
    fun c hc => ?_⟩
  · rw [h.pc]
    nofun
  · rw [h.pc]
    exact ⟨fun _ => trivial, fun _ => h.esp c⟩
  · rw [h.pc]
    rintro (hc | hc) <;> cases hc
  · rw [h.esp] at hc
    cases hc
  · rw [h.pc] at hc
    cases hc

omit [DecidableEq ι] in
theorem BootInv.safe [Fintype ι] (hcard : Fintype.card ι ≤ 2 ^ 25) {s : Boot ι} (h : BootInv s) :
    BootSafe s := by
  refine ⟨h.locked, fun c hc => ⟨fun he => ?_, (h.placed c).mode (Or.inl hc)⟩,
    fun c d p hc hd => ?_⟩
  · have hfresh := (h.placed c).esp.mp he
    cases hp : (s.ap c).pc <;> rw [hp] at hc hfresh <;> first | exact hc | exact hfresh
  · obtain ⟨order, ho⟩ := h.handed
    exact ho.distinct hcard hc hd

/-- A processor that finds `ap_stack_lock` taken pauses in the 64-bit loop, without a
stack. -/
theorem findsFree_of_safe {s t : Boot ι} {a : BootAct ι} (hs : BootInv s) (hst : bootStep s a t)
    (ht : BootSafe t) : FindsFree s a t := by
  rintro c rfl hpc
  by_contra hlock
  have hesp : (s.ap c).esp = none := (hs.placed c).esp.mpr (by rw [hpc]; trivial)
  simp only [bootStep, stepOf, Boot.next, Boot.advance, hpc, Option.some.injEq] at hst
  rw [if_pos hlock] at hst
  have hap : t.ap c = { s.ap c with eax := s.apStackLock, pc := .spinPause } := by
    rw [← hst]
    exact Function.update_self ..
  refine (ht.booted c ?_).1 ?_
  · rw [hap]
    trivial
  · rw [hap]
    exact hesp

/-- **The trampoline.** For any number of processors and any interleaving, every state of
a run is safe exactly when every exchange with `ap_stack_lock` finds it free. -/
theorem bootSafe_iff_free [Fintype ι] (hcard : Fintype.card ι ≤ 2 ^ 25) {s : Boot ι} (hs : Start s)
    (as : List (BootAct ι)) :
    Every bootStep (fun _ _ t => BootSafe t) s as ↔ Every bootStep FindsFree s as :=
  every_iff bootInv_step
    (fun s a t hi hst => ⟨findsFree_of_safe hi hst,
      fun hfree => (bootInv_step s a t hi hfree hst).safe hcard⟩)
    (bootInv_start hs) as

def sampleBoot : Boot (Fin 2) where
  ap _ := ⟨.waitSipi, .realMode, 0, none⟩
  apStackLock := 0
  apStackOffset := 0x9000
  apBootLock := 0
  apCouts := 0
  counted _ := false

theorem sampleBoot_start : Start sampleBoot := ⟨fun _ => rfl, fun _ => rfl, rfl, rfl⟩

/-- The second processor comes to `ap_stack_lock` while the first one has it: it goes on
to the 64-bit loop in protected mode and without a stack. -/
theorem bootSafe_sample_fails :
    Start sampleBoot ∧
      ∃ t, Run bootStep sampleBoot
        [.sipi 0, .step 0, .step 0, .step 0, .sipi 1, .step 1, .step 1, .step 1] t ∧
          ¬ BootSafe t := by
  refine ⟨sampleBoot_start, ?_⟩
  have hap : (exec Boot.next sampleBoot
      [.sipi 0, .step 0, .step 0, .step 0, .sipi 1, .step 1, .step 1, .step 1]).map
        (fun t => ((t.ap 1).pc, (t.ap 1).mode, (t.ap 1).esp)) =
      some (.spinPause, .protectedMode, none) := by decide
  obtain ⟨t, ht, hap⟩ := Option.map_eq_some_iff.mp hap
  obtain ⟨hpc, hap⟩ := Prod.mk.inj hap
  obtain ⟨-, hesp⟩ := Prod.mk.inj hap
  exact ⟨t, run_of_exec ht, fun hsafe => (hsafe.booted 1 (by rw [hpc]; trivial)).1 hesp⟩

def checkFree (s : Boot (Fin 2)) : BootAct (Fin 2) → Bool
  | .step c => (s.ap c).pc ≠ .stackLock || s.apStackLock = 0
  | .sipi _ => true

theorem findsFree_of_check (s : Boot (Fin 2)) (a : BootAct (Fin 2)) (t : Boot (Fin 2))
    (h : checkFree s a = true) : FindsFree s a t := by
  rintro c rfl hpc
  simpa [checkFree, hpc] using h

/-- Both come to the C code, one after the other. -/
theorem bootSafe_sample_holds :
    Every bootStep (fun _ _ t => BootSafe t) sampleBoot
      (.sipi 0 :: List.replicate 13 (.step 0) ++ .sipi 1 :: List.replicate 13 (.step 1)) :=
  (bootSafe_iff_free (by decide) sampleBoot_start _).mpr
    (every_of_check findsFree_of_check (by decide +kernel))

example : (exec Boot.next sampleBoot
    (.sipi 0 :: List.replicate 13 (.step 0) ++ .sipi 1 :: List.replicate 13 (.step 1))).map
      (fun t => ((t.ap 0).esp, (t.ap 1).esp, t.apCouts)) = some (some 0x9000, some 0x9080, 2) := by
  decide +kernel

end X64SmpOs.ApBoot

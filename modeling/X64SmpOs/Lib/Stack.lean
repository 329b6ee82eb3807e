import Mathlib.Algebra.Ring.Nat
import Mathlib.Logic.Function.Basic

/-!
# A downward growing stack in word memory

Memory maps an address to the word stored there; a stack cell is `k` address
units wide.

* `StackAt k m sp vs`: the cells from `sp` upwards hold the words `vs`;
* `Fits k n`: no two of `n` consecutive cells share an address;
* `stackAt_push`: storing one cell below the top pushes a word;
* `stackAt_set`: storing into a cell of the stack replaces its word;
* `stackAt_congr`: a stack depends on its own cells only;
* `Between`: a stack with the address its last cell ends at.
-/

namespace X64SmpOs.Stack

variable {w : Nat} {α : Type}

/-- The cells at `sp`, `sp + k`, `sp + k + k`, ... hold the words of the list. -/
def StackAt (k : BitVec w) (m : BitVec w → α) : BitVec w → List α → Prop
  | _, [] => True
  | sp, v :: vs => m sp = v ∧ StackAt k m (sp + k) vs

/-- The address of the `i`-th cell from `sp`. -/
def cell (k sp : BitVec w) (i : Nat) : BitVec w := sp + BitVec.ofNat w i * k

/-- Cells less than `n` apart have different addresses. -/
def Fits (k : BitVec w) (n : Nat) : Prop := ∀ i, 0 < i → i < n → BitVec.ofNat w i * k ≠ 0

theorem cell_zero (k sp : BitVec w) : cell k sp 0 = sp := by simp [cell]

theorem cell_succ (k sp : BitVec w) (i : Nat) : cell k sp (i + 1) = cell k (sp + k) i := by
  have h : BitVec.ofNat w (i + 1) * k = k + BitVec.ofNat w i * k := by
    rw [BitVec.ofNat_add, BitVec.add_mul, BitVec.add_comm]
    congr 1
    exact BitVec.one_mul k
  simp [cell, h, BitVec.add_assoc]

theorem cell_sub (k sp : BitVec w) (i : Nat) : cell k (sp - k) (i + 1) = cell k sp i := by
  rw [cell_succ, BitVec.sub_add_cancel]

theorem cell_injective (k sp : BitVec w) (n i j : Nat) (hf : Fits k n) (hi : i < n)
    (hij : j < i) : cell k sp i ≠ cell k sp j := by
  intro h
  have hd : i = j + (i - j) := by omega
  have hz : BitVec.ofNat w (i - j) * k = 0 := by
    rw [hd] at h
    simp only [cell, BitVec.ofNat_add, BitVec.add_mul, ← BitVec.add_assoc] at h
    exact BitVec.add_right_eq_self.mp h
  exact hf (i - j) (by omega) (by omega) hz

theorem stackAt_get {k : BitVec w} {m : BitVec w → α} {sp : BitVec w} {vs : List α}
    (h : StackAt k m sp vs) (i : Nat) (v : α) (hv : vs[i]? = some v) :
    m (cell k sp i) = v := by
  induction vs generalizing sp i with
  | nil => simp at hv
  | cons u vs ih =>
    cases i with
    | zero => rw [cell_zero]; simpa [h.1] using hv
    | succ i => rw [cell_succ]; exact ih h.2 i (by simpa using hv)

theorem stackAt_congr {k : BitVec w} {m m' : BitVec w → α} {sp : BitVec w} {vs : List α}
    (h : StackAt k m sp vs) (hm : ∀ i < vs.length, m' (cell k sp i) = m (cell k sp i)) :
    StackAt k m' sp vs := by
  induction vs generalizing sp with
  | nil => trivial
  | cons v vs ih =>
    refine ⟨?_, ih h.2 ?_⟩
    · have h0 := hm 0 (by simp)
      rw [cell_zero] at h0
      rw [h0, h.1]
    · intro i hi
      rw [← cell_succ]
      exact hm (i + 1) (by simpa using hi)

/-- **Push.** A word stored one cell below the top becomes the new top. -/
theorem stackAt_push {k : BitVec w} {m : BitVec w → α} {sp : BitVec w} {vs : List α}
    (hf : Fits k (vs.length + 1)) (h : StackAt k m sp vs) (v : α) :
    StackAt k (Function.update m (sp - k) v) (sp - k) (v :: vs) := by
  refine ⟨Function.update_self _ _ _, ?_⟩
  rw [BitVec.sub_add_cancel]
  refine stackAt_congr h (fun i hi => Function.update_of_ne ?_ _ _)
  have hc := cell_injective k (sp - k) (vs.length + 1) (i + 1) 0 hf (by omega) (by omega)
  rwa [cell_sub, cell_zero] at hc

/-- **Store.** A word stored into the `i`-th cell replaces the word there. -/
theorem stackAt_set {k : BitVec w} {m : BitVec w → α} {sp : BitVec w} {vs : List α}
    (hf : Fits k vs.length) (h : StackAt k m sp vs) (i : Nat) (v : α) (hi : i < vs.length) :
    StackAt k (Function.update m (cell k sp i) v) sp (vs.set i v) := by
  induction vs generalizing sp i with
  | nil => simp at hi
  | cons u vs ih =>
    have hf' : Fits k vs.length := fun j h0 hj => hf j h0 (by simp; omega)
    cases i with
    | zero =>
      rw [cell_zero]
      refine ⟨Function.update_self _ _ _, stackAt_congr h.2 (fun j hj => ?_)⟩
      have hc := cell_injective k sp (vs.length + 1) (j + 1) 0 hf (by omega) (by omega)
      rw [cell_succ, cell_zero] at hc
      exact Function.update_of_ne hc _ _
    | succ i =>
      have hc := cell_injective k sp (vs.length + 1) (i + 1) 0 hf (by simpa using hi) (by omega)
      rw [cell_zero] at hc
      constructor
      · rw [Function.update_of_ne (Ne.symm hc)]
        exact h.1
      · rw [cell_succ]
        exact ih hf' h.2 i (by simpa using hi)

/-- Eight-byte cells of a 64-bit address space: any `2 ^ 61` of them fit. -/
theorem fits_quad (n : Nat) (hn : n ≤ 2 ^ 61) : Fits (8#64) n := by
  intro i h0 hi h
  have ht := congrArg BitVec.toNat h
  simp [BitVec.toNat_mul] at ht
  omega

/-- Four-byte cells of a 32-bit address space: any `2 ^ 30` of them fit. -/
theorem fits_dword (n : Nat) (hn : n ≤ 2 ^ 30) : Fits (4#32) n := by
  intro i h0 hi h
  have ht := congrArg BitVec.toNat h
  simp [BitVec.toNat_mul] at ht
  omega

/-! ## Stacks with their base -/

/-- The stack from `sp` up to the address `base`. -/
def Between (k : BitVec w) (m : BitVec w → α) (sp base : BitVec w) (vs : List α) : Prop :=
  StackAt k m sp vs ∧ cell k sp vs.length = base

section Between

variable {k : BitVec w} {m : BitVec w → α} {sp base : BitVec w} {v : α} {vs : List α}

theorem between_nil (k : BitVec w) (m : BitVec w → α) (sp : BitVec w) : Between k m sp sp [] :=
  ⟨trivial, cell_zero k sp⟩

theorem Between.push (h : Between k m sp base vs) (hf : Fits k (vs.length + 1)) (v : α) :
    Between k (Function.update m (sp - k) v) (sp - k) base (v :: vs) :=
  ⟨stackAt_push hf h.1 v, (cell_sub k sp vs.length).trans h.2⟩

theorem Between.top (h : Between k m sp base (v :: vs)) : m sp = v := h.1.1

theorem Between.pop (h : Between k m sp base (v :: vs)) : Between k m (sp + k) base vs :=
  ⟨h.1.2, (cell_succ k sp vs.length).symm.trans h.2⟩

theorem Between.drop {us : List α} (h : Between k m sp base (us ++ vs)) :
    Between k m (cell k sp us.length) base vs := by
  induction us generalizing sp with
  | nil =>
    rw [List.length_nil, cell_zero]
    exact h
  | cons u us ih =>
    rw [List.length_cons, cell_succ]
    exact ih (Between.pop h)

/-- Another word stored on top. -/
theorem Between.setTop {u : α} (h : Between k m sp base (u :: vs)) (hf : Fits k (vs.length + 1))
    (v : α) : Between k (Function.update m sp v) sp base (v :: vs) := by
  have hset := stackAt_set hf h.1 0 v (Nat.succ_pos _)
  rw [cell_zero] at hset
  exact ⟨hset, h.2⟩

/-- The word `i` cells from the top. -/
theorem Between.get (h : Between k m sp base vs) (i : Nat) (v : α) (hv : vs[i]? = some v) :
    m (cell k sp i) = v := stackAt_get h.1 i v hv

/-- An empty stack ends where it begins. -/
theorem Between.base_eq (h : Between k m sp base []) : sp = base := (cell_zero k sp).symm.trans h.2

end Between

end X64SmpOs.Stack

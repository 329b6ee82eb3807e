import Mathlib.Data.Nat.ModEq
import Mathlib.Tactic.Ring

/-!
# One's complement sums

Words of two digits in base `B` are added, and the carry of the sum is added
back until it is a word.

* `Folds B s x`: the word `x` is what is left of the sum `s`;
* `Folds.unique`, `folds_carry`: there is one such word, and a round of the
  folding loop keeps it;
* `digitSum`: the sum of the words a digit string is cut into;
* `folds_exchange`: exchanging the digits of every word exchanges the digits of
  the folded sum;
* `Folds.complement`: a sum and the complement of its word leave all ones;
* `Folds.eq_ones_iff`: the word is all ones for the multiples of the modulus,
  and `dvd_digitSum_iff`: the order of the digits does not matter for that.
-/

namespace X64SmpOs.OnesComplement

variable {B : ℕ}

/-- The word `x` stands for the sum `s`: both leave the same remainder modulo
`B * B - 1`, and only the empty sum leaves zero. -/
structure Folds (B s x : ℕ) : Prop where
  lt : x < B * B
  modEq : x ≡ s [MOD B * B - 1]
  zero : x = 0 ↔ s = 0

theorem folds_self {s : ℕ} (h : s < B * B) : Folds B s s := ⟨h, rfl, Iff.rfl⟩

/-- The carry added back is worth as much as the carry. -/
theorem carry_modEq (hB : 2 ≤ B) (s : ℕ) : s % (B * B) + s / (B * B) ≡ s [MOD B * B - 1] := by
  have hpos : 1 ≤ B * B := Nat.mul_pos (by omega) (by omega)
  have hone : B * B ≡ 1 [MOD B * B - 1] := by
    have h : B * B - 1 + 1 ≡ 0 + 1 [MOD B * B - 1] := Nat.ModEq.add_right 1 (by simp [Nat.ModEq])
    rwa [Nat.sub_add_cancel hpos, Nat.zero_add] at h
  calc s % (B * B) + s / (B * B)
      ≡ s % (B * B) + B * B * (s / (B * B)) [MOD B * B - 1] := by
        have h := hone.symm.mul_right (s / (B * B))
        rw [Nat.one_mul] at h
        exact h.add_left _
    _ = s := Nat.mod_add_div s (B * B)

/-- **Folding round.** -/
theorem folds_carry (hB : 2 ≤ B) {s x : ℕ} (h : Folds B (s % (B * B) + s / (B * B)) x) :
    Folds B s x where
  lt := h.lt
  modEq := h.modEq.trans (carry_modEq hB s)
  zero := by
    rw [h.zero]
    constructor
    · intro h0
      have h1 := Nat.mod_add_div s (B * B)
      obtain ⟨h2, h3⟩ := Nat.add_eq_zero_iff.mp h0
      rw [h2, h3, Nat.mul_zero] at h1
      exact h1.symm
    · rintro rfl
      simp

theorem Folds.unique {s x y : ℕ} (hx : Folds B s x) (hy : Folds B s y) : x = y := by
  have h := hx.modEq.trans hy.modEq.symm
  have hzero := hx.zero.trans hy.zero.symm
  rcases Nat.eq_zero_or_pos x with h0 | hxpos
  · rw [h0, hzero.mp h0]
  · have hypos : 0 < y := by
      by_contra hy0
      exact absurd (hzero.mpr (by omega)) (by omega)
    -- both are in `1 .. B * B - 1`
    have h1 : x - 1 ≡ y - 1 [MOD B * B - 1] := by
      apply Nat.ModEq.add_right_cancel' 1
      rwa [Nat.sub_add_cancel hxpos, Nat.sub_add_cancel hypos]
    have h2 := h1.eq_of_lt_of_lt (by have := hx.lt; omega) (by have := hy.lt; omega)
    omega

/-- **Complement.** The complement of the word, added to the sum, leaves all
ones. -/
theorem Folds.complement (hB : 2 ≤ B) {s x : ℕ} (h : Folds B s x) :
    Folds B (s + (B * B - 1 - x)) (B * B - 1) where
  lt := Nat.sub_lt (Nat.mul_pos (by omega) (by omega)) Nat.one_pos
  modEq := by
    have hx := h.lt
    have hsum : x + (B * B - 1 - x) = B * B - 1 := by omega
    have hword := h.modEq.add_right (B * B - 1 - x)
    rwa [hsum] at hword
  zero := by
    have hpos : 2 * 2 ≤ B * B := Nat.mul_le_mul hB hB
    have hzero := h.zero
    omega

/-- The word is all ones exactly for the non-empty sums the modulus divides. -/
theorem Folds.eq_ones_iff (hB : 2 ≤ B) {s x : ℕ} (h : Folds B s x) :
    x = B * B - 1 ↔ 0 < s ∧ B * B - 1 ∣ s := by
  have hpos : 2 * 2 ≤ B * B := Nat.mul_le_mul hB hB
  have hzero := h.zero
  have hlt := h.lt
  constructor
  · intro hx
    have hmod := h.modEq
    rw [hx] at hmod
    have hones : B * B - 1 ≡ 0 [MOD B * B - 1] := by simp [Nat.ModEq]
    exact ⟨by omega, (Nat.modEq_zero_iff_dvd).mp (hmod.symm.trans hones)⟩
  · rintro ⟨hs, hdvd⟩
    -- a multiple of the modulus other than zero, below `B * B`
    have hx : B * B - 1 ∣ x := (h.modEq.dvd_iff dvd_rfl).mpr hdvd
    have hle := Nat.le_of_dvd (by omega) hx
    omega

/-! ## Digit strings -/

/-- The words of a digit string added up, an odd last digit padded with a zero. -/
def digitSum (word : ℕ → ℕ → ℕ) : List ℕ → ℕ
  | a :: b :: l => word a b + digitSum word l
  | [a] => word a 0
  | [] => 0

/-- A string behind a whole number of words. -/
theorem digitSum_append (word : ℕ → ℕ → ℕ) {pre : List ℕ} (h : pre.length % 2 = 0) (l : List ℕ) :
    digitSum word (pre ++ l) = digitSum word pre + digitSum word l := by
  induction pre using digitSum.induct with
  | case1 a b pre ih =>
    have hpre : pre.length % 2 = 0 := by
      simp only [List.length_cons] at h
      omega
    rw [List.cons_append, List.cons_append, digitSum, digitSum, ih hpre, Nat.add_assoc]
  | case2 a => exact absurd h (by simp)
  | case3 => simp [digitSum]

/-- The first digit of a word is the low one, or the high one. -/
def lowFirst (B a b : ℕ) : ℕ := a + B * b
def highFirst (B a b : ℕ) : ℕ := b + B * a

/-- The digits of a word exchanged. -/
def exchange (B x : ℕ) : ℕ := x / B + B * (x % B)

/-- Exchanging the digits multiplies by the base. -/
theorem highFirst_modEq (hB : 0 < B) (a b : ℕ) :
    highFirst B a b ≡ B * lowFirst B a b [MOD B * B - 1] := by
  have hpos : 0 < B * B := Nat.mul_pos hB hB
  have hone : B * B - 1 ≡ 0 [MOD B * B - 1] := by simp [Nat.ModEq]
  have h := (hone.mul_right b).add_right (highFirst B a b)
  rw [Nat.zero_mul, Nat.zero_add] at h
  apply h.symm.trans
  have heq : (B * B - 1) * b + highFirst B a b = B * lowFirst B a b := by
    rw [highFirst, lowFirst, Nat.sub_mul, Nat.one_mul, ← Nat.add_assoc,
      Nat.sub_add_cancel (Nat.le_mul_of_pos_left b hpos)]
    ring
  rw [heq]

theorem digitSum_modEq (hB : 0 < B) (l : List ℕ) :
    digitSum (highFirst B) l ≡ B * digitSum (lowFirst B) l [MOD B * B - 1] := by
  induction l using digitSum.induct with
  | case1 a b l ih =>
    rw [digitSum, digitSum, Nat.mul_add]
    exact (highFirst_modEq hB a b).add ih
  | case2 a => exact highFirst_modEq hB a 0
  | case3 => rfl

/-- The modulus divides the sum in both orders, or in neither. -/
theorem dvd_digitSum_iff (hB : 0 < B) (l : List ℕ) :
    B * B - 1 ∣ digitSum (highFirst B) l ↔ B * B - 1 ∣ digitSum (lowFirst B) l := by
  have hsquare : Nat.Coprime (B * B - 1) (B * B) := by
    have h := Nat.coprime_self_add_right (m := B * B - 1) (n := 1)
    rw [Nat.sub_add_cancel (Nat.mul_pos hB hB)] at h
    exact h.mpr (Nat.coprime_one_right _)
  have hcoprime : Nat.Coprime (B * B - 1) B := hsquare.coprime_mul_right_right
  rw [(digitSum_modEq hB l).dvd_iff dvd_rfl, hcoprime.dvd_mul_left]

theorem digitSum_eq_zero (hB : 0 < B) (l : List ℕ) :
    digitSum (highFirst B) l = 0 ↔ digitSum (lowFirst B) l = 0 := by
  have hB' : B ≠ 0 := by omega
  induction l using digitSum.induct with
  | case1 a b l ih =>
    simp only [digitSum, Nat.add_eq_zero_iff, ih, highFirst, lowFirst, Nat.mul_eq_zero,
      hB', false_or]
    constructor
    · rintro ⟨⟨hb, ha⟩, hl⟩
      exact ⟨⟨ha, hb⟩, hl⟩
    · rintro ⟨⟨ha, hb⟩, hl⟩
      exact ⟨⟨hb, ha⟩, hl⟩
  | case2 a => simp [digitSum, highFirst, lowFirst, hB']
  | case3 => rfl

/-- The sum of the words, at most the largest word each. -/
theorem digitSum_le {word : ℕ → ℕ → ℕ} {m : ℕ} (l : List ℕ)
    (h : ∀ a b, a ∈ l ∨ a = 0 → b ∈ l ∨ b = 0 → word a b ≤ m) :
    digitSum word l ≤ m * ((l.length + 1) / 2) := by
  induction l using digitSum.induct with
  | case1 a b l ih =>
    have hl := ih fun x y hx hy => h x y (hx.imp_left fun hx => by simp [hx])
      (hy.imp_left fun hy => by simp [hy])
    have hab := h a b (by simp) (by simp)
    have hlen : ((a :: b :: l).length + 1) / 2 = (l.length + 1) / 2 + 1 := by
      simp only [List.length_cons]
      omega
    rw [hlen, digitSum, Nat.mul_succ]
    omega
  | case2 a =>
    have ha := h a 0 (by simp) (by simp)
    simpa [digitSum] using ha
  | case3 => simp [digitSum]

theorem exchange_modEq (hB : 0 < B) (x : ℕ) : exchange B x ≡ B * x [MOD B * B - 1] := by
  have h := highFirst_modEq hB (x % B) (x / B)
  have hx : lowFirst B (x % B) (x / B) = x := Nat.mod_add_div x B
  rw [hx] at h
  exact h

/-- **Exchange of digits.** The folded sum of the words with their digits
exchanged is the folded sum with its digits exchanged. -/
theorem folds_exchange (hB : 2 ≤ B) {l : List ℕ} {x : ℕ}
    (h : Folds B (digitSum (lowFirst B) l) x) :
    Folds B (digitSum (highFirst B) l) (exchange B x) where
  lt := by
    have hq : x / B < B := Nat.div_lt_of_lt_mul h.lt
    have hr : x % B < B := Nat.mod_lt x (by omega)
    have hm : B * (x % B) + B ≤ B * B := by
      calc B * (x % B) + B = B * (x % B + 1) := by ring
        _ ≤ B * B := Nat.mul_le_mul_left B hr
    rw [exchange]
    omega
  modEq := (exchange_modEq (by omega) x).trans
    ((h.modEq.mul_left B).trans (digitSum_modEq (by omega) l).symm)
  zero := by
    rw [digitSum_eq_zero (by omega) l, ← h.zero, exchange]
    have hdm := Nat.mod_add_div x B
    constructor
    · intro h0
      obtain ⟨hq, hr⟩ := Nat.add_eq_zero_iff.mp h0
      have hr' : x % B = 0 := by
        rcases Nat.mul_eq_zero.mp hr with hb | hr'
        · omega
        · exact hr'
      rw [hq, hr', Nat.mul_zero] at hdm
      omega
    · rintro rfl
      simp

end X64SmpOs.OnesComplement

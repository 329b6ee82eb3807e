import Mathlib.Data.Set.Basic
import Mathlib.Order.Interval.Set.Basic
import Mathlib.Order.Interval.Finset.Nat

/-!
# The first missing element

Pieces of a stream arrive in any order. `S` is the set of the positions that
have arrived; `FirstMissing S c` says that `c` positions have arrived without a
gap.

* `FirstMissing.unique`: there is at most one;
* `FirstMissing.mono`: it does not go back;
* `firstMissing_union_iff`: when a new piece ends at it.
-/

namespace X64SmpOs.Coverage

open Set

/-- Everything below `c` is there, and `c` is not. -/
structure FirstMissing (S : Set ℕ) (c : ℕ) : Prop where
  below : ∀ k < c, k ∈ S
  missing : c ∉ S

variable {S T : Set ℕ} {c d : ℕ}

theorem FirstMissing.mono (h : FirstMissing S c) (h' : FirstMissing T d) (hst : S ⊆ T) : c ≤ d := by
  by_contra hlt
  exact h'.missing (hst (h.below d (by omega)))

theorem FirstMissing.unique (h : FirstMissing S c) (h' : FirstMissing S d) : c = d :=
  le_antisymm (h.mono h' subset_rfl) (h'.mono h subset_rfl)

theorem firstMissing_empty : FirstMissing ∅ 0 := ⟨nofun, id⟩

/-- Nothing at or above a bound has arrived. -/
theorem FirstMissing.le_of_bound {b : ℕ} (h : FirstMissing S c) (hb : ∀ k ∈ S, k < b) : c ≤ b := by
  by_contra hlt
  have hmem := hb b (h.below b (by omega))
  omega

/-- **New piece.** The gapless part ends with the piece exactly when the piece
begins in it or next to it, reaches its end, and what follows the piece has not
arrived. -/
theorem firstMissing_union_iff {o n : ℕ} (h : FirstMissing S c) :
    FirstMissing (S ∪ Ico o (o + n)) (o + n) ↔ o ≤ c ∧ c ≤ o + n ∧ o + n ∉ S := by
  constructor
  · intro h'
    have hend : o + n ∉ S := fun hmem => h'.missing (Or.inl hmem)
    have hle := h.mono h' subset_union_left
    refine ⟨?_, hle, hend⟩
    by_contra hlt
    rcases h'.below c (by omega) with hmem | hmem
    · exact h.missing hmem
    · have hlow := hmem.1
      omega
  · rintro ⟨h1, h2, h3⟩
    refine ⟨fun k hk => ?_, fun hmem => ?_⟩
    · by_cases hkc : k < c
      · exact Or.inl (h.below k hkc)
      · exact Or.inr ⟨by omega, hk⟩
    · rcases hmem with hmem | hmem
      · exact h3 hmem
      · exact absurd hmem.2 (lt_irrefl _)

end X64SmpOs.Coverage

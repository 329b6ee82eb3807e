import Mathlib.Data.Finset.Card
import Mathlib.Data.Finset.Image
import Mathlib.Data.List.Nodup
import Mathlib.Data.Nat.Find

/-!
# Numbered pools

A pool has slots `0 .. n - 1`; slot `i` is handed out as `f i`, with `f`
injective. The list of what is outstanding holds each handed-out slot once.

* `exists_free_slot`: while fewer than `n` are outstanding, a slot is free;
* `all_slots_taken`: once `n` slots of the pool are outstanding, none is free;
* `exists_lowest`: a free slot gives a lowest free slot.
-/

namespace X64SmpOs.Pool

variable {α : Type} [DecidableEq α]

/-- While fewer than `n` are outstanding, some slot below `n` is free. -/
theorem exists_free_slot (f : Nat → α) (hf : Function.Injective f) (l : List α) (n : Nat)
    (h : l.length < n) : ∃ i < n, f i ∉ l := by
  by_contra hall
  push Not at hall
  have hsub : (Finset.range n).image f ⊆ l.toFinset := by
    intro x hx
    obtain ⟨i, hi, rfl⟩ := Finset.mem_image.mp hx
    exact List.mem_toFinset.mpr (hall i (Finset.mem_range.mp hi))
  have hcard := Finset.card_le_card hsub
  rw [Finset.card_image_of_injective _ hf, Finset.card_range] at hcard
  have := List.toFinset_card_le l
  omega

/-- Once `n` different slots below `n` are outstanding, all of them are. -/
theorem all_slots_taken (f : Nat → α) (l : List α) (n : Nat) (hnd : l.Nodup)
    (hl : ∀ x ∈ l, ∃ i < n, x = f i) (h : n ≤ l.length) : ∀ i < n, f i ∈ l := by
  have hsub : l.toFinset ⊆ (Finset.range n).image f := by
    intro x hx
    obtain ⟨i, hi, rfl⟩ := hl x (List.mem_toFinset.mp hx)
    exact Finset.mem_image_of_mem f (Finset.mem_range.mpr hi)
  have hcard : ((Finset.range n).image f).card ≤ l.toFinset.card := by
    rw [List.toFinset_card_of_nodup hnd]
    exact Finset.card_image_le.trans (by simpa using h)
  have heq := Finset.eq_of_subset_of_card_le hsub hcard
  intro i hi
  have hm : f i ∈ (Finset.range n).image f := Finset.mem_image_of_mem f (Finset.mem_range.mpr hi)
  rw [← heq] at hm
  exact List.mem_toFinset.mp hm

/-- A free slot gives a lowest free slot. -/
theorem exists_lowest (taken : Nat → Bool) (i : Nat) (h : taken i = false) :
    ∃ a ≤ i, taken a = false ∧ ∀ b < a, taken b = true := by
  have hex : ∃ a, taken a = false := ⟨i, h⟩
  refine ⟨Nat.find hex, Nat.find_min' hex h, Nat.find_spec hex, fun b hb => ?_⟩
  simpa using Nat.find_min hex hb

end X64SmpOs.Pool

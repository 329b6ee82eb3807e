import Mathlib.Data.List.Range
import Mathlib.Order.Lattice

/-!
# The first of the largest

A scan from left to right keeps the best candidate it has met and replaces it by
strictly better ones only.

* `First`: the candidate all others before are smaller than, and none behind exceeds;
* `Chosen`: what the scan holds behind a prefix, with one lemma for each thing it can
  do at the next place;
* `First.sorted`: over an increasing list, the largest candidate at the lowest place.
-/

namespace X64SmpOs.FirstMax

universe u v w
variable {α : Type u} {β : Type v} {κ : Type w} [LinearOrder κ]
variable {cand : α → Option β} {key : β → κ}

/-- `b` is the candidate of a place of the list; earlier ones are smaller, later ones
are not larger. -/
def First (cand : α → Option β) (key : β → κ) (is : List α) (b : β) : Prop :=
  ∃ pre i post, is = pre ++ i :: post ∧ cand i = some b ∧
    (∀ j ∈ pre, ∀ c, cand j = some c → key c < key b) ∧
    ∀ j ∈ post, ∀ c, cand j = some c → key c ≤ key b

/-- The best candidate of a prefix, if it has one. -/
def Chosen (cand : α → Option β) (key : β → κ) (is : List α) : Option β → Prop
  | none => ∀ i ∈ is, cand i = none
  | some b => First cand key is b

theorem First.le {is : List α} {b : β} (h : First cand key is b) {j : α} (hj : j ∈ is) {c : β}
    (hc : cand j = some c) : key c ≤ key b := by
  obtain ⟨pre, i, post, rfl, hi, hpre, hpost⟩ := h
  rcases List.mem_append.mp hj with hj | hj
  · exact le_of_lt (hpre j hj c hc)
  · rcases List.mem_cons.mp hj with rfl | hj
    · obtain rfl := Option.some.inj (hi.symm.trans hc)
      exact le_refl _
    · exact hpost j hj c hc

/-- A place behind the list that is not better. -/
theorem First.snoc {is : List α} {b : β} (h : First cand key is b) {i : α}
    (hi : ∀ c, cand i = some c → key c ≤ key b) : First cand key (is ++ [i]) b := by
  obtain ⟨pre, k, post, rfl, hk, hpre, hpost⟩ := h
  refine ⟨pre, k, post ++ [i], by simp, hk, hpre, fun j hj => ?_⟩
  rcases List.mem_append.mp hj with hj | hj
  · exact hpost j hj
  · exact List.mem_singleton.mp hj ▸ hi

theorem chosen_nil : Chosen cand key [] none := fun _ h => absurd h List.not_mem_nil

/-- The place has no candidate. -/
theorem Chosen.skip {is : List α} {acc : Option β} (h : Chosen cand key is acc) {i : α}
    (hi : cand i = none) : Chosen cand key (is ++ [i]) acc := by
  cases acc with
  | none =>
    intro j hj
    rcases List.mem_append.mp hj with hj | hj
    · exact h j hj
    · exact List.mem_singleton.mp hj ▸ hi
  | some b =>
    refine First.snoc h fun c hc => ?_
    rw [hi] at hc
    cases hc

/-- The first candidate. -/
theorem Chosen.start {is : List α} (h : Chosen cand key is none) {i : α} {b : β}
    (hi : cand i = some b) : Chosen cand key (is ++ [i]) (some b) := by
  refine ⟨is, i, [], rfl, hi, fun j hj c hc => ?_, fun _ hj => absurd hj List.not_mem_nil⟩
  rw [h j hj] at hc
  cases hc

/-- A better candidate. -/
theorem Chosen.replace {is : List α} {b : β} (h : Chosen cand key is (some b)) {i : α} {c : β}
    (hi : cand i = some c) (hlt : key b < key c) : Chosen cand key (is ++ [i]) (some c) :=
  ⟨is, i, [], rfl, hi, fun _ hj _ hd => lt_of_le_of_lt (First.le h hj hd) hlt,
    fun _ hj => absurd hj List.not_mem_nil⟩

/-- A candidate that is not better. -/
theorem Chosen.keep {is : List α} {b : β} (h : Chosen cand key is (some b)) {i : α} {c : β}
    (hi : cand i = some c) (hle : ¬ key b < key c) : Chosen cand key (is ++ [i]) (some b) := by
  refine First.snoc h fun d hd => ?_
  obtain rfl := Option.some.inj (hi.symm.trans hd)
  exact not_lt.mp hle

/-- A list with a candidate has a best one. -/
theorem Chosen.exists_first {is : List α} {acc : Option β} (h : Chosen cand key is acc) {i : α}
    (hi : i ∈ is) {b : β} (hb : cand i = some b) : ∃ c, acc = some c ∧ First cand key is c := by
  cases acc with
  | none =>
    rw [h i hi] at hb
    cases hb
  | some c => exact ⟨c, rfl, h⟩

/-- **Sorted lists.** The largest candidate, at the lowest place among equals. -/
theorem First.sorted [LinearOrder α] {is : List α} {b : β} (h : First cand key is b)
    (hs : is.Pairwise (· < ·)) : ∃ i ∈ is, cand i = some b ∧
      ∀ j ∈ is, ∀ c, cand j = some c → key c < key b ∨ (key c = key b ∧ i ≤ j) := by
  obtain ⟨pre, i, post, rfl, hi, hpre, hpost⟩ := h
  refine ⟨i, List.mem_append_right _ List.mem_cons_self, hi, fun j hj c hc => ?_⟩
  rcases List.mem_append.mp hj with hj | hj
  · exact Or.inl (hpre j hj c hc)
  · rcases List.mem_cons.mp hj with rfl | hj
    · obtain rfl := Option.some.inj (hi.symm.trans hc)
      exact Or.inr ⟨rfl, le_refl _⟩
    · have hij := (List.pairwise_cons.mp (List.pairwise_append.mp hs).2.1).1 j hj
      rcases lt_or_eq_of_le (hpost j hj c hc) with hlt | heq
      · exact Or.inl hlt
      · exact Or.inr ⟨heq, le_of_lt hij⟩

end X64SmpOs.FirstMax

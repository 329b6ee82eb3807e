import Mathlib.Data.List.Nodup
import Mathlib.Data.List.Range

/-!
# Singly linked lists

Nodes are values of a type with a null node `0`; `next` reads a node's link.

* `Seg next p xs q`: from `p` the nodes `xs` lead to `q`; `Chain` ends in null;
* `chain_unique`: a pointer has one chain;
* `chain_congr`, `chain_push`, `chain_unlink`: a chain under a changed `next`;
* `find`, `findPrev`: the two searches along a chain, with what they return
  (`find_spec`, `findPrev_spec`) and that they return (`find_total`,
  `findPrev_total`);
* `chain_range`: consecutive slots threaded into a chain.
-/

namespace X64SmpOs.LinkedList

universe u
variable {α : Type u} [Zero α]

def Seg (next : α → α) : α → List α → α → Prop
  | p, [], q => p = q
  | p, x :: xs, q => p = x ∧ x ≠ 0 ∧ Seg next (next x) xs q

/-- The nodes from `p` up to the null link. -/
def Chain (next : α → α) (p : α) (xs : List α) : Prop := Seg next p xs 0

@[simp] theorem chain_nil (next : α → α) (p : α) : Chain next p [] ↔ p = 0 := Iff.rfl

@[simp] theorem chain_cons (next : α → α) (p x : α) (xs : List α) :
    Chain next p (x :: xs) ↔ p = x ∧ x ≠ 0 ∧ Chain next (next x) xs := Iff.rfl

theorem seg_append (next : α → α) (p : α) (xs ys : List α) (q : α) :
    Seg next p (xs ++ ys) q ↔ ∃ r, Seg next p xs r ∧ Seg next r ys q := by
  induction xs generalizing p with
  | nil => simp [Seg]
  | cons x xs ih => simp only [List.cons_append, Seg, ih, and_assoc, exists_and_left]

/-- Nothing follows the null node. -/
theorem seg_zero {next : α → α} {xs : List α} {q : α} (h : Seg next 0 xs q) : q = 0 := by
  cases xs with
  | nil => exact h.symm
  | cons x xs => exact absurd h.1.symm h.2.1

/-- A pointer has one chain. -/
theorem chain_unique {next : α → α} {p : α} {xs ys : List α} (hx : Chain next p xs)
    (hy : Chain next p ys) : xs = ys := by
  induction xs generalizing p ys with
  | nil =>
    cases ys with
    | nil => rfl
    | cons y ys => exact absurd (hy.1.symm.trans hx) hy.2.1
  | cons x xs ih =>
    cases ys with
    | nil => exact absurd (hx.1.symm.trans hy) hx.2.1
    | cons y ys =>
      obtain ⟨rfl, -, hx⟩ := hx
      obtain ⟨rfl, -, hy⟩ := hy
      rw [ih hx hy]

theorem seg_congr {next next' : α → α} {p q : α} {xs : List α}
    (h : ∀ x ∈ xs, next' x = next x) (hs : Seg next p xs q) : Seg next' p xs q := by
  induction xs generalizing p with
  | nil => exact hs
  | cons x xs ih =>
    obtain ⟨h1, h2, h3⟩ := hs
    refine ⟨h1, h2, ?_⟩
    rw [h x List.mem_cons_self]
    exact ih (fun y hy => h y (List.mem_cons_of_mem _ hy)) h3

theorem chain_congr {next next' : α → α} {p : α} {xs : List α}
    (h : ∀ x ∈ xs, next' x = next x) (hs : Chain next p xs) : Chain next' p xs :=
  seg_congr h hs

/-- A node put in front. -/
theorem chain_push {next next' : α → α} {p c : α} {xs : List α} (hc : c ≠ 0)
    (hlink : next' c = p) (h : ∀ x ∈ xs, next' x = next x) (hs : Chain next p xs) :
    Chain next' c (c :: xs) :=
  ⟨rfl, hc, by rw [hlink]; exact chain_congr h hs⟩

/-- The node `t` behind `y` taken out. -/
theorem chain_unlink {next next' : α → α} {p y t : α} {xs ys : List α}
    (hlink : next' y = next t) (h : ∀ x ∈ xs ++ ys, next' x = next x)
    (hs : Chain next p (xs ++ y :: t :: ys)) : Chain next' p (xs ++ y :: ys) := by
  obtain ⟨r, h1, h2⟩ := (seg_append next p xs _ 0).mp hs
  obtain ⟨rfl, hy, -, -, h3⟩ := h2
  refine (seg_append next' p xs _ 0).mpr ⟨r, ?_, rfl, hy, ?_⟩
  · exact seg_congr (fun x hx => h x (List.mem_append_left _ hx)) h1
  · rw [hlink]
    exact seg_congr (fun x hx => h x (List.mem_append_right _ hx)) h3

/-! ## Threaded slots -/

/-- Slots whose links lead from each to the following one. -/
theorem chain_range {next : α → α} {slot : Nat → α} (hne : ∀ i, slot i ≠ 0) (k n : Nat)
    (hlink : ∀ i, k ≤ i → i < k + n → next (slot i) = slot (i + 1))
    (hlast : next (slot (k + n)) = 0) :
    Chain next (slot k) ((List.range' k (n + 1)).map slot) := by
  induction n generalizing k with
  | zero => exact ⟨rfl, hne k, hlast⟩
  | succ n ih =>
    rw [List.range'_succ]
    refine ⟨rfl, hne k, ?_⟩
    rw [hlink k (Nat.le_refl k) (by omega)]
    apply ih (k + 1) (fun i h1 h2 => hlink i (by omega) (by omega))
    rw [show k + 1 + n = k + (n + 1) by omega]
    exact hlast

/-! ## Searches -/

variable [DecidableEq α]

/-- Walk to the first node that passes the test; null when the chain ends, `none`
when the steps run out. -/
def find (next : α → α) (test : α → Bool) : Nat → α → Option α
  | 0, _ => none
  | fuel + 1, p =>
    if p = 0 then some 0 else if test p then some p else find next test fuel (next p)

theorem find_spec {next : α → α} {test : α → Bool} {fuel : Nat} {p r : α} {xs : List α}
    (hc : Chain next p xs) (h : find next test fuel p = some r) :
    (r = 0 ∧ ∀ x ∈ xs, test x = false) ∨
      ∃ ys zs, xs = ys ++ r :: zs ∧ test r = true ∧ ∀ y ∈ ys, test y = false := by
  induction fuel generalizing p xs with
  | zero => simp [find] at h
  | succ fuel ih =>
    cases xs with
    | nil =>
      have hp : p = 0 := hc
      simp only [find, hp, ↓reduceIte, Option.some.injEq] at h
      exact Or.inl ⟨h.symm, by simp⟩
    | cons x xs =>
      obtain ⟨rfl, hp, hrest⟩ := hc
      simp only [find, hp, ↓reduceIte] at h
      cases ht : test p with
      | true =>
        simp only [ht, ↓reduceIte, Option.some.injEq] at h
        subst h
        exact Or.inr ⟨[], xs, rfl, ht, by simp⟩
      | false =>
        simp only [ht, Bool.false_eq_true, ↓reduceIte] at h
        rcases ih hrest h with ⟨h1, h2⟩ | ⟨ys, zs, rfl, h2, h3⟩
        · exact Or.inl ⟨h1, by simpa [ht] using h2⟩
        · exact Or.inr ⟨p :: ys, zs, rfl, h2, by simpa [ht] using h3⟩

/-- More steps than nodes are enough. -/
theorem find_total {next : α → α} {p : α} {xs : List α} (hc : Chain next p xs)
    (test : α → Bool) {fuel : Nat}
    (hf : xs.length < fuel) : ∃ r, find next test fuel p = some r := by
  induction xs generalizing p fuel with
  | nil =>
    have hp : p = 0 := hc
    obtain ⟨n, rfl⟩ : ∃ n, fuel = n + 1 := ⟨fuel - 1, by simp at hf; omega⟩
    exact ⟨0, by simp [find, hp]⟩
  | cons x xs ih =>
    obtain ⟨rfl, hp, hrest⟩ := hc
    obtain ⟨n, rfl⟩ : ∃ n, fuel = n + 1 := ⟨fuel - 1, by simp at hf; omega⟩
    have hlen : xs.length < n := by simpa using hf
    obtain ⟨r, hr⟩ := ih hrest hlen
    cases ht : test p with
    | true => exact ⟨p, by simp [find, hp, ht]⟩
    | false => exact ⟨r, by simp [find, hp, ht, hr]⟩

/-- Walk to the node whose link is `t`; null when the last node is reached. -/
def findPrev (next : α → α) (t : α) : Nat → α → Option α
  | 0, _ => none
  | fuel + 1, p =>
    if next p = 0 then some 0 else if next p = t then some p else findPrev next t fuel (next p)

theorem findPrev_spec {next : α → α} {fuel : Nat} {p y t r : α} {xs ys : List α}
    (hnd : (xs ++ y :: t :: ys).Nodup) (hc : Chain next p (xs ++ y :: t :: ys))
    (h : findPrev next t fuel p = some r) : r = y := by
  induction fuel generalizing p xs with
  | zero => simp [findPrev] at h
  | succ fuel ih =>
    cases xs with
    | nil =>
      obtain ⟨rfl, -, hn, ht, -⟩ := hc
      simp only [findPrev, hn, ht, ↓reduceIte, Option.some.injEq] at h
      exact h.symm
    | cons x xs =>
      obtain ⟨rfl, -, hrest⟩ := hc
      have hnd' := (List.nodup_cons.mp hnd).2
      have hn : next p ∈ xs ++ y :: t :: ys ∧ next p ≠ 0 ∧ next p ≠ t := by
        cases xs with
        | nil =>
          obtain ⟨h1, h2, -⟩ := hrest
          rw [h1]
          refine ⟨by simp, h2, fun he => ?_⟩
          simp [he] at hnd'
        | cons z zs =>
          obtain ⟨h1, h2, -⟩ := hrest
          rw [h1]
          refine ⟨by simp, h2, fun he => ?_⟩
          simp [he] at hnd'
      simp only [findPrev, hn.2.1, hn.2.2, ↓reduceIte] at h
      exact ih hnd' hrest h

theorem findPrev_total {next : α → α} {p x : α} {xs : List α} (hc : Chain next p (x :: xs))
    (t : α) {fuel : Nat} (hf : xs.length < fuel) : ∃ r, findPrev next t fuel p = some r := by
  induction xs generalizing p x fuel with
  | nil =>
    obtain ⟨rfl, -, hn⟩ := hc
    obtain ⟨n, rfl⟩ : ∃ n, fuel = n + 1 := ⟨fuel - 1, by simp at hf; omega⟩
    exact ⟨0, by simp [findPrev, show next p = 0 from hn]⟩
  | cons y ys ih =>
    obtain ⟨rfl, -, hrest⟩ := hc
    obtain ⟨n, rfl⟩ : ∃ n, fuel = n + 1 := ⟨fuel - 1, by simp at hf; omega⟩
    have hlen : ys.length < n := by simpa using hf
    obtain ⟨r, hr⟩ := ih hrest hlen
    have hn : next p ≠ 0 := by
      rw [hrest.1]
      exact hrest.2.1
    by_cases ht : next p = t
    · exact ⟨p, by simp [findPrev, ht, ht ▸ hn]⟩
    · exact ⟨r, by simp [findPrev, hn, ht, hr]⟩

end X64SmpOs.LinkedList

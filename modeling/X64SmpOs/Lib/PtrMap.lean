import Mathlib.Logic.Function.Basic

/-!
# Maps of pointers

A map from keys to pointers in which a key may stand with a null pointer. Looking
a key up through `index` makes it stand; `insert` leaves a key that stands alone.

* `PtrMap.index`, `insert`, `erase`: the three operations;
* `value`: what a lookup returns; `value_index`, `value_insert`,
  `value_insert_of_mem`, `value_erase`: what it returns after each of them.
-/

namespace X64SmpOs

universe u v
variable {κ : Type u} {τ : Type v}

/-- `none` for a key that does not stand, `some none` for one with the null pointer. -/
structure PtrMap (κ : Type u) (τ : Type v) where
  entry : κ → Option (Option τ)

namespace PtrMap

def empty : PtrMap κ τ := ⟨fun _ => none⟩

def mem (m : PtrMap κ τ) (k : κ) : Bool := (m.entry k).isSome

/-- The pointer of a key; null for a key that does not stand. -/
def value (m : PtrMap κ τ) (k : κ) : Option τ := (m.entry k).join

@[simp] theorem value_empty (k : κ) : (empty : PtrMap κ τ).value k = none := rfl

theorem mem_of_value {m : PtrMap κ τ} {k : κ} {p : τ} (h : m.value k = some p) :
    m.mem k = true := by
  unfold value at h
  unfold mem
  cases hk : m.entry k with
  | none => simp [hk] at h
  | some q => rfl

variable [DecidableEq κ]

/-- `m[k]`: a key that does not stand gets the null pointer. -/
def index (m : PtrMap κ τ) (k : κ) : Option τ × PtrMap κ τ :=
  match m.entry k with
  | some p => (p, m)
  | none => (none, ⟨Function.update m.entry k (some none)⟩)

/-- A key that stands keeps its pointer. -/
def insert (m : PtrMap κ τ) (k : κ) (p : τ) : PtrMap κ τ :=
  match m.entry k with
  | some _ => m
  | none => ⟨Function.update m.entry k (some (some p))⟩

def erase (m : PtrMap κ τ) (k : κ) : PtrMap κ τ := ⟨Function.update m.entry k none⟩

@[simp] theorem index_fst (m : PtrMap κ τ) (k : κ) : (m.index k).1 = m.value k := by
  unfold index value
  cases m.entry k <;> rfl

/-- A lookup changes no later one. -/
@[simp] theorem value_index (m : PtrMap κ τ) (k j : κ) : (m.index k).2.value j = m.value j := by
  unfold index
  cases hk : m.entry k with
  | some p => rfl
  | none =>
    by_cases hj : j = k
    · subst hj
      simp [value, hk]
    · simp [value, hj]

/-- A key that does not stand gets the pointer. -/
theorem value_insert {m : PtrMap κ τ} {k : κ} (h : m.mem k = false) (p : τ) (j : κ) :
    (m.insert k p).value j = if j = k then some p else m.value j := by
  have hk : m.entry k = none := by simpa [mem] using h
  unfold insert
  rw [hk]
  by_cases hj : j = k
  · subst hj
    simp [value]
  · simp [value, hj]

theorem value_insert_of_mem {m : PtrMap κ τ} {k : κ} (h : m.mem k = true) (p : τ) :
    m.insert k p = m := by
  obtain ⟨q, hq⟩ := Option.isSome_iff_exists.mp h
  rw [insert, hq]

@[simp] theorem value_erase (m : PtrMap κ τ) (k j : κ) :
    (m.erase k).value j = if j = k then none else m.value j := by
  by_cases hj : j = k
  · subst hj
    simp [erase, value]
  · simp [erase, value, hj]

end PtrMap

end X64SmpOs

import Mathlib.Algebra.Notation.Defs

/-!
# Spin locks

A lock word that is zero when free, and the processors in the section it guards.

* `Excl.acquire`, `Excl.release`, `Excl.mono`: an exchange that finds the word free,
  the store of a zero, and every other step.
-/

namespace X64SmpOs.SpinLock

universe u v
variable {ι : Type u} {α : Type v} [Zero α] {lock lock' : α} {H H' : ι → Prop} {c : ι}

/-- At most one processor is in the section, and only while the word is taken. -/
structure Excl (lock : α) (H : ι → Prop) : Prop where
  one : ∀ c d, H c → H d → c = d
  held : ∀ c, H c → lock ≠ 0

theorem Excl.nobody (h : Excl lock H) (hfree : lock = 0) (c : ι) : ¬ H c :=
  fun hc => h.held c hc hfree

/-- An exchange that finds the word free. -/
theorem Excl.acquire (h : Excl lock H) (hfree : lock = 0) (htaken : lock' ≠ 0)
    (hH : ∀ d, H' d → d = c ∨ H d) : Excl lock' H' := by
  have hc : ∀ d, H' d → d = c := fun d hd => (hH d hd).resolve_right (h.nobody hfree d)
  exact ⟨fun d e hd he => (hc d hd).trans (hc e he).symm, fun _ _ => htaken⟩

/-- The one processor in the section leaves it. -/
theorem Excl.release (h : Excl lock H) (hc : H c)
    (hH : ∀ d, H' d → d ≠ c ∧ H d) : Excl lock' H' := by
  have hnone : ∀ d, ¬ H' d := fun d hd => (hH d hd).1 (h.one d c (hH d hd).2 hc)
  exact ⟨fun d _ hd => absurd hd (hnone d), fun d hd => absurd hd (hnone d)⟩

/-- A step by which nobody enters and the word does not become free. -/
theorem Excl.mono (h : Excl lock H) (htaken : lock ≠ 0 → lock' ≠ 0) (hH : ∀ d, H' d → H d) :
    Excl lock' H' :=
  ⟨fun c d hc hd => h.one c d (hH c hc) (hH d hd), fun c hc => htaken (h.held c (hH c hc))⟩

end X64SmpOs.SpinLock

import Mathlib.Data.Nat.Init
import Mathlib.Logic.Function.Basic

/-!
# Copying upwards

A range of cells copied one by one, lowest first, into a memory that may overlap it.

* `copyUp_apply`: every cell after the copy; where the target starts inside the source,
  the cells before the target are repeated;
* `copyUp_head`: the first cell may be copied before the others;
* `copyUp_read`: the cell the next step reads;
* `moves_iff`: when this is the copy of the old cells.
-/

namespace X64SmpOs.CopyUp

variable {α : Type*}

/-- `n` cells from `src` on go to `dest`. -/
def copyUp (dest src : Nat) : Nat → (Nat → α) → Nat → α
  | 0, m => m
  | n + 1, m => Function.update (copyUp dest src n m) (dest + n) (copyUp dest src n m (src + n))

/-- Where the cell that ends up at `dest + i` was. -/
def origin (dest src i : Nat) : Nat :=
  if src < dest then src + i % (dest - src) else src + i

theorem origin_of_lt {dest src i : Nat} (h : src < dest → i < dest - src) :
    origin dest src i = src + i := by
  unfold origin
  split
  · rw [Nat.mod_eq_of_lt (h ‹_›)]
  · rfl

/-- A cell copied before is where its own origin says. -/
theorem origin_copied {dest src i : Nat} (hlt : src < dest) (h : dest ≤ src + i) :
    origin dest src (src + i - dest) = origin dest src i := by
  have hmod : i % (dest - src) = (i - (dest - src)) % (dest - src) :=
    Nat.mod_eq_sub_mod (by omega)
  unfold origin
  rw [if_pos hlt, if_pos hlt, hmod, show src + i - dest = i - (dest - src) by omega]

theorem copyUp_apply (dest src n : Nat) (m : Nat → α) (x : Nat) :
    copyUp dest src n m x =
      if dest ≤ x ∧ x < dest + n then m (origin dest src (x - dest)) else m x := by
  induction n generalizing x with
  | zero => rw [copyUp, if_neg (by omega)]
  | succ n ih =>
    rw [copyUp]
    by_cases hx : x = dest + n
    · have hend : dest ≤ dest + n ∧ dest + n < dest + (n + 1) := by omega
      rw [hx, Function.update_self, ih, if_pos hend, Nat.add_sub_cancel_left]
      by_cases hread : dest ≤ src + n ∧ src + n < dest + n
      · rw [if_pos hread, origin_copied (by omega) hread.1]
      · rw [if_neg hread, origin_of_lt (by omega)]
    · rw [Function.update_of_ne hx, ih]
      by_cases hin : dest ≤ x ∧ x < dest + n
      · rw [if_pos hin, if_pos (by omega)]
      · rw [if_neg hin, if_neg (by omega)]

theorem copyUp_other {dest n : Nat} (src : Nat) (m : Nat → α) {x : Nat}
    (h : x < dest ∨ dest + n ≤ x) : copyUp dest src n m x = m x := by
  rw [copyUp_apply, if_neg (by omega)]

/-- What step `n` reads. -/
theorem copyUp_read (dest src n : Nat) (m : Nat → α) :
    copyUp dest src n m (src + n) = m (origin dest src n) := by
  have h := copyUp_apply dest src (n + 1) m (dest + n)
  rw [if_pos (by omega), Nat.add_sub_cancel_left, copyUp, Function.update_self] at h
  exact h

theorem copyUp_head (dest src n : Nat) (m : Nat → α) :
    copyUp dest src (n + 1) m =
      copyUp (dest + 1) (src + 1) n (Function.update m dest (m src)) := by
  induction n with
  | zero => rfl
  | succ n ih =>
    rw [copyUp, ih, copyUp, Nat.add_right_comm dest, Nat.add_right_comm src, Nat.add_assoc dest,
      Nat.add_assoc src]

/-- The old cells arrive, in every memory, unless the target starts behind the begin of
the source and inside it. -/
theorem moves_iff {a b : α} (hab : a ≠ b) (dest src n : Nat) :
    (∀ (m : Nat → α) (i : Nat), i < n → copyUp dest src n m (dest + i) = m (src + i)) ↔
      dest ≤ src ∨ src + n ≤ dest := by
  constructor
  · intro h
    by_contra hover
    -- the cell at `dest` is the first that is overwritten before it is read
    have hat := h (Function.update (fun _ => a) dest b) (dest - src) (by omega)
    have horigin : origin dest src (dest - src) = src := by
      rw [origin, if_pos (by omega), Nat.mod_self, Nat.add_zero]
    rw [copyUp_apply, if_pos (by omega), Nat.add_sub_cancel_left, horigin,
      show src + (dest - src) = dest by omega, Function.update_self,
      Function.update_of_ne (by omega)] at hat
    exact hab hat
  · intro h m i hi
    rw [copyUp_apply, if_pos (by omega), Nat.add_sub_cancel_left, origin_of_lt (by omega)]

end X64SmpOs.CopyUp

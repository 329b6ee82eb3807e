import Mathlib.Algebra.Ring.Int.Defs
import Mathlib.Algebra.Ring.Nat

/-!
# Fixed-width C integers as naturals

Unsigned values are naturals below a power of two; every operation that can
leave the range is followed by its truncation.
-/

namespace X64SmpOs.Words

/-- Conversion to a 32-bit unsigned integer. -/
def u32 (n : Nat) : Nat := n % 2 ^ 32

/-- Conversion to a 64-bit unsigned integer. -/
def u64 (n : Nat) : Nat := n % 2 ^ 64

/-- Unsigned 32-bit subtraction. -/
def sub32 (a b : Nat) : Nat := u32 (a + (2 ^ 32 - u32 b))

/-- Unsigned 64-bit subtraction. -/
def sub64 (a b : Nat) : Nat := u64 (a + (2 ^ 64 - u64 b))

/-- Conversion of a 32-bit unsigned integer to `int`. -/
def s32 (n : Nat) : Int := if u32 n < 2 ^ 31 then u32 n else (u32 n : Int) - 2 ^ 32

/-- Conversion of an `int` to a 32-bit unsigned integer. -/
def u32OfInt (i : Int) : Nat := (i % 2 ^ 32).toNat

/-- Conversion of an `int` to a 64-bit unsigned integer. -/
def u64OfInt (i : Int) : Nat := (i % 2 ^ 64).toNat

theorem u32_of_lt {n : Nat} (h : n < 2 ^ 32) : u32 n = n := Nat.mod_eq_of_lt h

theorem u64_of_lt {n : Nat} (h : n < 2 ^ 64) : u64 n = n := Nat.mod_eq_of_lt h

theorem sub32_of_le {a b : Nat} (ha : a < 2 ^ 32) (h : b ≤ a) : sub32 a b = a - b := by
  simp only [sub32, u32] at *
  omega

theorem sub64_of_le {a b : Nat} (ha : a < 2 ^ 64) (h : b ≤ a) : sub64 a b = a - b := by
  simp only [sub64, u64] at *
  omega

/-- Adding an offset and taking it away again, both modulo `2 ^ 32`. -/
theorem sub32_add_left {o i : Nat} (hi : i < 2 ^ 32) : sub32 (u32 (o + i)) o = i := by
  simp only [sub32, u32] at *
  omega

theorem s32_of_lt {n : Nat} (h : n < 2 ^ 31) : s32 n = n := by
  have hu : u32 n = n := u32_of_lt (by omega)
  rw [s32, hu, if_pos h]

theorem u32OfInt_s32 (n : Nat) : u32OfInt (s32 n) = u32 n := by
  have hlt : u32 n < 2 ^ 32 := Nat.mod_lt _ (by decide)
  rw [s32, u32OfInt]
  generalize u32 n = k at *
  split <;> omega

theorem u64OfInt_natCast {n : Nat} (h : n < 2 ^ 64) : u64OfInt n = n := by
  simp only [u64OfInt]
  omega

theorem u32OfInt_natCast {n : Nat} (h : n < 2 ^ 32) : u32OfInt n = n := by
  simp only [u32OfInt]
  omega

end X64SmpOs.Words

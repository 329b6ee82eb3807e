import Mathlib.Tactic.Ring

/-!
# Byte memory with little-endian words

A memory gives every address a byte. `readLE n m a` is the word of `n` bytes
at `a`, `writeLE n m a v` stores the low `n` bytes of `v` there.

* `readLE_congr`: a word depends on its own bytes only;
* `readLE_writeLE`, `readLE_writeLE_of_disjoint`: a word read back, and a word
  elsewhere;
* `readLE_append`: a word is its low part and its high part;
* `AgreeOn`: two memories with the same bytes in a window.
-/

namespace X64SmpOs.Memory

abbrev Byte := BitVec 8
abbrev Mem := Nat → Byte

/-- The word of `n` bytes at `a`, lowest byte first. -/
def readLE : Nat → Mem → Nat → Nat
  | 0, _, _ => 0
  | n + 1, m, a => (m a).toNat + 256 * readLE n m (a + 1)

/-- The low `n` bytes of `v` go to `a`. -/
def writeLE (n : Nat) (m : Mem) (a v : Nat) : Mem :=
  fun x => if a ≤ x ∧ x < a + n then BitVec.ofNat 8 (v / 256 ^ (x - a)) else m x

/-- `n` zero bytes from `a` on. -/
def zeroFill (m : Mem) (a n : Nat) : Mem := fun x => if a ≤ x ∧ x < a + n then 0 else m x

/-- The same bytes in the window of `n` bytes at `a`. -/
def AgreeOn (m m' : Mem) (a n : Nat) : Prop := ∀ x, a ≤ x → x < a + n → m' x = m x

theorem AgreeOn.refl (m : Mem) (a n : Nat) : AgreeOn m m a n := fun _ _ _ => rfl

theorem AgreeOn.trans {m m' m'' : Mem} {a n : Nat} (h : AgreeOn m m' a n)
    (h' : AgreeOn m' m'' a n) : AgreeOn m m'' a n :=
  fun x h1 h2 => (h' x h1 h2).trans (h x h1 h2)

/-- A window inside an agreeing window. -/
theorem AgreeOn.sub {m m' : Mem} {a n b k : Nat} (h : AgreeOn m m' a n) (h1 : a ≤ b)
    (h2 : b + k ≤ a + n) : AgreeOn m m' b k :=
  fun x hx hx' => h x (by omega) (by omega)

theorem readLE_congr {n : Nat} {m m' : Mem} {a : Nat} (h : AgreeOn m m' a n) :
    readLE n m' a = readLE n m a := by
  induction n generalizing a with
  | zero => rfl
  | succ n ih =>
    have hlow : m' a = m a := h a (by omega) (by omega)
    have hrest : AgreeOn m m' (a + 1) n := h.sub (by omega) (by omega)
    simp only [readLE, hlow, ih hrest]

theorem readLE_lt (n : Nat) (m : Mem) (a : Nat) : readLE n m a < 256 ^ n := by
  induction n generalizing a with
  | zero => simp [readLE]
  | succ n ih =>
    have hb := (m a).isLt
    have ht := ih (a + 1)
    simp only [readLE, pow_succ]
    omega

/-- A word is its low part and, shifted, its high part. -/
theorem readLE_append (n k : Nat) (m : Mem) (a : Nat) :
    readLE (n + k) m a = readLE n m a + 256 ^ n * readLE k m (a + n) := by
  induction n generalizing a with
  | zero => simp [readLE]
  | succ n ih =>
    rw [show n + 1 + k = n + k + 1 by omega, readLE, readLE, ih,
      show a + 1 + n = a + (n + 1) by omega, pow_succ]
    ring

/-! ## Writing -/

theorem writeLE_apply_of_not {n : Nat} {m : Mem} {a v x : Nat} (h : x < a ∨ a + n ≤ x) :
    writeLE n m a v x = m x := by
  unfold writeLE
  rw [if_neg (by omega)]

/-- A byte stored. -/
theorem writeLE_one (m : Mem) (a v x : Nat) :
    writeLE 1 m a v x = if x = a then BitVec.ofNat 8 v else m x := by
  unfold writeLE
  by_cases h : x = a
  · rw [if_pos (by omega), if_pos h, h, Nat.sub_self, pow_zero, Nat.div_one]
  · rw [if_neg (by omega), if_neg h]

theorem agreeOn_writeLE {n : Nat} (m : Mem) {a : Nat} (v : Nat) {b k : Nat}
    (h : b + k ≤ a ∨ a + n ≤ b) : AgreeOn m (writeLE n m a v) b k :=
  fun _ _ _ => writeLE_apply_of_not (by omega)

theorem agreeOn_zeroFill (m : Mem) {a n b k : Nat} (h : b + k ≤ a ∨ a + n ≤ b) :
    AgreeOn m (zeroFill m a n) b k := by
  intro x hx hx'
  unfold zeroFill
  rw [if_neg (by omega)]

theorem readLE_writeLE_of_disjoint {n k : Nat} (m : Mem) {a b : Nat} (v : Nat)
    (h : b + k ≤ a ∨ a + n ≤ b) : readLE k (writeLE n m a v) b = readLE k m b :=
  readLE_congr (agreeOn_writeLE m v h)

/-- The bytes of a written word, from its `i`-th byte on. -/
private theorem readLE_writeLE_from (n : Nat) (m : Mem) (a v i : Nat) (h : i ≤ n) :
    readLE (n - i) (writeLE n m a v) (a + i) = v / 256 ^ i % 256 ^ (n - i) := by
  induction hk : n - i generalizing i with
  | zero => simp [readLE, Nat.mod_one]
  | succ k ih =>
    have hbyte : (writeLE n m a v (a + i)).toNat = v / 256 ^ i % 256 := by
      unfold writeLE
      rw [if_pos (by omega), Nat.add_sub_cancel_left, BitVec.toNat_ofNat]
    have hrest := ih (i + 1) (by omega) (by omega)
    rw [readLE, hbyte, show a + i + 1 = a + (i + 1) by omega, hrest, pow_succ,
      ← Nat.div_div_eq_div_mul, pow_succ', Nat.mod_mul]

/-- A word read back is what was written, cut to its width. -/
theorem readLE_writeLE (n : Nat) (m : Mem) (a v : Nat) :
    readLE n (writeLE n m a v) a = v % 256 ^ n := by
  simpa using readLE_writeLE_from n m a v 0 (Nat.zero_le n)

theorem readLE_writeLE_of_lt {n : Nat} (m : Mem) (a : Nat) {v : Nat} (h : v < 256 ^ n) :
    readLE n (writeLE n m a v) a = v := by
  rw [readLE_writeLE, Nat.mod_eq_of_lt h]

theorem readLE_zeroFill {m : Mem} {a n b k : Nat} (h1 : a ≤ b) (h2 : b + k ≤ a + n) :
    readLE k (zeroFill m a n) b = 0 := by
  induction k generalizing b with
  | zero => rfl
  | succ k ih =>
    have hb : zeroFill m a n b = 0 := by
      unfold zeroFill
      rw [if_pos (by omega)]
    rw [readLE, hb, ih (by omega) (by omega)]
    rfl

end X64SmpOs.Memory

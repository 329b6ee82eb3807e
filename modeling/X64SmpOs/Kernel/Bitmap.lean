import X64SmpOs.Lib.Words

/-!
# The bitmap of `libs/bitmap.c`

* `bit_bitmapSet`: setting a bit changes that bit and no other;
* `scanLoop_spec`: the search loop finds the lowest run of free bits, or ends
  with `EOF` when there is none;
* `bitmapScan_found`, `bitmapScan_none`: the whole scan, which also claims the
  run it found;
* `bitmapScan_lowest`: the lowest run is claimed, or there is none.
-/

namespace X64SmpOs.Bitmap

open Words

/-! ## The code -/

/-- End of file: the scan's failure value. -/
def EOF : Int := -1

structure BitmapT where
  /-- the buffer, as the bytes from its start upwards -/
  bits : Nat → BitVec 8
  /-- the number of bytes of the buffer -/
  length : Nat
  offset : Nat

def bitmapMake (bits : Nat → BitVec 8) (length offset : Nat) : BitmapT := ⟨bits, length, offset⟩

/-- Clear `length` bytes and set the map up over them. -/
def bitmapInit (bits : Nat → BitVec 8) (length start : Nat) : BitmapT :=
  bitmapMake (fun i => if i < length then 0 else bits i) length start

def bitmapTest (map : BitmapT) (index : Nat) : Bool :=
  let idx := sub32 index map.offset
  map.bits (idx / 8) &&& (1#8 <<< (idx % 8)) != 0

def bitmapSet (map : BitmapT) (index : Nat) (value : Bool) : BitmapT :=
  let idx := sub32 index map.offset
  let byte := map.bits (idx / 8)
  let byte := if value then byte ||| (1#8 <<< (idx % 8)) else byte &&& ~~~(1#8 <<< (idx % 8))
  { map with bits := fun i => if i = idx / 8 then byte else map.bits i }

/-- `while (bits_left-- > 0)`: the start of the run, or `EOF`. -/
def scanLoop (map : BitmapT) (count : Nat) : Nat → Nat → Nat → Int
  | 0, _, _ => EOF
  | left + 1, next, counter =>
    let counter := if bitmapTest map (u32 (map.offset + next)) then 0 else u32 (counter + 1)
    let next := u32 (next + 1)
    if counter = count then s32 (sub32 next count) else scanLoop map count left next counter

/-- `while (bits_left--)`: mark the run. -/
def claimLoop (map : BitmapT) : Nat → Nat → BitmapT
  | 0, _ => map
  | left + 1, next => claimLoop (bitmapSet map (u32 (map.offset + next)) true) left (u32 (next + 1))

def bitmapScan (map : BitmapT) (count : Nat) : Int × BitmapT :=
  let start := scanLoop map count (u32 (map.length * 8)) 0 0
  if start = EOF then (EOF, map)
  else (s32 (u32OfInt start + map.offset), claimLoop map count (u32OfInt start))

/-! ## Bits -/

/-- The `i`-th bit of the buffer. -/
def BitmapT.bit (m : BitmapT) (i : Nat) : Bool := (m.bits (i / 8)).getLsbD (i % 8)

theorem and_one_shiftLeft_ne (b : BitVec 8) (i : Nat) (hi : i < 8) :
    (b &&& (1#8 <<< i) != 0) = b.getLsbD i := by
  rw [← BitVec.twoPow_eq, BitVec.and_twoPow]
  cases h : b.getLsbD i
  · simp
  · have hne : BitVec.twoPow 8 i ≠ 0#8 := by
      intro h0
      have := congrArg (·.getLsbD i) h0
      simp [hi] at this
    simpa using hne

theorem bitmapTest_eq (m : BitmapT) {i : Nat} (hi : i < 2 ^ 32) :
    bitmapTest m (u32 (m.offset + i)) = m.bit i := by
  simp only [bitmapTest, BitmapT.bit, sub32_add_left hi]
  exact and_one_shiftLeft_ne _ _ (Nat.mod_lt _ (by decide))

theorem getLsbD_setBit (b : BitVec 8) (i j : Nat) (hi : i < 8) (hj : j < 8) (v : Bool) :
    (if v then b ||| (1#8 <<< i) else b &&& ~~~(1#8 <<< i)).getLsbD j =
      if j = i then v else b.getLsbD j := by
  cases v <;> by_cases h : j = i
  · subst h
    simp [← BitVec.twoPow_eq, hj]
  · simp [← BitVec.twoPow_eq, hj, h]
  · subst h
    simp [← BitVec.twoPow_eq, hj]
  · simp [← BitVec.twoPow_eq, h, Ne.symm h]

/-- **Setting a bit** changes that bit and no other. -/
theorem bit_bitmapSet (m : BitmapT) {i : Nat} (hi : i < 2 ^ 32) (v : Bool) (j : Nat) :
    (bitmapSet m (u32 (m.offset + i)) v).bit j = if j = i then v else m.bit j := by
  simp only [bitmapSet, BitmapT.bit, sub32_add_left hi]
  by_cases hb : j / 8 = i / 8
  · rw [if_pos hb, getLsbD_setBit _ _ _ (by omega) (by omega), hb]
    by_cases hji : j % 8 = i % 8
    · rw [if_pos hji, if_pos (by omega)]
    · rw [if_neg hji, if_neg (by omega)]
  · rw [if_neg hb, if_neg (by omega)]

@[simp] theorem bitmapSet_offset (m : BitmapT) (i : Nat) (v : Bool) :
    (bitmapSet m i v).offset = m.offset := rfl

@[simp] theorem bitmapSet_length (m : BitmapT) (i : Nat) (v : Bool) :
    (bitmapSet m i v).length = m.length := rfl

theorem bit_claimLoop (m : BitmapT) (n start : Nat) (h : start + n < 2 ^ 32) (j : Nat) :
    (claimLoop m n start).bit j = if start ≤ j ∧ j < start + n then true else m.bit j := by
  induction n generalizing m start with
  | zero => simp only [claimLoop]; rw [if_neg (by omega)]
  | succ n ih =>
    rw [claimLoop, u32_of_lt (n := start + 1) (by omega), ih _ _ (by omega),
      bit_bitmapSet _ (by omega)]
    by_cases hj : j = start
    · subst hj
      rw [if_neg (by omega), if_pos rfl, if_pos (by omega)]
    · rw [if_neg hj]
      by_cases hin : start + 1 ≤ j ∧ j < start + 1 + n
      · rw [if_pos hin, if_pos (by omega)]
      · rw [if_neg hin, if_neg (by omega)]

@[simp] theorem claimLoop_offset (m : BitmapT) (n start : Nat) :
    (claimLoop m n start).offset = m.offset := by
  induction n generalizing m start with
  | zero => rfl
  | succ n ih => rw [claimLoop, ih, bitmapSet_offset]

@[simp] theorem claimLoop_length (m : BitmapT) (n start : Nat) :
    (claimLoop m n start).length = m.length := by
  induction n generalizing m start with
  | zero => rfl
  | succ n ih => rw [claimLoop, ih, bitmapSet_length]

/-! ## The scan -/

/-- The `count` bits from `a` on are free. -/
def FreeRun (m : BitmapT) (a count : Nat) : Prop := ∀ j < count, m.bit (a + j) = false

/-- What holds before the loop looks at bit `p`: the last `c` bits are free, the
one before them is not, and no run ends at or before `p`. -/
structure ScanInv (m : BitmapT) (count p c : Nat) : Prop where
  lt : c < count
  le : c ≤ p
  free : FreeRun m (p - c) c
  taken : c = p ∨ m.bit (p - c - 1) = true
  none : ∀ b, b + count ≤ p → ¬ FreeRun m b count

theorem scanInv_zero (m : BitmapT) {count : Nat} (hc : 1 ≤ count) : ScanInv m count 0 0 :=
  ⟨hc, Nat.le_refl _, fun _ h => absurd h (Nat.not_lt_zero _), Or.inl rfl, fun b hb => by omega⟩

theorem ScanInv.step_taken {m : BitmapT} {count p c : Nat} (h : ScanInv m count p c)
    (hp : m.bit p = true) : ScanInv m count (p + 1) 0 := by
  have hlt := h.lt
  refine ⟨by omega, by omega, fun _ hj => absurd hj (Nat.not_lt_zero _), Or.inr (by simpa using hp),
    fun b hb hfree => ?_⟩
  by_cases hle : b + count ≤ p
  · exact h.none b hle hfree
  · -- a run ending right behind `p` contains `p`
    have hb' := hfree (p - b) (by omega)
    rw [show b + (p - b) = p by omega, hp] at hb'
    exact Bool.noConfusion hb'

theorem ScanInv.freeRun_succ {m : BitmapT} {count p c : Nat} (h : ScanInv m count p c)
    (hp : m.bit p = false) : FreeRun m (p - c) (c + 1) := by
  intro j hj
  by_cases hjc : j < c
  · exact h.free j hjc
  · have := h.le
    rw [show p - c + j = p by omega]
    exact hp

theorem ScanInv.step_free {m : BitmapT} {count p c : Nat} (h : ScanInv m count p c)
    (hp : m.bit p = false) (hc : c + 1 ≠ count) : ScanInv m count (p + 1) (c + 1) := by
  have hlt := h.lt
  have hle := h.le
  refine ⟨by omega, by omega, ?_, ?_, fun b hb hfree => ?_⟩
  · rw [show p + 1 - (c + 1) = p - c by omega]
    exact h.freeRun_succ hp
  · rw [show p + 1 - (c + 1) - 1 = p - c - 1 by omega]
    rcases h.taken with h | h
    · exact Or.inl (by omega)
    · exact Or.inr h
  · by_cases hbp : b + count ≤ p
    · exact h.none b hbp hfree
    · -- the run reaches below the last free stretch, where a bit is taken
      rcases h.taken with ht | ht
      · omega
      · have hb' := hfree (p - c - 1 - b) (by omega)
        rw [show b + (p - c - 1 - b) = p - c - 1 by omega, ht] at hb'
        exact Bool.noConfusion hb'

/-- `a` is the lowest start of a run of `count` free bits below `n`. -/
structure FirstRun (m : BitmapT) (count n a : Nat) : Prop where
  le : a + count ≤ n
  free : FreeRun m a count
  lowest : ∀ b < a, ¬ FreeRun m b count

/-- **The search loop** finds the lowest run, or ends with `EOF`. -/
theorem scanLoop_spec {m : BitmapT} {count : Nat} (left p c : Nat)
    (hn : p + left < 2 ^ 31) (h : ScanInv m count p c) :
    (∃ a, FirstRun m count (p + left) a ∧ scanLoop m count left p c = a) ∨
      ((∀ a, a + count ≤ p + left → ¬ FreeRun m a count) ∧ scanLoop m count left p c = EOF) := by
  induction left generalizing p c with
  | zero => exact Or.inr ⟨h.none, rfl⟩
  | succ left ih =>
    have hlt := h.lt
    have hle := h.le
    rw [scanLoop, bitmapTest_eq m (by omega), u32_of_lt (n := p + 1) (by omega),
      u32_of_lt (n := c + 1) (by omega)]
    rw [show p + (left + 1) = p + 1 + left by omega]
    cases hp : m.bit p
    · by_cases hc : c + 1 = count
      · have hrun : FreeRun m (p - c) count := hc ▸ h.freeRun_succ hp
        refine Or.inl ⟨p - c, ⟨by omega, hrun, fun b hb => h.none b (by omega)⟩, ?_⟩
        simp only [Bool.false_eq_true, ↓reduceIte, if_pos hc]
        rw [sub32_of_le (by omega) (by omega), s32_of_lt (by omega)]
        congr 1
        omega
      · simp only [Bool.false_eq_true, ↓reduceIte, if_neg hc]
        exact ih (p + 1) (c + 1) (by omega) (h.step_free hp hc)
    · simp only [↓reduceIte, if_neg (show ¬ 0 = count by omega)]
      exact ih (p + 1) 0 (by omega) (h.step_taken hp)

/-- A scan that finds a run returns its index and claims exactly that run. -/
theorem bitmapScan_found {m : BitmapT} {count a : Nat} (hc : 1 ≤ count)
    (hn : m.length * 8 < 2 ^ 31) (ha : FirstRun m count (m.length * 8) a) :
    bitmapScan m count = (s32 (a + m.offset), claimLoop m count a) := by
  have hle := ha.le
  unfold bitmapScan
  rw [u32_of_lt (by omega)]
  rcases scanLoop_spec (m.length * 8) 0 0 (by omega) (scanInv_zero m hc) with
    ⟨b, hb, hs⟩ | ⟨hnone, -⟩
  · have hba : b = a := by
      rcases Nat.lt_trichotomy b a with hlt | he | hlt
      · exact absurd hb.free (ha.lowest b hlt)
      · exact he
      · exact absurd ha.free (hb.lowest a hlt)
    subst hba
    have hne : ((b : Nat) : Int) ≠ EOF := by simp only [EOF]; omega
    simp only [hs, if_neg hne, u32OfInt_natCast (n := b) (by omega)]
  · exact absurd ha.free (hnone a (by omega))

/-- A scan that finds no run changes nothing. -/
theorem bitmapScan_none {m : BitmapT} {count : Nat} (hc : 1 ≤ count)
    (hn : m.length * 8 < 2 ^ 31) (h : ∀ a, a + count ≤ m.length * 8 → ¬ FreeRun m a count) :
    bitmapScan m count = (EOF, m) := by
  unfold bitmapScan
  rw [u32_of_lt (by omega)]
  rcases scanLoop_spec (m.length * 8) 0 0 (by omega) (scanInv_zero m hc) with
    ⟨b, hb, -⟩ | ⟨-, hs⟩
  · exact absurd hb.free (h b (by have := hb.le; omega))
  · simp only [hs, if_true]

/-- Where there is a run there is a lowest one. -/
theorem exists_firstRun {m : BitmapT} {count n a : Nat} (ha : a + count ≤ n)
    (hfree : FreeRun m a count) : ∃ b, FirstRun m count n b := by
  induction a using Nat.strong_induction_on with
  | _ a ih =>
    by_cases hlow : ∃ b < a, FreeRun m b count
    · obtain ⟨b, hb, hfree'⟩ := hlow
      exact ih b hb (by omega) hfree'
    · exact ⟨a, ha, hfree, fun b hb h => hlow ⟨b, hb, h⟩⟩

/-- What a scan owes for a run from `a` on: its index, as far as an `int` holds it, and
its bits set with all others as they were. -/
structure Claimed (m : BitmapT) (count a : Nat) (r : Int × BitmapT) : Prop where
  index : r.1 = s32 (m.offset + a)
  unsigned : u32OfInt r.1 = u32 (m.offset + a)
  small : m.offset + a < 2 ^ 31 → r.1 = ((m.offset + a : Nat) : Int)
  bits : ∀ j, r.2.bit j = if a ≤ j ∧ j < a + count then true else m.bit j
  length : r.2.length = m.length
  offset : r.2.offset = m.offset

/-- **The scan.** The lowest run is claimed; without a run nothing changes. -/
theorem bitmapScan_lowest {m : BitmapT} {count : Nat} (hn : m.length * 8 < 2 ^ 31)
    (hc : 1 ≤ count) :
    ((∃ a, a + count ≤ m.length * 8 ∧ FreeRun m a count) →
        ∃ a, FirstRun m count (m.length * 8) a ∧ Claimed m count a (bitmapScan m count)) ∧
      ((∀ a, a + count ≤ m.length * 8 → ¬ FreeRun m a count) →
        bitmapScan m count = (EOF, m)) := by
  refine ⟨?_, bitmapScan_none hc hn⟩
  rintro ⟨b, hb, hfree⟩
  obtain ⟨a, ha⟩ := exists_firstRun hb hfree
  have hle := ha.le
  refine ⟨a, ha, ?_⟩
  rw [bitmapScan_found hc hn ha, Nat.add_comm]
  constructor
  case index => rfl
  case unsigned => exact u32OfInt_s32 _
  case small => exact s32_of_lt
  case bits => exact bit_claimLoop m count a (by omega)
  case length => exact claimLoop_length m count a
  case offset => exact claimLoop_offset m count a

/-- Two bytes with the bits 0, 1, 3 and 8 set. -/
def sampleMap : BitmapT := ⟨fun i => if i = 0 then 0b1011 else if i = 1 then 0b1 else 0, 2, 5⟩

example : (bitmapScan sampleMap 3).1 = 9 := by decide

/-- Three free bits from the fifth one on. -/
theorem bitmapScan_sample :
    ∃ a, FirstRun sampleMap 3 16 a ∧ Claimed sampleMap 3 a (bitmapScan sampleMap 3) :=
  (bitmapScan_lowest (by decide) (by decide)).1 ⟨4, by decide, by unfold FreeRun; decide⟩

end X64SmpOs.Bitmap

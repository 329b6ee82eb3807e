import Mathlib.Data.Int.Order.Basic
import X64SmpOs.Lib.Memory

/-!
# The two `memcmp`

The x86 loop looks at the bytes before it looks at the count, and compares what
it stopped at as `char`; the x64 loop looks at the count first and subtracts
unsigned bytes. A buffer is its bytes by offset, and the offsets read are
logged.

* `firstDiff`: the first pair that differs;
* `Compares`: what `memcmp` is for;
* `x64_compares`: the x64 loop does it for every two buffers;
* `x86_compares_iff`: the x86 loop does it exactly when there is a first pair
  that differs, with both bytes on one side of 0x80.
-/

namespace X64SmpOs.Memcmp

open Memory

structure Outcome where
  result : Int
  reads : List Nat
  deriving DecidableEq

/-! ## x86 -/

/-- `while (*lptr == *rptr && count-- > 0)`: where both pointers stop. -/
def x86Loop (lptr rptr : Nat → Byte) : Nat → Nat → Nat × List Nat
  | 0, i => (i, [i])
  | count + 1, i =>
    if lptr i = rptr i then
      let (stop, reads) := x86Loop lptr rptr count (i + 1)
      (stop, i :: reads)
    else (i, [i])

/-- `*lptr < *rptr ? -1 : *lptr > *rptr`, where a `char` has a sign. -/
def compareChar (l r : Byte) : Int :=
  if l.toInt < r.toInt then -1 else if l.toInt > r.toInt then 1 else 0

def x86Memcmp (lhs rhs : Nat → Byte) (count : Nat) : Outcome :=
  let (stop, reads) := x86Loop lhs rhs count 0
  { result := compareChar (lhs stop) (rhs stop)
    reads := reads ++ [stop] }

/-! ## x64 -/

/-- `for (su1 = cs, su2 = ct; 0 < count; ++su1, ++su2, count--)`. -/
def x64Loop (su1 su2 : Nat → Byte) : Nat → Nat → Int → Outcome
  | 0, _, res => ⟨res, []⟩
  | count + 1, i, _ =>
    let res : Int := (su1 i).toNat - (su2 i).toNat
    if res ≠ 0 then ⟨res, [i]⟩
    else
      let rest := x64Loop su1 su2 count (i + 1) res
      { rest with reads := i :: rest.reads }

def x64Memcmp (cs ct : Nat → Byte) (count : Nat) : Outcome := x64Loop cs ct count 0 0

/-! ## The comparison -/

/-- The first of the `count` pairs from `i` on that differs. -/
def firstDiff (lhs rhs : Nat → Byte) (i count : Nat) : Option Nat :=
  (List.range' i count).find? fun k => lhs k ≠ rhs k

/-- Zero for equal bytes, else the sign of the first pair that differs, and
nothing is read behind the range. -/
structure Compares (lhs rhs : Nat → Byte) (count : Nat) (o : Outcome) : Prop where
  zero : o.result = 0 ↔ ∀ i < count, lhs i = rhs i
  sign : ∀ i < count, (∀ j < i, lhs j = rhs j) → lhs i ≠ rhs i →
    o.result.sign = ((lhs i).toNat - (rhs i).toNat : Int).sign
  reads : ∀ i ∈ o.reads, i < count

section
variable {lhs rhs : Nat → Byte} {i count k : Nat}

theorem firstDiff_succ (lhs rhs : Nat → Byte) (i count : Nat) :
    firstDiff lhs rhs i (count + 1) =
      if lhs i = rhs i then firstDiff lhs rhs (i + 1) count else some i := by
  rw [firstDiff, List.range'_succ, List.find?_cons]
  by_cases h : lhs i = rhs i
  · simp [h, firstDiff]
  · simp [h]

theorem firstDiff_eq_some :
    firstDiff lhs rhs 0 count = some k ↔
      k < count ∧ (∀ j < k, lhs j = rhs j) ∧ lhs k ≠ rhs k := by
  simp only [firstDiff, List.find?_range'_eq_some, List.mem_range'_1, decide_eq_true_eq,
    Nat.zero_le, true_and, Nat.zero_add, Bool.not_eq_true', decide_eq_false_iff_not, ne_eq,
    not_not, forall_const]
  constructor
  · rintro ⟨hne, hlt, heq⟩
    exact ⟨hlt, heq, hne⟩
  · rintro ⟨hlt, heq, hne⟩
    exact ⟨hne, hlt, heq⟩

theorem firstDiff_eq_none :
    firstDiff lhs rhs 0 count = none ↔ ∀ j < count, lhs j = rhs j := by
  simp [firstDiff]

/-- The two requirements on the result, by the first pair that differs. -/
theorem compares_of_none {o : Outcome} (h : firstDiff lhs rhs 0 count = none)
    (hres : o.result = 0) (hreads : ∀ i ∈ o.reads, i < count) : Compares lhs rhs count o where
  zero := iff_of_true hres (firstDiff_eq_none.mp h)
  sign i hi _ hne := absurd (firstDiff_eq_none.mp h i hi) hne
  reads := hreads

theorem compares_of_some {o : Outcome} (h : firstDiff lhs rhs 0 count = some k)
    (hres : o.result.sign = ((lhs k).toNat - (rhs k).toNat : Int).sign)
    (hreads : ∀ i ∈ o.reads, i < count) : Compares lhs rhs count o := by
  obtain ⟨hk, heq, hne⟩ := firstDiff_eq_some.mp h
  constructor
  · have hsub : ((lhs k).toNat - (rhs k).toNat : Int) ≠ 0 := by
      intro h0
      exact hne (BitVec.eq_of_toNat_eq (by omega))
    apply iff_of_false
    · intro h0
      rw [h0, Int.sign_zero, eq_comm, Int.sign_eq_zero_iff_zero] at hres
      exact hsub hres
    · intro hall
      exact hne (hall k hk)
  · intro i hi hbefore hdiff
    -- both are the first
    rcases Nat.lt_trichotomy i k with hlt | rfl | hlt
    · exact absurd (heq i hlt) hdiff
    · exact hres
    · exact absurd (hbefore k hlt) hne
  · exact hreads

/-! ## The x64 loop -/

/-- What the loop returns: the difference of the first pair that differs, or
the value it was entered with or made zero. -/
theorem x64Loop_result (lhs rhs : Nat → Byte) (i count : Nat) :
    (x64Loop lhs rhs count i 0).result =
      match firstDiff lhs rhs i count with
      | some k => ((lhs k).toNat - (rhs k).toNat : Int)
      | none => 0 := by
  induction count generalizing i with
  | zero => rfl
  | succ count ih =>
    rw [firstDiff_succ, x64Loop]
    by_cases h : lhs i = rhs i
    · have h0 : ((lhs i).toNat - (rhs i).toNat : Int) = 0 := by simp [h]
      simp only [h0, ne_eq, not_true_eq_false, if_false, if_pos h]
      exact ih (i + 1)
    · have h0 : ((lhs i).toNat - (rhs i).toNat : Int) ≠ 0 := by
        intro h0
        exact h (BitVec.eq_of_toNat_eq (by omega))
      simp only [if_pos h0, if_neg h]

theorem x64Loop_reads (lhs rhs : Nat → Byte) (i count : Nat) (res : Int) :
    ∀ k ∈ (x64Loop lhs rhs count i res).reads, k < i + count := by
  induction count generalizing i res with
  | zero => simp [x64Loop]
  | succ count ih =>
    intro k hk
    rw [x64Loop] at hk
    split at hk
    · rw [List.mem_singleton.mp hk]
      omega
    · rcases List.mem_cons.mp hk with rfl | hk
      · omega
      · have hlt := ih (i + 1) _ k hk
        omega

/-- **The x64 loop.** -/
theorem x64_compares (lhs rhs : Nat → Byte) (count : Nat) :
    Compares lhs rhs count (x64Memcmp lhs rhs count) := by
  have hres := x64Loop_result lhs rhs 0 count
  have hreads := x64Loop_reads lhs rhs 0 count 0
  rw [Nat.zero_add] at hreads
  cases h : firstDiff lhs rhs 0 count with
  | none =>
    rw [h] at hres
    exact compares_of_none h hres hreads
  | some k =>
    rw [h] at hres
    exact compares_of_some h (congrArg Int.sign hres) hreads

/-! ## The x86 loop -/

/-- The pointers stop at the first pair that differs, or behind the range. -/
theorem x86Loop_stop (lhs rhs : Nat → Byte) (i count : Nat) :
    (x86Loop lhs rhs count i).1 = (firstDiff lhs rhs i count).getD (i + count) := by
  induction count generalizing i with
  | zero => rfl
  | succ count ih =>
    rw [firstDiff_succ, x86Loop]
    by_cases h : lhs i = rhs i
    · rw [if_pos h, if_pos h]
      have hstop := ih (i + 1)
      rw [show i + 1 + count = i + (count + 1) by omega] at hstop
      exact hstop
    · rw [if_neg h, if_neg h]
      rfl

theorem x86Loop_reads (lhs rhs : Nat → Byte) (i count : Nat) :
    ∀ k ∈ (x86Loop lhs rhs count i).2, k ≤ (x86Loop lhs rhs count i).1 := by
  induction count generalizing i with
  | zero => simp [x86Loop]
  | succ count ih =>
    rw [x86Loop]
    split
    · have hle : i ≤ (x86Loop lhs rhs count (i + 1)).1 := by
        rw [x86Loop_stop]
        cases h : firstDiff lhs rhs (i + 1) count with
        | none =>
          rw [Option.getD_none]
          omega
        | some k =>
          have hmem := List.mem_range'_1.mp (List.mem_of_find?_eq_some h)
          rw [Option.getD_some]
          omega
      intro k hk
      rcases List.mem_cons.mp hk with rfl | hk
      · exact hle
      · exact ih (i + 1) k hk
    · intro k hk
      exact (List.mem_singleton.mp hk).le

/-- Bytes of one side of 0x80 compare as `char` as they do unsigned, bytes of
both sides the other way round. -/
theorem compareChar_sign_iff {l r : Byte} (h : l ≠ r) :
    (compareChar l r).sign = (l.toNat - r.toNat : Int).sign ↔ l.msb = r.msb := by
  have hne : l.toNat ≠ r.toNat := fun he => h (BitVec.eq_of_toNat_eq he)
  have hl := l.isLt
  have hr := r.isLt
  have hsign : (l.toNat - r.toNat : Int).sign = if l.toNat < r.toNat then -1 else 1 := by
    split
    · exact Int.sign_eq_neg_one_of_neg (by omega)
    · exact Int.sign_eq_one_of_pos (by omega)
  have hchar : (compareChar l r).sign = if l.toInt < r.toInt then -1 else 1 := by
    have hint : l.toInt ≠ r.toInt := fun he => h (BitVec.eq_of_toInt_eq he)
    unfold compareChar
    split
    · rfl
    · rw [if_pos (by omega)]
      rfl
  have hside : ∀ {x : Byte}, x.msb = decide (128 ≤ x.toNat) := fun {x} => BitVec.msb_eq_decide x
  have hltl := BitVec.toInt_eq_toNat_cond l
  have hltr := BitVec.toInt_eq_toNat_cond r
  rw [hsign, hchar, hside, hside, hltl, hltr, decide_eq_decide]
  grind

/-- **The x86 loop.** With no pair that differs the byte behind the range is
read. -/
theorem x86_compares_iff (lhs rhs : Nat → Byte) (count : Nat) :
    Compares lhs rhs count (x86Memcmp lhs rhs count) ↔
      ∃ i < count, (∀ j < i, lhs j = rhs j) ∧ lhs i ≠ rhs i ∧ (lhs i).msb = (rhs i).msb := by
  have hstop := x86Loop_stop lhs rhs 0 count
  have hreads := x86Loop_reads lhs rhs 0 count
  have hlast : (x86Loop lhs rhs count 0).1 ∈ (x86Memcmp lhs rhs count).reads :=
    List.mem_append_right _ (List.mem_singleton_self _)
  have hresult : (x86Memcmp lhs rhs count).result =
      compareChar (lhs (x86Loop lhs rhs count 0).1) (rhs (x86Loop lhs rhs count 0).1) := rfl
  cases h : firstDiff lhs rhs 0 count with
  | none =>
    rw [h, Option.getD_none, Nat.zero_add] at hstop
    apply iff_of_false
    · intro hc
      have hlt := hc.reads _ hlast
      omega
    · rintro ⟨i, hi, -, hne, -⟩
      exact hne (firstDiff_eq_none.mp h i hi)
  | some k =>
    rw [h, Option.getD_some] at hstop
    obtain ⟨hk, heq, hne⟩ := firstDiff_eq_some.mp h
    rw [hstop] at hresult hreads
    constructor
    · intro hc
      have hsign := hc.sign k hk heq hne
      rw [hresult] at hsign
      exact ⟨k, hk, heq, hne, (compareChar_sign_iff hne).mp hsign⟩
    · rintro ⟨i, hi, hbefore, hdiff, hside⟩
      have hi' := firstDiff_eq_some.mpr ⟨hi, hbefore, hdiff⟩
      have hik : i = k := Option.some.inj (hi'.symm.trans h)
      subst hik
      apply compares_of_some h
      · rw [hresult]
        exact (compareChar_sign_iff hne).mpr hside
      · intro j hj
        rcases List.mem_append.mp hj with hj | hj
        · exact (hreads j hj).trans_lt hk
        · rw [List.mem_singleton.mp hj]
          exact hstop.trans_lt hk

/-- **Agreement.** Both do what `memcmp` is for exactly when the x86 loop does. -/
theorem memcmp_agree_iff (lhs rhs : Nat → Byte) (count : Nat) :
    Compares lhs rhs count (x86Memcmp lhs rhs count) ∧
        Compares lhs rhs count (x64Memcmp lhs rhs count) ↔
      ∃ i < count, (∀ j < i, lhs j = rhs j) ∧ lhs i ≠ rhs i ∧ (lhs i).msb = (rhs i).msb := by
  rw [← x86_compares_iff, and_iff_left (x64_compares lhs rhs count)]

/-- Four equal bytes and a fifth that differs; and bytes of both sides of 0x80. -/
theorem memcmp_disagree :
    let lhs : Nat → Byte := fun i => if i < 4 then 0x41 else 0
    let rhs : Nat → Byte := fun _ => 0x41
    (∀ i < 4, lhs i = rhs i) ∧
      x86Memcmp lhs rhs 4 = ⟨-1, [0, 1, 2, 3, 4, 4]⟩ ∧
      x64Memcmp lhs rhs 4 = ⟨0, [0, 1, 2, 3]⟩ ∧
      (x86Memcmp (fun _ => 0x80) (fun _ => 0x7F) 1).result = -1 ∧
      (x64Memcmp (fun _ => 0x80) (fun _ => 0x7F) 1).result = 1 ∧
      ¬ Compares lhs rhs 4 (x86Memcmp lhs rhs 4) := by
  intro lhs rhs
  have heq : ∀ i < 4, lhs i = rhs i := by decide
  refine ⟨heq, rfl, rfl, rfl, rfl, ?_⟩
  intro hc
  have hzero : (-1 : Int) = 0 := hc.zero.mpr heq
  omega

end

end X64SmpOs.Memcmp

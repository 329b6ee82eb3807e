import Mathlib.Data.BitVec
import Mathlib.Tactic.IntervalCases
import X64SmpOs.Lib.Greedy
import X64SmpOs.Lib.Memory

/-!
# The root pointer of the ACPI tables

`get_rsdp_address` looks for `RSD PTR` with one state for each letter. After a letter that
does not fit it starts anew behind that letter, so that an `R` which ends a partial match
begins none.

* `getRsdpAddress_eq`: the switch is a greedy search over the bytes the index comes to;
* `getRsdpAddress_iff`: the first occurrence is returned exactly when no odd number of
  partial matches comes directly before it, and it ends before the index turns negative.
-/

namespace X64SmpOs.Rsdp

open Memory

/-- `RSD PTR`. -/
def signature : List Byte := [0x52, 0x53, 0x44, 0x20, 0x50, 0x54, 0x52]

/-- `switch(state)`. -/
def switchState (state : Nat) (c : Byte) : Nat :=
  match state with
  | 0 => if c = 0x52 then 1 else state
  | 1 => if c = 0x53 then state + 1 else 0
  | 2 => if c = 0x44 then state + 1 else 0
  | 3 => if c = 0x20 then state + 1 else 0
  | 4 => if c = 0x50 then state + 1 else 0
  | 5 => if c = 0x54 then state + 1 else 0
  | 6 => if c = 0x52 then state + 1 else 0
  | _ => state

/-- The loop, `size` rounds before its end; the bytes lie at the distances the `int i`
can have from `data`. -/
def searchLoop (data : Int → Byte) (i : BitVec 32) (state : Nat) : Nat → Option Int
  | 0 => none
  | size + 1 =>
    let state := switchState state (data i.toInt)
    if state = 7 then some (i.toInt - 6) else searchLoop data (i + 1) state size

/-- The address, less `data`. `size_t` has 32 bits, and `i` is compared as one. -/
def getRsdpAddress (data : Int → Byte) (msize : BitVec 32) : Option Int :=
  searchLoop data 0 0 msize.toNat

/-- The array. -/
def arrayOf (data : Int → Byte) (msize : BitVec 32) : List Byte :=
  (List.range msize.toNat).map fun i : Nat => data (i : Int)

/-- The bytes the loop reads. -/
def readBytes (data : Int → Byte) (msize : BitVec 32) : List Byte :=
  (List.range msize.toNat).map fun i => data (BitVec.ofNat 32 i).toInt

open Greedy

theorem switchState_eq {state : Nat} (h : state < 7) (c : Byte) :
    switchState state c = step signature state c := by
  unfold step
  interval_cases state <;> simp [switchState, signature, eq_comm]

theorem signature_headOnce : HeadOnce signature := by
  intro k h1 h2
  have hlt : k < 6 := Nat.lt_of_succ_lt_succ h2
  interval_cases k <;> decide

/-- The loop is a search over the bytes that are left. -/
theorem searchLoop_eq (data : Int → Byte) {size n state : Nat} (h : state < 7)
    (hn : n + size < 2 ^ 32) :
    searchLoop data (BitVec.ofNat 32 n) state size =
      (scan signature state
        ((List.range' n size).map fun i => data (BitVec.ofNat 32 i).toInt)).map
          fun e => (BitVec.ofNat 32 (n + e - 1)).toInt - 6 := by
  induction size generalizing n state with
  | zero => rfl
  | succ size ih =>
    have hstep := switchState_eq h (data (BitVec.ofNat 32 n).toInt)
    rw [List.range'_succ, List.map_cons, scan, searchLoop, hstep]
    have hlen : signature.length = 7 := rfl
    rw [hlen]
    by_cases hfull : step signature state (data (BitVec.ofNat 32 n).toInt) = 7
    · rw [if_pos hfull, if_pos hfull]
      rfl
    · have hle := step_le signature state (data (BitVec.ofNat 32 n).toInt)
      rw [hlen] at hle
      have hnext : BitVec.ofNat 32 n + 1 = BitVec.ofNat 32 (n + 1) := by
        rw [BitVec.ofNat_add]
        rfl
      rw [if_neg hfull, if_neg hfull, hnext, ih (by omega) (by omega), Option.map_map]
      refine congrArg (Option.map · _) (funext fun e => ?_)
      show _ = (BitVec.ofNat 32 (n + (e + 1) - 1)).toInt - 6
      rw [show n + 1 + e - 1 = n + (e + 1) - 1 by omega]

theorem getRsdpAddress_eq (data : Int → Byte) (msize : BitVec 32) :
    getRsdpAddress data msize = (scan signature 0 (readBytes data msize)).map
      fun e => (BitVec.ofNat 32 (e - 1)).toInt - 6 := by
  have h := @searchLoop_eq data msize.toNat 0 0 (by decide) (by rw [Nat.zero_add]; exact msize.isLt)
  simp only [Nat.zero_add] at h
  rw [readBytes, List.range_eq_range']
  exact h

/-- As long as the index is not negative the loop reads the array. -/
theorem readBytes_take (data : Int → Byte) (msize : BitVec 32) {i : Nat} (hi : i ≤ 2 ^ 31) :
    (readBytes data msize).take i = (arrayOf data msize).take i := by
  rw [readBytes, arrayOf, ← List.map_take, ← List.map_take]
  refine List.map_congr_left fun n hn => congrArg data ?_
  have hlt : n < i := by
    rw [List.take_range, List.mem_range] at hn
    omega
  rw [BitVec.toInt_eq_toNat_cond, BitVec.toNat_ofNat]
  omega

/-- What is found in the array, or with a negative index. -/
theorem result_eq {e : Nat} (hpos : 7 ≤ e) (he : e < 2 ^ 32) :
    (e ≤ 2 ^ 31 ∧ (BitVec.ofNat 32 (e - 1)).toInt - 6 = ((e - 7 : Nat) : Int)) ∨
      (2 ^ 31 < e ∧ (BitVec.ofNat 32 (e - 1)).toInt - 6 < 0) := by
  rw [BitVec.toInt_eq_toNat_cond, BitVec.toNat_ofNat]
  omega

/-- The first occurrence is returned, and `NULL` if there is none. -/
def Exact (data : Int → Byte) (msize : BitVec 32) : Prop :=
  (∀ p : Nat, FirstAt signature (arrayOf data msize) p →
      getRsdpAddress data msize = some (p : Int)) ∧
    (getRsdpAddress data msize = none ↔ ∀ p, ¬ OccursAt signature (arrayOf data msize) p)

section Result

variable {data : Int → Byte} {msize : BitVec 32} {p : Nat}

theorem occursAt_readBytes (hp : p + 7 ≤ 2 ^ 31) :
    OccursAt signature (readBytes data msize) p ↔ OccursAt signature (arrayOf data msize) p := by
  rw [← occursAt_take (P := signature) (i := 2 ^ 31) hp, readBytes_take data msize le_rfl]
  exact occursAt_take (P := signature) hp

/-- An address in the array is returned if the search ends there, with a positive index. -/
theorem getRsdpAddress_eq_some_iff : getRsdpAddress data msize = some (p : Int) ↔
    p + 7 ≤ 2 ^ 31 ∧ scan signature 0 (readBytes data msize) = some (p + 7) := by
  rw [getRsdpAddress_eq, Option.map_eq_some_iff]
  constructor
  · rintro ⟨e, he, hp⟩
    obtain ⟨-, hle, hfull, -⟩ := (scan_eq_some_iff (q := [])).mp he
    have h7 : 7 ≤ e := (occurs_of_state hle hfull).1
    rw [readBytes, List.length_map, List.length_range] at hle
    rcases result_eq h7 (hle.trans_lt msize.isLt) with ⟨h1, h2⟩ | ⟨-, h2⟩
    · obtain rfl : e = p + 7 := by omega
      exact ⟨h1, he⟩
    · omega
  · rintro ⟨hp, hscan⟩
    refine ⟨p + 7, hscan, ?_⟩
    rcases result_eq (e := p + 7) (by omega) (by omega) with ⟨-, h2⟩ | ⟨h1, -⟩
    · rw [h2, Nat.add_sub_cancel]
    · omega

theorem getRsdpAddress_first_iff (h : FirstAt signature (arrayOf data msize) p) :
    getRsdpAddress data msize = some (p : Int) ↔
      p + 7 ≤ 2 ^ 31 ∧ ¬ Hidden signature ((arrayOf data msize).take p) := by
  rw [getRsdpAddress_eq_some_iff]
  refine and_congr_right fun hp => ?_
  have hfirst : FirstAt signature (readBytes data msize) p :=
    ⟨(occursAt_readBytes hp).mpr h.1, fun q hq hocc =>
      h.2 q hq ((occursAt_readBytes (by omega)).mp hocc)⟩
  rw [← readBytes_take data msize (by omega : p ≤ 2 ^ 31)]
  exact scan_first_iff signature_headOnce (by decide) hfirst

theorem getRsdpAddress_eq_none_iff : getRsdpAddress data msize = none ↔
    ∀ p, OccursAt signature (readBytes data msize) p →
      Hidden signature ((readBytes data msize).take p) := by
  rw [getRsdpAddress_eq, Option.map_eq_none_iff]
  exact scan_eq_none_iff signature_headOnce (by decide)

end Result

/-- **Search.** The first occurrence is returned exactly when it ends where the index is
not negative yet and no odd number of partial matches comes directly before it. Without
an occurrence `NULL` is returned if every one among the bytes read is hidden. -/
theorem getRsdpAddress_iff (data : Int → Byte) (msize : BitVec 32) :
    Exact data msize ↔
      (∀ p, FirstAt signature (arrayOf data msize) p →
        p + 7 ≤ 2 ^ 31 ∧ ¬ Hidden signature ((arrayOf data msize).take p)) ∧
      ((∀ p, ¬ OccursAt signature (arrayOf data msize) p) →
        ∀ p, OccursAt signature (readBytes data msize) p →
          Hidden signature ((readBytes data msize).take p)) := by
  constructor
  · rintro ⟨hsome, hnone⟩
    exact ⟨fun p hp => (getRsdpAddress_first_iff hp).mp (hsome p hp), fun hno =>
      getRsdpAddress_eq_none_iff.mp (hnone.mpr hno)⟩
  · rintro ⟨hsome, hnone⟩
    have hfirst : ∀ p : Nat, FirstAt signature (arrayOf data msize) p →
        getRsdpAddress data msize = some (p : Int) :=
      fun p hp => (getRsdpAddress_first_iff hp).mpr (hsome p hp)
    refine ⟨hfirst, fun h p hocc => ?_, fun hno => getRsdpAddress_eq_none_iff.mpr (hnone hno)⟩
    obtain ⟨q, hq⟩ := exists_firstAt hocc
    cases h.symm.trans (hfirst q hq)

/-- A string with zeros around it. -/
def bytesAt (l : List Byte) (i : Int) : Byte := if i < 0 then 0 else l.getD i.toNat 0

example : getRsdpAddress (bytesAt (0x20 :: signature)) 8 = some 1 := by decide

/-- `RRSD PTR`: the first `R` is a partial match, and the second one is lost with it. -/
theorem getRsdpAddress_sample_fails :
    FirstAt signature (arrayOf (bytesAt (0x52 :: signature)) 8) 1 ∧
      getRsdpAddress (bytesAt (0x52 :: signature)) 8 = none ∧
      ¬ Exact (bytesAt (0x52 :: signature)) 8 := by
  have hfirst : FirstAt signature (arrayOf (bytesAt (0x52 :: signature)) 8) 1 := by
    unfold FirstAt OccursAt
    decide
  have hnone : getRsdpAddress (bytesAt (0x52 :: signature)) 8 = none := by decide
  refine ⟨hfirst, hnone, fun h => ?_⟩
  cases hnone.symm.trans (h.1 1 hfirst)

end X64SmpOs.Rsdp

import Mathlib.Algebra.Group.Nat.Even
import Mathlib.Algebra.Ring.Parity
import Mathlib.Data.List.Induction
import Mathlib.Data.Nat.Find
import Mathlib.Order.Lattice

/-!
# A search that never goes back

The state is the number of letters of the pattern matched so far. A letter that does not
fit sets it to zero and is not looked at again. The first letter of the pattern comes
again at most as its last one.

* `occurs_of_state`: what is found is an occurrence;
* `state_eq_zero_iff`: the state is zero unless an odd number of partial matches, one
  directly after the other, comes last;
* `scan_isSome_iff`, `scan_first_iff`: an occurrence is found exactly when it is not
  hidden by such a number of partial matches.
-/

namespace X64SmpOs.Greedy

universe u
variable {α : Type u} [DecidableEq α] (P : List α)

/-- One letter. -/
def step (k : Nat) (c : α) : Nat := if P[k]? = some c then k + 1 else 0

/-- The state after all letters. -/
def state (xs : List α) : Nat := xs.foldl (step P) 0

/-- The number of letters read when the pattern is complete. -/
def scan : Nat → List α → Option Nat
  | _, [] => none
  | k, c :: rest =>
    if step P k c = P.length then some 1 else (scan (step P k c) rest).map (· + 1)

/-- The pattern begins at `p`. -/
def OccursAt (xs : List α) (p : Nat) : Prop := P <+: xs.drop p

def FirstAt (xs : List α) (p : Nat) : Prop := OccursAt P xs p ∧ ∀ q < p, ¬ OccursAt P xs q

/-- A part of the pattern, from its first letter on. -/
def Partial (w : List α) : Prop := ∃ j, 0 < j ∧ j < P.length ∧ w = P.take j

/-- An odd number of partial matches comes last, with none before them. -/
def Hidden (xs : List α) : Prop :=
  ∃ q, ∃ ws : List (List α), xs = q ++ ws.flatten ∧ (∀ w ∈ ws, Partial P w) ∧
    (∀ w, Partial P w → ¬ w <:+ q) ∧ Odd ws.length

variable {P} {xs q : List α} {k i j p : Nat}

/-! ## The state -/

theorem state_concat (xs : List α) (c : α) : state P (xs ++ [c]) = step P (state P xs) c := by
  rw [state, List.foldl_append]
  rfl

theorem step_le (P : List α) (k : Nat) (c : α) : step P k c ≤ P.length := by
  unfold step
  split
  · rename_i h
    exact (List.getElem?_eq_some_iff.mp h).1
  · exact Nat.zero_le _

theorem state_le (P xs : List α) : state P xs ≤ P.length := by
  induction xs using List.reverseRecOn with
  | nil => exact Nat.zero_le _
  | append_singleton xs c => rw [state_concat]; exact step_le ..

/-- The letters matched are those read last. -/
theorem take_state_suffix (P xs : List α) : P.take (state P xs) <:+ xs := by
  induction xs using List.reverseRecOn with
  | nil => exact List.suffix_rfl
  | append_singleton xs c ih =>
    rw [state_concat, step]
    split
    · rename_i h
      obtain ⟨t, ht⟩ := ih
      refine ⟨t, ?_⟩
      rw [List.take_add_one, h, ← List.append_assoc, ht]
      rfl
    · exact List.nil_suffix

theorem occurs_of_state (hi : i ≤ xs.length) (h : state P (xs.take i) = P.length) :
    P.length ≤ i ∧ OccursAt P xs (i - P.length) := by
  have hsuf := take_state_suffix P (xs.take i)
  rw [h, List.take_length] at hsuf
  obtain ⟨t, ht⟩ := hsuf
  have hlen := congrArg List.length ht
  rw [List.length_append, List.length_take, Nat.min_eq_left hi] at hlen
  refine ⟨by omega, xs.drop i, ?_⟩
  have hxs : xs = t ++ (P ++ xs.drop i) := by
    rw [← List.append_assoc, ht, List.take_append_drop]
  have hdrop : xs.drop (i - P.length) = (t ++ (P ++ xs.drop i)).drop t.length := by
    rw [← hxs]
    congr 1
    omega
  rw [hdrop, List.drop_left]

/-- From state zero a part of the pattern is matched. -/
theorem state_append_take (hq : state P q = 0) (hj : j ≤ P.length) :
    state P (q ++ P.take j) = j := by
  induction j with
  | zero => rw [List.take_zero, List.append_nil, hq]
  | succ j ih =>
    have hget : P[j]? = some P[j] := List.getElem?_eq_getElem (by omega)
    rw [List.take_add_one, hget, ← List.append_assoc]
    refine (state_concat ..).trans ?_
    rw [ih (by omega), step, if_pos hget]

/-- The first letter comes again at most as the last one. -/
def HeadOnce (P : List α) : Prop := ∀ k, 0 < k → k + 1 < P.length → P[k]? ≠ P[0]?

/-- From any other state it is lost. -/
theorem state_append_lost (hP : HeadOnce P) (hq : state P q ≠ 0)
    (hno : state P (q ++ P.take 1) ≠ P.length) (hpos : 0 < j) (hj : j < P.length) :
    state P (q ++ P.take j) = 0 := by
  induction j with
  | zero => exact absurd hpos (lt_irrefl 0)
  | succ j ih =>
    have hget : P[j]? = some P[j] := List.getElem?_eq_getElem (by omega)
    rcases Nat.eq_zero_or_pos j with rfl | hj0
    · have hone : P.take 1 = [P[0]] := by rw [List.take_add_one, hget]; rfl
      rw [hone, state_concat] at hno ⊢
      unfold step at hno ⊢
      split
      · rename_i h
        rw [if_pos h] at hno
        have hlt := (List.getElem?_eq_some_iff.mp h).1
        exact absurd (h.trans hget.symm) (hP _ (Nat.pos_of_ne_zero hq) (by omega))
      · rfl
    · rw [List.take_add_one, hget, ← List.append_assoc]
      refine (state_concat ..).trans ?_
      rw [ih hj0 (by omega), step, if_neg]
      intro h
      exact hP j hj0 hj (hget.trans h.symm)

/-! ## Partial matches -/

/-- No prefix completes the pattern. -/
def Unfound (P xs : List α) : Prop := ∀ r, r <+: xs → state P r ≠ P.length

/-- Each partial match takes the state from zero, or back to it. -/
theorem state_flatten_iff (hP : HeadOnce P) {ws : List (List α)} (hw : ∀ w ∈ ws, Partial P w)
    (hno : Unfound P (q ++ ws.flatten)) :
    state P (q ++ ws.flatten) = 0 ↔ (Even ws.length ↔ state P q = 0) := by
  induction ws generalizing q with
  | nil => simp
  | cons w ws ih =>
    obtain ⟨j, hpos, hj, rfl⟩ := hw w List.mem_cons_self
    have hsplit : q ++ (P.take j :: ws).flatten = q ++ P.take j ++ ws.flatten := by
      rw [List.flatten_cons, List.append_assoc]
    rw [hsplit] at hno ⊢
    have hstep : state P (q ++ P.take j) = 0 ↔ state P q ≠ 0 := by
      constructor
      · intro h hq
        rw [state_append_take hq hj.le] at h
        omega
      · intro hq
        refine state_append_lost hP hq (hno _ ?_) hpos hj
        rw [List.append_assoc]
        refine (List.prefix_append_right_inj q).mpr (List.IsPrefix.trans ?_ (List.prefix_append ..))
        exact List.take_prefix_take_left hpos
    rw [ih (fun w hm => hw w (List.mem_cons_of_mem _ hm)) hno, hstep, List.length_cons,
      Nat.even_add_one]
    tauto

omit [DecidableEq α] in
/-- The partial matches that come last. -/
theorem exists_partials (P xs : List α) : ∃ q, ∃ ws : List (List α), xs = q ++ ws.flatten ∧
    (∀ w ∈ ws, Partial P w) ∧ ∀ w, Partial P w → ¬ w <:+ q := by
  induction hn : xs.length using Nat.strong_induction_on generalizing xs with
  | _ n ih =>
    by_cases h : ∃ w, Partial P w ∧ w <:+ xs
    · obtain ⟨w, hw, t, rfl⟩ := h
      obtain ⟨j, hpos, hj, rfl⟩ := hw
      have hlen : (P.take j).length = j := by rw [List.length_take]; omega
      rw [List.length_append, hlen] at hn
      obtain ⟨q, ws, rfl, hws, hq⟩ := ih t.length (by omega) t rfl
      refine ⟨q, ws ++ [P.take j], by simp, fun w hm => ?_, hq⟩
      rcases List.mem_append.mp hm with hm | hm
      · exact hws w hm
      · obtain rfl := List.mem_singleton.mp hm
        exact ⟨j, hpos, hj, rfl⟩
    · refine ⟨xs, [], by simp, fun w hm => absurd hm List.not_mem_nil, fun w hw hs => h ⟨w, hw, hs⟩⟩

/-- **The state between matches.** -/
theorem state_eq_zero_iff (hP : HeadOnce P) (hno : Unfound P xs) :
    state P xs = 0 ↔ ¬ Hidden P xs := by
  have hstate : ∀ q, q <+: xs → (∀ w, Partial P w → ¬ w <:+ q) → state P q = 0 := by
    intro q hpre hq
    by_contra h
    have hlt : state P q < P.length := lt_of_le_of_ne (state_le P q) (hno q hpre)
    exact hq _ ⟨_, Nat.pos_of_ne_zero h, hlt, rfl⟩ (take_state_suffix P q)
  constructor
  · rintro h ⟨q, ws, rfl, hws, hq, hodd⟩
    have hiff := (state_flatten_iff hP hws hno).mp h
    exact Nat.not_even_iff_odd.mpr hodd (hiff.mpr (hstate q (List.prefix_append ..) hq))
  · intro h
    obtain ⟨q, ws, rfl, hws, hq⟩ := exists_partials P xs
    have heven : Even ws.length := by
      by_contra hodd
      exact h ⟨q, ws, rfl, hws, hq, Nat.not_even_iff_odd.mp hodd⟩
    exact (state_flatten_iff hP hws hno).mpr
      ⟨fun _ => hstate q (List.prefix_append ..) hq, fun _ => heven⟩

/-! ## The search -/

omit [DecidableEq α] in
theorem append_take_succ (q xs : List α) (c : α) (j : Nat) :
    q ++ (c :: xs).take (j + 1) = q ++ [c] ++ xs.take j := by simp

theorem state_append_take_one (c : α) :
    state P (q ++ (c :: xs).take 1) = step P (state P q) c := by
  rw [append_take_succ, List.take_zero, List.append_nil, state_concat]

theorem scan_eq_some_iff : scan P (state P q) xs = some i ↔
    0 < i ∧ i ≤ xs.length ∧ state P (q ++ xs.take i) = P.length ∧
      ∀ j, 0 < j → j < i → state P (q ++ xs.take j) ≠ P.length := by
  induction xs generalizing q i with
  | nil =>
    refine ⟨fun h => absurd h (by simp [scan]), ?_⟩
    rintro ⟨h1, h2, -⟩
    exact absurd h1 (Nat.not_lt.mpr h2)
  | cons c xs ih =>
    have hone : state P (q ++ (c :: xs).take 1) = step P (state P q) c := state_append_take_one c
    rw [scan]
    split
    · -- the letter completes the pattern
      rename_i hfull
      constructor
      · intro h
        obtain rfl := Option.some.inj h
        exact ⟨Nat.one_pos, by simp, hone.trans hfull, fun j h1 h2 => by omega⟩
      · rintro ⟨h1, -, -, h4⟩
        rcases Nat.lt_or_ge 1 i with hi | hi
        · exact absurd (hone.trans hfull) (h4 1 Nat.one_pos hi)
        · rw [show i = 1 by omega]
    · rename_i hfull
      rw [← state_concat, Option.map_eq_some_iff]
      constructor
      · rintro ⟨j, hj, rfl⟩
        obtain ⟨-, h2, h3, h4⟩ := ih.mp hj
        rw [← append_take_succ] at h3
        refine ⟨Nat.succ_pos j, Nat.succ_le_succ h2, h3, fun l h5 h6 => ?_⟩
        obtain ⟨l, rfl⟩ := Nat.exists_eq_succ_of_ne_zero (Nat.ne_of_gt h5)
        rcases Nat.eq_zero_or_pos l with rfl | hl
        · exact fun h => hfull (hone.symm.trans h)
        · rw [Nat.succ_eq_add_one, append_take_succ]
          exact h4 l hl (by omega)
      · rintro ⟨h1, h2, h3, h4⟩
        obtain ⟨j, rfl⟩ := Nat.exists_eq_succ_of_ne_zero (Nat.ne_of_gt h1)
        have hj : 0 < j := by
          refine Nat.pos_of_ne_zero fun h0 => ?_
          rw [h0] at h3
          exact hfull (hone.symm.trans h3)
        rw [Nat.succ_eq_add_one, append_take_succ] at h3
        refine ⟨j, ih.mpr ⟨hj, Nat.le_of_succ_le_succ h2, h3, fun l h5 h6 => ?_⟩, rfl⟩
        rw [← append_take_succ]
        exact h4 (l + 1) (Nat.succ_pos l) (by omega)

theorem exists_scan {n : Nat} (hn : 0 < n) (hle : n ≤ xs.length)
    (h : state P (q ++ xs.take n) = P.length) : ∃ i, i ≤ n ∧ scan P (state P q) xs = some i := by
  induction n using Nat.strong_induction_on with
  | _ n ih =>
    by_cases hless : ∃ j, 0 < j ∧ j < n ∧ state P (q ++ xs.take j) = P.length
    · obtain ⟨j, h1, h2, h3⟩ := hless
      obtain ⟨i, hi, hscan⟩ := ih j h2 h1 (by omega) h3
      exact ⟨i, by omega, hscan⟩
    · exact ⟨n, le_rfl, scan_eq_some_iff.mpr
        ⟨hn, hle, h, fun j h1 h2 h3 => hless ⟨j, h1, h2, h3⟩⟩⟩

theorem unfound_take (h : ∀ j, j ≤ i → state P (xs.take j) ≠ P.length) :
    Unfound P (xs.take i) := by
  intro r hr
  rw [List.prefix_iff_eq_take.mp hr, List.take_take]
  exact h _ (Nat.min_le_right ..)

omit [DecidableEq α] in
theorem OccursAt.take_eq (h : OccursAt P xs p) (hj : j ≤ P.length) :
    xs.take (p + j) = xs.take p ++ P.take j := by
  obtain ⟨t, ht⟩ := h
  rw [List.take_add, ← ht, List.take_append_of_le_length hj]

omit [DecidableEq α] in
theorem OccursAt.le_length (h : OccursAt P xs p) (hpos : 0 < P.length) :
    p + P.length ≤ xs.length := by
  have hlen := h.length_le
  rw [List.length_drop] at hlen
  omega

omit [DecidableEq α] in
/-- An occurrence depends on the letters up to its end. -/
theorem occursAt_take (h : p + P.length ≤ i) : OccursAt P (xs.take i) p ↔ OccursAt P xs p := by
  unfold OccursAt
  rw [List.drop_take, List.prefix_take_iff]
  exact and_iff_left (by omega)

omit [DecidableEq α] in
theorem exists_firstAt (h : OccursAt P xs p) : ∃ q, FirstAt P xs q := by
  classical
  exact ⟨Nat.find ⟨p, h⟩, Nat.find_spec ⟨p, h⟩, fun _ hq => Nat.find_min ⟨p, h⟩ hq⟩

section Found

variable (hP : HeadOnce P) (htwo : 2 ≤ P.length)

include hP htwo

/-- An occurrence is found if the state is zero where it begins. -/
theorem found_iff (h : OccursAt P xs p)
    (hno : ∀ j, j < p + P.length → state P (xs.take j) ≠ P.length) :
    state P (xs.take (p + P.length)) = P.length ↔ ¬ Hidden P (xs.take p) := by
  rw [← state_eq_zero_iff hP (unfound_take fun j hj => hno j (by omega)), h.take_eq le_rfl]
  constructor
  · intro hfull
    by_contra hq
    have hone := hno (p + 1) (by omega)
    rw [h.take_eq (by omega)] at hone
    have hlost := state_append_lost hP hq hone (j := P.length - 1) (by omega) (by omega)
    have hlast : P.take P.length = P.take (P.length - 1) ++ [P[P.length - 1]] := by
      have hget : P[P.length - 1]? = some P[P.length - 1] := List.getElem?_eq_getElem (by omega)
      conv_lhs => rw [show P.length = P.length - 1 + 1 by omega]
      rw [List.take_add_one, hget]
      rfl
    rw [hlast, ← List.append_assoc, state_concat, hlost, step] at hfull
    split at hfull <;> omega
  · exact fun hq => state_append_take hq le_rfl

/-- **The first occurrence** is found unless it is hidden. -/
theorem scan_first_iff (h : FirstAt P xs p) :
    scan P 0 xs = some (p + P.length) ↔ ¬ Hidden P (xs.take p) := by
  have hle := h.1.le_length (by omega)
  have hno : ∀ j, j < p + P.length → state P (xs.take j) ≠ P.length := by
    intro j hj hfull
    obtain ⟨hn, hocc⟩ := occurs_of_state (by omega) hfull
    exact h.2 _ (by omega) hocc
  rw [← found_iff hP htwo h.1 hno]
  refine (scan_eq_some_iff (q := [])).trans ?_
  simp only [List.nil_append]
  exact ⟨fun hs => hs.2.2.1, fun hfull => ⟨by omega, hle, hfull, fun j _ hj => hno j hj⟩⟩

/-- Nothing is found if every occurrence is hidden. -/
theorem scan_eq_none_iff :
    scan P 0 xs = none ↔ ∀ p, OccursAt P xs p → Hidden P (xs.take p) := by
  constructor
  · intro hnone p h
    have hno : ∀ j, j ≤ xs.length → state P (xs.take j) ≠ P.length := by
      intro j hj hfull
      have hpos : 0 < j := by
        have hn := (occurs_of_state hj hfull).1
        omega
      obtain ⟨i, -, hi⟩ := exists_scan (q := []) hpos hj hfull
      cases hnone.symm.trans hi
    have hle := h.le_length (by omega)
    by_contra hhid
    exact hno _ hle ((found_iff hP htwo h fun j hj => hno j (by omega)).mpr hhid)
  · intro h
    cases hscan : scan P 0 xs with
    | none => rfl
    | some i =>
      obtain ⟨hpos, hi, hfull, hno⟩ := (scan_eq_some_iff (q := [])).mp hscan
      simp only [List.nil_append] at hfull hno
      obtain ⟨hn, hocc⟩ := occurs_of_state hi hfull
      have hback : i - P.length + P.length = i := by omega
      have hno' : ∀ j, j < i - P.length + P.length → state P (xs.take j) ≠ P.length := by
        intro j hj
        rcases Nat.eq_zero_or_pos j with rfl | hj0
        · rw [List.take_zero]
          intro h0
          have hz : state P [] = 0 := rfl
          omega
        · exact hno j hj0 (by omega)
      exact absurd (h _ hocc) ((found_iff hP htwo hocc hno').mp (by rw [hback]; exact hfull))

end Found

end X64SmpOs.Greedy

import Mathlib.Data.List.Nodup

/-!
# Doubly linked rings

`next` and `prev` read the two links of a node.

* `Path next prev p xs q`: from `p` the nodes `xs` lead to `q`, linked both ways;
* `Linked`: the nodes `xs` between a node and itself, none twice;
* `path_next`, `path_prev`: the neighbours of the ends;
* `path_insert`, `path_remove`: a node put in or taken out by the links of its
  neighbours;
* `ring_reverse`: a ring read the other way;
* `walk`: the walk along one link; `walk_ring` says it meets the nodes in order.
-/

namespace X64SmpOs.Ring

universe u
variable {α : Type u}

def Path (next prev : α → α) : α → List α → α → Prop
  | p, [], q => next p = q ∧ prev q = p
  | p, x :: xs, q => (next p = x ∧ prev x = p) ∧ Path next prev x xs q

structure Linked (next prev : α → α) (h : α) (xs : List α) : Prop where
  nodup : (h :: xs).Nodup
  path : Path next prev h xs h

variable {next prev next' prev' : α → α}

theorem path_append (p : α) (xs : List α) (y : α) (ys : List α) (q : α) :
    Path next prev p (xs ++ y :: ys) q ↔ Path next prev p xs y ∧ Path next prev y ys q := by
  induction xs generalizing p with
  | nil => exact Iff.rfl
  | cons x xs ih => simp only [List.cons_append, Path, ih, and_assoc]

/-- A path reads `next` of all its nodes but the last and `prev` of all but the first. -/
theorem path_congr {p q : α} {xs : List α} (hn : ∀ x ∈ p :: xs, next' x = next x)
    (hp : ∀ x ∈ xs ++ [q], prev' x = prev x) (h : Path next prev p xs q) :
    Path next' prev' p xs q := by
  induction xs generalizing p with
  | nil => exact ⟨(hn p (by simp)).trans h.1, (hp q (by simp)).trans h.2⟩
  | cons x xs ih =>
    obtain ⟨⟨h1, h2⟩, h3⟩ := h
    refine ⟨⟨(hn p (by simp)).trans h1, (hp x (by simp)).trans h2⟩, ?_⟩
    exact ih (fun y hy => hn y (List.mem_cons_of_mem p hy))
      (fun y hy => hp y (List.mem_cons_of_mem x hy)) h3

theorem ring_congr {h : α} {xs : List α} (hn : ∀ x ∈ h :: xs, next' x = next x)
    (hp : ∀ x ∈ h :: xs, prev' x = prev x) (hr : Linked next prev h xs) :
    Linked next' prev' h xs := by
  refine ⟨hr.nodup, path_congr hn (fun x hx => hp x ?_) hr.path⟩
  rcases List.mem_append.mp hx with hx | hx
  · exact List.mem_cons_of_mem h hx
  · rw [List.mem_singleton.mp hx]
    exact List.mem_cons_self

theorem ring_nil {h : α} (hn : next h = h) (hp : prev h = h) : Linked next prev h [] :=
  ⟨by simp, hn, hp⟩

/-! ## Neighbours -/

theorem path_next {p q : α} {xs : List α} (h : Path next prev p xs q) :
    next p = xs.headD q := by
  cases xs with
  | nil => exact h.1
  | cons x xs => exact h.1.1

theorem path_prev {p q : α} {xs : List α} (h : Path next prev p xs q) :
    prev q = xs.getLastD p := by
  induction xs generalizing p with
  | nil => exact h.2
  | cons x xs ih =>
    rw [List.getLastD_cons]
    exact ih h.2

theorem getLastD_mem (p : α) (xs : List α) : xs.getLastD p ∈ p :: xs := by
  induction xs generalizing p with
  | nil => exact List.mem_cons_self
  | cons x xs ih =>
    rw [List.getLastD_cons]
    exact List.mem_cons_of_mem p (ih x)

theorem headD_mem (xs : List α) (q : α) : xs.headD q ∈ xs ++ [q] := by
  cases xs <;> simp

/-! ## One node put in or taken out -/

/-- `e` linked between the two parts of a path. -/
theorem path_insert {p q e : α} {xs ys : List α} (hp : (p :: (xs ++ ys)).Nodup)
    (hq : (xs ++ (ys ++ [q])).Nodup)
    (hbefore : next' (xs.getLastD p) = e ∧ prev' e = xs.getLastD p)
    (hbehind : next' e = ys.headD q ∧ prev' (ys.headD q) = e)
    (hn : ∀ x ∈ p :: (xs ++ ys), x ≠ xs.getLastD p → next' x = next x)
    (hv : ∀ x ∈ xs ++ (ys ++ [q]), x ≠ ys.headD q → prev' x = prev x)
    (h : Path next prev p (xs ++ ys) q) : Path next' prev' p (xs ++ e :: ys) q := by
  induction xs generalizing p with
  | nil =>
    refine ⟨hbefore, ?_⟩
    cases ys with
    | nil => exact hbehind
    | cons y ys =>
      refine ⟨hbehind, path_congr (fun x hx => ?_) (fun x hx => ?_) h.2⟩
      · have hne : x ≠ p := fun hxp => (List.nodup_cons.mp hp).1 (hxp ▸ hx)
        exact hn x (List.mem_cons_of_mem p hx) hne
      · have hne : x ≠ y := fun hxy => (List.nodup_cons.mp hq).1 (hxy ▸ hx)
        exact hv x (List.mem_cons_of_mem y hx) hne
  | cons x xs ih =>
    have hlast := getLastD_mem x xs
    rw [List.getLastD_cons] at hbefore hn
    have hpne : p ≠ xs.getLastD x := fun he => (List.nodup_cons.mp hp).1
      (List.mem_append_left ys (he ▸ hlast))
    have hxne : x ≠ ys.headD q := fun he => (List.nodup_cons.mp hq).1
      (List.mem_append_right xs (he ▸ headD_mem ys q))
    refine ⟨⟨(hn p (by simp) hpne).trans h.1.1, (hv x (by simp) hxne).trans h.1.2⟩, ?_⟩
    exact ih (List.nodup_cons.mp hp).2 (List.nodup_cons.mp hq).2 hbefore
      (fun y hy => hn y (List.mem_cons_of_mem p hy))
      (fun y hy => hv y (List.mem_cons_of_mem x hy)) h.2

/-- The two neighbours of `e` linked to each other. -/
theorem path_remove {p q e : α} {xs ys : List α} (hp : (p :: (xs ++ e :: ys)).Nodup)
    (hq : (xs ++ e :: (ys ++ [q])).Nodup)
    (hlink : next' (xs.getLastD p) = ys.headD q ∧ prev' (ys.headD q) = xs.getLastD p)
    (hn : ∀ x ∈ p :: (xs ++ ys), x ≠ xs.getLastD p → next' x = next x)
    (hv : ∀ x ∈ xs ++ (ys ++ [q]), x ≠ ys.headD q → prev' x = prev x)
    (h : Path next prev p (xs ++ e :: ys) q) : Path next' prev' p (xs ++ ys) q := by
  induction xs generalizing p with
  | nil =>
    obtain ⟨-, h⟩ := h
    cases ys with
    | nil => exact hlink
    | cons y ys =>
      refine ⟨hlink, path_congr (fun x hx => ?_) (fun x hx => ?_) h.2⟩
      · have hne : x ≠ p := fun hxp => (List.nodup_cons.mp hp).1
          (List.mem_cons_of_mem e (hxp ▸ hx))
        exact hn x (List.mem_cons_of_mem p hx) hne
      · have hne : x ≠ y := fun hxy =>
          (List.nodup_cons.mp (List.nodup_cons.mp hq).2).1 (hxy ▸ hx)
        exact hv x (List.mem_cons_of_mem y hx) hne
  | cons x xs ih =>
    have hlast := getLastD_mem x xs
    rw [List.getLastD_cons] at hlink hn
    have hpne : p ≠ xs.getLastD x := fun he => (List.nodup_cons.mp hp).1
      (List.mem_append_left (e :: ys) (he ▸ hlast))
    have hxne : x ≠ ys.headD q := fun he => (List.nodup_cons.mp hq).1
      (List.mem_append_right xs (List.mem_cons_of_mem e (he ▸ headD_mem ys q)))
    refine ⟨⟨(hn p (by simp) hpne).trans h.1.1, (hv x (by simp) hxne).trans h.1.2⟩, ?_⟩
    exact ih (List.nodup_cons.mp hp).2 (List.nodup_cons.mp hq).2 hlink
      (fun y hy => hn y (List.mem_cons_of_mem p hy))
      (fun y hy => hv y (List.mem_cons_of_mem x hy)) h.2

/-- The nodes of a ring with its first one at the end. -/
theorem nodup_rotate {h : α} {xs : List α} (hx : (h :: xs).Nodup) : (xs ++ [h]).Nodup :=
  (List.perm_append_singleton h xs).nodup_iff.mpr hx

/-! ## The other way round -/

theorem path_reverse {p q : α} {xs : List α} (h : Path next prev p xs q) :
    Path prev next q xs.reverse p := by
  induction xs generalizing p with
  | nil => exact ⟨h.2, h.1⟩
  | cons x xs ih =>
    rw [List.reverse_cons]
    exact (path_append q xs.reverse x [] p).mpr ⟨ih h.2, h.1.2, h.1.1⟩

theorem ring_reverse {h : α} {xs : List α} (hr : Linked next prev h xs) :
    Linked prev next h xs.reverse := by
  refine ⟨?_, path_reverse hr.path⟩
  rw [List.nodup_cons, List.mem_reverse, List.nodup_reverse]
  exact List.nodup_cons.mp hr.nodup

/-- The same ring from its next node. -/
theorem ring_rotate {h x : α} {xs : List α} (hr : Linked next prev h (x :: xs)) :
    Linked next prev x (xs ++ [h]) := by
  constructor
  · rw [← List.cons_append]
    exact nodup_rotate hr.nodup
  · obtain ⟨hx, hpath⟩ := hr.path
    exact (path_append x xs h [] x).mpr ⟨hpath, hx⟩

/-! ## Walks -/

variable [DecidableEq α]

/-- The nodes from `p` on, up to `stop`; there is no result when the fuel ends first. -/
def walk (next : α → α) (stop : α) : Nat → α → Option (List α)
  | 0, _ => none
  | fuel + 1, p => if p = stop then some [] else (walk next stop fuel (next p)).map (p :: ·)

theorem walk_path {p q : α} {xs : List α} (hq : q ∉ xs) (h : Path next prev p xs q)
    {fuel : Nat} (hf : xs.length < fuel) : walk next q fuel (next p) = some xs := by
  induction xs generalizing p fuel with
  | nil =>
    obtain ⟨fuel, rfl⟩ := Nat.exists_eq_succ_of_ne_zero (Nat.ne_of_gt hf)
    rw [walk, if_pos h.1]
  | cons x xs ih =>
    obtain ⟨fuel, rfl⟩ := Nat.exists_eq_succ_of_ne_zero (by omega : fuel ≠ 0)
    have hx : x ≠ q := fun he => hq (he ▸ List.mem_cons_self)
    have hrest := ih (fun hm => hq (List.mem_cons_of_mem x hm)) h.2
      (by simpa using hf : xs.length < fuel)
    rw [walk, h.1.1, if_neg hx, hrest]
    rfl

/-- The walk around a ring. -/
theorem walk_ring {h : α} {xs : List α} (hr : Linked next prev h xs) {fuel : Nat}
    (hf : xs.length < fuel) : walk next h fuel (next h) = some xs :=
  walk_path (List.nodup_cons.mp hr.nodup).1 hr.path hf

/-- A walk in a ring never comes to a node outside it. -/
theorem walk_outside {p stop : α} {xs : List α} (hr : Linked next prev p xs)
    (hstop : stop ∉ p :: xs) (fuel : Nat) {x : α} (hx : x ∈ p :: xs) :
    walk next stop fuel x = none := by
  have hclosed : ∀ y ∈ p :: xs, next y ∈ p :: xs := by
    intro y hy
    obtain ⟨as, bs, hsplit⟩ := List.append_of_mem hy
    cases as with
    | nil =>
      obtain ⟨rfl, rfl⟩ := List.cons.inj hsplit
      have hhead := headD_mem xs p
      rw [path_next hr.path]
      exact (List.perm_append_singleton p xs).mem_iff.mp hhead
    | cons a as =>
      obtain ⟨rfl, rfl⟩ := List.cons.inj hsplit
      have hpath := (path_append p as y bs p).mp hr.path
      rw [path_next hpath.2]
      have hhead := headD_mem bs p
      rcases List.mem_append.mp hhead with hm | hm
      · exact List.mem_cons_of_mem p (List.mem_append_right as (List.mem_cons_of_mem y hm))
      · rw [List.mem_singleton.mp hm]
        exact List.mem_cons_self
  induction fuel generalizing x with
  | zero => rfl
  | succ fuel ih =>
    have hne : x ≠ stop := fun he => hstop (he ▸ hx)
    rw [walk, if_neg hne, ih (hclosed x hx)]
    rfl

end X64SmpOs.Ring

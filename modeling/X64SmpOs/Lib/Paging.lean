import Mathlib.Logic.Function.Basic
import Mathlib.Data.Nat.Bitwise

/-!
# Page tables in memory

A page table is a page of 512 entries of eight bytes; an entry is zero or holds the
address of the next table. A table is known by the indices that lead to it from the
root, the last one first.

* `Layout.Live`, `Layout.Tree`: the tables that can be reached, each in a page of its
  own;
* `Layout.leaf`: the entry at the lowest level, zero where a table is missing;
* `Tree.grow`: a zeroed page under a zero entry changes no leaf;
* `Tree.write`: a write into a lowest table changes that leaf only.
-/

namespace X64SmpOs.Paging

/-- Memory by quadwords. -/
abbrev Mem := BitVec 64 → BitVec 64

/-- Bits 12 to 51 of an entry: the address of a page. -/
def addrField (e : BitVec 64) : BitVec 64 := (e <<< 12) >>> 24 <<< 12

def present (e : BitVec 64) : Bool := e.getLsbD 0
def writeThrough (e : BitVec 64) : Bool := e.getLsbD 3
def cacheDisable (e : BitVec 64) : Bool := e.getLsbD 4
def pageSize (e : BitVec 64) : Bool := e.getLsbD 7

/-- Page-aligned and below `2 ^ 52`. -/
def IsPage (t : BitVec 64) : Prop := addrField t = t

def entryAt (t : BitVec 64) (i : Nat) : BitVec 64 := t + BitVec.ofNat 64 (8 * i)

/-- A page filled with zeros. -/
def zeroPage (m : Mem) (t : BitVec 64) : Mem := fun a => if (a - t).toNat < 4096 then 0 else m a

/-! ## Pages and entries -/

theorem addrField_toNat (e : BitVec 64) :
    (addrField e).toNat = e.toNat / 2 ^ 12 % 2 ^ 40 * 2 ^ 12 := by
  simp only [addrField, BitVec.toNat_shiftLeft, BitVec.toNat_ushiftRight, Nat.shiftLeft_eq,
    Nat.shiftRight_eq_div_pow]
  omega

theorem isPage_iff {t : BitVec 64} : IsPage t ↔ t.toNat % 4096 = 0 ∧ t.toNat < 2 ^ 52 := by
  rw [IsPage, ← BitVec.toNat_inj, addrField_toNat]
  omega

theorem isPage_addrField (e : BitVec 64) : IsPage (addrField e) := by
  rw [isPage_iff, addrField_toNat]
  omega

theorem addrField_or (a b : BitVec 64) : addrField (a ||| b) = addrField a ||| addrField b := by
  simp only [addrField, BitVec.shiftLeft_or_distrib, BitVec.ushiftRight_or_distrib]

section Entries

variable {t u : BitVec 64} {i j : Nat} {m : Mem}

theorem entryAt_toNat (ht : IsPage t) (hi : i < 512) : (entryAt t i).toNat = t.toNat + 8 * i := by
  obtain ⟨-, hlt⟩ := isPage_iff.mp ht
  rw [entryAt, BitVec.toNat_add, BitVec.toNat_ofNat]
  omega

/-- Entries of different tables, and different entries of one, lie apart. -/
theorem entryAt_inj (ht : IsPage t) (hu : IsPage u) (hi : i < 512) (hj : j < 512)
    (h : entryAt t i = entryAt u j) : t = u ∧ i = j := by
  have hn := congrArg BitVec.toNat h
  rw [entryAt_toNat ht hi, entryAt_toNat hu hj] at hn
  obtain ⟨h1, -⟩ := isPage_iff.mp ht
  obtain ⟨h2, -⟩ := isPage_iff.mp hu
  exact ⟨BitVec.toNat_inj.mp (by omega), by omega⟩

theorem zeroPage_self (hi : i < 512) : zeroPage m t (entryAt t i) = 0 := by
  refine if_pos ?_
  rw [entryAt, BitVec.add_comm, BitVec.add_sub_cancel, BitVec.toNat_ofNat]
  omega

theorem entryAt_apart (ht : IsPage t) (hu : IsPage u) (hne : u ≠ t) (hi : i < 512) :
    4096 ≤ (entryAt u i - t).toNat := by
  have hne' : u.toNat ≠ t.toNat := fun h => hne (BitVec.toNat_inj.mp h)
  obtain ⟨h1, h3⟩ := isPage_iff.mp ht
  obtain ⟨h2, h4⟩ := isPage_iff.mp hu
  rw [BitVec.toNat_sub, entryAt_toNat hu hi]
  omega

theorem zeroPage_ne (ht : IsPage t) (hu : IsPage u) (hne : u ≠ t) (hi : i < 512) :
    zeroPage m t (entryAt u i) = m (entryAt u i) :=
  if_neg (Nat.not_lt.mpr (entryAt_apart ht hu hne hi))

end Entries

/-! ## Tables -/

/-- The first table with the number of its entries in use, and the number of levels
below it. -/
structure Layout where
  root : BitVec 64
  top : Nat
  depth : Nat
  page : IsPage root
  top_le : top ≤ 512

namespace Layout

variable (L : Layout) (m : Mem)

def bound : List Nat → Nat
  | [] => L.top
  | _ :: _ => 512

def addr : List Nat → BitVec 64
  | [] => L.root
  | i :: p => addrField (m (entryAt (addr p) i))

/-- The `i`-th entry of a table. -/
def slot (p : List Nat) (i : Nat) : BitVec 64 := entryAt (L.addr m p) i

/-- The entries on the way to the table are not zero. -/
def Live : List Nat → Prop
  | [] => True
  | i :: p => Live p ∧ p.length < L.depth ∧ i < L.bound p ∧ m (L.slot m p i) ≠ 0

/-- Every table is in a page of its own, and the entries that lead to tables are table
entries. -/
structure Tree : Prop where
  inj : ∀ p q, L.Live m p → L.Live m q → L.addr m p = L.addr m q → p = q
  table : ∀ i p, L.Live m (i :: p) →
    present (m (L.slot m p i)) = true ∧ pageSize (m (L.slot m p i)) = false

open Classical in
/-- An entry at the lowest level. -/
noncomputable def leaf (p : List Nat) (i : Nat) : BitVec 64 :=
  if L.Live m p ∧ p.length = L.depth then m (L.slot m p i) else 0

variable {L m} {m' : Mem} {p q : List Nat} {i j : Nat}

theorem bound_le (L : Layout) (p : List Nat) : L.bound p ≤ 512 := by
  cases p with
  | nil => exact L.top_le
  | cons => exact le_rfl

theorem isPage_addr (L : Layout) (m : Mem) (p : List Nat) : IsPage (L.addr m p) := by
  cases p with
  | nil => exact L.page
  | cons => exact isPage_addrField _

theorem Live.length_le (h : L.Live m p) : p.length ≤ L.depth := by
  cases p with
  | nil => exact Nat.zero_le _
  | cons => exact h.2.1

theorem leaf_live (h : L.Live m p) (hdepth : p.length = L.depth) (i : Nat) :
    L.leaf m p i = m (L.slot m p i) := if_pos ⟨h, hdepth⟩

theorem leaf_dead (h : ¬ L.Live m p) (i : Nat) : L.leaf m p i = 0 := if_neg fun hc => h hc.1

/-- Entries of two live tables are the same word only if they are the same entry. -/
theorem Tree.slot_inj (h : L.Tree m) (hp : L.Live m p) (hq : L.Live m q) (hi : i < 512)
    (hj : j < 512)
    (heq : L.slot m p i = L.slot m q j) : p = q ∧ i = j := by
  obtain ⟨h1, h2⟩ := entryAt_inj (L.isPage_addr m p) (L.isPage_addr m q) hi hj heq
  exact ⟨h.inj p q hp hq h1, h2⟩

/-- Tables do not depend on more than the entries that lead to tables. -/
theorem live_congr (h : ∀ p i, L.Live m p → p.length < L.depth → i < L.bound p →
      m' (L.slot m p i) = m (L.slot m p i)) (p : List Nat) :
    (L.Live m' p ↔ L.Live m p) ∧ (L.Live m p → L.addr m' p = L.addr m p) := by
  induction p with
  | nil => exact ⟨Iff.rfl, fun _ => rfl⟩
  | cons i p ih =>
    obtain ⟨hlive, haddr⟩ := ih
    have hslot : L.Live m p → p.length < L.depth → i < L.bound p →
        m' (L.slot m' p i) = m (L.slot m p i) := fun hp hd hi => by
      rw [slot, haddr hp, ← slot, h p i hp hd hi]
    refine ⟨⟨?_, ?_⟩, ?_⟩
    · rintro ⟨h1, h2, h3, h4⟩
      exact ⟨hlive.mp h1, h2, h3, hslot (hlive.mp h1) h2 h3 ▸ h4⟩
    · rintro ⟨h1, h2, h3, h4⟩
      exact ⟨hlive.mpr h1, h2, h3, (hslot h1 h2 h3).symm ▸ h4⟩
    · rintro ⟨h1, h2, h3, -⟩
      exact congrArg addrField (hslot h1 h2 h3)

/-- **Write.** An entry of a lowest table is written. -/
theorem Tree.write (h : L.Tree m) (hp : L.Live m p) (hdepth : p.length = L.depth) (hi : i < 512)
    (v : BitVec 64) :
    L.Tree (Function.update m (L.slot m p i) v) ∧
      ∀ q j, j < 512 → L.leaf (Function.update m (L.slot m p i) v) q j =
        if q = p ∧ j = i then v else L.leaf m q j := by
  have hkeep : ∀ q j, L.Live m q → j < 512 → ¬ (q = p ∧ j = i) →
      Function.update m (L.slot m p i) v (L.slot m q j) = m (L.slot m q j) := fun q j hq hj hne =>
    Function.update_of_ne (fun heq => hne (h.slot_inj hq hp hj hi heq)) ..
  generalize hm : Function.update m (L.slot m p i) v = m' at *
  have hcongr := live_congr fun q j hq hd hj =>
    hkeep q j hq (hj.trans_le (L.bound_le q)) fun he => by
    rw [he.1, hdepth] at hd
    exact lt_irrefl _ hd
  refine ⟨⟨fun q r hq hr heq => ?_, fun j q hq => ?_⟩, fun q j hj => ?_⟩
  · have hq' := (hcongr q).1.mp hq
    have hr' := (hcongr r).1.mp hr
    rw [(hcongr q).2 hq', (hcongr r).2 hr'] at heq
    exact h.inj q r hq' hr' heq
  · have hq' := (hcongr (j :: q)).1.mp hq
    obtain ⟨h1, h2, h3, -⟩ := id hq'
    have hne : ¬ (q = p ∧ j = i) := fun he => by
      rw [he.1, hdepth] at h2
      exact lt_irrefl _ h2
    rw [slot, (hcongr q).2 h1, ← slot, hkeep q j h1 (h3.trans_le (L.bound_le q)) hne]
    exact h.table j q hq'
  · by_cases hq : L.Live m q ∧ q.length = L.depth
    · rw [leaf_live ((hcongr q).1.mpr hq.1) hq.2, leaf_live hq.1 hq.2, slot, (hcongr q).2 hq.1,
        ← slot]
      by_cases he : q = p ∧ j = i
      · rw [if_pos he, he.1, he.2, ← hm, Function.update_self]
      · rw [if_neg he, hkeep q j hq.1 hj he]
    · have hleaf : L.leaf m' q j = 0 := if_neg fun hq' => hq ⟨(hcongr q).1.mp hq'.1, hq'.2⟩
      have hleaf' : L.leaf m q j = 0 := if_neg hq
      rw [hleaf, hleaf', if_neg]
      rintro ⟨rfl, -⟩
      exact hq ⟨hp, hdepth⟩

/-- A page that is no table. -/
structure Fresh (L : Layout) (m : Mem) (t : BitVec 64) : Prop where
  page : IsPage t
  unused : ∀ q, L.Live m q → L.addr m q ≠ t

/-- Memory with the page `t`, zeroed, as the table below a zero entry. -/
def link (L : Layout) (m : Mem) (p : List Nat) (i : Nat) (t e : BitVec 64) : Mem :=
  Function.update (zeroPage m t) (L.slot m p i) e

section Grow

variable {t e : BitVec 64}

theorem link_slot (h : L.Tree m) (hp : L.Live m p) (hi : i < 512) (ht : L.Fresh m t)
    (hq : L.Live m q) (hj : j < 512) : L.link m p i t e (L.slot m q j) =
      if q = p ∧ j = i then e else m (L.slot m q j) := by
  unfold link
  by_cases he : q = p ∧ j = i
  · rw [if_pos he, he.1, he.2, Function.update_self]
  · rw [if_neg he, Function.update_of_ne fun heq => he (h.slot_inj hq hp hj hi heq)]
    exact zeroPage_ne ht.page (L.isPage_addr m q) (ht.unused q hq) hj

/-- The new table is empty. -/
theorem link_new (hp : L.Live m p) (hi : i < 512) (ht : L.Fresh m t) (hj : j < 512) :
    L.link m p i t e (entryAt t j) = 0 := by
  unfold link
  rw [Function.update_of_ne, zeroPage_self hj]
  intro heq
  exact ht.unused p hp (entryAt_inj ht.page (L.isPage_addr m p) hj hi heq).1.symm

/-- The tables are those there were and the new one. -/
theorem live_link (h : L.Tree m) (hp : L.Live m p) (hdepth : p.length < L.depth)
    (hi : i < L.bound p)
    (hzero : m (L.slot m p i) = 0) (ht : L.Fresh m t) (he : e ≠ 0) (headdr : addrField e = t)
    (q : List Nat) :
    (L.Live (L.link m p i t e) q ↔ L.Live m q ∨ q = i :: p) ∧
      (L.Live m q → L.addr (L.link m p i t e) q = L.addr m q) ∧
      (q = i :: p → L.addr (L.link m p i t e) q = t) := by
  have hi' := hi.trans_le (L.bound_le p)
  have hnew : ¬ L.Live m (i :: p) := fun hl => hl.2.2.2 hzero
  induction q with
  | nil => exact ⟨⟨Or.inl, fun _ => trivial⟩, fun _ => rfl, nofun⟩
  | cons j q ih =>
    obtain ⟨hlive, haddr, hnewaddr⟩ := ih
    have hslot : L.Live m q → j < 512 → L.link m p i t e (L.slot (L.link m p i t e) q j) =
        if q = p ∧ j = i then e else m (L.slot m q j) := fun hq hj => by
      rw [slot, haddr hq, ← slot, link_slot h hp hi' ht hq hj]
    refine ⟨⟨?_, ?_⟩, ?_, ?_⟩
    · rintro ⟨h1, h2, h3, h4⟩
      have hj := h3.trans_le (L.bound_le q)
      rcases hlive.mp h1 with hq | hq
      · rw [hslot hq hj] at h4
        by_cases hpi : q = p ∧ j = i
        · exact Or.inr (by rw [hpi.1, hpi.2])
        · rw [if_neg hpi] at h4
          exact Or.inl ⟨hq, h2, h3, h4⟩
      · -- below the new table there is nothing
        rw [slot, hnewaddr hq, link_new hp hi' ht hj] at h4
        exact absurd rfl h4
    · rintro (⟨h1, h2, h3, h4⟩ | heq)
      · have hpi : ¬ (q = p ∧ j = i) := fun hpi => h4 (by rw [hpi.1, hpi.2, hzero])
        refine ⟨hlive.mpr (Or.inl h1), h2, h3, ?_⟩
        rw [hslot h1 (h3.trans_le (L.bound_le q)), if_neg hpi]
        exact h4
      · obtain ⟨rfl, rfl⟩ := List.cons.inj heq
        refine ⟨hlive.mpr (Or.inl hp), hdepth, hi, ?_⟩
        rw [hslot hp hi', if_pos ⟨rfl, rfl⟩]
        exact he
    · rintro ⟨h1, h2, h3, h4⟩
      have hpi : ¬ (q = p ∧ j = i) := fun hpi => h4 (by rw [hpi.1, hpi.2, hzero])
      refine congrArg addrField ?_
      rw [← slot, hslot h1 (h3.trans_le (L.bound_le q)), if_neg hpi]
      rfl
    · intro heq
      obtain ⟨rfl, rfl⟩ := List.cons.inj heq
      rw [addr, ← slot, hslot hp hi', if_pos ⟨rfl, rfl⟩, headdr]

/-- **Grow.** A fresh page becomes a table, and no leaf changes. -/
theorem Tree.grow (h : L.Tree m) (hp : L.Live m p) (hdepth : p.length < L.depth)
    (hi : i < L.bound p)
    (hzero : m (L.slot m p i) = 0) (ht : L.Fresh m t) (headdr : addrField e = t)
    (hpresent : present e = true) (hsize : pageSize e = false) :
    L.Tree (L.link m p i t e) ∧
      ∀ q j, j < 512 → L.leaf (L.link m p i t e) q j = L.leaf m q j := by
  have hi' := hi.trans_le (L.bound_le p)
  have he : e ≠ 0 := by
    rintro rfl
    cases hpresent
  have hlive := live_link h hp hdepth hi hzero ht he headdr
  refine ⟨⟨fun q r hq hr heq => ?_, fun j q hq => ?_⟩, fun q j hj => ?_⟩
  · rcases (hlive q).1.mp hq with hq | hq <;> rcases (hlive r).1.mp hr with hr | hr
    · rw [(hlive q).2.1 hq, (hlive r).2.1 hr] at heq
      exact h.inj q r hq hr heq
    · rw [(hlive q).2.1 hq, (hlive r).2.2 hr] at heq
      exact absurd heq (ht.unused q hq)
    · rw [(hlive q).2.2 hq, (hlive r).2.1 hr] at heq
      exact absurd heq.symm (ht.unused r hr)
    · rw [hq, hr]
  · rcases (hlive (j :: q)).1.mp hq with hq | hq
    · have hpi : ¬ (q = p ∧ j = i) := fun hpi => hq.2.2.2 (by rw [hpi.1, hpi.2, hzero])
      have hj := hq.2.2.1.trans_le (L.bound_le q)
      rw [slot, (hlive q).2.1 hq.1, ← slot, link_slot h hp hi' ht hq.1 hj, if_neg hpi]
      exact h.table j q hq
    · obtain ⟨rfl, rfl⟩ := List.cons.inj hq
      rw [slot, (hlive q).2.1 hp, ← slot, link_slot h hp hi' ht hp hi', if_pos ⟨rfl, rfl⟩]
      exact ⟨hpresent, hsize⟩
  · by_cases hd : q.length = L.depth
    · have hpi : ¬ (q = p ∧ j = i) := fun hpi => by
        rw [hpi.1] at hd
        omega
      by_cases hq : L.Live m q
      · rw [leaf_live ((hlive q).1.mpr (Or.inl hq)) hd, leaf_live hq hd, slot, (hlive q).2.1 hq,
          ← slot, link_slot h hp hi' ht hq hj, if_neg hpi]
      · rw [leaf_dead hq]
        by_cases hnew : q = i :: p
        · rw [leaf_live ((hlive q).1.mpr (Or.inr hnew)) hd, slot, (hlive q).2.2 hnew,
            link_new hp hi' ht hj]
        · exact leaf_dead (fun hc => ((hlive q).1.mp hc).elim hq hnew) j
    · have hleaf : ∀ m : Mem, L.leaf m q j = 0 := fun m => if_neg fun hc => hd hc.2
      rw [hleaf, hleaf]

end Grow

end Layout

end X64SmpOs.Paging

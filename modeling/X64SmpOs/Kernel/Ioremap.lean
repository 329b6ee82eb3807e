import Mathlib.Tactic.Linarith
import X64SmpOs.Lib.Paging

/-!
# Uncached mappings

`kernel/ioremap.c` over the four-level tables at `0x90000`. All memory is mapped one to
one, so that the addresses in entries are used as pointers.

* `walk`: the entry of a 2 MiB page the processor comes to;
* `mapPage_extends`, `mapPage_spec`: an iteration of the loop adds the tables that are
  missing and sets the entry of its page, and no other;
* `ioremapNocache_iff`: the whole range is mapped exactly when the part of it outside
  the first page was.
-/

namespace X64SmpOs.Ioremap

open Paging

/-- Memory, and the pages `get_free_page` returns from now on. -/
structure Mm where
  mem : Mem
  free : List (BitVec 64)

def fourLevelHeadTableAddr : BitVec 64 := 0x90000

/-- The address field of `*entry`. -/
def pml4GEAddr (m : Mem) (entry : BitVec 64) : BitVec 64 := addrField (m entry)

def pml4VrtToPml4Idx (vrt : BitVec 64) : Nat := ((vrt &&& 0xffffffffffff) >>> 39).toNat
def pml4VrtToPdptIdx (vrt : BitVec 64) : Nat := ((vrt &&& 0x7fffffffff) >>> 30).toNat
def pml4VrtToPdtIdx (vrt : BitVec 64) : Nat := ((vrt &&& 0x3fffffff) >>> 21).toNat

/-- `NULL` when there is no page left. -/
def getFreePage (s : Mm) : BitVec 64 × Mm :=
  match s.free with
  | [] => (0, s)
  | page :: free => (page, { s with free := free })

/-- `if(*entry == 0)` and its body. -/
def allocTable (s : Mm) (entry : BitVec 64) : Mm :=
  if s.mem entry = 0 then
    let r := getFreePage s
    let mem := zeroPage r.2.mem r.1
    { r.2 with mem := Function.update mem entry (r.1 ||| 0b1011) }
  else s

/-- The body of the loop in `_arch_ioremap_nocache`. -/
def mapPage (s : Mm) (alignAddr : BitVec 64) : Mm :=
  let entry := entryAt fourLevelHeadTableAddr (pml4VrtToPml4Idx alignAddr)
  let s := allocTable s entry
  let entry := entryAt (pml4GEAddr s.mem entry) (pml4VrtToPdptIdx alignAddr)
  let s := allocTable s entry
  let entry := entryAt (pml4GEAddr s.mem entry) (pml4VrtToPdtIdx alignAddr)
  { s with mem := Function.update s.mem entry (alignAddr ||| 0b10001011) }

def archIoremapNocache (s : Mm) (alignAddr : BitVec 64) : Nat → Mm
  | 0 => s
  | cout + 1 => archIoremapNocache (mapPage s alignAddr) (alignAddr + 0x200000) cout

def mapSize : BitVec 64 := 0x200000

/-- `?:` binds less than `+`: the sum is the condition. -/
def mapCout (size : BitVec 64) : Nat :=
  if size / mapSize + (if size % mapSize > 0 then 1 else 0) ≠ 0 then 1 else 0

def ioremapNocache (s : Mm) (physAddr size : BitVec 64) : BitVec 64 × Mm :=
  let alignAddr := physAddr / mapSize * mapSize
  (physAddr, archIoremapNocache s alignAddr (mapCout size))

/-! ## What the processor does -/

/-- The entry in the page directory, zero if an entry above it leads to no table. -/
def walk (m : Mem) (vrt : BitVec 64) : BitVec 64 :=
  let e4 := m (entryAt fourLevelHeadTableAddr (pml4VrtToPml4Idx vrt))
  if present e4 then
    let e3 := m (entryAt (addrField e4) (pml4VrtToPdptIdx vrt))
    if present e3 && !pageSize e3 then m (entryAt (addrField e3) (pml4VrtToPdtIdx vrt)) else 0
  else 0

/-- Bits 21 to 51 of an entry: the address of a 2 MiB page. -/
def frame (e : BitVec 64) : BitVec 64 := (e <<< 12) >>> 33 <<< 21

/-- The address translates to itself through a present, uncached or write-through entry
of a 2 MiB page. -/
def Uncached (m : Mem) (vrt : BitVec 64) : Prop :=
  present (walk m vrt) = true ∧ pageSize (walk m vrt) = true ∧
    (writeThrough (walk m vrt) || cacheDisable (walk m vrt)) = true ∧
    frame (walk m vrt) + vrt % mapSize = vrt

instance (m : Mem) (vrt : BitVec 64) : Decidable (Uncached m vrt) :=
  inferInstanceAs (Decidable (_ ∧ _ ∧ _ ∧ _))

/-- The tables for the lower half of the address space. -/
def lowerHalf : Layout where
  root := fourLevelHeadTableAddr
  top := 256
  depth := 2
  page := (by decide : addrField 0x90000 = 0x90000)
  top_le := by decide

/-- The tables of the lower half are a tree, and the pages to come are fresh. -/
structure WellFormed (s : Mm) : Prop where
  tree : lowerHalf.Tree s.mem
  fresh : ∀ t ∈ s.free, lowerHalf.Fresh s.mem t
  nodup : s.free.Nodup

/-! ## Indices -/

section Indices

variable (v : BitVec 64)

theorem pml4Idx_eq : pml4VrtToPml4Idx v = v.toNat % 2 ^ 48 / 2 ^ 39 := by
  rw [pml4VrtToPml4Idx, BitVec.toNat_ushiftRight, BitVec.toNat_and, Nat.shiftRight_eq_div_pow]
  exact congrArg (· / 2 ^ 39) (Nat.and_two_pow_sub_one_eq_mod v.toNat 48)

theorem pdptIdx_eq : pml4VrtToPdptIdx v = v.toNat % 2 ^ 39 / 2 ^ 30 := by
  rw [pml4VrtToPdptIdx, BitVec.toNat_ushiftRight, BitVec.toNat_and, Nat.shiftRight_eq_div_pow]
  exact congrArg (· / 2 ^ 30) (Nat.and_two_pow_sub_one_eq_mod v.toNat 39)

theorem pdtIdx_eq : pml4VrtToPdtIdx v = v.toNat % 2 ^ 30 / 2 ^ 21 := by
  rw [pml4VrtToPdtIdx, BitVec.toNat_ushiftRight, BitVec.toNat_and, Nat.shiftRight_eq_div_pow]
  exact congrArg (· / 2 ^ 21) (Nat.and_two_pow_sub_one_eq_mod v.toNat 30)

/-- The page directory of an address. -/
def path : List Nat := [pml4VrtToPdptIdx v, pml4VrtToPml4Idx v]

theorem pml4Idx_lt (hv : v.toNat < 2 ^ 47) : pml4VrtToPml4Idx v < 256 := by
  rw [pml4Idx_eq]
  omega

theorem pdptIdx_lt : pml4VrtToPdptIdx v < 512 := by
  rw [pdptIdx_eq]
  omega

theorem pdtIdx_lt : pml4VrtToPdtIdx v < 512 := by
  rw [pdtIdx_eq]
  omega

end Indices

/-- Addresses with the same indices are in the same 2 MiB page. -/
theorem same_entry_iff {v w : BitVec 64} (hv : v.toNat < 2 ^ 47) (hw : w.toNat < 2 ^ 47) :
    (path v = path w ∧ pml4VrtToPdtIdx v = pml4VrtToPdtIdx w) ↔
      v.toNat / 2 ^ 21 = w.toNat / 2 ^ 21 := by
  simp only [path, List.cons.injEq, and_true, pml4Idx_eq, pdptIdx_eq, pdtIdx_eq]
  omega

/-! ## Walks -/

theorem walk_eq_leaf {m : Mem} (h : lowerHalf.Tree m) {v : BitVec 64} (hv : v.toNat < 2 ^ 47) :
    walk m v = lowerHalf.leaf m (path v) (pml4VrtToPdtIdx v) := by
  have hzero : ∀ e : BitVec 64, present e = true → e ≠ 0 := by
    rintro e he rfl
    cases he
  -- the entries on the way
  let e4 := m (lowerHalf.slot m [] (pml4VrtToPml4Idx v))
  let e3 := m (lowerHalf.slot m [pml4VrtToPml4Idx v] (pml4VrtToPdptIdx v))
  have hwalk : walk m v = if present e4 = true then
      if (present e3 && !pageSize e3) = true then m (lowerHalf.slot m (path v) (pml4VrtToPdtIdx v))
      else 0 else 0 := rfl
  have hlive : lowerHalf.Live m (path v) ↔ present e4 = true ∧
    (present e3 && !pageSize e3) = true := by
    rw [Bool.and_eq_true_iff]
    constructor
    · intro hl
      obtain ⟨h1, h2⟩ := h.table _ _ hl
      exact ⟨(h.table _ _ hl.1).1, h1, by simpa using h2⟩
    · rintro ⟨h1, h2, -⟩
      exact ⟨⟨trivial, Nat.zero_lt_two, pml4Idx_lt v hv, hzero _ h1⟩, Nat.one_lt_two, pdptIdx_lt v,
        hzero _ h2⟩
  rw [hwalk]
  by_cases hl : lowerHalf.Live m (path v)
  · obtain ⟨h1, h2⟩ := hlive.mp hl
    rw [if_pos h1, if_pos h2, Layout.leaf_live hl rfl]
  · rw [Layout.leaf_dead hl]
    split
    · rename_i h1
      exact if_neg fun h2 => hl (hlive.mpr ⟨h1, h2⟩)
    · rfl

/-! ## The code -/

theorem page_low {t : BitVec 64} (ht : IsPage t) {i : Nat} (hi : i < 12) : t.getLsbD i = false := by
  rw [← ht, addrField, BitVec.getLsbD_shiftLeft]
  simp [hi]

theorem table_entry {t : BitVec 64} (ht : IsPage t) :
    addrField (t ||| 0b1011) = t ∧ present (t ||| 0b1011) = true ∧
      pageSize (t ||| 0b1011) = false := by
  refine ⟨?_, ?_, ?_⟩
  · have hflags : addrField 0b1011 = 0 := by decide
    rw [addrField_or, ht, hflags]
    exact BitVec.or_zero
  · rw [present, BitVec.getLsbD_or]
    exact Bool.or_eq_true_iff.mpr (Or.inr rfl)
  · rw [pageSize, BitVec.getLsbD_or, page_low ht (by decide)]
    rfl

/-! ## Tables are added -/

/-- The tables form a tree, and the pages to come are fresh. -/
structure Supplied (L : Layout) (s : Mm) : Prop where
  tree : L.Tree s.mem
  fresh : ∀ t ∈ s.free, L.Fresh s.mem t
  nodup : s.free.Nodup

/-- From `s` to `s'` pages to come have become tables, and entries of lowest tables have
got values that `W` allows. -/
structure Extends (L : Layout) (W : List Nat → Nat → BitVec 64 → Prop) (s s' : Mm) : Prop where
  upper : ∀ q i, L.Live s.mem (i :: q) → s'.mem (L.slot s.mem q i) = s.mem (L.slot s.mem q i)
  leaf : ∀ q j, j < 512 →
    L.leaf s'.mem q j = L.leaf s.mem q j ∨ W q j (L.leaf s'.mem q j)
  taken : ∃ pages, s.free = pages ++ s'.free ∧ ∀ t, t ∈ pages ↔
    ∃ q, L.Live s'.mem q ∧ ¬ L.Live s.mem q ∧ L.addr s'.mem q = t
  elsewhere : ∀ a, (∀ q j, L.Live s.mem q → j < 512 → a ≠ L.slot s.mem q j) →
    (∀ t ∈ s.free, 4096 ≤ (a - t).toNat) → s'.mem a = s.mem a

namespace Extends

variable {L : Layout} {W : List Nat → Nat → BitVec 64 → Prop} {s s' s'' : Mm}

/-- A table stays where it is. -/
theorem keep (h : Extends L W s s') {q : List Nat} (hq : L.Live s.mem q) :
    L.Live s'.mem q ∧ L.addr s'.mem q = L.addr s.mem q := by
  induction q with
  | nil => exact ⟨trivial, rfl⟩
  | cons i q ih =>
    obtain ⟨hlive, haddr⟩ := ih hq.1
    have hword : s'.mem (L.slot s'.mem q i) = s.mem (L.slot s.mem q i) := by
      rw [Layout.slot, haddr, ← Layout.slot, h.upper q i hq]
    exact ⟨⟨hlive, hq.2.1, hq.2.2.1, hword ▸ hq.2.2.2⟩, congrArg addrField hword⟩

protected theorem refl (s : Mm) : Extends L W s s where
  upper _ _ _ := rfl
  leaf _ _ _ := Or.inl rfl
  taken := ⟨[], rfl, fun _ =>
    ⟨fun h => absurd h List.not_mem_nil, fun ⟨_, h1, h2, _⟩ => absurd h1 h2⟩⟩
  elsewhere _ _ _ := rfl

protected theorem trans (h : Extends L W s s') (h' : Extends L W s' s'') : Extends L W s s'' := by
  obtain ⟨pages, hpages, hmem⟩ := h.taken
  obtain ⟨pages', hpages', hmem'⟩ := h'.taken
  constructor
  case upper =>
    intro q i hq
    have hslot : L.slot s'.mem q i = L.slot s.mem q i := congrArg (entryAt · i) (h.keep hq.1).2
    rw [← h.upper q i hq, ← hslot]
    exact h'.upper q i (h.keep hq).1
  case leaf =>
    intro q j hj
    rcases h'.leaf q j hj with heq | hw
    · rw [heq]
      exact h.leaf q j hj
    · exact Or.inr hw
  case taken =>
    refine ⟨pages ++ pages', by rw [hpages, hpages', List.append_assoc], fun t => ?_⟩
    rw [List.mem_append, hmem, hmem']
    constructor
    · rintro (⟨q, h1, h2, h3⟩ | ⟨q, h1, h2, h3⟩)
      · exact ⟨q, (h'.keep h1).1, h2, (h'.keep h1).2.trans h3⟩
      · exact ⟨q, h1, fun hq => h2 (h.keep hq).1, h3⟩
    · rintro ⟨q, h1, h2, h3⟩
      by_cases hq : L.Live s'.mem q
      · exact Or.inl ⟨q, hq, h2, (h'.keep hq).2.symm.trans h3⟩
      · exact Or.inr ⟨q, h1, hq, h3⟩
  case elsewhere =>
    intro a hslots hfree
    rw [← h.elsewhere a hslots hfree]
    refine h'.elsewhere a (fun q j hq hj heq => ?_) fun t ht => hfree t ?_
    · by_cases hlive : L.Live s.mem q
      · exact hslots q j hlive hj (heq.trans (congrArg (entryAt · j) (h.keep hlive).2))
      · -- a table that was a page to come
        have hpage : L.addr s'.mem q ∈ pages := (hmem _).mpr ⟨q, hq, hlive, rfl⟩
        have hout := hfree _ (by rw [hpages]; exact List.mem_append_left _ hpage)
        rw [heq, Layout.slot, entryAt, BitVec.add_comm, BitVec.add_sub_cancel,
          BitVec.toNat_ofNat] at hout
        omega
    · rw [hpages]
      exact List.mem_append_right _ ht

end Extends

section Code

variable {L : Layout} {W : List Nat → Nat → BitVec 64 → Prop} {s : Mm}

theorem Supplied.head_fresh (hs : Supplied L s) {t : BitVec 64} {rest : List (BitVec 64)}
    (hrest : s.free = t :: rest) : L.Fresh s.mem t :=
  hs.fresh t (by rw [hrest]; exact List.mem_cons_self)

/-- The next page becomes a table below an entry that was zero. -/
theorem Supplied.link (hs : Supplied L s) {p : List Nat} {i : Nat} (hp : L.Live s.mem p)
    (hdepth : p.length < L.depth) (hi : i < L.bound p) (hzero : s.mem (L.slot s.mem p i) = 0)
    {t : BitVec 64} {rest : List (BitVec 64)} (hrest : s.free = t :: rest) :
    let s' : Mm := ⟨L.link s.mem p i t (t ||| 0b1011), rest⟩
    Supplied L s' ∧ L.Live s'.mem (i :: p) ∧ Extends L W s s' := by
  have ht := hs.head_fresh hrest
  obtain ⟨headdr, hpresent, hsize⟩ := table_entry ht.page
  have he : t ||| 0b1011 ≠ 0 := by
    intro h
    rw [h] at hpresent
    cases hpresent
  have hi' := hi.trans_le (L.bound_le p)
  have hlive := Layout.live_link hs.tree hp hdepth hi hzero ht he headdr
  obtain ⟨htree, hleaf⟩ := hs.tree.grow hp hdepth hi hzero ht headdr hpresent hsize
  have hnew : ¬ L.Live s.mem (i :: p) := fun hl => hl.2.2.2 hzero
  have hsupplied : Supplied L ⟨L.link s.mem p i t (t ||| 0b1011), rest⟩ := by
    have hnodup := hs.nodup
    rw [hrest, List.nodup_cons] at hnodup
    refine ⟨htree, fun u hu => ?_, hnodup.2⟩
    have hfresh := hs.fresh u (by rw [hrest]; exact List.mem_cons_of_mem _ hu)
    refine ⟨hfresh.page, fun q hq => ?_⟩
    rcases (hlive q).1.mp hq with hq | hq
    · rw [(hlive q).2.1 hq]
      exact hfresh.unused q hq
    · rw [(hlive q).2.2 hq]
      rintro rfl
      exact hnodup.1 hu
  refine ⟨hsupplied, (hlive _).1.mpr (Or.inr rfl), ?_⟩
  constructor
  case upper =>
    intro q j hq
    have hj := hq.2.2.1.trans_le (L.bound_le q)
    refine (Layout.link_slot hs.tree hp hi' ht hq.1 hj).trans (if_neg ?_)
    rintro ⟨rfl, rfl⟩
    exact hnew hq
  case leaf => exact fun q j hj => Or.inl (hleaf q j hj)
  case taken =>
    refine ⟨[t], hrest, fun u => ?_⟩
    rw [List.mem_singleton]
    constructor
    · rintro rfl
      exact ⟨i :: p, (hlive _).1.mpr (Or.inr rfl), hnew, (hlive _).2.2 rfl⟩
    · rintro ⟨q, h1, h2, h3⟩
      rw [← h3, (hlive q).2.2 (((hlive q).1.mp h1).resolve_left h2)]
  case elsewhere =>
    intro a hslots hpages
    have hpage := hpages t (by rw [hrest]; exact List.mem_cons_self)
    refine (Function.update_of_ne (hslots p i hp hi') ..).trans (if_neg ?_)
    exact Nat.not_lt.mpr hpage

/-- After the test there is a table below the entry. -/
theorem allocTable_extends (hs : Supplied L s) {p : List Nat} {i : Nat} (hp : L.Live s.mem p)
    (hdepth : p.length < L.depth) (hi : i < L.bound p)
    (hfree : s.mem (L.slot s.mem p i) = 0 → s.free ≠ []) :
    let s' := allocTable s (L.slot s.mem p i)
    Supplied L s' ∧ L.Live s'.mem (i :: p) ∧ Extends L W s s' ∧
      s.free.length ≤ s'.free.length + if s.mem (L.slot s.mem p i) = 0 then 1 else 0 := by
  by_cases hzero : s.mem (L.slot s.mem p i) = 0
  · obtain ⟨t, rest, hrest⟩ := List.exists_cons_of_ne_nil (hfree hzero)
    have halloc : allocTable s (L.slot s.mem p i) =
        ⟨L.link s.mem p i t (t ||| 0b1011), rest⟩ := by
      rw [allocTable, if_pos hzero, getFreePage, hrest]
      rfl
    rw [halloc, if_pos hzero]
    obtain ⟨hs', hlive, hext⟩ := hs.link (W := W) hp hdepth hi hzero hrest
    exact ⟨hs', hlive, hext, by rw [hrest]; simp⟩
  · have halloc : allocTable s (L.slot s.mem p i) = s := if_neg hzero
    rw [halloc]
    exact ⟨hs, ⟨hp, hdepth, hi, hzero⟩, Extends.refl s, Nat.le_add_right _ _⟩

/-- An entry of a lowest table is written. -/
theorem extends_write (hs : Supplied L s) {p : List Nat} {i : Nat} {v : BitVec 64}
    (hp : L.Live s.mem p) (hdepth : p.length = L.depth) (hi : i < 512) (hw : W p i v) :
    let s' : Mm := { s with mem := Function.update s.mem (L.slot s.mem p i) v }
    Supplied L s' ∧ Extends L W s s' ∧ L.leaf s'.mem p i = v := by
  obtain ⟨htree, hleaf⟩ := hs.tree.write hp hdepth hi v
  have hkeep : ∀ q j, L.Live s.mem q → j < 512 → q.length < L.depth →
      Function.update s.mem (L.slot s.mem p i) v (L.slot s.mem q j) = s.mem (L.slot s.mem q j) := by
    intro q j hq hj hd
    refine Function.update_of_ne (fun heq => ?_) ..
    rw [(hs.tree.slot_inj hq hp hj hi heq).1, hdepth] at hd
    exact lt_irrefl _ hd
  have hlive := Layout.live_congr fun q j hq hd hj =>
    hkeep q j hq (hj.trans_le (L.bound_le q)) hd
  refine ⟨⟨htree, fun t ht => ⟨(hs.fresh t ht).page, fun q hq => ?_⟩, hs.nodup⟩, ?_, ?_⟩
  · have hq' := (hlive q).1.mp hq
    rw [(hlive q).2 hq']
    exact (hs.fresh t ht).unused q hq'
  · constructor
    case upper =>
      exact fun q j hq => hkeep q j hq.1 (hq.2.2.1.trans_le (L.bound_le q)) hq.2.1
    case leaf =>
      intro q j hj
      rw [hleaf q j hj]
      by_cases he : q = p ∧ j = i
      · rw [if_pos he, he.1, he.2]
        exact Or.inr hw
      · rw [if_neg he]
        exact Or.inl rfl
    case taken =>
      refine ⟨[], rfl, fun _ => ⟨fun h => absurd h List.not_mem_nil, ?_⟩⟩
      rintro ⟨q, h1, h2, -⟩
      exact absurd ((hlive q).1.mp h1) h2
    case elsewhere => exact fun a hslots _ => Function.update_of_ne (hslots p i hp hi) ..
  · rw [hleaf p i hi, if_pos ⟨rfl, rfl⟩]

end Code

/-- The tables under the first `top` entries of the first table. -/
def addressSpace (top : Nat) (h : top ≤ 512) : Layout where
  root := fourLevelHeadTableAddr
  top := top
  depth := 2
  page := (by decide : addrField 0x90000 = 0x90000)
  top_le := h

/-- The calls of `get_free_page` in an iteration. -/
def tableCalls (m : Mem) (vrt : BitVec 64) : Nat :=
  let entry := entryAt fourLevelHeadTableAddr (pml4VrtToPml4Idx vrt)
  if m entry = 0 then 2
  else if m (entryAt (pml4GEAddr m entry) (pml4VrtToPdptIdx vrt)) = 0 then 1 else 0

/-- **One page.** The entry of the page is set; what else is written are tables that were
missing. -/
theorem mapPage_extends {top : Nat} {htop : top ≤ 512} {s : Mm}
    {W : List Nat → Nat → BitVec 64 → Prop} (hs : Supplied (addressSpace top htop) s)
    {v : BitVec 64} (hv : pml4VrtToPml4Idx v < top) (hfree : tableCalls s.mem v ≤ s.free.length)
    (hw : W (path v) (pml4VrtToPdtIdx v) (v ||| 0b10001011)) :
    let s' := mapPage s v
    Supplied (addressSpace top htop) s' ∧ Extends (addressSpace top htop) W s s' ∧
      (addressSpace top htop).leaf s'.mem (path v) (pml4VrtToPdtIdx v) = v ||| 0b10001011 ∧
      s.free.length ≤ s'.free.length + tableCalls s.mem v := by
  let L := addressSpace top htop
  let e4 := L.slot s.mem [] (pml4VrtToPml4Idx v)
  let e3 := fun m : Mem => L.slot m [pml4VrtToPml4Idx v] (pml4VrtToPdptIdx v)
  have hcalls : tableCalls s.mem v =
      if s.mem e4 = 0 then 2 else if s.mem (e3 s.mem) = 0 then 1 else 0 := rfl
  -- a table in the root
  obtain ⟨hs1, hlive1, hext1, hlen1⟩ := allocTable_extends (W := W) hs (p := [])
    (i := pml4VrtToPml4Idx v) trivial Nat.zero_lt_two hv fun hzero => by
      rw [hcalls, if_pos hzero] at hfree
      exact List.ne_nil_of_length_pos (by omega)
  have hsame : s.mem e4 ≠ 0 → allocTable s e4 = s := fun h => if_neg h
  generalize hs1' : allocTable s e4 = s1 at *
  have hcount : (if s.mem e4 = 0 then 1 else 0) + (if s1.mem (e3 s1.mem) = 0 then 1 else 0) ≤
      tableCalls s.mem v := by
    rw [hcalls]
    by_cases hzero : s.mem e4 = 0
    · rw [if_pos hzero, if_pos hzero]
      split <;> decide
    · rw [if_neg hzero, if_neg hzero, hsame hzero, Nat.zero_add]
  -- and one below it
  obtain ⟨hs2, hlive2, hext2, hlen2⟩ := allocTable_extends (W := W) hs1 hlive1
    (i := pml4VrtToPdptIdx v) Nat.one_lt_two (pdptIdx_lt v) fun hzero => by
      have hone : (if s1.mem (e3 s1.mem) = 0 then 1 else 0) = 1 := if_pos hzero
      rw [hone] at hcount
      exact List.ne_nil_of_length_pos (by
        have hlen : s.free.length ≤ s1.free.length + if s.mem e4 = 0 then 1 else 0 := hlen1
        omega)
  have hmap : mapPage s v = ⟨Function.update (allocTable s1 (e3 s1.mem)).mem
      (entryAt (addrField ((allocTable s1 (e3 s1.mem)).mem (e3 s1.mem))) (pml4VrtToPdtIdx v))
      (v ||| 0b10001011), (allocTable s1 (e3 s1.mem)).free⟩ := by
    rw [← hs1']
    rfl
  have haddr := (hext2.keep hlive1).2
  generalize allocTable s1 (L.slot s1.mem [pml4VrtToPml4Idx v] (pml4VrtToPdptIdx v)) = s2 at *
  have hslot : entryAt (addrField (s2.mem (e3 s1.mem))) (pml4VrtToPdtIdx v) =
      L.slot s2.mem (path v) (pml4VrtToPdtIdx v) := by
    have he3 : e3 s1.mem = e3 s2.mem := congrArg (entryAt · (pml4VrtToPdptIdx v)) haddr.symm
    rw [he3]
    rfl
  rw [hmap, hslot]
  obtain ⟨hs3, hext3, hleaf⟩ := extends_write hs2 hlive2 rfl (pdtIdx_lt v) hw
  refine ⟨hs3, (hext1.trans hext2).trans hext3, hleaf, ?_⟩
  have hlen : s.free.length ≤ s1.free.length + if s.mem e4 = 0 then 1 else 0 := hlen1
  have hlen' : s1.free.length ≤ s2.free.length + if s1.mem (e3 s1.mem) = 0 then 1 else 0 := hlen2
  have hgoal : s.free.length ≤ s2.free.length + tableCalls s.mem v := by omega
  exact hgoal

theorem WellFormed.supplied {s : Mm} (hs : WellFormed s) :
    Supplied (addressSpace 256 (by decide)) s := ⟨hs.tree, hs.fresh, hs.nodup⟩

theorem tableCalls_le (m : Mem) (v : BitVec 64) : tableCalls m v ≤ 2 := by
  unfold tableCalls
  dsimp only
  split
  · exact le_rfl
  · split <;> decide

/-- In the lower half the entry of the page is set, and every other one stays as it was. -/
theorem mapPage_spec {s : Mm} (hs : WellFormed s) (hfree : 2 ≤ s.free.length) {v : BitVec 64}
    (hv : v.toNat < 2 ^ 47) :
    let s' := mapPage s v
    lowerHalf.Tree s'.mem ∧ ∀ q j, j < 512 → lowerHalf.leaf s'.mem q j =
      if q = path v ∧ j = pml4VrtToPdtIdx v then v ||| 0b10001011
      else lowerHalf.leaf s.mem q j := by
  obtain ⟨hs', hext, hleaf, -⟩ := mapPage_extends
    (W := fun q j _ => q = path v ∧ j = pml4VrtToPdtIdx v) hs.supplied (pml4Idx_lt v hv)
    ((tableCalls_le s.mem v).trans hfree) ⟨rfl, rfl⟩
  refine ⟨hs'.tree, fun q j hj => ?_⟩
  by_cases he : q = path v ∧ j = pml4VrtToPdtIdx v
  · rw [if_pos he, he.1, he.2]
    exact hleaf
  · rw [if_neg he]
    exact (hext.leaf q j hj).resolve_right he

/-- The count is `1`, whatever the size. -/
theorem mapCout_eq {size : BitVec 64} (h : 1 ≤ size.toNat) : mapCout size = 1 := by
  refine if_pos fun hzero => ?_
  have hn := congrArg BitVec.toNat hzero
  have hmap : mapSize.toNat = 2 ^ 21 := rfl
  rw [BitVec.toNat_add, BitVec.toNat_udiv, hmap] at hn
  by_cases hrem : size % mapSize > 0
  · rw [if_pos hrem] at hn
    have hone : (1 : BitVec 64).toNat = 1 := rfl
    have hzero' : (0 : BitVec 64).toNat = 0 := rfl
    rw [hone, hzero'] at hn
    omega
  · rw [if_neg hrem] at hn
    have hrem' : ¬ 0 < size.toNat % 2 ^ 21 := by
      simpa [BitVec.lt_def, BitVec.toNat_umod, hmap] using hrem
    have hzero' : (0 : BitVec 64).toNat = 0 := rfl
    rw [hzero'] at hn
    omega

theorem alignAddr_toNat (pa : BitVec 64) :
    (pa / mapSize * mapSize).toNat = pa.toNat / 2 ^ 21 * 2 ^ 21 := by
  have hmap : mapSize.toNat = 2 ^ 21 := rfl
  rw [BitVec.toNat_mul, BitVec.toNat_udiv, hmap]
  omega

/-- The entry the code writes maps its page to itself. -/
theorem uncached_entry {v w : BitVec 64} (hv : v.toNat % 2 ^ 21 = 0) (hlt : v.toNat < 2 ^ 47)
    (hw : w.toNat / 2 ^ 21 = v.toNat / 2 ^ 21) {m : Mem} (hm : walk m w = v ||| 0b10001011) :
    Uncached m w := by
  rw [Uncached, hm]
  refine ⟨?_, ?_, ?_, ?_⟩
  · rw [present, BitVec.getLsbD_or]
    exact Bool.or_eq_true_iff.mpr (Or.inr rfl)
  · rw [pageSize, BitVec.getLsbD_or]
    exact Bool.or_eq_true_iff.mpr (Or.inr rfl)
  · rw [writeThrough, BitVec.getLsbD_or]
    exact Bool.or_eq_true_iff.mpr (Or.inl (Bool.or_eq_true_iff.mpr (Or.inr rfl)))
  · have hframe : frame (v ||| 0b10001011) = v := by
      have hflags : frame 0b10001011 = 0 := by decide
      have hor : frame (v ||| 0b10001011) = frame v ||| frame 0b10001011 := by
        simp only [frame, BitVec.shiftLeft_or_distrib, BitVec.ushiftRight_or_distrib]
      rw [hor, hflags, ← BitVec.toNat_inj]
      refine (congrArg BitVec.toNat BitVec.or_zero).trans ?_
      simp only [frame, BitVec.toNat_shiftLeft, BitVec.toNat_ushiftRight, Nat.shiftLeft_eq,
        Nat.shiftRight_eq_div_pow]
      omega
    have hmap : mapSize.toNat = 2 ^ 21 := rfl
    rw [hframe, ← BitVec.toNat_inj, BitVec.toNat_add, BitVec.toNat_umod, hmap]
    omega

/-- After the call the first page is mapped, and every other one is mapped as before. -/
theorem uncached_ioremapNocache {s : Mm} (hs : WellFormed s) (hfree : 2 ≤ s.free.length)
    {pa size a : BitVec 64} (hsize : 1 ≤ size.toNat) (hpa : pa.toNat < 2 ^ 47)
    (ha : a.toNat < 2 ^ 47) :
    Uncached (ioremapNocache s pa size).2.mem a ↔
      a.toNat / 2 ^ 21 = pa.toNat / 2 ^ 21 ∨ Uncached s.mem a := by
  have hv := alignAddr_toNat pa
  have hlt : (pa / mapSize * mapSize).toNat < 2 ^ 47 := by omega
  have hcall : (ioremapNocache s pa size).2 = mapPage s (pa / mapSize * mapSize) := by
    rw [ioremapNocache, mapCout_eq hsize]
    rfl
  rw [hcall]
  obtain ⟨htree, hleaf⟩ := mapPage_spec hs hfree hlt
  generalize mapPage s (pa / mapSize * mapSize) = s' at *
  have hwalk := walk_eq_leaf htree ha
  rw [hleaf _ _ (pdtIdx_lt a)] at hwalk
  have hpage : a.toNat / 2 ^ 21 = pa.toNat / 2 ^ 21 ↔
      path a = path (pa / mapSize * mapSize) ∧
        pml4VrtToPdtIdx a = pml4VrtToPdtIdx (pa / mapSize * mapSize) := by
    rw [same_entry_iff ha hlt, hv]
    omega
  by_cases h : a.toNat / 2 ^ 21 = pa.toNat / 2 ^ 21
  · rw [if_pos (hpage.mp h)] at hwalk
    exact ⟨fun _ => Or.inl h, fun _ => uncached_entry (by omega) hlt (by omega) hwalk⟩
  · rw [if_neg (mt hpage.mpr h), ← walk_eq_leaf hs.tree ha] at hwalk
    rw [Uncached, Uncached, hwalk]
    exact ⟨Or.inr, fun hor => hor.resolve_left h⟩

/-- **Coverage.** The range is mapped after the call exactly when the part of it outside
the 2 MiB page of its first address was mapped before. -/
theorem ioremapNocache_iff {s : Mm} (hs : WellFormed s) (hfree : 2 ≤ s.free.length)
    {pa size : BitVec 64} (hsize : 1 ≤ size.toNat) (hend : pa.toNat + size.toNat < 2 ^ 47) :
    (∀ a : BitVec 64, pa.toNat ≤ a.toNat → a.toNat < pa.toNat + size.toNat →
        Uncached (ioremapNocache s pa size).2.mem a) ↔
      ∀ a : BitVec 64, pa.toNat ≤ a.toNat → a.toNat < pa.toNat + size.toNat →
        a.toNat / 2 ^ 21 ≠ pa.toNat / 2 ^ 21 → Uncached s.mem a := by
  constructor
  · intro h a h1 h2 hne
    have hor := (uncached_ioremapNocache hs hfree hsize (by omega) (by omega)).mp (h a h1 h2)
    exact hor.resolve_left hne
  · intro h a h1 h2
    refine (uncached_ioremapNocache hs hfree hsize (by omega) (by omega)).mpr ?_
    by_cases hpage : a.toNat / 2 ^ 21 = pa.toNat / 2 ^ 21
    · exact Or.inl hpage
    · exact Or.inr (h a h1 h2 hpage)

/-- Nothing is mapped yet. -/
def sampleMm : Mm := ⟨fun _ => 0, [0x200000, 0x201000]⟩

theorem sampleMm_ok : WellFormed sampleMm := by
  have hlive : ∀ p, lowerHalf.Live sampleMm.mem p → p = [] := by
    intro p hp
    cases p with
    | nil => rfl
    | cons i p => exact absurd rfl hp.2.2.2
  refine ⟨⟨fun p q hp hq _ => (hlive p hp).trans (hlive q hq).symm, fun i p hp => ?_⟩,
    fun t ht => ?_, ?_⟩
  · cases hlive _ hp
  · have hpage : ∀ t ∈ sampleMm.free, addrField t = t ∧ t ≠ 0x90000 :=
      List.forall_mem_cons.mpr ⟨by decide, List.forall_mem_singleton.mpr (by decide)⟩
    refine ⟨(hpage t ht).1, fun q hq heq => (hpage t ht).2 ?_⟩
    rw [hlive q hq] at heq
    exact heq.symm
  · decide

/-- Two pages from `0xfee00000` on: the second one is not mapped. -/
theorem ioremapNocache_sample_fails :
    WellFormed sampleMm ∧
      ¬ ∀ a : BitVec 64, (0xfee00000 : BitVec 64).toNat ≤ a.toNat →
        a.toNat < (0xfee00000 : BitVec 64).toNat + (0x400000 : BitVec 64).toNat →
          Uncached (ioremapNocache sampleMm 0xfee00000 0x400000).2.mem a := by
  refine ⟨sampleMm_ok, fun h => ?_⟩
  have hunmapped : ¬ Uncached (ioremapNocache sampleMm 0xfee00000 0x400000).2.mem 0xff000000 := by
    decide +kernel
  exact hunmapped (h 0xff000000 (by simp) (by simp))

/-- A page of registers at `0xfee00000`. -/
theorem ioremapNocache_sample_holds :
    WellFormed sampleMm ∧
      ∀ a : BitVec 64, (0xfee00000 : BitVec 64).toNat ≤ a.toNat →
        a.toNat < (0xfee00000 : BitVec 64).toNat + (0x1000 : BitVec 64).toNat →
          Uncached (ioremapNocache sampleMm 0xfee00000 0x1000).2.mem a := by
  refine ⟨sampleMm_ok, (ioremapNocache_iff sampleMm_ok (by decide) (by decide) (by decide)).mpr ?_⟩
  intro a h1 h2 hne
  have hpa : (0xfee00000 : BitVec 64).toNat = 0xfee00000 := rfl
  have hsize : (0x1000 : BitVec 64).toNat = 0x1000 := rfl
  rw [hpa] at h1 h2 hne
  rw [hsize] at h2
  omega

end X64SmpOs.Ioremap

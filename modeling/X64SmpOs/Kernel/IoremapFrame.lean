import X64SmpOs.Kernel.Ioremap

/-!
# What a mapping leaves alone

`kernel/ioremap.c` over all the 512 entries of the first table. The processor takes bits
0 to 47 of an address through the tables, to a page of 2 MiB or 4 KiB. Its walk knows
pages of 1 GiB too, but no code here makes one: under `PageTables` every entry in use
above the page directories leads to a table, and that branch is dead.

* `translate`: the address it comes to, and the entries on the way with their flags;
* `Extends.translate_eq`: tables that are added change no translation;
* `ioremapNocache_frame`: only the translation of the mapped pages changes, and every
  entry that is new leads to a page `get_free_page` has returned.
-/

namespace X64SmpOs.Ioremap

open Paging

/-- Where an address leads, and the entries on the way. -/
structure Translation where
  target : BitVec 64
  entries : List (BitVec 64)
  deriving DecidableEq

def pml4VrtToPdeIdx (vrt : BitVec 64) : Nat := ((vrt &&& 0x1fffff) >>> 12).toNat

/-- Bits 30 to 51 of an entry: the address of a 1 GiB page. -/
def hugeFrame (e : BitVec 64) : BitVec 64 := (e <<< 12) >>> 42 <<< 30

/-- From the entry in the page directory on. -/
def translatePde (m : Mem) (above : List (BitVec 64)) (e2 vrt : BitVec 64) : Option Translation :=
  if present e2 then
    if pageSize e2 then some ⟨frame e2 + vrt % mapSize, above ++ [e2]⟩
    else
      let e1 := m (entryAt (addrField e2) (pml4VrtToPdeIdx vrt))
      if present e1 then some ⟨addrField e1 + vrt % 0x1000, above ++ [e2, e1]⟩ else none
  else none

/-- The walk of the processor, with the pages of 1 GiB that `PageTables` excludes. -/
def translate (m : Mem) (vrt : BitVec 64) : Option Translation :=
  let e4 := m (entryAt fourLevelHeadTableAddr (pml4VrtToPml4Idx vrt))
  if present e4 then
    let e3 := m (entryAt (addrField e4) (pml4VrtToPdptIdx vrt))
    if present e3 then
      if pageSize e3 then some ⟨hugeFrame e3 + vrt % 0x40000000, [e4, e3]⟩
      else translatePde m [e4, e3] (m (entryAt (addrField e3) (pml4VrtToPdtIdx vrt))) vrt
    else none
  else none

/-- The tables under all entries of the first table. -/
def wholeSpace : Layout := addressSpace 512 le_rfl

/-- The tables of three levels form a tree, a table of 4 KiB pages is none of them, and
the pages to come are in use nowhere. -/
structure PageTables (s : Mm) : Prop where
  supplied : Supplied wholeSpace s
  table : ∀ q j, j < 512 → present (wholeSpace.leaf s.mem q j) = true →
    pageSize (wholeSpace.leaf s.mem q j) = false →
    (∀ p, wholeSpace.Live s.mem p →
      wholeSpace.addr s.mem p ≠ addrField (wholeSpace.leaf s.mem q j)) ∧
      addrField (wholeSpace.leaf s.mem q j) ∉ s.free

/-! ## Indices -/

theorem pml4Idx_lt_whole (v : BitVec 64) : pml4VrtToPml4Idx v < 512 := by
  rw [pml4Idx_eq]
  omega

theorem pdeIdx_lt (v : BitVec 64) : pml4VrtToPdeIdx v < 512 := by
  have hmask : (0x1fffff : BitVec 64).toNat = 2 ^ 21 - 1 := rfl
  rw [pml4VrtToPdeIdx, BitVec.toNat_ushiftRight, BitVec.toNat_and, Nat.shiftRight_eq_div_pow, hmask,
    Nat.and_two_pow_sub_one_eq_mod]
  omega

/-- Addresses are in the same 2 MiB page, as far as the processor looks at them. -/
def SamePage (a v : BitVec 64) : Prop := a.toNat % 2 ^ 48 / 2 ^ 21 = v.toNat % 2 ^ 48 / 2 ^ 21

theorem samePage_iff {a v : BitVec 64} :
    SamePage a v ↔ path a = path v ∧ pml4VrtToPdtIdx a = pml4VrtToPdtIdx v := by
  simp only [SamePage, path, List.cons.injEq, and_true, pml4Idx_eq, pdptIdx_eq, pdtIdx_eq]
  omega

/-! ## Translations -/

section Translations

variable {m : Mem} {v : BitVec 64}

/-- Without a page directory there is no translation. -/
theorem translate_dead (h : ¬ wholeSpace.Live m (path v)) : translate m v = none := by
  have hzero : ∀ e : BitVec 64, present e = true → e ≠ 0 := by
    rintro e he rfl
    cases he
  unfold translate
  dsimp only
  split
  · rename_i h4
    refine if_neg fun h3 => h ?_
    exact ⟨⟨trivial, Nat.zero_lt_two, pml4Idx_lt_whole v, hzero _ h4⟩, Nat.one_lt_two, pdptIdx_lt v,
      hzero _ h3⟩
  · rfl

/-- With one the translation depends on its entry, and on a table of 4 KiB pages. -/
theorem translate_live (h : wholeSpace.Tree m) (hl : wholeSpace.Live m (path v)) :
    translate m v = translatePde m [m (wholeSpace.slot m [] (pml4VrtToPml4Idx v)),
      m (wholeSpace.slot m [pml4VrtToPml4Idx v] (pml4VrtToPdptIdx v))]
        (wholeSpace.leaf m (path v) (pml4VrtToPdtIdx v)) v := by
  obtain ⟨h3, hsize⟩ := h.table _ _ hl
  have h4 := (h.table _ _ hl.1).1
  rw [Layout.leaf_live hl rfl]
  unfold translate
  dsimp only
  refine (if_pos h4).trans ((if_pos h3).trans (if_neg ?_))
  exact fun hs => Bool.false_ne_true (hsize.symm.trans hs)

end Translations

section Extensions

variable {W : List Nat → Nat → BitVec 64 → Prop} {s s' : Mm}

/-- A table of 4 KiB pages is not written. -/
theorem Extends.smallPage_eq (h : Extends wholeSpace W s s') (hs : PageTables s) {q : List Nat}
    {j k : Nat} (hj : j < 512) (hk : k < 512)
    (hpresent : present (wholeSpace.leaf s.mem q j) = true)
    (hsize : pageSize (wholeSpace.leaf s.mem q j) = false) :
    s'.mem (entryAt (addrField (wholeSpace.leaf s.mem q j)) k) =
      s.mem (entryAt (addrField (wholeSpace.leaf s.mem q j)) k) := by
  obtain ⟨htable, hfree⟩ := hs.table q j hj hpresent hsize
  refine h.elsewhere _ (fun r i hr hi heq => ?_) fun t ht => ?_
  · exact htable r hr
      (entryAt_inj (isPage_addrField _) (wholeSpace.isPage_addr s.mem r) hk hi heq).1.symm
  · refine entryAt_apart (hs.supplied.fresh t ht).page (isPage_addrField _) ?_ hk
    rintro rfl
    exact hfree ht

/-- **Frame.** An address whose entry is not written keeps its translation. -/
theorem Extends.translate_eq (h : Extends wholeSpace W s s') (hs : PageTables s)
    (hs' : Supplied wholeSpace s') {a : BitVec 64}
    (hw : ∀ e, ¬ W (path a) (pml4VrtToPdtIdx a) e) :
    translate s'.mem a = translate s.mem a := by
  have hleaf := (h.leaf (path a) (pml4VrtToPdtIdx a) (pdtIdx_lt a)).resolve_right (hw _)
  by_cases hl : wholeSpace.Live s.mem (path a)
  · have h4 : s'.mem (wholeSpace.slot s'.mem [] (pml4VrtToPml4Idx a)) =
        s.mem (wholeSpace.slot s.mem [] (pml4VrtToPml4Idx a)) := h.upper [] _ hl.1
    have h3 : s'.mem (wholeSpace.slot s'.mem [pml4VrtToPml4Idx a] (pml4VrtToPdptIdx a)) =
        s.mem (wholeSpace.slot s.mem [pml4VrtToPml4Idx a] (pml4VrtToPdptIdx a)) := by
      rw [Layout.slot, (h.keep hl.1).2, ← Layout.slot]
      exact h.upper _ _ hl
    rw [translate_live hs'.tree (h.keep hl).1, translate_live hs.supplied.tree hl, h4, h3, hleaf]
    have hsmall := h.smallPage_eq hs (q := path a) (pdtIdx_lt a) (pdeIdx_lt a)
    generalize wholeSpace.leaf s.mem (path a) (pml4VrtToPdtIdx a) = e2 at hsmall ⊢
    simp only [translatePde]
    cases hp : present e2 with
    | false => rfl
    | true =>
      cases hz : pageSize e2 with
      | false => rw [hsmall hp hz]
      | true => rfl
  · rw [translate_dead hl]
    by_cases hl' : wholeSpace.Live s'.mem (path a)
    · -- the page directory is new, and the entry is still zero
      rw [translate_live hs'.tree hl', hleaf, Layout.leaf_dead hl]
      rfl
    · exact translate_dead hl'

/-- Entries of 2 MiB pages add no table of 4 KiB pages. -/
theorem Extends.pageTables (h : Extends wholeSpace W s s') (hs : PageTables s)
    (hs' : Supplied wholeSpace s') (hw : ∀ q j e, W q j e → pageSize e = true) :
    PageTables s' := by
  obtain ⟨taken, htaken, hmem⟩ := h.taken
  refine ⟨hs', fun q j hj hp hz => ?_⟩
  have hleaf := (h.leaf q j hj).resolve_right fun hc =>
    Bool.false_ne_true (hz.symm.trans (hw _ _ _ hc))
  rw [hleaf] at hp hz ⊢
  obtain ⟨htable, hfree⟩ := hs.table q j hj hp hz
  rw [htaken, List.mem_append] at hfree
  refine ⟨fun p hlive heq => ?_, fun ht => hfree (Or.inr ht)⟩
  by_cases hl : wholeSpace.Live s.mem p
  · exact htable p hl ((h.keep hl).2.symm.trans heq)
  · exact hfree (Or.inl ((hmem _).mpr ⟨p, hlive, hl, heq⟩))

end Extensions

/-! ## The loop -/

/-- The pages the loop comes to. -/
def pageAt (alignAddr : BitVec 64) (i : Nat) : BitVec 64 :=
  alignAddr + BitVec.ofNat 64 (i * 0x200000)

def mappedPages (alignAddr : BitVec 64) (cout : Nat) : List (BitVec 64) :=
  (List.range cout).map (pageAt alignAddr)

/-- The calls of `get_free_page` in the loop. -/
def loopCalls (s : Mm) (alignAddr : BitVec 64) : Nat → Nat
  | 0 => 0
  | cout + 1 =>
    tableCalls s.mem alignAddr + loopCalls (mapPage s alignAddr) (alignAddr + 0x200000) cout

theorem pageAt_succ (v : BitVec 64) (i : Nat) : pageAt (v + 0x200000) i = pageAt v (i + 1) := by
  have hstep : BitVec.ofNat 64 ((i + 1) * 0x200000) =
      0x200000 + BitVec.ofNat 64 (i * 0x200000) := by
    rw [Nat.add_mul, Nat.add_comm, BitVec.ofNat_add]
    rfl
  rw [pageAt, pageAt, hstep, BitVec.add_assoc]

/-- Tables are added, and the entries of the pages are written. -/
theorem archIoremapNocache_extends {W : List Nat → Nat → BitVec 64 → Prop} {s : Mm}
    (hs : Supplied wholeSpace s) {v : BitVec 64} {cout : Nat}
    (hfree : loopCalls s v cout ≤ s.free.length)
    (hw : ∀ i < cout,
      W (path (pageAt v i)) (pml4VrtToPdtIdx (pageAt v i)) (pageAt v i ||| 0b10001011)) :
    Supplied wholeSpace (archIoremapNocache s v cout) ∧
      Extends wholeSpace W s (archIoremapNocache s v cout) := by
  induction cout generalizing s v with
  | zero => exact ⟨hs, Extends.refl s⟩
  | succ cout ih =>
    have hfree' : tableCalls s.mem v + loopCalls (mapPage s v) (v + 0x200000) cout ≤
      s.free.length := hfree
    have hfirst : pageAt v 0 = v := BitVec.add_zero v
    have hw0 := hw 0 (Nat.succ_pos cout)
    rw [hfirst] at hw0
    obtain ⟨hs1, hext1, -, hlen⟩ := mapPage_extends hs (pml4Idx_lt_whole v) (by omega) hw0
    obtain ⟨hs2, hext2⟩ := ih hs1 (v := v + 0x200000) (by omega) fun i hi => by
      rw [pageAt_succ]
      exact hw (i + 1) (Nat.succ_lt_succ hi)
    exact ⟨hs2, hext1.trans hext2⟩

/-- What a call that maps `pages` does to translations and tables. -/
structure Framed (s s' : Mm) (pages : List (BitVec 64)) : Prop where
  translation : ∀ a, (∀ p ∈ pages, ¬ SamePage a p) → translate s'.mem a = translate s.mem a
  tables : ∃ taken, s.free = taken ++ s'.free ∧ ∀ t, t ∈ taken ↔ ∃ q i,
    wholeSpace.Live s'.mem (i :: q) ∧ ¬ wholeSpace.Live s.mem (i :: q) ∧
      pml4GEAddr s'.mem (wholeSpace.slot s'.mem q i) = t
  entries : ∀ q j, wholeSpace.Live s'.mem q → q.length = 2 → j < 512 →
    s'.mem (wholeSpace.slot s'.mem q j) ≠ wholeSpace.leaf s.mem q j →
    ∃ p ∈ pages, q = path p ∧ j = pml4VrtToPdtIdx p ∧
      s'.mem (wholeSpace.slot s'.mem q j) = p ||| 0b10001011 ∧
      (p.toNat < 2 ^ 52 → pml4GEAddr s'.mem (wholeSpace.slot s'.mem q j) = p)

theorem pageAt_aligned {v : BitVec 64} (hv : v.toNat % 2 ^ 21 = 0) (i : Nat) :
    (pageAt v i).toNat % 2 ^ 21 = 0 := by
  rw [pageAt, BitVec.toNat_add, BitVec.toNat_ofNat]
  omega

theorem page_entry {p : BitVec 64} (hp : p.toNat % 2 ^ 21 = 0) (hlt : p.toNat < 2 ^ 52) :
    addrField (p ||| 0b10001011) = p := by
  have hflags : addrField 0b10001011 = 0 := by decide
  have hpage : addrField p = p := isPage_iff.mpr ⟨by omega, hlt⟩
  rw [addrField_or, hflags, hpage]
  exact BitVec.or_zero

/-- The entries the loop writes. -/
def Written (pages : List (BitVec 64)) (q : List Nat) (j : Nat) (e : BitVec 64) : Prop :=
  ∃ p ∈ pages, q = path p ∧ j = pml4VrtToPdtIdx p ∧ e = p ||| 0b10001011

theorem archIoremapNocache_written {s : Mm} (hs : PageTables s) {v : BitVec 64} {cout : Nat}
    (hfree : loopCalls s v cout ≤ s.free.length) :
    Supplied wholeSpace (archIoremapNocache s v cout) ∧
      Extends wholeSpace (Written (mappedPages v cout)) s (archIoremapNocache s v cout) :=
  archIoremapNocache_extends hs.supplied hfree fun i hi =>
    ⟨_, List.mem_map.mpr ⟨i, List.mem_range.mpr hi, rfl⟩, rfl, rfl, rfl⟩

/-- After the call the next one finds what this one has found. -/
theorem archIoremapNocache_pageTables {s : Mm} (hs : PageTables s) {v : BitVec 64} {cout : Nat}
    (hfree : loopCalls s v cout ≤ s.free.length) : PageTables (archIoremapNocache s v cout) := by
  obtain ⟨hs', hext⟩ := archIoremapNocache_written hs hfree
  refine hext.pageTables hs hs' ?_
  rintro q j e ⟨p, -, -, -, rfl⟩
  rw [pageSize, BitVec.getLsbD_or]
  exact Bool.or_eq_true_iff.mpr (Or.inr rfl)

theorem archIoremapNocache_framed {s : Mm} (hs : PageTables s) {v : BitVec 64} {cout : Nat}
    (hv : v.toNat % 2 ^ 21 = 0) (hfree : loopCalls s v cout ≤ s.free.length) :
    Framed s (archIoremapNocache s v cout) (mappedPages v cout) := by
  obtain ⟨hs', hext⟩ := archIoremapNocache_written hs hfree
  constructor
  case translation =>
    intro a ha
    refine hext.translate_eq hs hs' ?_
    rintro e ⟨p, hp, h1, h2, -⟩
    exact ha p hp (samePage_iff.mpr ⟨h1, h2⟩)
  case tables =>
    obtain ⟨taken, htaken, hmem⟩ := hext.taken
    refine ⟨taken, htaken, fun t => (hmem t).trans ⟨?_, ?_⟩⟩
    · rintro ⟨q, h1, h2, h3⟩
      cases q with
      | nil => exact absurd trivial h2
      | cons i q => exact ⟨q, i, h1, h2, h3⟩
    · rintro ⟨q, i, h1, h2, h3⟩
      exact ⟨i :: q, h1, h2, h3⟩
  case entries =>
    intro q j hq hdepth hj hne
    have hleaf := hext.leaf q j hj
    rw [Layout.leaf_live hq hdepth] at hleaf
    obtain ⟨p, hp, h1, h2, h3⟩ := hleaf.resolve_left hne
    refine ⟨p, hp, h1, h2, h3, fun hlt => ?_⟩
    obtain ⟨i, -, rfl⟩ := List.mem_map.mp hp
    rw [pml4GEAddr, h3]
    exact page_entry (pageAt_aligned hv i) hlt

/-- **Frame law.** The translation of every address outside the mapped pages stays as it
was, the new entries of the upper tables lead to exactly the pages `get_free_page` has
returned, and the new entries of a page directory to the mapped pages. -/
theorem ioremapNocache_frame {s : Mm} (hs : PageTables s) {v : BitVec 64} {cout : Nat}
    (hv : v.toNat % 2 ^ 21 = 0) (hfree : loopCalls s v cout ≤ s.free.length) :
    Framed s (archIoremapNocache s v cout) (mappedPages v cout) ∧
      ∀ pa size : BitVec 64, pa / mapSize * mapSize = v → mapCout size = cout →
        Framed s (ioremapNocache s pa size).2 (mappedPages v cout) := by
  have h := archIoremapNocache_framed hs hv hfree
  refine ⟨h, ?_⟩
  rintro pa size rfl rfl
  exact h

/-- No table but the first one, and pages for three more. -/
def emptyMm : Mm := ⟨fun _ => 0, [0x200000, 0x201000, 0x202000]⟩

theorem emptyMm_ok : PageTables emptyMm := by
  have hlive : ∀ p, wholeSpace.Live emptyMm.mem p → p = [] := by
    intro p hp
    cases p with
    | nil => rfl
    | cons i p => exact absurd rfl hp.2.2.2
  have hpage : ∀ t ∈ emptyMm.free, addrField t = t ∧ t ≠ 0x90000 :=
    List.forall_mem_cons.mpr ⟨by decide, List.forall_mem_cons.mpr ⟨by decide,
      List.forall_mem_singleton.mpr (by decide)⟩⟩
  refine ⟨⟨⟨fun p q hp hq _ => (hlive p hp).trans (hlive q hq).symm, fun i p hp => ?_⟩,
    fun t ht => ⟨(hpage t ht).1, fun q hq heq => (hpage t ht).2 ?_⟩, by decide⟩,
    fun q j _ hp _ => ?_⟩
  · cases hlive _ hp
  · rw [hlive q hq] at heq
    exact heq.symm
  · have hzero : wholeSpace.leaf emptyMm.mem q j = 0 := ite_self _
    rw [hzero] at hp
    cases hp

/-- The first page mapped. -/
def mappedMm : Mm := archIoremapNocache emptyMm 0 1

theorem mappedMm_ok : PageTables mappedMm :=
  archIoremapNocache_pageTables emptyMm_ok
    (by decide +kernel : loopCalls emptyMm 0 1 ≤ emptyMm.free.length)

/-- The registers at `0xfee00000`, after the first page. -/
theorem ioremapNocache_frame_sample :
    Framed mappedMm (archIoremapNocache mappedMm 0xfee00000 1) (mappedPages 0xfee00000 1) ∧
      ∀ pa size : BitVec 64, pa / mapSize * mapSize = 0xfee00000 → mapCout size = 1 →
        Framed mappedMm (ioremapNocache mappedMm pa size).2 (mappedPages 0xfee00000 1) :=
  ioremapNocache_frame mappedMm_ok (by decide) (by decide +kernel)

end X64SmpOs.Ioremap

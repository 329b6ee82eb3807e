import X64SmpOs.Kernel.IoremapFrame

/-!
# From the tables of the boot on

`prepare_4level_page_table` of `init/main.c` fills the tables at `0x90000` with 32-bit
stores; the x64 kernel goes on from them with `ioremap_nocache`, whose tables are pages
of `get_free_page`.

* `prepare4LevelPageTable`: the code, and `prepare_translate`, what it maps;
* `prepare_pageTables`: the tables are what `ioremap_nocache` relies on;
* `ioremapNocache_translate`: what one call changes;
* `ioremaps_translate`: what any calls change;
* `boot_ioremaps`: after any calls the kernel still runs where it was loaded.
-/

namespace X64SmpOs.Ioremap

open Paging

/-! ## The code -/

def firstPdptAddr : BitVec 64 := 0x91000
def firstPdtAddr : BitVec 64 := 0x92000

/-- A 32-bit store to the lower half of a table entry. -/
def setLow (m : Mem) (a : BitVec 64) (v : BitVec 32) : Mem :=
  Function.update m a ((m a >>> 32 <<< 32) ||| v.setWidth 64)

/-- A 32-bit store to the upper half. -/
def setHigh (m : Mem) (a : BitVec 64) (v : BitVec 32) : Mem :=
  Function.update m a ((v.setWidth 64 <<< 32) ||| ((m a).setWidth 32).setWidth 64)

/-- The two stores of an entry. -/
def setEntry (m : Mem) (a : BitVec 64) (v : BitVec 32) : Mem := setHigh (setLow m a v) a 0

/-- The `for` loop over the first `n` entries of the page directory. -/
def fillPdt (m : Mem) : Nat → Mem
  | 0 => m
  | i + 1 => setEntry (fillPdt m i) (entryAt firstPdtAddr i) (BitVec.ofNat 32 i * 0x200000 ||| 0x87)

def prepare4LevelPageTable (m : Mem) : Mem :=
  let m := zeroPage m fourLevelHeadTableAddr
  let m := setEntry m fourLevelHeadTableAddr (0x91000 ||| 7)
  let m := zeroPage m firstPdptAddr
  let m := setEntry m firstPdptAddr (0x92000 ||| 7)
  let m := zeroPage m firstPdtAddr
  fillPdt m 16

/-! ## The entries -/

theorem setEntry_eq (m : Mem) (a : BitVec 64) (v : BitVec 32) :
    setEntry m a v = Function.update m a (v.setWidth 64) := by
  have hword : ∀ w : BitVec 64,
      (((0 : BitVec 32).setWidth 64 <<< 32) |||
        (((w >>> 32 <<< 32) ||| v.setWidth 64).setWidth 32).setWidth 64) = v.setWidth 64 := by
    intro w
    apply BitVec.eq_of_getLsbD_eq
    intro i hi
    simp only [BitVec.getLsbD_or, BitVec.getLsbD_setWidth, BitVec.getLsbD_shiftLeft]
    by_cases h32 : i < 32
    · simp [h32, hi]
    · simp [h32, hi, BitVec.getLsbD_of_ge v i (by omega)]
  unfold setEntry setHigh setLow
  rw [Function.update_idem, Function.update_self, hword]

/-- The entry of the `i`-th 2 MiB page. -/
def bootPde (i : Nat) : BitVec 64 := (BitVec.ofNat 32 i * 0x200000 ||| 0x87).setWidth 64

theorem isPage_pdt : IsPage firstPdtAddr := by
  rw [IsPage]
  decide

theorem isPage_pdpt : IsPage firstPdptAddr := by
  rw [IsPage]
  decide

theorem isPage_pml4 : IsPage fourLevelHeadTableAddr := by
  rw [IsPage]
  decide

/-- The loop fills the first entries and writes nothing else. -/
theorem fillPdt_entry (m : Mem) {n : Nat} (hn : n ≤ 512) {i : Nat} (hi : i < 512) :
    fillPdt m n (entryAt firstPdtAddr i) =
      if i < n then bootPde i else m (entryAt firstPdtAddr i) := by
  induction n with
  | zero => rfl
  | succ n ih =>
    rw [fillPdt, setEntry_eq]
    by_cases he : i = n
    · rw [he, Function.update_self, if_pos (Nat.lt_succ_self n)]
      rfl
    · have hne : entryAt firstPdtAddr i ≠ entryAt firstPdtAddr n := fun h =>
        he (entryAt_inj isPage_pdt isPage_pdt hi (by omega) h).2
      rw [Function.update_of_ne hne, ih (by omega)]
      have hiff : i < n + 1 ↔ i < n := by omega
      simp only [hiff]

theorem fillPdt_other (m : Mem) {n : Nat} (hn : n ≤ 512) {t : BitVec 64} (ht : IsPage t)
    (hne : t ≠ firstPdtAddr) {i : Nat} (hi : i < 512) :
    fillPdt m n (entryAt t i) = m (entryAt t i) := by
  induction n with
  | zero => rfl
  | succ n ih =>
    have hne' : entryAt t i ≠ entryAt firstPdtAddr n := fun h =>
      hne (entryAt_inj ht isPage_pdt hi (by omega) h).1
    rw [fillPdt, setEntry_eq, Function.update_of_ne hne', ih (by omega)]

/-- A table cleared, with its first entry set. -/
theorem first_entry (m : Mem) {t : BitVec 64} (ht : IsPage t) (v : BitVec 32) {i : Nat}
    (hi : i < 512) :
    setEntry (zeroPage m t) t v (entryAt t i) = if i = 0 then v.setWidth 64 else 0 := by
  have hzero : entryAt t 0 = t := BitVec.add_zero t
  rw [setEntry_eq]
  by_cases h0 : i = 0
  · rw [h0, hzero, Function.update_self, if_pos rfl]
  · have hne : entryAt t i ≠ t := fun h =>
      h0 (entryAt_inj ht ht hi (by decide) (h.trans hzero.symm)).2
    rw [Function.update_of_ne hne, zeroPage_self hi, if_neg h0]

/-- Another table is left alone by that. -/
theorem first_other (m : Mem) {t u : BitVec 64} (ht : IsPage t) (hu : IsPage u) (hne : u ≠ t)
    (v : BitVec 32) {i : Nat} (hi : i < 512) :
    setEntry (zeroPage m t) t v (entryAt u i) = m (entryAt u i) := by
  have hzero : entryAt t 0 = t := BitVec.add_zero t
  have hne' : entryAt u i ≠ t := fun h =>
    hne (entryAt_inj hu ht hi (by decide : 0 < 512) (h.trans hzero.symm)).1
  rw [setEntry_eq, Function.update_of_ne hne', zeroPage_ne ht hu hne hi]

section
variable (m : Mem) {i : Nat} (hi : i < 512)
include hi

theorem prepare_pml4 : prepare4LevelPageTable m (entryAt fourLevelHeadTableAddr i) =
    if i = 0 then 0x91007 else 0 := by
  unfold prepare4LevelPageTable
  rw [fillPdt_other _ (by decide) isPage_pml4 (by decide) hi,
    zeroPage_ne isPage_pdt isPage_pml4 (by decide) hi,
    first_other _ isPage_pdpt isPage_pml4 (by decide) _ hi, first_entry m isPage_pml4 _ hi]
  rfl

theorem prepare_pdpt : prepare4LevelPageTable m (entryAt firstPdptAddr i) =
    if i = 0 then 0x92007 else 0 := by
  unfold prepare4LevelPageTable
  rw [fillPdt_other _ (by decide) isPage_pdpt (by decide) hi,
    zeroPage_ne isPage_pdt isPage_pdpt (by decide) hi, first_entry _ isPage_pdpt _ hi]
  rfl

theorem prepare_pdt : prepare4LevelPageTable m (entryAt firstPdtAddr i) =
    if i < 16 then bootPde i else 0 := by
  unfold prepare4LevelPageTable
  rw [fillPdt_entry _ (by decide) hi, zeroPage_self hi]

end

/-! ## What the tables map -/

theorem bootPde_flags : ∀ i < 16, present (bootPde i) = true ∧ pageSize (bootPde i) = true ∧
    frame (bootPde i) = BitVec.ofNat 64 (i * 2 ^ 21) := by
  decide

/-- **The first tables.** The first 32 MiB translate to themselves, and nothing else
translates. -/
theorem prepare_translate (m : Mem) (v : BitVec 64) :
    translate (prepare4LevelPageTable m) v =
      if v.toNat % 2 ^ 48 < 2 ^ 25 then
        some ⟨BitVec.ofNat 64 (v.toNat % 2 ^ 48),
          [0x91007, 0x92007, bootPde (v.toNat % 2 ^ 48 / 2 ^ 21)]⟩
      else none := by
  have h4 := prepare_pml4 m (pml4Idx_lt_whole v)
  have h3 := prepare_pdpt m (pdptIdx_lt v)
  have h2 := prepare_pdt m (pdtIdx_lt v)
  rw [pml4Idx_eq] at h4
  rw [pdptIdx_eq] at h3
  rw [pdtIdx_eq] at h2
  have hto3 : addrField 0x91007 = firstPdptAddr := by decide
  have hto2 : addrField 0x92007 = firstPdtAddr := by decide
  unfold translate
  simp only [pml4Idx_eq, pdptIdx_eq, pdtIdx_eq, h4]
  by_cases hv : v.toNat % 2 ^ 48 < 2 ^ 25
  · have hi4 : v.toNat % 2 ^ 48 / 2 ^ 39 = 0 := by omega
    have hi3 : v.toNat % 2 ^ 39 / 2 ^ 30 = 0 := by omega
    have hi2 : v.toNat % 2 ^ 30 / 2 ^ 21 = v.toNat % 2 ^ 48 / 2 ^ 21 := by omega
    have hlt : v.toNat % 2 ^ 48 / 2 ^ 21 < 16 := by omega
    rw [hi3, if_pos rfl] at h3
    rw [hi2, if_pos hlt] at h2
    obtain ⟨hp, hz, hframe⟩ := bootPde_flags _ hlt
    have htarget : frame (bootPde (v.toNat % 2 ^ 48 / 2 ^ 21)) + v % mapSize =
        BitVec.ofNat 64 (v.toNat % 2 ^ 48) := by
      have hmap : mapSize.toNat = 2 ^ 21 := rfl
      rw [hframe, ← BitVec.toNat_inj, BitVec.toNat_add, BitVec.toNat_umod, hmap]
      simp only [BitVec.toNat_ofNat]
      omega
    rw [if_pos hv, if_pos hi4, if_pos (by decide : present 0x91007 = true), hto3, hi3, h3,
      if_pos (by decide : present 0x92007 = true),
      if_neg (by decide : ¬ pageSize 0x92007 = true), hto2, hi2, h2, translatePde, if_pos hp,
      if_pos hz, htarget]
    rfl
  · rw [if_neg hv]
    by_cases hi4 : v.toNat % 2 ^ 48 / 2 ^ 39 = 0
    · rw [if_pos hi4, if_pos (by decide : present 0x91007 = true), hto3, h3]
      by_cases hi3 : v.toNat % 2 ^ 39 / 2 ^ 30 = 0
      · have hi2 : ¬ v.toNat % 2 ^ 30 / 2 ^ 21 < 16 := by omega
        rw [if_pos hi3, if_pos (by decide : present 0x92007 = true),
          if_neg (by decide : ¬ pageSize 0x92007 = true), hto2, h2, if_neg hi2]
        rfl
      · rw [if_neg hi3]
        rfl
    · rw [if_neg hi4]
      rfl

/-! ## The tables as a tree -/

/-- The tables there are, and where they are. -/
theorem prepare_live (m : Mem) {p : List Nat} (h : wholeSpace.Live (prepare4LevelPageTable m) p) :
    (p = [] ∧ wholeSpace.addr (prepare4LevelPageTable m) p = fourLevelHeadTableAddr) ∨
      (p = [0] ∧ wholeSpace.addr (prepare4LevelPageTable m) p = firstPdptAddr) ∨
      (p = [0, 0] ∧ wholeSpace.addr (prepare4LevelPageTable m) p = firstPdtAddr) := by
  induction p with
  | nil => exact .inl ⟨rfl, rfl⟩
  | cons i p ih =>
    obtain ⟨hp, hlen, hi, hne⟩ := h
    have hi : i < 512 := lt_of_lt_of_le hi (wholeSpace.bound_le p)
    rw [Layout.slot] at hne
    rw [Layout.addr]
    rcases ih hp with ⟨rfl, haddr⟩ | ⟨rfl, haddr⟩ | ⟨rfl, haddr⟩
    · rw [haddr, prepare_pml4 m hi] at hne ⊢
      by_cases h0 : i = 0
      · rw [if_pos h0, h0]
        exact .inr (.inl ⟨rfl, by decide⟩)
      · exact absurd (if_neg h0) hne
    · rw [haddr, prepare_pdpt m hi] at hne ⊢
      by_cases h0 : i = 0
      · rw [if_pos h0, h0]
        exact .inr (.inr ⟨rfl, by decide⟩)
      · exact absurd (if_neg h0) hne
    · exact absurd hlen (lt_irrefl 2)

/-- The entries that lead from one to the next. -/
theorem prepare_upper (m : Mem) {i : Nat} {p : List Nat}
    (h : wholeSpace.Live (prepare4LevelPageTable m) (i :: p)) :
    prepare4LevelPageTable m (wholeSpace.slot (prepare4LevelPageTable m) p i) = 0x91007 ∨
      prepare4LevelPageTable m (wholeSpace.slot (prepare4LevelPageTable m) p i) = 0x92007 := by
  have hi : i < 512 := lt_of_lt_of_le h.2.2.1 (wholeSpace.bound_le p)
  have hne := h.2.2.2
  rw [Layout.slot] at hne ⊢
  rcases prepare_live m h.1 with ⟨rfl, haddr⟩ | ⟨rfl, haddr⟩ | ⟨rfl, haddr⟩
  · rw [haddr, prepare_pml4 m hi] at hne ⊢
    exact .inl (if_pos (by_contra fun h0 => hne (if_neg h0)))
  · rw [haddr, prepare_pdpt m hi] at hne ⊢
    exact .inr (if_pos (by_contra fun h0 => hne (if_neg h0)))
  · exact absurd h.2.1 (lt_irrefl 2)

theorem prepare_leaf (m : Mem) (q : List Nat) {j : Nat} (hj : j < 512)
    (hp : present (wholeSpace.leaf (prepare4LevelPageTable m) q j) = true) :
    pageSize (wholeSpace.leaf (prepare4LevelPageTable m) q j) = true := by
  by_cases hl : wholeSpace.Live (prepare4LevelPageTable m) q ∧ q.length = wholeSpace.depth
  · obtain ⟨hlive, hdepth⟩ := hl
    rw [Layout.leaf_live hlive hdepth, Layout.slot] at hp ⊢
    rcases prepare_live m hlive with ⟨rfl, -⟩ | ⟨rfl, -⟩ | ⟨-, haddr⟩
    · cases hdepth
    · cases hdepth
    · rw [haddr, prepare_pdt m hj] at hp ⊢
      by_cases h16 : j < 16
      · rw [if_pos h16]
        exact (bootPde_flags j h16).2.1
      · rw [if_neg h16] at hp
        cases hp
  · rw [Layout.leaf, if_neg hl] at hp
    cases hp

/-- Pages `get_free_page` may return: behind the first tables, and mapped by them. -/
structure Pages (free : List (BitVec 64)) : Prop where
  page : ∀ t ∈ free, IsPage t
  above : ∀ t ∈ free, 0x93000 ≤ t.toNat
  mapped : ∀ t ∈ free, t.toNat < 2 ^ 25
  nodup : free.Nodup

/-- The tables lie below the pages to come. -/
theorem prepare_addr_lt (m : Mem) {p : List Nat}
    (h : wholeSpace.Live (prepare4LevelPageTable m) p) :
    (wholeSpace.addr (prepare4LevelPageTable m) p).toNat < 0x93000 := by
  rcases prepare_live m h with ⟨-, haddr⟩ | ⟨-, haddr⟩ | ⟨-, haddr⟩ <;> rw [haddr] <;> decide

theorem prepare_tree (m : Mem) : wholeSpace.Tree (prepare4LevelPageTable m) := by
  constructor
  · intro p q hp hq heq
    rcases prepare_live m hp with ⟨rfl, h1⟩ | ⟨rfl, h1⟩ | ⟨rfl, h1⟩ <;>
      rcases prepare_live m hq with ⟨rfl, h2⟩ | ⟨rfl, h2⟩ | ⟨rfl, h2⟩ <;>
      first | rfl | exact absurd (h1.symm.trans (heq.trans h2)) (by decide)
  · intro i p hp
    rcases prepare_upper m hp with h | h <;> rw [h] <;> decide

/-- **The start.** The tables of the boot are what `ioremap_nocache` relies on. -/
theorem prepare_pageTables (m : Mem) {free : List (BitVec 64)} (hfree : Pages free) :
    PageTables ⟨prepare4LevelPageTable m, free⟩ := by
  refine ⟨⟨prepare_tree m, fun t ht => ⟨hfree.page t ht, fun q hq heq => ?_⟩, hfree.nodup⟩,
    fun q j hj hp hz => ?_⟩
  · have hlt := prepare_addr_lt m hq
    have hup := hfree.above t ht
    rw [← heq] at hup
    exact absurd hup (Nat.not_le.mpr hlt)
  · exact absurd ((prepare_leaf m q hj hp).symm.trans hz) (by decide)

/-! ## One call -/

/-- The call maps the page the address is in. -/
def Hits (c : BitVec 64 × BitVec 64) (v : BitVec 64) : Prop :=
  c.2 ≠ 0 ∧ v.toNat % 2 ^ 48 / 2 ^ 21 = c.1.toNat / 2 ^ 21

/-- An address of an uncached page translates to itself. -/
def ToSelf (m : Mem) (v : BitVec 64) : Prop :=
  ∃ e4 e3, translate m v = some ⟨BitVec.ofNat 64 (v.toNat % 2 ^ 48),
    [e4, e3, BitVec.ofNat 64 (v.toNat % 2 ^ 48 / 2 ^ 21 * 2 ^ 21) ||| 0b10001011]⟩

/-- All tables and all pages to come are mapped by the boot. -/
structure Low (s : Mm) : Prop where
  tables : ∀ q, wholeSpace.Live s.mem q → (wholeSpace.addr s.mem q).toNat < 2 ^ 25
  free : ∀ t ∈ s.free, t.toNat < 2 ^ 25

theorem frame_page {p : BitVec 64} (hp : p.toNat % 2 ^ 21 = 0) (hlt : p.toNat < 2 ^ 48) :
    frame (p ||| 0b10001011) = p := by
  have hflags : frame 0b10001011 = 0 := by decide
  have hor : frame (p ||| 0b10001011) = frame p ||| frame 0b10001011 := by
    simp only [frame, BitVec.shiftLeft_or_distrib, BitVec.ushiftRight_or_distrib]
  rw [hor, hflags, ← BitVec.toNat_inj]
  refine (congrArg BitVec.toNat BitVec.or_zero).trans ?_
  simp only [frame, BitVec.toNat_shiftLeft, BitVec.toNat_ushiftRight, Nat.shiftLeft_eq,
    Nat.shiftRight_eq_div_pow]
  omega

theorem Extends.low {W : List Nat → Nat → BitVec 64 → Prop} {s s' : Mm}
    (h : Extends wholeSpace W s s') (hlow : Low s) : Low s' := by
  obtain ⟨taken, htaken, hmem⟩ := h.taken
  constructor
  · intro q hq
    by_cases hold : wholeSpace.Live s.mem q
    · rw [(h.keep hold).2]
      exact hlow.tables q hold
    · have hin : wholeSpace.addr s'.mem q ∈ taken := (hmem _).mpr ⟨q, hq, hold, rfl⟩
      exact hlow.free _ (htaken ▸ List.mem_append_left s'.free hin)
  · intro t ht
    exact hlow.free t (htaken ▸ List.mem_append_right taken ht)

/-- What the entry the code writes maps. -/
theorem toSelf_of_leaf {m : Mem} (ht : wholeSpace.Tree m) {p v : BitVec 64}
    (hp : p.toNat % 2 ^ 21 = 0) (hlt : p.toNat < 2 ^ 48) (hsame : SamePage v p)
    (hleaf : wholeSpace.leaf m (path p) (pml4VrtToPdtIdx p) = p ||| 0b10001011) : ToSelf m v := by
  obtain ⟨hpath, hidx⟩ := samePage_iff.mp hsame
  have hflag : ∀ i, (0b10001011 : BitVec 64).getLsbD i = true →
      (p ||| 0b10001011).getLsbD i = true := by
    intro i hi
    rw [BitVec.getLsbD_or, hi, Bool.or_true]
  have hlive : wholeSpace.Live m (path v) := by
    rw [hpath]
    by_contra hdead
    have hbit := hflag 0 (by decide)
    rw [← (Layout.leaf_dead hdead (pml4VrtToPdtIdx p)).symm.trans hleaf] at hbit
    cases hbit
  unfold SamePage at hsame
  have hmap : mapSize.toNat = 2 ^ 21 := rfl
  have htarget : frame (p ||| 0b10001011) + v % mapSize = BitVec.ofNat 64 (v.toNat % 2 ^ 48) := by
    rw [frame_page hp hlt, ← BitVec.toNat_inj, BitVec.toNat_add, BitVec.toNat_umod, hmap,
      BitVec.toNat_ofNat]
    omega
  have hpage : p = BitVec.ofNat 64 (v.toNat % 2 ^ 48 / 2 ^ 21 * 2 ^ 21) := by
    rw [← BitVec.toNat_inj, BitVec.toNat_ofNat]
    omega
  have hpresent : present (p ||| 0b10001011) = true := hflag 0 (by decide)
  have hsize : pageSize (p ||| 0b10001011) = true := hflag 7 (by decide)
  have htr := translate_live ht hlive
  rw [hpath, hidx, hleaf, translatePde, if_pos hpresent, if_pos hsize, htarget] at htr
  rw [ToSelf, ← hpage]
  exact ⟨_, _, htr⟩

/-- What a call leaves and changes. -/
structure Mapped (s s' : Mm) (c : BitVec 64 × BitVec 64) : Prop where
  tables : PageTables s'
  low : Low s'
  length : s.free.length ≤ s'.free.length + 2
  hit : ∀ v, Hits c v → ToSelf s'.mem v
  miss : ∀ v, ¬ Hits c v → translate s'.mem v = translate s.mem v

/-- **One call.** The page of the address is mapped uncached and to itself. -/
theorem ioremapNocache_translate {s : Mm} (hs : PageTables s) (hlow : Low s)
    (hfree : 2 ≤ s.free.length) (c : BitVec 64 × BitVec 64) (hc : c.1.toNat < 2 ^ 48) :
    Mapped s (ioremapNocache s c.1 c.2).2 c := by
  by_cases hsize : c.2 = 0
  · have hcall : (ioremapNocache s c.1 c.2).2 = s := by
      rw [hsize]
      rfl
    rw [hcall]
    exact ⟨hs, hlow, by omega, fun v h => absurd hsize h.1, fun v _ => rfl⟩
  have hpos : 1 ≤ c.2.toNat := by
    have hne : c.2.toNat ≠ 0 := fun h => hsize (BitVec.eq_of_toNat_eq h)
    omega
  have hv := alignAddr_toNat c.1
  generalize hp : c.1 / mapSize * mapSize = p at *
  have hcall : (ioremapNocache s c.1 c.2).2 = mapPage s p := by
    rw [ioremapNocache, mapCout_eq hpos, hp]
    rfl
  rw [hcall]
  have hcalls := tableCalls_le s.mem p
  have hloop : loopCalls s p 1 ≤ s.free.length := le_trans hcalls hfree
  obtain ⟨hs', hext, hleaf, hlen⟩ := mapPage_extends (W := Written (mappedPages p 1)) hs.supplied
    (pml4Idx_lt_whole p) (by omega)
    ⟨p, List.mem_map.mpr ⟨0, by decide, BitVec.add_zero p⟩, rfl, rfl, rfl⟩
  have htables : PageTables (mapPage s p) := archIoremapNocache_pageTables hs hloop
  have hhits : ∀ v, Hits c v ↔ SamePage v p := by
    intro v
    unfold Hits SamePage
    constructor
    · rintro ⟨-, h⟩
      omega
    · intro h
      exact ⟨hsize, by omega⟩
  refine ⟨htables, hext.low hlow, by omega, fun v hit => ?_, fun v hmiss => ?_⟩
  · exact toSelf_of_leaf htables.supplied.tree (by omega) (by omega) ((hhits v).mp hit) hleaf
  · refine hext.translate_eq hs hs' ?_
    rintro e ⟨p', hp', h1, h2, -⟩
    obtain rfl : p' = p := by simpa [mappedPages, pageAt] using hp'
    exact hmiss ((hhits v).mpr (samePage_iff.mpr ⟨h1, h2⟩))

/-! ## All calls -/

def ioremaps (s : Mm) (calls : List (BitVec 64 × BitVec 64)) : Mm :=
  calls.foldl (fun s c => (ioremapNocache s c.1 c.2).2) s

/-- **Calls.** Every page that has been mapped stays mapped, and nothing else changes. -/
theorem ioremaps_translate {s : Mm} (hs : PageTables s) (hlow : Low s)
    {calls : List (BitVec 64 × BitVec 64)} (hcalls : ∀ c ∈ calls, c.1.toNat < 2 ^ 48)
    (hfree : 2 * calls.length ≤ s.free.length) :
    PageTables (ioremaps s calls) ∧ Low (ioremaps s calls) ∧
      (∀ v, (∃ c ∈ calls, Hits c v) → ToSelf (ioremaps s calls).mem v) ∧
      ∀ v, (∀ c ∈ calls, ¬ Hits c v) →
        translate (ioremaps s calls).mem v = translate s.mem v := by
  induction calls generalizing s with
  | nil => exact ⟨hs, hlow, fun v ⟨c, hc, _⟩ => absurd hc List.not_mem_nil, fun v _ => rfl⟩
  | cons c calls ih =>
    rw [List.length_cons] at hfree
    have hone := ioremapNocache_translate hs hlow (by omega) c (hcalls c List.mem_cons_self)
    have hlen := hone.length
    obtain ⟨htables, hlow', hhit, hmiss⟩ := ih hone.tables hone.low
      (fun c' hc' => hcalls c' (List.mem_cons_of_mem c hc')) (by omega)
    refine ⟨htables, hlow', fun v hv => ?_, fun v hv => ?_⟩
    · by_cases hlater : ∃ c' ∈ calls, Hits c' v
      · exact hhit v hlater
      · -- the page of the first call, which no later one maps
        obtain ⟨c', hc', hit⟩ := hv
        have hc : Hits c v := by
          rcases List.mem_cons.mp hc' with rfl | hc'
          · exact hit
          · exact absurd ⟨c', hc', hit⟩ hlater
        obtain ⟨e4, e3, htr⟩ := hone.hit v hc
        exact ⟨e4, e3, (hmiss v fun c' hc' hit => hlater ⟨c', hc', hit⟩).trans htr⟩
    · exact (hmiss v fun c' hc' => hv c' (List.mem_cons_of_mem c hc')).trans
        (hone.miss v (hv c List.mem_cons_self))

/-- **From the boot on.** After any calls the pages they have mapped translate to themselves
and uncached, the other addresses as the boot has left them, and every entry of every table
can be reached through the tables. -/
theorem boot_ioremaps (m : Mem) {free : List (BitVec 64)} (hpages : Pages free)
    {calls : List (BitVec 64 × BitVec 64)} (hcalls : ∀ c ∈ calls, c.1.toNat < 2 ^ 48)
    (hfree : 2 * calls.length ≤ free.length) :
    let s := ioremaps ⟨prepare4LevelPageTable m, free⟩ calls
    (∀ v, (∃ c ∈ calls, Hits c v) → ToSelf s.mem v) ∧
      (∀ v, (∀ c ∈ calls, ¬ Hits c v) → translate s.mem v =
        if v.toNat % 2 ^ 48 < 2 ^ 25 then
          some ⟨BitVec.ofNat 64 (v.toNat % 2 ^ 48),
            [0x91007, 0x92007, bootPde (v.toNat % 2 ^ 48 / 2 ^ 21)]⟩
        else none) ∧
      ∀ q i, wholeSpace.Live s.mem q → i < 512 →
        ∃ es, translate s.mem (wholeSpace.slot s.mem q i) =
          some ⟨wholeSpace.slot s.mem q i, es⟩ := by
  have hlow : Low ⟨prepare4LevelPageTable m, free⟩ :=
    ⟨fun q hq => lt_trans (prepare_addr_lt m hq) (by decide), hpages.mapped⟩
  obtain ⟨-, hlow', hhit, hmiss⟩ :=
    ioremaps_translate (prepare_pageTables m hpages) hlow hcalls hfree
  have hboot := fun v hv => (hmiss v hv).trans (prepare_translate m v)
  refine ⟨hhit, hboot, fun q i hq hi => ?_⟩
  have haddr := hlow'.tables q hq
  have hpage := isPage_iff.mp (wholeSpace.isPage_addr
    (ioremaps ⟨prepare4LevelPageTable m, free⟩ calls).mem q)
  have hslot := entryAt_toNat (wholeSpace.isPage_addr
    (ioremaps ⟨prepare4LevelPageTable m, free⟩ calls).mem q) hi
  rw [← Layout.slot] at hslot
  generalize wholeSpace.slot (ioremaps ⟨prepare4LevelPageTable m, free⟩ calls).mem q i = v at *
  have hself : BitVec.ofNat 64 (v.toNat % 2 ^ 48) = v := by
    rw [← BitVec.toNat_inj, BitVec.toNat_ofNat]
    omega
  by_cases hany : ∃ c ∈ calls, Hits c v
  · obtain ⟨e4, e3, htr⟩ := hhit v hany
    rw [hself] at htr
    exact ⟨_, htr⟩
  · have htr := hboot v fun c hc hit => hany ⟨c, hc, hit⟩
    rw [if_pos (by omega), hself] at htr
    exact ⟨_, htr⟩

theorem pages_pair : Pages [0x400000, 0x401000] where
  page := List.forall_mem_cons.mpr ⟨isPage_iff.mpr (by decide),
    List.forall_mem_singleton.mpr (isPage_iff.mpr (by decide))⟩
  above := List.forall_mem_cons.mpr ⟨by simp, List.forall_mem_singleton.mpr (by simp)⟩
  mapped := List.forall_mem_cons.mpr ⟨by simp, List.forall_mem_singleton.mpr (by simp)⟩
  nodup := by simp

def apicCalls : List (BitVec 64 × BitVec 64) := [(0xfee00000, 0x1000)]

/-- The registers of the local APIC. -/
theorem boot_ioremaps_apic :
    let s := ioremaps ⟨prepare4LevelPageTable fun _ => 0, [0x400000, 0x401000]⟩ apicCalls
    (∀ v, (∃ c ∈ apicCalls, Hits c v) → ToSelf s.mem v) ∧
      (∀ v, (∀ c ∈ apicCalls, ¬ Hits c v) → translate s.mem v =
        if v.toNat % 2 ^ 48 < 2 ^ 25 then
          some ⟨BitVec.ofNat 64 (v.toNat % 2 ^ 48),
            [0x91007, 0x92007, bootPde (v.toNat % 2 ^ 48 / 2 ^ 21)]⟩
        else none) ∧
      ∀ q i, wholeSpace.Live s.mem q → i < 512 →
        ∃ es, translate s.mem (wholeSpace.slot s.mem q i) =
          some ⟨wholeSpace.slot s.mem q i, es⟩ :=
  boot_ioremaps (fun _ => 0) pages_pair (List.forall_mem_singleton.mpr (by simp))
    (by simp [apicCalls])

end X64SmpOs.Ioremap

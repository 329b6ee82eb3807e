import X64SmpOs.Kernel.Heap

/-!
# The x86 page allocator

`get_free_page` and `free_page` of `kernel/memory.c`, with a byte of `phy_map`
for each page. The map is kept apart from the memory the pages are in.

* `x86`: the platform of the x86 heap, with the pages that are outside;
* `x86Law`: what the bucket allocator may rely on, with some of the outstanding
  pages set aside.
-/

namespace X64SmpOs.X86Heap

open Memory Words Malloc

/-! ## `memory.c` -/

/-- `phy_map` has `phy_map_size` bytes. -/
structure MmPagesManager where
  phyBase : Nat
  phyPages : Nat
  phyMap : List Byte
  phyPagesUsed : Nat

/-- The first page whose byte is zero, from index `i` on. -/
def firstFree : List Byte → Nat → Option Nat
  | [], _ => none
  | b :: map, i => if b = 0 then some i else firstFree map (i + 1)

/-- The page, or `0` for `NULL`. -/
def getFreePage (pm : MmPagesManager) : Nat × MmPagesManager :=
  match firstFree pm.phyMap 0 with
  | none => (0, pm)
  | some i =>
    (u32 (pm.phyBase + i * pageSize),
      { pm with
        phyMap := pm.phyMap.set i 1
        phyPagesUsed := u32 (pm.phyPagesUsed + 1) })

def freePage (pm : MmPagesManager) (ptr : Nat) : MmPagesManager :=
  let idx := sub32 ptr pm.phyBase / 2 ^ 12
  { pm with
    phyMap := pm.phyMap.set idx 0
    phyPagesUsed := sub32 pm.phyPagesUsed 1 }

def memManagerAddr : Nat := 0x100000

/-- Where `mm_manager_init` puts `phy_map`. -/
def phyMapAddr : Nat := 0x9000

/-- After `mm_init`, with the map below the pages. -/
structure Ready (pm : MmPagesManager) : Prop where
  base : pm.phyBase = memManagerAddr
  below : phyMapAddr + pm.phyMap.length ≤ memManagerAddr

theorem Ready.size {pm : MmPagesManager} (h : Ready pm) : pm.phyMap.length < 2 ^ 20 := by
  have := h.below
  simp only [phyMapAddr, memManagerAddr] at this
  omega

/-! ## Pages -/

/-- The address of a page, as `u32`. -/
def pageAt (i : Nat) : Nat := u32 (memManagerAddr + i * pageSize)

theorem pageAt_aligned (i : Nat) : pageAt i % pageSize = 0 := by
  simp only [pageAt, memManagerAddr, pageSize, u32]
  omega

theorem index_pageAt {i : Nat} (hi : i < 2 ^ 20) :
    sub32 (pageAt i) memManagerAddr / 2 ^ 12 = i := by
  simp only [pageAt, memManagerAddr, pageSize, sub32, u32]
  omega

theorem pageAt_injective {i j : Nat} (hi : i < 2 ^ 20) (hj : j < 2 ^ 20)
    (h : pageAt i = pageAt j) : i = j := by
  rw [← index_pageAt hi, ← index_pageAt hj, h]

theorem firstFree_some {map : List Byte} {i k : Nat} (h : firstFree map i = some k) :
    i ≤ k ∧ map[k - i]? = some 0 := by
  induction map generalizing i with
  | nil => cases h
  | cons b map ih =>
    unfold firstFree at h
    split at h
    · obtain rfl := Option.some.inj h
      rename_i hb
      simp [hb]
    · obtain ⟨hle, hk⟩ := ih h
      have hsub : k - i = k - (i + 1) + 1 := by omega
      rw [hsub, List.getElem?_cons_succ]
      exact ⟨by omega, hk⟩

/-! ## The platform -/

/-- `held` has the pages that `get_free_page` returned and that were not given
back; no function reads it. -/
structure Pages where
  manager : MmPagesManager
  held : List Nat

theorem pointer_le : 4 ≤ 8 := by decide

/-- Pointers of four bytes over the pages of `memory.c`. -/
def x86 : Platform Pages where
  word := 4
  word_ge := by decide
  word_le := pointer_le
  getFreePage s :=
    let (page, pm) := getFreePage s.manager
    (page, ⟨pm, if page = 0 then s.held else page :: s.held⟩)
  freePage s page := ⟨freePage s.manager page, s.held.erase page⟩

/-- Every outstanding page is marked in the map. -/
structure Held (s : Pages) : Prop where
  ready : Ready s.manager
  nodup : s.held.Nodup
  marked : ∀ p ∈ s.held, ∃ i, i < s.manager.phyMap.length ∧ p = pageAt i ∧
    s.manager.phyMap[i]? ≠ some 0

theorem Held.get {s : Pages} (h : Held s) (hne : (x86.getFreePage s).1 ≠ 0) :
    Held (x86.getFreePage s).2 ∧ (x86.getFreePage s).1 % pageSize = 0 ∧
      (x86.getFreePage s).1 + pageSize ≤ 2 ^ 32 ∧ (x86.getFreePage s).1 ∉ s.held ∧
      (x86.getFreePage s).2.held = (x86.getFreePage s).1 :: s.held := by
  cases hfree : firstFree s.manager.phyMap 0 with
  | none => simp [x86, getFreePage, hfree] at hne
  | some k =>
    obtain ⟨-, hk⟩ := firstFree_some hfree
    rw [Nat.sub_zero] at hk
    obtain ⟨hlt, hzero⟩ := List.getElem?_eq_some_iff.mp hk
    have hsize := h.ready.size
    have hget : getFreePage s.manager = (pageAt k,
        { s.manager with
          phyMap := s.manager.phyMap.set k 1
          phyPagesUsed := u32 (s.manager.phyPagesUsed + 1) }) := by
      simp only [getFreePage, hfree, h.ready.base]
      rfl
    simp only [x86, hget] at hne ⊢
    have halign := pageAt_aligned k
    -- the byte of an outstanding page is not the one found
    have hnew : pageAt k ∉ s.held := by
      intro hm
      obtain ⟨i, hi, hp, hmark⟩ := h.marked _ hm
      rw [pageAt_injective (by omega) (by omega) hp] at hk
      exact hmark hk
    refine ⟨⟨⟨h.ready.base, by simpa using h.ready.below⟩, ?_, fun p hp => ?_⟩, halign, ?_, hnew,
      if_neg hne⟩
    · rw [if_neg hne]
      exact List.nodup_cons.mpr ⟨hnew, h.nodup⟩
    · rw [if_neg hne] at hp
      rcases List.mem_cons.mp hp with rfl | hp
      · refine ⟨k, by simpa using hlt, rfl, ?_⟩
        rw [List.getElem?_set_self hlt]
        decide
      · obtain ⟨i, hi, rfl, hmark⟩ := h.marked p hp
        refine ⟨i, by simpa using hi, rfl, ?_⟩
        have hik : k ≠ i := fun he => hnew (he ▸ hp)
        rwa [List.getElem?_set_ne hik]
    · have hlt32 : pageAt k < 2 ^ 32 := Nat.mod_lt _ (by decide)
      simp only [pageSize] at halign ⊢
      omega

/-- A call that returns `NULL` leaves the outstanding pages. -/
theorem Held.get_null {s : Pages} (h : Held s) (h0 : (x86.getFreePage s).1 = 0) :
    Held (x86.getFreePage s).2 ∧ (x86.getFreePage s).2.held = s.held := by
  simp only [x86] at h0 ⊢
  rw [if_pos h0]
  refine ⟨?_, rfl⟩
  cases hfree : firstFree s.manager.phyMap 0 with
  | none =>
    simp only [getFreePage, hfree]
    exact h
  | some k =>
    simp only [getFreePage, hfree]
    refine ⟨⟨h.ready.base, by simpa using h.ready.below⟩, h.nodup, fun p hp => ?_⟩
    obtain ⟨i, hi, rfl, hmark⟩ := h.marked p hp
    refine ⟨i, by simpa using hi, rfl, ?_⟩
    by_cases hik : k = i
    · subst hik
      rw [List.getElem?_set_self hi]
      decide
    · rwa [List.getElem?_set_ne hik]

theorem Held.free {s : Pages} (h : Held s) {p : Nat} (hp : p ∈ s.held) :
    Held (x86.freePage s p) := by
  obtain ⟨k, hk, rfl, -⟩ := h.marked p hp
  have hsize := h.ready.size
  have hidx : sub32 (pageAt k) s.manager.phyBase / 2 ^ 12 = k := by
    rw [h.ready.base]
    exact index_pageAt (by omega)
  have hmap : (x86.freePage s (pageAt k)).manager.phyMap = s.manager.phyMap.set k 0 := by
    simp only [x86, freePage, hidx]
  have hbase : (x86.freePage s (pageAt k)).manager.phyBase = s.manager.phyBase := by
    simp only [x86, freePage]
  refine ⟨⟨hbase.trans h.ready.base, ?_⟩, h.nodup.erase _, fun q hq => ?_⟩
  · rw [hmap, List.length_set]
    exact h.ready.below
  · obtain ⟨hne, hq⟩ := h.nodup.mem_erase_iff.mp hq
    obtain ⟨i, hi, rfl, hmark⟩ := h.marked q hq
    have hik : k ≠ i := fun he => hne (by rw [he])
    rw [hmap]
    refine ⟨i, ?_, rfl, ?_⟩
    · rw [List.length_set]
      exact hi
    · rwa [List.getElem?_set_ne hik]

/-- The pages of `aside` stay out of the reach of the bucket allocator. -/
def x86Law (aside : List Nat) : PageLaw x86 where
  Ok s := Held s ∧ ∀ p ∈ aside, p ∈ s.held
  Plain _ := True
  taken s p := p ∈ s.held ∧ p ∉ aside
  get s hs _ hne := by
    obtain ⟨hheld, haside⟩ := hs
    obtain ⟨hheld', halign, hlt, hnew, hcons⟩ := hheld.get hne
    refine ⟨⟨hheld', fun p hp => ?_⟩, halign, hlt, fun ht => hnew ht.1, fun q => ?_⟩
    · rw [hcons]
      exact List.mem_cons_of_mem _ (haside p hp)
    · rw [hcons, List.mem_cons]
      constructor
      · rintro ⟨rfl | hq, hq'⟩
        · exact Or.inl rfl
        · exact Or.inr ⟨hq, hq'⟩
      · rintro (rfl | ⟨hq, hq'⟩)
        · exact ⟨Or.inl rfl, fun hm => hnew (haside _ hm)⟩
        · exact ⟨Or.inr hq, hq'⟩
  free s p hs ht := by
    obtain ⟨hheld, haside⟩ := hs
    refine ⟨⟨hheld.free ht.1, fun q hq => ?_⟩, fun q => ?_⟩
    · have hne : q ≠ p := fun he => ht.2 (he ▸ hq)
      exact (List.mem_erase_of_ne hne).mpr (haside q hq)
    · show q ∈ s.held.erase p ∧ q ∉ aside ↔ q ≠ p ∧ q ∈ s.held ∧ q ∉ aside
      rw [hheld.nodup.mem_erase_iff, and_assoc]

end X64SmpOs.X86Heap

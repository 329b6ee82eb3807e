import X64SmpOs.Lib.Pool
import X64SmpOs.Lib.Runs
import X64SmpOs.Kernel.PhyMM
import X64SmpOs.Kernel.X86Memory

/-!
# The x86 pages, counted

`mm_init` of the x86 `kernel/memory.c` takes the memory at `0x100000`, and every page of
it has a byte in the map. The counter, the map and the pages that are out say the same.

* `mmInit_some`: the map is empty and as long as the region;
* `PageInv.get`, `PageInv.free`: a call keeps the three together;
* `pages_sound`: in every state of every run the next page is the lowest that is in.
-/

namespace X64SmpOs.X86Heap

open Memory Words Malloc Runs

/-! ## `mm_init` -/

/-- `g_mm_manager`, with the map as an address. -/
structure Region where
  phyBase : Nat
  phyPages : Nat
  phyPagesUsed : Nat
  phyMapSize : Nat
  phyMap : Nat

def memValid : BitVec 32 := 1
def memManagerMapAdd : Nat := 0

/-- An entry; `ards_t` is that of the 64-bit kernel. -/
def Region.take (r : Region) (a : PhyMM.Ards) : Region :=
  let r := if a.baseAddrLow.toNat = memManagerAddr ∧ a.type = memValid then
    { r with
      phyBase := memManagerAddr
      phyPages := a.lengthAddrLow.toNat / pageSize
      phyPagesUsed := 0
      phyMapSize := a.lengthAddrLow.toNat / pageSize }
    else r
  if a.baseAddrLow.toNat = memManagerMapAdd ∧ a.type = memValid then
    { r with phyMap := memManagerMapAdd }
  else r

/-- `none` for `-1`; else the map is at `0x9000`, cleared. -/
def mmInit (ards : List PhyMM.Ards) : Option MmPagesManager :=
  let r := ards.foldl Region.take ⟨0, 0, 0, 0, 0⟩
  if r.phyBase ≠ memManagerAddr ∨ r.phyMap ≠ memManagerMapAdd then none
  else some ⟨r.phyBase, r.phyPages, List.replicate r.phyMapSize 0, r.phyPagesUsed⟩

/-- Nothing is used before the first call, and the map has a byte for each page. -/
theorem foldl_take (ards : List PhyMM.Ards) (r : Region)
    (h : r.phyMapSize = r.phyPages ∧ r.phyPagesUsed = 0) :
    let r := ards.foldl Region.take r
    r.phyMapSize = r.phyPages ∧ r.phyPagesUsed = 0 := by
  induction ards generalizing r with
  | nil => exact h
  | cons a ards ih =>
    refine ih (r.take a) ?_
    unfold Region.take
    dsimp only
    split <;> split <;> first | exact h | exact ⟨rfl, rfl⟩

theorem mmInit_some {ards : List PhyMM.Ards} {pm : MmPagesManager} (h : mmInit ards = some pm) :
    pm.phyBase = memManagerAddr ∧ pm.phyMap = List.replicate pm.phyPages 0 ∧
      pm.phyPagesUsed = 0 := by
  obtain ⟨hsize, hused⟩ := foldl_take ards ⟨0, 0, 0, 0, 0⟩ ⟨rfl, rfl⟩
  unfold mmInit at h
  dsimp only at h
  split at h
  · cases h
  · rename_i hbase
    obtain rfl := Option.some.inj h
    exact ⟨by_contra fun hc => hbase (Or.inl hc), by rw [hsize], hused⟩

/-! ## The map -/

theorem firstFree_none {map : List Byte} {i : Nat} (h : firstFree map i = none) :
    ∀ k < map.length, map[k]? ≠ some 0 := by
  induction map generalizing i with
  | nil => exact fun k hk => absurd hk (Nat.not_lt_zero k)
  | cons b map ih =>
    unfold firstFree at h
    split at h
    · cases h
    · rename_i hb
      intro k hk
      cases k with
      | zero => exact fun he => hb (Option.some.inj he)
      | succ k => exact ih h k (Nat.lt_of_succ_lt_succ hk)

/-- Below the page found all are marked. -/
theorem firstFree_lowest {map : List Byte} {i k : Nat} (h : firstFree map i = some k) :
    ∀ j, i + j < k → map[j]? ≠ some 0 := by
  induction map generalizing i with
  | nil => cases h
  | cons b map ih =>
    unfold firstFree at h
    split at h
    · obtain rfl := Option.some.inj h
      exact fun j hj => absurd hj (by omega)
    · rename_i hb
      intro j hj
      cases j with
      | zero => exact fun he => hb (Option.some.inj he)
      | succ j => exact ih h j (by omega)

/-- The marked entries. -/
def markedCount (map : List Byte) : Nat := map.countP (· ≠ 0)

theorem markedCount_mark {map : List Byte} {i : Nat} (h : map[i]? = some 0) :
    markedCount (map.set i 1) = markedCount map + 1 := by
  obtain ⟨hlt, hzero⟩ := List.getElem?_eq_some_iff.mp h
  rw [markedCount, List.countP_set hlt, hzero]
  rfl

theorem markedCount_clear {map : List Byte} {i : Nat} (hlt : i < map.length)
    (h : map[i]? ≠ some 0) : markedCount (map.set i 0) + 1 = markedCount map := by
  have hne : map[i] ≠ 0 := fun he => h (by rw [List.getElem?_eq_getElem hlt, he])
  have hpos : 0 < markedCount map :=
    List.countP_pos_iff.mpr ⟨map[i], List.getElem_mem hlt, by simpa using hne⟩
  have hset : markedCount (map.set i 0) = markedCount map - 1 := by
    rw [markedCount, List.countP_set hlt, if_pos (by simpa using hne)]
    rfl
  omega

/-! ## Calls -/

/-- The allocator and the pages that are out. -/
structure PageSys where
  pm : MmPagesManager
  out : List Nat

/-- Only outstanding pages are freed. -/
def PageSys.next (s : PageSys) : PhyMM.PageAct → Option PageSys
  | .get =>
    let r := getFreePage s.pm
    some ⟨r.2, if r.1 = 0 then s.out else r.1 :: s.out⟩
  | .free p => if p ∈ s.out then some ⟨freePage s.pm p, s.out.erase p⟩ else none

/-- The region ends below 4 GiB, and a page is marked if it is out. -/
structure PageInv (s : PageSys) : Prop where
  base : s.pm.phyBase = memManagerAddr
  size : s.pm.phyMap.length = s.pm.phyPages
  below : memManagerAddr + pageSize * s.pm.phyPages ≤ 2 ^ 32
  nodup : s.out.Nodup
  region : ∀ p ∈ s.out, ∃ i < s.pm.phyPages, p = pageAt i
  marked : ∀ i < s.pm.phyPages, s.pm.phyMap[i]? ≠ some 0 ↔ pageAt i ∈ s.out
  used : s.pm.phyPagesUsed = markedCount s.pm.phyMap
  count : s.pm.phyPagesUsed = s.out.length

section Calls

variable {s : PageSys} {i k : Nat}

theorem PageInv.pages_lt (h : PageInv s) : s.pm.phyPages < 2 ^ 20 := by
  have hbelow := h.below
  simp only [memManagerAddr, pageSize] at hbelow
  omega

theorem PageInv.pageAt_eq (h : PageInv s) (hi : i < s.pm.phyPages) :
    pageAt i = memManagerAddr + i * pageSize := by
  have hbelow := h.below
  simp only [memManagerAddr, pageSize] at hbelow
  refine u32_of_lt ?_
  simp only [memManagerAddr, pageSize]
  omega

theorem PageInv.pageAt_ne_zero (h : PageInv s) (hi : i < s.pm.phyPages) : pageAt i ≠ 0 := by
  rw [h.pageAt_eq hi]
  simp only [memManagerAddr]
  omega

theorem PageInv.used_lt (h : PageInv s) : s.pm.phyPagesUsed < 2 ^ 20 := by
  have hle : markedCount s.pm.phyMap ≤ s.pm.phyMap.length := List.countP_le_length
  have hlt := h.pages_lt
  rw [h.used]
  rw [h.size] at hle
  omega

theorem getFreePage_found (h : PageInv s) (hfree : firstFree s.pm.phyMap 0 = some k) :
    k < s.pm.phyPages ∧ pageAt k ∉ s.out ∧ (∀ j < k, pageAt j ∈ s.out) ∧
      getFreePage s.pm = (pageAt k, { s.pm with
        phyMap := s.pm.phyMap.set k 1
        phyPagesUsed := s.pm.phyPagesUsed + 1 }) := by
  obtain ⟨-, hk⟩ := firstFree_some hfree
  rw [Nat.sub_zero] at hk
  have hlt : k < s.pm.phyPages := h.size ▸ (List.getElem?_eq_some_iff.mp hk).1
  have hused := h.used_lt
  refine ⟨hlt, fun hm => (h.marked k hlt).mpr hm hk, fun j hj => ?_, ?_⟩
  · exact (h.marked j (by omega)).mp (firstFree_lowest hfree j (by omega))
  · rw [getFreePage, hfree]
    simp only [h.base, u32_of_lt (n := s.pm.phyPagesUsed + 1) (by omega)]
    rfl

theorem getFreePage_null (h : PageInv s) (hfree : firstFree s.pm.phyMap 0 = none) :
    getFreePage s.pm = (0, s.pm) ∧ ∀ j < s.pm.phyPages, pageAt j ∈ s.out := by
  refine ⟨by rw [getFreePage, hfree], fun j hj => (h.marked j hj).mp ?_⟩
  exact firstFree_none hfree j (h.size.symm ▸ hj)

theorem freePage_pageAt (h : PageInv s) (hi : i < s.pm.phyPages) :
    freePage s.pm (pageAt i) = { s.pm with
      phyMap := s.pm.phyMap.set i 0
      phyPagesUsed := sub32 s.pm.phyPagesUsed 1 } := by
  have hlt := h.pages_lt
  have hidx : sub32 (pageAt i) s.pm.phyBase / 2 ^ 12 = i := by
    rw [h.base]
    exact index_pageAt (by omega)
  simp only [freePage, hidx]

/-- The page found is marked, counted and out. -/
theorem PageInv.get (h : PageInv s) (hfree : firstFree s.pm.phyMap 0 = some k) :
    PageInv ⟨{ s.pm with
      phyMap := s.pm.phyMap.set k 1
      phyPagesUsed := s.pm.phyPagesUsed + 1 }, pageAt k :: s.out⟩ := by
  obtain ⟨hk, hnew, -, -⟩ := getFreePage_found h hfree
  obtain ⟨-, hzero⟩ := firstFree_some hfree
  rw [Nat.sub_zero] at hzero
  have hlt := h.pages_lt
  constructor
  case base => exact h.base
  case size => exact (List.length_set ..).trans h.size
  case below => exact h.below
  case nodup => exact List.nodup_cons.mpr ⟨hnew, h.nodup⟩
  case region =>
    intro p hp
    rcases List.mem_cons.mp hp with rfl | hp
    · exact ⟨k, hk, rfl⟩
    · exact h.region p hp
  case marked =>
    intro i hi
    dsimp only at hi ⊢
    rw [List.mem_cons]
    by_cases hik : k = i
    · subst hik
      rw [List.getElem?_set_self (h.size.symm ▸ hk)]
      simp
    · have hne : pageAt i ≠ pageAt k := fun he =>
        hik (pageAt_injective (by omega) (by omega) he).symm
      rw [List.getElem?_set_ne hik, h.marked i hi]
      exact (or_iff_right hne).symm
  case used => rw [h.used, markedCount_mark hzero]
  case count => rw [h.count, List.length_cons]

/-- A page given back is not marked, counted or out any more. -/
theorem PageInv.free (h : PageInv s) {p : Nat} (hp : p ∈ s.out) :
    PageInv ⟨freePage s.pm p, s.out.erase p⟩ := by
  obtain ⟨k, hk, rfl⟩ := h.region p hp
  have hlt := h.pages_lt
  have hused := h.used_lt
  have hpos := List.length_pos_of_mem hp
  have hmark := (h.marked k hk).mpr hp
  have hcount := h.count
  have hsub : sub32 s.pm.phyPagesUsed 1 = s.pm.phyPagesUsed - 1 :=
    sub32_of_le (by omega) (by omega)
  rw [freePage_pageAt h hk, hsub]
  constructor
  case base => exact h.base
  case size => exact (List.length_set ..).trans h.size
  case below => exact h.below
  case nodup => exact h.nodup.erase _
  case region => exact fun q hq => h.region q (List.mem_of_mem_erase hq)
  case marked =>
    intro i hi
    dsimp only at hi ⊢
    rw [h.nodup.mem_erase_iff]
    by_cases hik : k = i
    · subst hik
      rw [List.getElem?_set_self (h.size.symm ▸ hk)]
      simp
    · have hne : pageAt i ≠ pageAt k := fun he =>
        hik (pageAt_injective (by omega) (by omega) he).symm
      rw [List.getElem?_set_ne hik, h.marked i hi]
      exact (and_iff_right hne).symm
  case used =>
    have hclear := markedCount_clear (h.size.symm ▸ hk) hmark
    have heq := h.used
    dsimp only
    omega
  case count =>
    rw [List.length_erase_of_mem hp]
    dsimp only
    omega

theorem pageInv_step (s : PageSys) (a : PhyMM.PageAct) (t : PageSys) (h : PageInv s)
    (hs : stepOf PageSys.next s a t) : PageInv t := by
  cases a with
  | get =>
    obtain rfl := Option.some.inj hs
    cases hfree : firstFree s.pm.phyMap 0 with
    | none =>
      rw [(getFreePage_null h hfree).1]
      exact h
    | some k =>
      obtain ⟨hk, -, -, hget⟩ := getFreePage_found h hfree
      rw [hget]
      dsimp only
      rw [if_neg (h.pageAt_ne_zero hk)]
      exact h.get hfree
  | free p =>
    simp only [stepOf, PageSys.next] at hs
    split at hs
    · obtain rfl := Option.some.inj hs
      exact h.free ‹_›
    · cases hs

end Calls

/-! ## Runs -/

/-- A page of the region. -/
def InRegion (pm : MmPagesManager) (p : Nat) : Prop :=
  p % pageSize = 0 ∧ pm.phyBase ≤ p ∧ p + pageSize ≤ pm.phyBase + pageSize * pm.phyPages

/-- What holds in a state: counter, marks and pages agree, the next page is the lowest
that is in, `NULL` says that all are out, and a page given back at once leaves no trace. -/
structure SoundState (s : PageSys) : Prop where
  marks : s.pm.phyPagesUsed = markedCount s.pm.phyMap
  outstanding : s.pm.phyPagesUsed = s.out.length ∧ s.out.Nodup
  page : ∀ p, p = (getFreePage s.pm).1 → p ≠ 0 →
    InRegion s.pm p ∧ p ∉ s.out ∧ ∀ q, InRegion s.pm q → q ∉ s.out → p ≤ q
  null : (getFreePage s.pm).1 = 0 ↔ ∀ q, InRegion s.pm q → q ∈ s.out
  restore : (getFreePage s.pm).1 ≠ 0 →
    freePage (getFreePage s.pm).2 (getFreePage s.pm).1 = s.pm

theorem PageInv.inRegion_iff {s : PageSys} (h : PageInv s) (p : Nat) :
    InRegion s.pm p ↔ ∃ i < s.pm.phyPages, p = pageAt i := by
  rw [InRegion, h.base]
  constructor
  · rintro ⟨h1, h2, h3⟩
    simp only [memManagerAddr, pageSize] at h1 h2 h3
    have hlt : (p - 0x100000) / 4096 < s.pm.phyPages := by omega
    refine ⟨_, hlt, ?_⟩
    rw [h.pageAt_eq hlt]
    simp only [memManagerAddr, pageSize]
    omega
  · rintro ⟨i, hi, rfl⟩
    rw [h.pageAt_eq hi]
    simp only [memManagerAddr, pageSize]
    omega

theorem PageInv.sound {s : PageSys} (h : PageInv s) : SoundState s := by
  cases hfree : firstFree s.pm.phyMap 0 with
  | none =>
    obtain ⟨hget, hall⟩ := getFreePage_null h hfree
    refine ⟨h.used, ⟨h.count, h.nodup⟩, ?_, ?_, ?_⟩ <;> rw [hget]
    · exact fun p hp hne => absurd hp hne
    · refine ⟨fun _ q hq => ?_, fun _ => rfl⟩
      obtain ⟨i, hi, rfl⟩ := (h.inRegion_iff q).mp hq
      exact hall i hi
    · exact fun hne => absurd rfl hne
  | some k =>
    obtain ⟨hk, hnew, hlow, hget⟩ := getFreePage_found h hfree
    have hreg := (h.inRegion_iff (pageAt k)).mpr ⟨k, hk, rfl⟩
    have hne := h.pageAt_ne_zero hk
    refine ⟨h.used, ⟨h.count, h.nodup⟩, ?_, ?_, ?_⟩ <;> rw [hget]
    · rintro p rfl -
      refine ⟨hreg, hnew, fun q hq hin => ?_⟩
      obtain ⟨i, hi, rfl⟩ := (h.inRegion_iff q).mp hq
      rw [h.pageAt_eq hk, h.pageAt_eq hi]
      have hki : k ≤ i := not_lt.mp fun hlt => hin (hlow i hlt)
      exact Nat.add_le_add_left (Nat.mul_le_mul_right _ hki) _
    · exact ⟨fun h0 => absurd h0 hne, fun hall => absurd (hall _ hreg) hnew⟩
    · intro _
      obtain ⟨-, hzero⟩ := firstFree_some hfree
      rw [Nat.sub_zero] at hzero
      have hused := h.used_lt
      have hsub : sub32 (s.pm.phyPagesUsed + 1) 1 = s.pm.phyPagesUsed :=
        sub32_of_le (by omega) (by omega)
      have hback : (s.pm.phyMap.set k 1).set k 0 = s.pm.phyMap := by
        rw [List.set_set]
        obtain ⟨hlt, hget⟩ := List.getElem?_eq_some_iff.mp hzero
        have hself := List.set_getElem_self hlt
        rwa [hget] at hself
      have hfreed := freePage_pageAt (h.get hfree) hk
      dsimp only at hfreed
      rw [hfreed, hback, hsub]

/-- **The page allocator.** -/
theorem pages_sound {ards : List PhyMM.Ards} {pm : MmPagesManager} (h : mmInit ards = some pm)
    (hbelow : pm.phyBase + pageSize * pm.phyPages ≤ 2 ^ 32) {as : List PhyMM.PageAct}
    {t : PageSys} (hr : Run (stepOf PageSys.next) ⟨pm, []⟩ as t) : SoundState t := by
  obtain ⟨hbase, hmap, hused⟩ := mmInit_some h
  have hcount : markedCount pm.phyMap = 0 := by
    rw [hmap, markedCount, List.countP_replicate]
    rfl
  refine (run_inv' pageInv_step ?_ hr).sound
  constructor
  case base => exact hbase
  case size => rw [hmap, List.length_replicate]
  case below => exact hbase ▸ hbelow
  case nodup => exact List.nodup_nil
  case region => exact fun p hp => absurd hp List.not_mem_nil
  case marked =>
    intro i hi
    dsimp only at hi ⊢
    rw [hmap, List.getElem?_replicate, if_pos hi]
    simp
  case used => exact hused.trans hcount.symm
  case count => exact hused

def threePages : MmPagesManager := ⟨memManagerAddr, 3, [0, 0, 0], 0⟩

theorem threePages_init : mmInit [⟨0x100000, 0, 0x3000, 0, 1⟩] = some threePages := rfl

/-- The first page, given back, is handed out again before the third. -/
theorem pages_sample :
    SoundState ⟨⟨memManagerAddr, 3, [1, 1, 0], 2⟩, [0x100000, 0x101000]⟩ :=
  pages_sound threePages_init (by decide) (run_of_exec
    (rfl : exec PageSys.next ⟨threePages, []⟩ [.get, .get, .free 0x100000, .get] = some _))

end X64SmpOs.X86Heap

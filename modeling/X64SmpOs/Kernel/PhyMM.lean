import X64SmpOs.Lib.Pool
import X64SmpOs.Lib.Runs
import X64SmpOs.Kernel.Bitmap

/-!
# The page allocator of `kernel/phymm.c`

`mm_init` reserves the two megabytes behind `0x100000` and hands out the rest
of that memory region page by page through a bitmap.

* `getFreePage_found`, `getFreePage_none`, `freePage_page`: one call each;
* `PageInv`: in a run that always asked while a page of the region was free,
  exactly the outstanding pages are marked, and all of them lie in the region;
* `sound_iff`: a run of `get_free_page` and `free_page` is sound exactly when
  every `get_free_page` finds a page of the region that is not outstanding. The
  bitmap has eight bits for every page of memory, one byte being taken for
  each, so an exhausted region is continued beyond its end.
-/

namespace X64SmpOs.PhyMM

open Words Bitmap Runs

/-! ## The code -/

structure Ards where
  baseAddrLow : BitVec 32
  baseAddrHigh : BitVec 32
  lengthAddrLow : BitVec 32
  lengthAddrHigh : BitVec 32
  type : BitVec 32
  deriving DecidableEq, Repr

structure MmPagesManager where
  start : Nat
  length : Nat
  map : BitmapT

def menKernelStart : Nat := 0x100000
def menManagerStart : Nat := 0x300000

/-- `(high << 32) | low` on two 32-bit values. The shift is undefined in C, so
its result is a parameter: any 32-bit value. -/
def join64 (shl32 : BitVec 32 → BitVec 32) (high low : BitVec 32) : Nat :=
  (shl32 high ||| low).toNat

/-- The search of `mm_init` for the region at `0x100000`; `bits` is what memory
holds at `MEN_BITS_MAP` before. `none`: `g_pm` stays as it was. -/
def mmInit (shl32 : BitVec 32 → BitVec 32) (bits : Nat → BitVec 8) :
    List Ards → Option MmPagesManager
  | [] => none
  | a :: as =>
    if menKernelStart = join64 shl32 a.baseAddrHigh a.baseAddrLow then
      let length := join64 shl32 a.lengthAddrHigh a.lengthAddrLow
      some ⟨menManagerStart, length, bitmapInit bits (u32 (length / 2 ^ 12)) 0⟩
    else mmInit shl32 bits as

/-- The page, or `0` for `NULL`. -/
def getFreePage (pm : MmPagesManager) : Nat × MmPagesManager :=
  let r := bitmapScan pm.map 1
  let idx := u32OfInt r.1
  if idx = u32OfInt EOF then (0, { pm with map := r.2 })
  else (u64 (pm.start + u32 (idx * 2 ^ 12)), { pm with map := r.2 })

def freePage (pm : MmPagesManager) (p : Nat) : MmPagesManager :=
  let idx := u32 (sub64 p pm.start / 2 ^ 12)
  { pm with map := bitmapSet pm.map idx false }

/-! ## One call -/

/-- What `mm_init` fixes for good: where the region starts and how the map is
laid out. -/
structure Ready (pm : MmPagesManager) : Prop where
  start : pm.start = menManagerStart
  offset : pm.map.offset = 0
  bits : pm.map.length * 8 < 2 ^ 31

/-- The address of the `i`-th page. -/
def pageAt (i : Nat) : Nat := menManagerStart + i * 4096

theorem pageAt_injective : Function.Injective pageAt := by
  intro i j h
  unfold pageAt at h
  omega

theorem mmInit_some {shl32 : BitVec 32 → BitVec 32} {bits : Nat → BitVec 8} {ards : List Ards}
    {pm : MmPagesManager} (h : mmInit shl32 bits ards = some pm) :
    pm.length < 2 ^ 32 ∧
      pm = ⟨menManagerStart, pm.length, bitmapInit bits (pm.length / 4096) 0⟩ := by
  induction ards with
  | nil => simp [mmInit] at h
  | cons a as ih =>
    unfold mmInit at h
    split at h
    · have hlt : join64 shl32 a.lengthAddrHigh a.lengthAddrLow < 2 ^ 32 := BitVec.isLt _
      simp only [Option.some.injEq] at h
      subst h
      refine ⟨hlt, ?_⟩
      rw [u32_of_lt (n := _ / 2 ^ 12) (by omega)]
      rfl
    · exact ih h

theorem ready_of_mmInit {shl32 : BitVec 32 → BitVec 32} {bits : Nat → BitVec 8}
    {ards : List Ards} {pm : MmPagesManager} (h : mmInit shl32 bits ards = some pm) :
    Ready pm := by
  obtain ⟨hlt, he⟩ := mmInit_some h
  rw [he]
  exact ⟨rfl, rfl, by simp only [bitmapInit, bitmapMake]; omega⟩

/-- The first free bit is claimed and its page returned. -/
theorem getFreePage_found {pm : MmPagesManager} (hr : Ready pm) {a : Nat}
    (ha : FirstRun pm.map 1 (pm.map.length * 8) a) :
    getFreePage pm =
      (u64 (menManagerStart + u32 (a * 4096)), { pm with map := claimLoop pm.map 1 a }) := by
  have hb := hr.bits
  have hle := ha.le
  unfold getFreePage
  rw [bitmapScan_found (by decide) hb ha, hr.offset, hr.start]
  simp only [Nat.add_zero, s32_of_lt (n := a) (by omega), u32OfInt_natCast (n := a) (by omega)]
  rw [if_neg]
  · rfl
  · rw [show u32OfInt EOF = 2 ^ 32 - 1 from rfl]
    omega

/-- With every bit set there is no page to return. -/
theorem getFreePage_none {pm : MmPagesManager} (hr : Ready pm)
    (h : ∀ i < pm.map.length * 8, pm.map.bit i = true) : getFreePage pm = (0, pm) := by
  have hn : ∀ a, a + 1 ≤ pm.map.length * 8 → ¬ FreeRun pm.map a 1 := by
    intro a ha hfree
    have hb := hfree 0 (by decide)
    rw [Nat.add_zero, h a (by omega)] at hb
    exact Bool.noConfusion hb
  unfold getFreePage
  rw [bitmapScan_none (by decide) hr.bits hn]
  rfl

theorem bit_claimed (m : BitmapT) {a : Nat} (ha : a < 2 ^ 31) (j : Nat) :
    (claimLoop m 1 a).bit j = if j = a then true else m.bit j := by
  rw [bit_claimLoop m 1 a (by omega)]
  by_cases h : j = a
  · rw [if_pos (by omega), if_pos h]
  · rw [if_neg (by omega), if_neg h]

/-- Freeing the `i`-th page clears the `i`-th bit. -/
theorem freePage_page {pm : MmPagesManager} (hr : Ready pm) {i : Nat} (hi : i < 2 ^ 20) :
    freePage pm (pageAt i) =
      { pm with map := bitmapSet pm.map (u32 (pm.map.offset + i)) false } := by
  have hsub : sub64 (pageAt i) pm.start / 2 ^ 12 = i := by
    rw [hr.start, sub64_of_le]
    · unfold pageAt
      omega
    · simp only [pageAt, menManagerStart]
      omega
    · unfold pageAt
      omega
  simp only [freePage, hsub, hr.offset, Nat.zero_add]

/-! ## Runs of the allocator -/

/-- The allocator and the pages that are out, newest first. -/
structure PageSys where
  pm : MmPagesManager
  out : List Nat

inductive PageAct
  | get
  | free (p : Nat)
  deriving DecidableEq, Repr

/-- Only outstanding pages are freed. -/
def PageSys.next (s : PageSys) : PageAct → Option PageSys
  | .get =>
    let r := getFreePage s.pm
    some ⟨r.2, if r.1 = 0 then s.out else r.1 :: s.out⟩
  | .free p => if p ∈ s.out then some ⟨freePage s.pm p, s.out.erase p⟩ else none

def pageStep : PageSys → PageAct → PageSys → Prop := stepOf PageSys.next

/-- `p` is a page of the usable region `[0x300000, 0x100000 + length)`. -/
def InRegion (length p : Nat) : Prop :=
  p % 4096 = 0 ∧ menManagerStart ≤ p ∧ p + 4096 ≤ menKernelStart + length

/-- What `get_free_page` owes: a page of the region that is not outstanding, or
`NULL` when there is no such page. -/
def SoundGet (s : PageSys) : PageAct → PageSys → Prop
  | .get, _ =>
    let p := (getFreePage s.pm).1
    (p ≠ 0 → InRegion s.pm.length p ∧ p ∉ s.out) ∧
      (p = 0 ↔ ∀ q, InRegion s.pm.length q → q ∈ s.out)
  | .free _, _ => True

/-- The number of pages of the usable region. -/
def regionPages (length : Nat) : Nat := (menKernelStart + length - menManagerStart) / 4096

/-- A page of the region is still in; a length below one page makes an empty map. -/
def RoomLeft (s : PageSys) : PageAct → PageSys → Prop
  | .get, _ => s.out.length < regionPages s.pm.length ∨ s.pm.length < 4096
  | .free _, _ => True

theorem inRegion_iff (length p : Nat) :
    InRegion length p ↔ ∃ i < regionPages length, p = pageAt i := by
  simp only [InRegion, regionPages, pageAt, menKernelStart, menManagerStart]
  constructor
  · rintro ⟨h1, h2, h3⟩
    exact ⟨(p - 0x300000) / 4096, by omega, by omega⟩
  · rintro ⟨i, hi, rfl⟩
    omega

/-- In a run that always asked while there was room: exactly the outstanding
pages are marked, and all of them lie in the region. -/
structure PageInv (s : PageSys) : Prop where
  ready : Ready s.pm
  lt : s.pm.length < 2 ^ 32
  len : s.pm.map.length = s.pm.length / 4096
  nodup : s.out.Nodup
  region : ∀ p ∈ s.out, ∃ i < regionPages s.pm.length, p = pageAt i
  marked : ∀ i < s.pm.map.length * 8, s.pm.map.bit i = true ↔ pageAt i ∈ s.out

/-- The map covers the region eight times over. -/
theorem PageInv.region_le {s : PageSys} (h : PageInv s) :
    regionPages s.pm.length ≤ s.pm.map.length * 8 ∧ regionPages s.pm.length < 2 ^ 20 - 0x100 := by
  have hl := h.len
  have hlt := h.lt
  simp only [regionPages, menKernelStart, menManagerStart]
  omega

/-- The lowest page that is in is the one the next call returns. -/
theorem PageInv.get {s : PageSys} (h : PageInv s) {i : Nat} (hi : i < s.pm.map.length * 8)
    (hi' : i < 2 ^ 20 - 0x100) (hin : pageAt i ∉ s.out) :
    ∃ a ≤ i, pageAt a ∉ s.out ∧ (∀ b < a, pageAt b ∈ s.out) ∧
      getFreePage s.pm = (pageAt a, { s.pm with map := claimLoop s.pm.map 1 a }) := by
  have hfree : s.pm.map.bit i = false := by
    rw [← Bool.not_eq_true, h.marked i hi]
    exact hin
  obtain ⟨a, ha, hfa, hlow⟩ := Pool.exists_lowest s.pm.map.bit i hfree
  have hrun : FirstRun s.pm.map 1 (s.pm.map.length * 8) a := by
    refine ⟨by omega, fun j hj => ?_, fun b hb hfr => ?_⟩
    · rwa [show j = 0 by omega]
    · have := hfr 0 (by decide)
      rw [Nat.add_zero, hlow b hb] at this
      exact Bool.noConfusion this
  refine ⟨a, ha, fun hm => ?_, fun b hb => (h.marked b (by omega)).mp (hlow b hb), ?_⟩
  · rw [(h.marked a (by omega)).mpr hm] at hfa
    exact Bool.noConfusion hfa
  · rw [getFreePage_found h.ready hrun, u32_of_lt (n := a * 4096) (by omega), u64_of_lt]
    · rfl
    · unfold menManagerStart
      omega

theorem pageAt_ne_zero (i : Nat) : pageAt i ≠ 0 := by
  simp only [pageAt, menManagerStart]
  omega

/-- Handing out a page of the region keeps the invariant. -/
theorem PageInv.get_step {s : PageSys} (h : PageInv s) {a : Nat}
    (ha : a < regionPages s.pm.length) (hin : pageAt a ∉ s.out) :
    PageInv ⟨{ s.pm with map := claimLoop s.pm.map 1 a }, pageAt a :: s.out⟩ := by
  have hle := h.region_le
  refine ⟨⟨h.ready.start, ?_, ?_⟩, h.lt, ?_, List.nodup_cons.mpr ⟨hin, h.nodup⟩, ?_, ?_⟩
  · simpa using h.ready.offset
  · simpa using h.ready.bits
  · simpa using h.len
  · intro p hp
    rcases List.mem_cons.mp hp with rfl | hp
    · exact ⟨a, ha, rfl⟩
    · exact h.region p hp
  · intro i hi
    rw [claimLoop_length] at hi
    rw [bit_claimed _ (by omega), List.mem_cons]
    by_cases hia : i = a
    · simp [hia]
    · have hne : pageAt i ≠ pageAt a := fun he => hia (pageAt_injective he)
      simp only [hia, ↓reduceIte, hne, false_or]
      exact h.marked i hi

/-- Taking a page back keeps the invariant. -/
theorem PageInv.free_step {s : PageSys} (h : PageInv s) {p : Nat} (hp : p ∈ s.out) :
    PageInv ⟨freePage s.pm p, s.out.erase p⟩ := by
  have hle := h.region_le
  obtain ⟨k, hk, rfl⟩ := h.region p hp
  rw [freePage_page h.ready (by omega)]
  refine ⟨⟨h.ready.start, h.ready.offset, h.ready.bits⟩, h.lt, h.len, h.nodup.erase _, ?_, ?_⟩
  · intro q hq
    exact h.region q (List.mem_of_mem_erase hq)
  · intro i hi
    rw [bit_bitmapSet _ (by omega), h.nodup.mem_erase_iff]
    by_cases hik : i = k
    · simp [hik]
    · have hne : pageAt i ≠ pageAt k := fun he => hik (pageAt_injective he)
      simp only [hik, ↓reduceIte, ne_eq, hne, not_false_eq_true, true_and]
      exact h.marked i hi

/-- With an empty map no page is ever returned. -/
theorem PageInv.get_small {s : PageSys} (h : PageInv s) (hl : s.pm.length < 4096) :
    getFreePage s.pm = (0, s.pm) := by
  refine getFreePage_none h.ready (fun i hi => ?_)
  have := h.len
  omega

theorem pageInv_step (s : PageSys) (a : PageAct) (t : PageSys) (h : PageInv s)
    (hc : RoomLeft s a t) (hs : pageStep s a t) : PageInv t := by
  cases a with
  | get =>
    simp only [pageStep, stepOf, PageSys.next, Option.some.injEq] at hs
    subst hs
    rcases hc with hroom | hsmall
    · obtain ⟨i, hi, hin⟩ := Pool.exists_free_slot pageAt pageAt_injective s.out _ hroom
      have hle := h.region_le
      obtain ⟨a, hai, hina, -, hget⟩ := h.get (by omega) (by omega) hin
      simp only [hget, if_neg (pageAt_ne_zero a)]
      exact h.get_step (by omega) hina
    · simpa [h.get_small hsmall] using h
  | free p =>
    simp only [pageStep, stepOf, PageSys.next] at hs
    split at hs
    · simp only [Option.some.injEq] at hs
      subst hs
      exact h.free_step ‹_›
    · cases hs

/-- One call is sound exactly when there is room for it. -/
theorem soundGet_iff (s : PageSys) (a : PageAct) (t : PageSys) (h : PageInv s) :
    SoundGet s a t ↔ RoomLeft s a t := by
  cases a with
  | free p => exact Iff.rfl
  | get =>
    have hle := h.region_le
    simp only [SoundGet, RoomLeft]
    by_cases hroom : s.out.length < regionPages s.pm.length
    · -- the lowest page that is in belongs to the region
      obtain ⟨i, hi, hin⟩ := Pool.exists_free_slot pageAt pageAt_injective s.out _ hroom
      obtain ⟨a, hai, hina, -, hget⟩ := h.get (by omega) (by omega) hin
      have hreg : InRegion s.pm.length (pageAt a) := (inRegion_iff _ _).mpr ⟨a, by omega, rfl⟩
      simp only [hget, hroom, true_or, iff_true]
      refine ⟨fun _ => ⟨hreg, hina⟩, fun h0 => absurd h0 (pageAt_ne_zero a), fun hall => ?_⟩
      exact absurd (hall _ hreg) hina
    · by_cases hsmall : s.pm.length < 4096
      · simp only [h.get_small hsmall, hsmall, or_true, iff_true]
        refine ⟨fun h0 => absurd rfl h0, fun _ q hq => ?_, fun _ => trivial⟩
        obtain ⟨h1, h2, h3⟩ := hq
        simp only [menKernelStart, menManagerStart] at h2 h3
        omega
      · -- the whole region is out, and the map goes on behind it
        simp only [hroom, hsmall, or_self, iff_false]
        intro hsound
        have hall := Pool.all_slots_taken pageAt s.out _ h.nodup h.region (by omega)
        have hlast : pageAt (regionPages s.pm.length) ∉ s.out := by
          intro hm
          obtain ⟨i, hi, he⟩ := h.region _ hm
          have := pageAt_injective he
          omega
        have hmore : regionPages s.pm.length < s.pm.map.length * 8 := by
          have := h.len
          simp only [regionPages, menKernelStart, menManagerStart]
          omega
        obtain ⟨a, hai, hina, -, hget⟩ := h.get hmore (by omega) hlast
        rw [hget] at hsound
        obtain ⟨i, hi, he⟩ := (inRegion_iff _ _).mp (hsound.1 (pageAt_ne_zero a)).1
        exact hina (pageAt_injective he ▸ hall i hi)

theorem pageInv_init {shl32 : BitVec 32 → BitVec 32} {bits : Nat → BitVec 8} {ards : List Ards}
    {pm : MmPagesManager} (h : mmInit shl32 bits ards = some pm) : PageInv ⟨pm, []⟩ := by
  obtain ⟨hlt, he⟩ := mmInit_some h
  refine ⟨ready_of_mmInit h, hlt, ?_, List.nodup_nil, by simp, ?_⟩
  · show pm.map.length = pm.length / 4096
    rw [he]
    rfl
  · intro i hi
    have hbit : pm.map.bit i = false := by
      rw [he] at hi ⊢
      simp only [bitmapInit, bitmapMake] at hi
      have hlt : i / 8 < pm.length / 4096 := by omega
      simp [BitmapT.bit, bitmapInit, bitmapMake, hlt]
    simp [hbit]

/-- **Soundness of the allocator.** For every memory size `mm_init` accepts and
every run that frees outstanding pages only: all calls of `get_free_page` are
sound exactly when each is made while a page of the region is not outstanding. -/
theorem sound_iff (shl32 : BitVec 32 → BitVec 32) (bits : Nat → BitVec 8) (ards : List Ards)
    (pm : MmPagesManager) (h : mmInit shl32 bits ards = some pm) (as : List PageAct) :
    Every pageStep SoundGet ⟨pm, []⟩ as ↔ Every pageStep RoomLeft ⟨pm, []⟩ as :=
  every_iff pageInv_step (fun s a t hs _ => soundGet_iff s a t hs) (pageInv_init h) as

/-- A machine with `0x201000` bytes at `0x100000`: one usable page. -/
def sampleArds : List Ards := [⟨0x100000, 0, 0x201000, 0, 1⟩]

def samplePm : MmPagesManager := ⟨menManagerStart, 0x201000, bitmapInit (fun _ => 0) 0x201 0⟩

theorem sampleArds_init : mmInit (fun _ => 0) (fun _ => 0) sampleArds = some samplePm := by
  simp [mmInit, sampleArds, join64, menKernelStart, samplePm, u32]

theorem samplePm_get : (getFreePage samplePm).1 = 0x300000 := by decide

/-- The second call returns a page behind the region. -/
theorem sound_sample_fails :
    mmInit (fun _ => 0) (fun _ => 0) sampleArds = some samplePm ∧
      ¬ Every pageStep SoundGet ⟨samplePm, []⟩ [.get, .get] := by
  refine ⟨sampleArds_init, fun h => ?_⟩
  obtain ⟨-, h2⟩ := h _ rfl
  have hinv := pageInv_step _ .get _ (pageInv_init sampleArds_init) (Or.inl (by decide)) rfl
  have hroom := (soundGet_iff _ .get _ hinv).mp (h2 _ rfl).1
  rw [samplePm_get] at hroom
  exact absurd hroom (by simp only [RoomLeft]; decide)

/-- Asking again after giving the page back is sound. -/
theorem sound_sample_holds :
    Every pageStep SoundGet ⟨samplePm, []⟩ [.get, .free 0x300000, .get] := by
  apply (sound_iff _ _ _ _ sampleArds_init _).mpr
  intro t ht
  refine ⟨Or.inl (by decide), fun u hu => ⟨trivial, fun v hv => ⟨Or.inl ?_, trivial⟩⟩⟩
  have ht' : t = ⟨(getFreePage samplePm).2, [0x300000]⟩ := (Option.some.inj ht).symm
  subst ht'
  have hu' : u = ⟨freePage (getFreePage samplePm).2 0x300000, []⟩ := (Option.some.inj hu).symm
  subst hu'
  decide

end X64SmpOs.PhyMM

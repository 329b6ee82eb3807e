import X64SmpOs.Kernel.Heap
import X64SmpOs.Kernel.PhyMM

/-!
# The x64 heap

The bucket allocator with eight-byte pointers over the page allocator of
`kernel/phymm.c`.

* `x64Law`: what that page allocator guarantees, as long as the lowest free page
  lies below 4 GiB;
* `safe_of_clean`: heap safety for runs in which `kmalloc` never reads a link
  whose upper four bytes are stale. The code stores a link as `u32` and reads it
  back as a pointer, so what callers left in a block becomes an address.
-/

namespace X64SmpOs.Malloc

open Memory LinkedList Words Runs PhyMM Bitmap

def x64 : Platform MmPagesManager where
  word := 8
  word_ge := by decide
  word_le := by decide
  getFreePage := getFreePage
  freePage := freePage

/-- The lowest free page ends below 4 GiB. -/
def LowPage (pm : MmPagesManager) : Prop :=
  ∀ a, FirstRun pm.map 1 (pm.map.length * 8) a → pageAt a + pageSize ≤ 2 ^ 32

/-- The page is marked in the map. -/
def Marked (pm : MmPagesManager) (p : Nat) : Prop :=
  ∃ i, p = pageAt i ∧ p + pageSize ≤ 2 ^ 32 ∧ i < pm.map.length * 8 ∧ pm.map.bit i = true

/-- A page that is returned is the lowest free one. -/
theorem firstRun_of_get {pm : MmPagesManager} (hr : Ready pm) (hne : (getFreePage pm).1 ≠ 0) :
    ∃ a, FirstRun pm.map 1 (pm.map.length * 8) a := by
  by_contra hno
  apply hne
  rw [getFreePage_none hr (fun i hi => ?_)]
  by_contra hbit
  obtain ⟨a, ha, hfa, hlow⟩ := Pool.exists_lowest pm.map.bit i (by simpa using hbit)
  refine hno ⟨a, by omega, fun j hj => ?_, fun b hb hfr => ?_⟩
  · rwa [show j = 0 by omega]
  · have := hfr 0 (by decide)
    rw [Nat.add_zero, hlow b hb] at this
    exact Bool.noConfusion this

theorem getFreePage_low {pm : MmPagesManager} (hr : Ready pm) {a : Nat}
    (ha : FirstRun pm.map 1 (pm.map.length * 8) a) (hlow : pageAt a + pageSize ≤ 2 ^ 32) :
    getFreePage pm = (pageAt a, { pm with map := claimLoop pm.map 1 a }) := by
  simp only [pageAt, menManagerStart, pageSize] at hlow
  rw [getFreePage_found hr ha, u32_of_lt (n := a * 4096) (by omega), u64_of_lt]
  · rfl
  · unfold menManagerStart
    omega

def x64Law : PageLaw x64 where
  Ok := Ready
  Plain := LowPage
  taken := Marked
  get pm hr hlow hne := by
    obtain ⟨a, ha⟩ := firstRun_of_get hr hne
    have hla := hlow a ha
    have hb := hr.bits
    have hale := ha.le
    simp only [x64, getFreePage_low hr ha hla]
    refine ⟨⟨hr.start, ?_, ?_⟩, ?_, hla, ?_, fun q => ?_⟩
    · simpa using hr.offset
    · simpa using hr.bits
    · simp only [pageAt, menManagerStart, pageSize]
      omega
    · rintro ⟨i, hi, -, -, hbit⟩
      obtain rfl := pageAt_injective hi
      have hfree := ha.free 0 (by decide)
      rw [Nat.add_zero, hbit] at hfree
      exact Bool.noConfusion hfree
    · simp only [Marked, claimLoop_length]
      constructor
      · rintro ⟨i, rfl, h1, h2, h3⟩
        rw [bit_claimed _ (by omega)] at h3
        by_cases hia : i = a
        · exact Or.inl (by rw [hia])
        · rw [if_neg hia] at h3
          exact Or.inr ⟨i, rfl, h1, h2, h3⟩
      · rintro (rfl | ⟨i, rfl, h1, h2, h3⟩)
        · exact ⟨a, rfl, hla, by omega, by rw [bit_claimed _ (by omega), if_pos rfl]⟩
        · refine ⟨i, rfl, h1, h2, ?_⟩
          rw [bit_claimed _ (by omega), h3]
          exact ite_self _
  free pm p hr htaken := by
    obtain ⟨k, rfl, hk, hk', -⟩ := htaken
    simp only [pageAt, menManagerStart, pageSize] at hk
    have hb := hr.bits
    simp only [x64]
    rw [freePage_page hr (i := k) (by omega)]
    refine ⟨⟨hr.start, hr.offset, hr.bits⟩, fun q => ?_⟩
    unfold Marked
    constructor
    · rintro ⟨i, rfl, h1, h2, h3⟩
      replace h2 : i < pm.map.length * 8 := h2
      rw [bit_bitmapSet _ (by omega)] at h3
      by_cases hik : i = k
      · rw [if_pos hik] at h3
        exact Bool.noConfusion h3
      · rw [if_neg hik] at h3
        exact ⟨fun he => hik (pageAt_injective he), i, rfl, h1, h2, h3⟩
    · rintro ⟨hne, i, rfl, h1, h2, h3⟩
      refine ⟨i, rfl, h1, h2, ?_⟩
      rw [bit_bitmapSet _ (by omega), if_neg (fun hik => hne (by rw [hik])), h3]

/-- **Heap safety.** From the empty allocator over any memory and any page
allocator `mm_init` has made ready: in a run that never gets `NULL` for a page,
if no step reads a stale link and the pages lie below 4 GiB, then every block
`kmalloc` returns is safe. -/
theorem safe_of_clean (fuel : Nat) (mem : Mem) (pm : MmPagesManager) (hpm : Ready pm)
    (as : List HeapAct)
    (hpages : Every (heapStep x64 fuel) (HavePages x64 fuel) ⟨emptyHeap mem pm, []⟩ as)
    (hclean : Every (heapStep x64 fuel) (Clean x64 x64Law fuel) ⟨emptyHeap mem pm, []⟩ as) :
    Every (heapStep x64 fuel) (SafeMalloc x64 fuel) ⟨emptyHeap mem pm, []⟩ as :=
  safeRun_of_clean (sysInv_empty mem hpm) as hpages hclean

/-- A machine with two megabytes of usable memory, all of it zero. -/
def samplePages : MmPagesManager := ⟨menManagerStart, 0x400000, bitmapInit (fun _ => 0) 0x400 0⟩

def sampleHeap : HeapSys MmPagesManager := ⟨emptyHeap (fun _ => 0) samplePages, []⟩

/-- A block of a page is written behind its link and freed; the page comes back
with the next block. -/
def sampleActs : List HeapAct :=
  [.malloc 4096, .write 0x301004 1, .free 0x301000 4096, .malloc 4096]

/-- What `HavePages` asks for, evaluated. -/
def checkPages (s : HeapSys MmPagesManager) : HeapAct → Bool
  | .malloc _ =>
    (ensureFreeBucketChain x64 s.heap).freeBucketChain ≠ 0 && freshPage x64 s.heap ≠ 0
  | _ => true

theorem havePages_of_check (fuel : Nat) (s : HeapSys MmPagesManager) (a : HeapAct)
    (t : HeapSys MmPagesManager) (h : checkPages s a = true) : HavePages x64 fuel s a t := by
  cases a with
  | malloc len =>
    simp only [checkPages, ne_eq, Bool.and_eq_true, decide_eq_true_eq] at h
    exact fun _ _ _ _ => h
  | free ptr len => trivial
  | write addr v => trivial

/-- The pointer of the last call, the chain of its bucket, and the other chains. -/
def lastCall (r : Nat × Heap MmPagesManager) : List Nat :=
  [r.1, x64.get .next r.2.mem (r.2.dir 8), x64.get .page r.2.mem (r.2.dir 8)] ++
    (List.range 10).map r.2.dir

/-- The second block of the page's second life is at 4 GiB: the number that was
written behind the first block's link. -/
theorem safe_sample_fails :
    Every (heapStep x64 3) (HavePages x64 3) sampleHeap (sampleActs ++ [.malloc 4096]) ∧
      ¬ Every (heapStep x64 3) (SafeMalloc x64 3) sampleHeap (sampleActs ++ [.malloc 4096]) := by
  refine ⟨every_of_check (havePages_of_check 3) (by decide +kernel), fun hsafe => ?_⟩
  have hlast : ((exec (HeapSys.next x64 3) sampleHeap sampleActs).bind
      fun t => (kmalloc x64 3 t.heap 4096).map lastCall) =
      some [0x100000000, 0, 0x301000, 0, 0, 0, 0, 0, 0, 0, 0, 0x300000, 0] := by decide +kernel
  obtain ⟨t, ht, hlast⟩ := Option.bind_eq_some_iff.mp hlast
  obtain ⟨⟨r, h⟩, hk, hlast⟩ := Option.map_eq_some_iff.mp hlast
  simp only [lastCall, List.cons_append, List.nil_append, List.cons.injEq] at hlast
  obtain ⟨rfl, hnext, hpage, hdirs⟩ := hlast
  have hmalloc := every_at hsafe ht (by simp only [HeapSys.next, hk, Option.map_some]; rfl)
  obtain ⟨size, hsize, hsafe⟩ := hmalloc _ h hk (by decide)
  obtain ⟨page, ⟨i, hi, xs, c, hseg, hc, hcp⟩, h1, h2⟩ := hsafe.owned
  -- the only page on a chain is the one at 0x301000
  have hdir : h.dir i = if i = 8 then 0x300000 else 0 := by
    have hall : ∀ i < 10, [0, 0, 0, 0, 0, 0, 0, 0, 0x300000, 0][i]? =
        some (if i = 8 then 0x300000 else 0) := by decide
    have hget := congrArg (·[i]?) hdirs
    simp only [List.getElem?_map, List.getElem?_range (show i < 10 from hi), Option.map_some,
      hall i hi] at hget
    exact Option.some.inj hget
  by_cases hi8 : i = 8
  · subst hi8
    rw [hdir, if_pos rfl] at hseg hnext hpage
    have hcd : c = 0x300000 := by
      cases xs with
      | nil => exact hseg.symm
      | cons x xs =>
        obtain ⟨rfl, -, hrest⟩ := hseg
        rw [hnext] at hrest
        exact absurd (seg_zero hrest) hc
    rw [hcd, hpage] at hcp
    unfold pageSize at h2
    omega
  · rw [hdir, if_neg hi8] at hseg
    exact hc (seg_zero hseg)

theorem lowPage_of_length {pm : MmPagesManager} (h : pm.map.length ≤ 0x400) : LowPage pm := by
  intro a ha
  have := ha.le
  simp only [pageAt, menManagerStart, pageSize]
  omega

/-- What `Clean` asks for when the call gets a fresh bucket, evaluated. -/
def checkClean (s : HeapSys MmPagesManager) : HeapAct → Bool
  | .malloc len =>
    ((dirPos len).all fun e => findFree x64 3 s.heap.mem (s.heap.dir e.1) = some 0) &&
      readLE 4 s.heap.mem (freshPage x64 s.heap + 4) = 0 && s.heap.pm.map.length ≤ 0x400 &&
      (ensureFreeBucketChain x64 s.heap).pm.map.length ≤ 0x400
  | _ => true

theorem clean_of_check (s : HeapSys MmPagesManager) (a : HeapAct) (t : HeapSys MmPagesManager)
    (h : checkClean s a = true) : Clean x64 x64Law 3 s a t := by
  cases a with
  | malloc len =>
    simp only [checkClean, Bool.and_eq_true, decide_eq_true_eq] at h
    obtain ⟨⟨⟨hfind, hlink⟩, hlen⟩, hlen'⟩ := h
    refine ⟨fun i size _ _ => ⟨fun _ => lowPage_of_length hlen, lowPage_of_length hlen'⟩,
      fun i size hdir => ⟨fun c hc hfc => ?_, fun _ => hlink⟩⟩
    simp only [hdir, Option.all_some, decide_eq_true_eq] at hfind
    exact absurd (Option.some.inj (hfc.symm.trans hfind)) hc
  | free ptr len => trivial
  | write addr v => trivial

/-- Written behind the eight bytes of the link instead, the block does no harm. -/
theorem safe_sample_holds :
    Every (heapStep x64 3) (SafeMalloc x64 3) sampleHeap
      [.malloc 4096, .write 0x301008 1, .free 0x301000 4096, .malloc 4096] :=
  safe_of_clean 3 _ _ ⟨rfl, rfl, by decide⟩ _
    (every_of_check (havePages_of_check 3) (by decide +kernel))
    (every_of_check clean_of_check (by decide +kernel))

end X64SmpOs.Malloc

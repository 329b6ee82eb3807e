import X64SmpOs.Kernel.X64Heap
import X64SmpOs.Kernel.X86Heap

/-!
# `kmalloc` when pages run out

A call that finds no free block takes a descriptor off the free bucket chain, or a
page for a new chain, and a page for the blocks. Either call of `get_free_page` can
return `NULL`.

* `Exhausted`: one of the calls of `get_free_page` returns `NULL`;
* `Unharmed`: `kmalloc` returns `NULL` and leaves the allocator as it was;
* `kmalloc_needsPage`: a call that needs a page moves the free bucket chain on before
  it looks at the page;
* `exhaustion_harms`: so no exhausted call of either kernel is unharmed.
-/

namespace X64SmpOs.Malloc

open Memory LinkedList Words PhyMM

universe u
variable {π : Type u}

section Call

variable (P : Platform π) (fuel : Nat) (h : Heap π) (len : Nat)

/-- `construct_free_bucket_chain` gets `NULL` for its page. -/
def NullChain : Prop := h.freeBucketChain = 0 ∧ (P.getFreePage h.pm).1 = 0

/-- One of the pages `kmalloc(len)` asks for is `NULL`. -/
def Exhausted : Prop :=
  ∃ i size, dirPos len = some (i, size) ∧ NeedsPage P fuel h i ∧
    (NullChain P h ∨ freshPage P h = 0)

/-- The links of the new chain go to address 0 and on, and the descriptor of the bucket
is the one at address 0. -/
def ThroughNull : Prop :=
  ∃ i size, dirPos len = some (i, size) ∧ NeedsPage P fuel h i ∧ NullChain P h

/-- The call returns `NULL` without access to a `NULL` page, and the chains, their
descriptors and the blocks in use are as before. -/
structure Unharmed (bs : List Bucket) (spare : List Nat) (r : Nat) (h' : Heap π) : Prop where
  null : r = 0
  access : ¬ ThroughNull P fuel h len
  dir : h'.dir = h.dir
  chain : h'.freeBucketChain = h.freeBucketChain
  descs : ∀ d ∈ bs.map Bucket.desc ++ spare, AgreeOn h.mem h'.mem d P.descSize
  live : ∀ b ∈ bs, ∀ x ∈ b.used, AgreeOn h.mem h'.mem x b.size

end Call

section Moves

variable {P : Platform π} {h : Heap π} {spare : List Nat}

/-- **A call that needs a page** takes the first descriptor of the free bucket chain,
whatever `get_free_page` returns for the blocks. -/
theorem kmalloc_needsPage {fuel len i size : Nat} (hdir : dirPos len = some (i, size))
    (hneeds : NeedsPage P fuel h i) :
    ∃ r h', kmalloc P fuel h len = some (r, h') ∧ (freshPage P h = 0 → r = 0) ∧
      h'.freeBucketChain = P.get .next (ensureFreeBucketChain P h).mem
        (ensureFreeBucketChain P h).freeBucketChain := by
  have hfind : findFree P fuel h.mem (h.dir i) = some 0 := hneeds
  simp only [kmalloc, hdir, hfind, ↓reduceIte]
  by_cases hpage : freshPage P h = 0
  · have hpage' : (setUpBucket P h size).2.1 = 0 := hpage
    rw [if_pos hpage']
    exact ⟨_, _, rfl, fun _ => rfl, rfl⟩
  · have hpage' : (setUpBucket P h size).2.1 ≠ 0 := hpage
    rw [if_neg hpage']
    exact ⟨_, _, rfl, fun h0 => absurd h0 hpage, rfl⟩

/-- In a new chain the second descriptor is linked to the first, also at a `NULL` page. -/
theorem construct_next (halign : (P.getFreePage h.pm).1 % pageSize = 0) :
    P.get .next (constructFreeBucketChain P h).mem
      (constructFreeBucketChain P h).freeBucketChain ≠ 0 := by
  have hw := P.word_ge
  have hw' := P.word_le
  have hcount : 0 + 1 < pageSize / P.descSize := by
    rw [Nat.lt_div_iff_mul_lt (by simp only [Platform.descSize]; omega)]
    simp only [Platform.descSize, pageSize]
    omega
  have hlink := @thread_link _ _ (P.getFreePage h.pm).1 _ (P.offset_width .next) h.mem _ _ hcount
  rw [Nat.zero_mul, Nat.add_zero, Nat.zero_add, Nat.one_mul] at hlink
  have hget : P.get .next (constructFreeBucketChain P h).mem
      (constructFreeBucketChain P h).freeBucketChain =
        ((P.getFreePage h.pm).1 + P.descSize) % 256 ^ P.word := hlink
  rw [hget]
  -- a page-aligned address plus one descriptor is not a multiple of the page size
  intro h0
  have hdvd : pageSize ∣ 256 ^ P.word := by
    have hpow : (256 : Nat) ^ 4 ∣ 256 ^ P.word := Nat.pow_dvd_pow 256 hw
    exact Nat.dvd_trans (by decide) hpow
  have hmod := Nat.mod_mod_of_dvd ((P.getFreePage h.pm).1 + P.descSize) hdvd
  rw [h0] at hmod
  simp only [Platform.descSize, pageSize] at *
  omega

/-- The free bucket chain begins elsewhere after a descriptor is taken. -/
theorem ensure_next_ne (hchain : Chain (P.get .next h.mem) h.freeBucketChain spare)
    (halign : (P.getFreePage h.pm).1 % pageSize = 0) :
    P.get .next (ensureFreeBucketChain P h).mem (ensureFreeBucketChain P h).freeBucketChain ≠
      h.freeBucketChain := by
  cases spare with
  | nil =>
    have h0 : h.freeBucketChain = 0 := hchain
    rw [ensureFreeBucketChain, if_pos h0, h0]
    exact construct_next halign
  | cons d spare =>
    obtain ⟨hd, hne, hrest⟩ := hchain
    have h0 : h.freeBucketChain ≠ 0 := hd ▸ hne
    rw [ensureFreeBucketChain, if_neg h0, hd]
    -- a link from a descriptor to itself would make the chain endless
    intro hloop
    have hself : Chain (P.get .next h.mem) d (d :: spare) :=
      (chain_cons _ _ _ _).mpr ⟨rfl, hne, hrest⟩
    have hshort : Chain (P.get .next h.mem) d spare := by
      have hrest : Chain (P.get .next h.mem) (P.get .next h.mem d) spare := hrest
      rwa [hloop] at hrest
    exact absurd (congrArg List.length (chain_unique hshort hself)) (by simp)

/-- An exhausted call returns, and the free bucket chain has lost its first descriptor. -/
theorem kmalloc_exhausted (hchain : Chain (P.get .next h.mem) h.freeBucketChain spare)
    (halign : (P.getFreePage h.pm).1 % pageSize = 0) {fuel len : Nat}
    (hx : Exhausted P fuel h len) (bs : List Bucket) :
    ∃ r h', kmalloc P fuel h len = some (r, h') ∧ ¬ Unharmed P fuel h len bs spare r h' := by
  obtain ⟨i, size, hdir, hneeds, -⟩ := hx
  obtain ⟨r, h', hk, -, hfree⟩ := kmalloc_needsPage hdir hneeds
  refine ⟨r, h', hk, fun hun => ?_⟩
  rw [hun.chain] at hfree
  exact ensure_next_ne hchain halign hfree.symm

end Moves

/-! ## The two kernels -/

/-- Pages begin at multiples of the page size. -/
theorem getFreePage_aligned {pm : MmPagesManager} (hr : Ready pm) :
    (PhyMM.getFreePage pm).1 % pageSize = 0 := by
  simp only [PhyMM.getFreePage]
  split
  · rfl
  · simp only [hr.start, menManagerStart, u64, u32, pageSize]
    omega

theorem getFreePage_aligned_x86 {s : X86Heap.Pages} (hs : X86Heap.Held s) :
    (X86Heap.x86.getFreePage s).1 % pageSize = 0 := by
  by_cases h0 : (X86Heap.x86.getFreePage s).1 = 0
  · rw [h0]
    rfl
  · exact (hs.get h0).2.1

/-- **An exhausted call harms the allocator**, in the x64 kernel, in the x86 kernel and
with any other page allocator that returns pages, whichever of its pages is refused. -/
theorem exhaustion_harms (fuel len : Nat) (bs : List Bucket) (spare : List Nat) :
    (∀ h : Heap PhyMM.MmPagesManager, Ready h.pm →
      Chain (x64.get .next h.mem) h.freeBucketChain spare → Exhausted x64 fuel h len →
      ∃ r h', kmalloc x64 fuel h len = some (r, h') ∧
        ¬ Unharmed x64 fuel h len bs spare r h') ∧
    (∀ h : Heap X86Heap.Pages, X86Heap.Held h.pm →
      Chain (X86Heap.x86.get .next h.mem) h.freeBucketChain spare →
      Exhausted X86Heap.x86 fuel h len →
      ∃ r h', kmalloc X86Heap.x86 fuel h len = some (r, h') ∧
        ¬ Unharmed X86Heap.x86 fuel h len bs spare r h') ∧
    ∀ {π : Type} (P : Platform π) (h : Heap π), (P.getFreePage h.pm).1 % pageSize = 0 →
      Chain (P.get .next h.mem) h.freeBucketChain spare → Exhausted P fuel h len →
      ∃ r h', kmalloc P fuel h len = some (r, h') ∧ ¬ Unharmed P fuel h len bs spare r h' := by
  refine ⟨fun h hr hchain hx => ?_, fun h hs hchain hx => ?_, fun P h halign hchain hx => ?_⟩
  · exact kmalloc_exhausted hchain (getFreePage_aligned hr) hx bs
  · exact kmalloc_exhausted hchain (getFreePage_aligned_x86 hs) hx bs
  · exact kmalloc_exhausted hchain halign hx bs

section Sample

/-- One page is left. -/
def onePage : Heap PhyMM.MmPagesManager :=
  emptyHeap (fun _ => 0) ⟨menManagerStart, 0x308000, ⟨fun _ => 0xfe, 1, 0⟩⟩

theorem onePage_ready : Ready onePage.pm := ⟨rfl, rfl, by decide⟩

/-- No page is left. -/
def noPage : Heap X86Heap.Pages := emptyHeap (fun _ => 0) ⟨⟨X86Heap.memManagerAddr, 0, [], 0⟩, []⟩

theorem noPage_held : X86Heap.Held noPage.pm :=
  ⟨⟨rfl, by decide⟩, List.nodup_nil, fun _ hp => absurd hp List.not_mem_nil⟩

theorem onePage_exhausted : Exhausted x64 1 onePage 16 :=
  ⟨0, 16, rfl, rfl, Or.inr (by decide +kernel)⟩

theorem noPage_exhausted : Exhausted X86Heap.x86 1 noPage 16 :=
  ⟨0, 16, rfl, rfl, Or.inl ⟨rfl, rfl⟩⟩

theorem exhaustion_harms_sample :
    (∃ r h', kmalloc x64 1 onePage 16 = some (r, h') ∧
      ¬ Unharmed x64 1 onePage 16 [] [] r h') ∧
    ∃ r h', kmalloc X86Heap.x86 1 noPage 16 = some (r, h') ∧
      ¬ Unharmed X86Heap.x86 1 noPage 16 [] [] r h' :=
  ⟨(exhaustion_harms 1 16 [] []).1 onePage onePage_ready rfl onePage_exhausted,
    (exhaustion_harms 1 16 [] []).2.1 noPage noPage_held rfl noPage_exhausted⟩

/-- What `kmalloc` returns and the free bucket chain it leaves. -/
def returned (r : Nat × Heap π) : Nat × Nat := (r.1, r.2.freeBucketChain)

theorem harms_of_returned {P : Platform π} {fuel len r c : Nat} {h : Heap π}
    (hk : (kmalloc P fuel h len).map returned = some (r, c)) (hne : c ≠ h.freeBucketChain) :
    ∃ h', kmalloc P fuel h len = some (r, h') ∧ h'.freeBucketChain = c ∧
      ¬ Unharmed P fuel h len [] [] r h' := by
  obtain ⟨⟨r', h'⟩, hcall, heq⟩ := Option.map_eq_some_iff.mp hk
  obtain ⟨rfl, rfl⟩ := Prod.mk.inj heq
  exact ⟨h', hcall, rfl, fun hun => hne hun.chain⟩

/-- The calls return `NULL`, the first with one descriptor less on its new chain, the
second with a chain that begins at address 20. -/
theorem exhaustion_sample_fails :
    (∃ h', kmalloc x64 1 onePage 16 = some (0, h') ∧ h'.freeBucketChain = 0x300020 ∧
      ¬ Unharmed x64 1 onePage 16 [] [] 0 h') ∧
    ∃ h', kmalloc X86Heap.x86 1 noPage 16 = some (0, h') ∧ h'.freeBucketChain = 20 ∧
      ¬ Unharmed X86Heap.x86 1 noPage 16 [] [] 0 h' :=
  ⟨harms_of_returned (by decide +kernel) (by decide),
    harms_of_returned (by decide +kernel) (by decide)⟩

end Sample

end X64SmpOs.Malloc

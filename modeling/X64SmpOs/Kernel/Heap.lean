import X64SmpOs.Lib.Runs
import X64SmpOs.Kernel.MallocSpec

/-!
# Runs of `kmalloc` and `kfree_s`

Callers ask for blocks, free the blocks that are live with the length they
asked for, and write bytes of their live blocks.

* `kmalloc_spec`, `kfreeS_spec`: one call on a represented state;
* `kmalloc_total`, `kfreeS_total`: on a represented state the calls return;
* `Clean`: the link `kmalloc` reads has no stale upper half, and the pages it
  gets are plain;
* `safeRun_of_clean`: in a run whose steps are clean every returned block is a
  block of an owned page, apart from all live blocks and descriptor pages.
-/

namespace X64SmpOs.Malloc

open Memory LinkedList Words Runs

universe u
variable {π : Type u}

section Call

variable (P : Platform π) (law : PageLaw P) (fuel : Nat) (h : Heap π)

/-! ## One call -/

/-- No bucket of the chain has a free block, so the call gets a fresh one. -/
def NeedsPage (i : Nat) : Prop := findFree P fuel h.mem (h.dir i) = some 0

/-- The page the fresh bucket gets. -/
def freshPage : Nat := (P.getFreePage (ensureFreeBucketChain P h).pm).1

/-- The calls of `get_free_page` do not return `NULL`. -/
def PagesLeft (len : Nat) : Prop :=
  ∀ i size, dirPos len = some (i, size) → NeedsPage P fuel h i →
    (ensureFreeBucketChain P h).freeBucketChain ≠ 0 ∧ freshPage P h ≠ 0

/-- The calls of `get_free_page` are plain. -/
def PlainPages (len : Nat) : Prop :=
  ∀ i size, dirPos len = some (i, size) → NeedsPage P fuel h i →
    (h.freeBucketChain = 0 → law.Plain h.pm) ∧ law.Plain (ensureFreeBucketChain P h).pm

/-- In the block the call is about to take (the first free one of the first
bucket that has one, else the first of the fresh page), the bytes behind the
four of the stored link are zero. -/
def CleanLink (len : Nat) : Prop :=
  ∀ i size, dirPos len = some (i, size) →
    (∀ c, c ≠ 0 → findFree P fuel h.mem (h.dir i) = some c →
      readLE (P.word - 4) h.mem (P.get .freeBlock h.mem c + 4) = 0) ∧
    (NeedsPage P fuel h i → readLE (P.word - 4) h.mem (freshPage P h + 4) = 0)

end Call

section Spec

variable {P : Platform π} {law : PageLaw P} {h : Heap π} {bs : List Bucket} {spare : List Nat}

/-- The free bucket chain is filled. -/
theorem ensure_inv (hi : Inv P law h bs spare)
    (hne : (ensureFreeBucketChain P h).freeBucketChain ≠ 0)
    (hplain : h.freeBucketChain = 0 → law.Plain h.pm) :
    ∃ spare', Inv P law (ensureFreeBucketChain P h) bs
      ((ensureFreeBucketChain P h).freeBucketChain :: spare') := by
  have hspare : ∀ {g : Heap π} {sp : List Nat}, Inv P law g bs sp → g.freeBucketChain ≠ 0 →
      ∃ sp', sp = g.freeBucketChain :: sp' := by
    intro g sp hg hne
    cases sp with
    | nil => exact absurd hg.spareChain hne
    | cons d sp => exact ⟨sp, by rw [hg.spareChain.1]⟩
  by_cases h0 : h.freeBucketChain = 0
  · have he : ensureFreeBucketChain P h = constructFreeBucketChain P h := if_pos h0
    have hnil : spare = [] := by
      cases spare with
      | nil => rfl
      | cons d sp => exact absurd (hi.spareChain.1.symm.trans h0) hi.spareChain.2.1
    subst hnil
    rw [he] at hne ⊢
    have hinv := construct_spec hi (hplain h0) hne
    obtain ⟨sp', hsp⟩ := hspare hinv hne
    exact ⟨sp', hsp ▸ hinv⟩
  · have he : ensureFreeBucketChain P h = h := if_neg h0
    rw [he] at hne ⊢
    obtain ⟨sp', rfl⟩ := hspare hi hne
    exact ⟨sp', hi⟩

/-- The fresh page is not written. -/
theorem agreeOn_ensure (hi : Inv P law h bs spare)
    (hne : (ensureFreeBucketChain P h).freeBucketChain ≠ 0)
    (hplain : h.freeBucketChain = 0 → law.Plain h.pm)
    (hplain' : law.Plain (ensureFreeBucketChain P h).pm) (hpage : freshPage P h ≠ 0) :
    AgreeOn h.mem (ensureFreeBucketChain P h).mem (freshPage P h) pageSize := by
  obtain ⟨spare', hinv⟩ := ensure_inv hi hne hplain
  by_cases h0 : h.freeBucketChain = 0
  · have he : ensureFreeBucketChain P h = constructFreeBucketChain P h := if_pos h0
    simp only [freshPage, he] at hinv hplain' hpage ⊢
    -- the fresh page is not the page of descriptors, which is taken
    obtain ⟨-, halign, hlt, hnew, -⟩ := law.get _ hinv.pm hplain' hpage
    have hD : (P.getFreePage h.pm).1 ∈ bs.map Bucket.page ++
      (constructFreeBucketChain P h).descPages := by
      simp [constructFreeBucketChain]
    have hapart := (hinv.shape.addr _ hD).apart ⟨halign, hpage, hlt⟩
      (fun hee => hnew (hee ▸ hinv.taken _ hD))
    have hfit : P.offset .next + P.word ≤ P.descSize := P.offset_width .next
    have harea := Nat.div_mul_le_self pageSize P.descSize
    show AgreeOn h.mem (thread P.word (P.offset .next) (P.getFreePage h.pm).1 P.descSize
      (pageSize / P.descSize) h.mem) _ _
    refine agreeOn_thread _ descSize_pos.2 (fun j hj => apart_links hfit ?_ hj)
    rcases hapart with h1 | h1
    · exact Or.inr (Nat.le_trans (Nat.add_le_add_left harea _) h1)
    · exact Or.inl h1
  · have he : ensureFreeBucketChain P h = h := if_neg h0
    rw [he]
    exact AgreeOn.refl _ _ _

/-- Setting the bucket up and inserting it, as one change of the heap. -/
theorem insert_setUp {i size : Nat} (hp : freshPage P h < 2 ^ 32) :
    insertBucket P (setUpBucket P h size).2.2 i (setUpBucket P h size).1
      (setUpBucket P h size).2.1 size =
    { ensureFreeBucketChain P h with
      mem := freshMem P (ensureFreeBucketChain P h).mem
        (ensureFreeBucketChain P h).freeBucketChain (freshPage P h) size
        ((ensureFreeBucketChain P h).dir i)
      pm := (P.getFreePage (ensureFreeBucketChain P h).pm).2
      dir := Function.update (ensureFreeBucketChain P h).dir i
        (ensureFreeBucketChain P h).freeBucketChain
      freeBucketChain := P.get .next (ensureFreeBucketChain P h).mem
        (ensureFreeBucketChain P h).freeBucketChain } := by
  have hu : u32 (P.getFreePage (ensureFreeBucketChain P h).pm).1 = freshPage P h := u32_of_lt hp
  simp only [insertBucket, setUpBucket, freshMem, hu]
  rfl

theorem slots_eq_cons (base stride : Nat) {count : Nat} (hc : 0 < count) :
    ∃ xs, slots base stride count = base :: xs := by
  obtain ⟨n, rfl⟩ : ∃ n, count = n + 1 := ⟨count - 1, by omega⟩
  rw [slots, List.range_succ_eq_map, List.map_cons, Nat.zero_mul, Nat.add_zero]
  exact ⟨_, rfl⟩

/-- The pages a call leaves outstanding: those before it, or with them those of
a fresh bucket. -/
def PagesAfter (P : Platform π) (h h' : Heap π) (bs bs' : List Bucket) (b : Bucket) : Prop :=
  (h'.pm = h.pm ∧ h'.descPages = h.descPages ∧ bs = bs') ∨
    (h'.pm = (P.getFreePage (ensureFreeBucketChain P h).pm).2 ∧
      h'.descPages = (ensureFreeBucketChain P h).descPages ∧ b.page = freshPage P h ∧
      (ensureFreeBucketChain P h).freeBucketChain ≠ 0 ∧ freshPage P h ≠ 0)

/-- **`kmalloc`.** The block returned goes from the free to the used blocks of
its bucket, which may be a fresh one. -/
theorem kmalloc_spec (hi : Inv P law h bs spare) {fuel len r : Nat} {h' : Heap π}
    (hpages : PagesLeft P fuel h len) (hplain : PlainPages P law fuel h len)
    (hclean : CleanLink P fuel h len) (hk : kmalloc P fuel h len = some (r, h')) :
    (dirPos len = none ∧ r = 0 ∧ h' = h) ∨
      ∃ L b R xs spare', dirPos len = some (b.dir, b.size) ∧ b.free = r :: xs ∧
        (bs = L ++ b :: R ∨ (bs = R ∧ L = [] ∧ b.used = [])) ∧
        PagesAfter P h h' bs (L ++ b :: R) b ∧
        Inv P law h' (L ++ { b with free := xs, used := r :: b.used } :: R) spare' := by
  rcases hdir : dirPos len with _ | ⟨i, size⟩
  · simp only [kmalloc, hdir, Option.some.injEq, Prod.mk.injEq] at hk
    exact Or.inl ⟨rfl, hk.1.symm, hk.2.symm⟩
  · obtain ⟨hentry, -, hsize, hwhole⟩ := dirPos_some hdir
    obtain ⟨hlink, hlink'⟩ := hclean i size hdir
    right
    simp only [kmalloc, hdir] at hk
    cases hfind : findFree P fuel h.mem (h.dir i) with
    | none => simp [hfind] at hk
    | some c =>
      simp only [hfind] at hk
      by_cases hc : c = 0
      · -- a fresh bucket
        subst hc
        obtain ⟨hne, hpage⟩ := hpages i size hdir hfind
        obtain ⟨hpl1, hpl2⟩ := hplain i size hdir hfind
        obtain ⟨spare', hinv⟩ := ensure_inv hi hne hpl1
        have hagree := agreeOn_ensure hi hne hpl1 hpl2 hpage
        have hfresh := newBucket_spec hinv hpl2 hpage hentry hsize hwhole
        obtain ⟨-, halign, hlt, hnew, -⟩ := law.get _ hinv.pm hpl2 hpage
        have hpa : PageAddr (freshPage P h) := ⟨halign, hpage, hlt⟩
        have hpage' : (setUpBucket P h size).2.1 ≠ 0 := hpage
        simp only [↓reduceIte, hpage', insert_setUp hpa.lt_u32, Option.some.injEq] at hk
        obtain ⟨xs, hxs⟩ := slots_eq_cons (freshPage P h) size (slots_count_pos hwhole)
        have hclean' : readLE (P.word - 4) (freshMem P (ensureFreeBucketChain P h).mem
            (ensureFreeBucketChain P h).freeBucketChain (freshPage P h) size
            ((ensureFreeBucketChain P h).dir i)) (freshPage P h + 4) = 0 := by
          have hw := P.word_le
          have hapart := hinv.desc_fresh hpa hnew (List.mem_append_right _ List.mem_cons_self)
          have hfar : AgreeOn h.mem (ensureFreeBucketChain P h).mem (freshPage P h + 4)
              (P.word - 4) := hagree.sub (by omega) (by simp only [pageSize]; omega)
          rw [readLE_congr (hfar.trans (agreeOn_freshLink _ hsize hwhole hapart)), hlink' hfind]
        obtain ⟨ht1, ht2⟩ := takeBlock_spec (L := []) hfresh hxs hclean'
        obtain rfl : freshPage P h = r := ht1.symm.trans (congrArg Prod.fst hk)
        obtain rfl := congrArg Prod.snd hk
        exact ⟨[], _, bs, xs, spare', rfl, hxs, Or.inr ⟨rfl, rfl, rfl⟩,
          Or.inr ⟨rfl, rfl, rfl, hne, hpage⟩, ht2⟩
      · -- a bucket of the chain
        simp only [hc, ↓reduceIte, Option.some.injEq] at hk
        rcases find_spec (hi.chains i) hfind with ⟨h0, -⟩ | ⟨ys, zs, hlist, htest, -⟩
        · exact absurd h0 hc
        · have hm : c ∈ (bs.filter (·.dir = i)).map Bucket.desc := by simp [hlist]
          obtain ⟨b, hb, rfl⟩ := List.mem_map.mp hm
          simp only [List.mem_filter, decide_eq_true_eq] at hb
          obtain ⟨hb, rfl⟩ := hb
          obtain ⟨L, R, rfl⟩ := List.append_of_mem hb
          have hbsize : b.size = size :=
            Option.some.inj ((hi.shape.ok b hb).dir.symm.trans hentry)
          have hchain := (hi.rep b hb).free
          simp only [ne_eq, decide_not, Bool.not_eq_eq_eq_not, Bool.not_true,
            decide_eq_false_iff_not]
            at htest
          cases hfree : b.free with
          | nil =>
            rw [hfree] at hchain
            exact absurd hchain htest
          | cons x xs =>
            rw [hfree] at hchain
            have hx : P.get .freeBlock h.mem b.desc = x := hchain.1
            have hclean' := hlink b.desc hc hfind
            rw [hx] at hclean'
            obtain ⟨ht1, ht2⟩ := takeBlock_spec hi hfree hclean'
            obtain rfl : x = r := ht1.symm.trans (congrArg Prod.fst hk)
            obtain rfl : (takeBlock P h b.desc).2 = h' := congrArg Prod.snd hk
            exact ⟨L, b, R, xs, spare, by rw [hbsize], hfree, Or.inl rfl, Or.inl ⟨rfl, rfl, rfl⟩,
              ht2⟩

/-- The searches along a chain are shorter than the list of buckets. -/
theorem Inv.chain_length_lt (hi : Inv P law h bs spare) {fuel : Nat}
    (hf : bs.length < fuel) (i : Nat)
    (test : Nat → Bool) : ∃ c, find (P.get .next h.mem) test fuel (h.dir i) = some c := by
  apply find_total (hi.chains i) test
  rw [List.length_map]
  exact Nat.lt_of_le_of_lt (List.length_filter_le _ _) hf

/-- With more fuel than buckets `kmalloc` returns. -/
theorem kmalloc_total (hi : Inv P law h bs spare) {fuel : Nat} (hf : bs.length < fuel) (len : Nat) :
    ∃ r, kmalloc P fuel h len = some r := by
  rcases hdir : dirPos len with _ | ⟨i, size⟩
  · exact ⟨(0, h), by simp only [kmalloc, hdir]⟩
  · obtain ⟨c, hc⟩ := hi.chain_length_lt hf i (fun c => P.get .freeBlock h.mem c ≠ 0)
    simp only [kmalloc, hdir, findFree, hc]
    split
    · split
      · exact ⟨_, rfl⟩
      · exact ⟨_, rfl⟩
    · exact ⟨_, rfl⟩

/-- The page of a block. -/
theorem Bucket.Ok.pageAlignAddr {b : Bucket} (hok : b.Ok) (ha : PageAddr b.page) {x : Nat}
    (hx : x ∈ b.free ++ b.used) : pageAlignAddr x = b.page := by
  have hbound := hok.bounds hx
  have hsize := hok.size_ge
  have halign := ha.aligned
  have hlt := ha.lt
  rw [Malloc.pageAlignAddr, u32_of_lt (by omega)]
  unfold pageSize at hbound halign
  omega

/-- The search of `kfree_s` finds the bucket of a block. -/
theorem findPage_spec (hi : Inv P law h bs spare) {b : Bucket} (hb : b ∈ bs) {x : Nat}
    (hx : x ∈ b.used) {fuel c : Nat}
    (hf : findPage P fuel h.mem (h.dir b.dir) (pageAlignAddr x) = some c) : c = b.desc := by
  have haddr := hi.shape.addr b.page (List.mem_append_left _ (List.mem_map_of_mem hb))
  rw [(hi.shape.ok b hb).pageAlignAddr haddr (List.mem_append_right _ hx)] at hf
  have hin : b.desc ∈ (bs.filter (·.dir = b.dir)).map Bucket.desc :=
    List.mem_map_of_mem (List.mem_filter.mpr ⟨hb, by simp⟩)
  rcases find_spec (hi.chains b.dir) hf with ⟨-, hall⟩ | ⟨ys, zs, hlist, htest, -⟩
  · have := hall b.desc hin
    simp [(hi.rep b hb).page] at this
  · have hm : c ∈ (bs.filter (·.dir = b.dir)).map Bucket.desc := by simp [hlist]
    obtain ⟨e, he, rfl⟩ := List.mem_map.mp hm
    have he' := List.mem_of_mem_filter he
    have hep : e.page = b.page := by simpa [(hi.rep e he').page] using htest
    rw [List.inj_on_of_nodup_map hi.shape.pages.of_append_left he' hb hep]

/-- **`kfree_s`.** The block goes back to the free blocks of its bucket; the last
one takes the bucket away. -/
theorem kfreeS_spec {L R : List Bucket} {b : Bucket} (hi : Inv P law h (L ++ b :: R) spare)
    {x : Nat} (hx : x ∈ b.used) {fuel len : Nat} (hdir : dirPos len = some (b.dir, b.size))
    {h' : Heap π} (hk : kfreeS P fuel h x len = some h') :
    Inv P law h' (L ++ { b with free := x :: b.free, used := b.used.erase x } :: R) spare ∨
      (b.used.erase x = [] ∧ Inv P law h' (L ++ R) (b.desc :: spare)) := by
  have hb : b ∈ L ++ b :: R := by simp
  have hbd : b.desc ∈ (L ++ b :: R).map Bucket.desc ++ spare :=
    List.mem_append_left _ (List.mem_map_of_mem hb)
  have hput := putBlock_spec hi hx
  simp only [kfreeS, hdir] at hk
  cases hf : findPage P fuel h.mem (h.dir b.dir) (pageAlignAddr x) with
  | none => simp [hf] at hk
  | some c =>
    obtain rfl := findPage_spec hi hb hx hf
    simp only [hf, hi.shape.desc_ne_zero hbd, ↓reduceIte] at hk
    have hcnt := (hput.rep _ (List.mem_append_right L List.mem_cons_self)).refCnt
    split at hk
    · rename_i hzero
      have hnil : b.used.erase x = [] := List.length_eq_zero_iff.mp (hcnt.symm.trans hzero)
      exact Or.inr ⟨hnil, releaseBucket_spec hput hk⟩
    · simp only [Option.some.injEq] at hk
      exact Or.inl (hk ▸ hput)

/-- With more fuel than buckets `kfree_s` returns. -/
theorem kfreeS_total {L R : List Bucket} {b : Bucket} (hi : Inv P law h (L ++ b :: R) spare)
    {x : Nat} (hx : x ∈ b.used) {fuel len : Nat} (hdir : dirPos len = some (b.dir, b.size))
    (hfuel : (L ++ b :: R).length < fuel) : ∃ h', kfreeS P fuel h x len = some h' := by
  have hb : b ∈ L ++ b :: R := by simp
  have hbd : b.desc ∈ (L ++ b :: R).map Bucket.desc ++ spare :=
    List.mem_append_left _ (List.mem_map_of_mem hb)
  obtain ⟨c, hc⟩ := hi.chain_length_lt hfuel b.dir (fun c => P.get .page h.mem c = pageAlignAddr x)
  obtain rfl := findPage_spec hi hb hx hc
  simp only [kfreeS, hdir, findPage, hc, hi.shape.desc_ne_zero hbd, ↓reduceIte]
  split
  · exact releaseBucket_total (putBlock_spec hi hx) (by simpa using hfuel)
  · exact ⟨_, rfl⟩

/-- Blocks of two buckets, and two blocks of one, are apart. -/
theorem block_apart {cs : List Bucket} (hok : ∀ c ∈ cs, c.Ok ∧ PageAddr c.page)
    (hpages : (cs.map Bucket.page).Nodup) {b c : Bucket} (hb : b ∈ cs) (hc : c ∈ cs)
    {x y : Nat} (hx : x ∈ b.free ++ b.used) (hy : y ∈ c.free ++ c.used) (hne : b = c → x ≠ y) :
    x + b.size ≤ y ∨ y + c.size ≤ x := by
  by_cases hbc : b = c
  · subst hbc
    exact (hok b hb).1.apart hx hy (hne rfl)
  · have hpne : b.page ≠ c.page := fun he => hbc (List.inj_on_of_nodup_map hpages hb hc he)
    have h1 := (hok b hb).2.apart (hok c hc).2 hpne
    have h2 := (hok b hb).1.bounds hx
    have h3 := (hok c hc).1.bounds hy
    omega

theorem Inv.block_apart (hi : Inv P law h bs spare) {b c : Bucket} (hb : b ∈ bs) (hc : c ∈ bs)
    {x y : Nat} (hx : x ∈ b.free ++ b.used) (hy : y ∈ c.free ++ c.used) (hne : b = c → x ≠ y) :
    x + b.size ≤ y ∨ y + c.size ≤ x := by
  have hok : ∀ c ∈ bs, c.Ok ∧ PageAddr c.page := fun c hc => ⟨hi.shape.ok c hc,
    hi.shape.addr _ (List.mem_append_left _ (List.mem_map_of_mem hc))⟩
  exact Malloc.block_apart hok hi.shape.pages.of_append_left hb hc hx hy hne

end Spec

/-! ## Runs -/

/-- The heap and its live blocks: pointer and the length asked for. -/
structure HeapSys (π : Type u) where
  heap : Heap π
  live : List (Nat × Nat)

inductive HeapAct
  | malloc (len : Nat)
  | free (ptr len : Nat)
  | write (addr : Nat) (v : Byte)
  deriving DecidableEq, Repr

/-- The size of the block that serves a length. -/
def blockLen (len : Nat) : Nat :=
  match dirPos len with
  | none => 0
  | some (_, size) => size

/-- Only live blocks are freed, with their length, and only bytes of live blocks
are written. -/
def HeapSys.next (P : Platform π) (fuel : Nat) (s : HeapSys π) : HeapAct → Option (HeapSys π)
  | .malloc len =>
    (kmalloc P fuel s.heap len).map fun r => ⟨r.2, if r.1 = 0 then s.live else (r.1, len) :: s.live⟩
  | .free ptr len =>
    if (ptr, len) ∈ s.live then
      (kfreeS P fuel s.heap ptr len).map fun h => ⟨h, s.live.erase (ptr, len)⟩
    else none
  | .write addr v =>
    if ∃ e ∈ s.live, e.1 ≤ addr ∧ addr < e.1 + blockLen e.2 then
      some ⟨{ s.heap with mem := Function.update s.heap.mem addr v }, s.live⟩
    else none

def heapStep (P : Platform π) (fuel : Nat) : HeapSys π → HeapAct → HeapSys π → Prop :=
  stepOf (HeapSys.next P fuel)

/-- The page of a bucket on a chain of the directory. -/
def Owned (P : Platform π) (h : Heap π) (page : Nat) : Prop :=
  ∃ i < gBucketDir.length, ∃ xs c,
    Seg (P.get .next h.mem) (h.dir i) xs c ∧ c ≠ 0 ∧ P.get .page h.mem c = page

/-- The `size` bytes at `r` lie in an owned page, apart from live blocks and from
descriptor pages. -/
structure SafeBlock (P : Platform π) (live : List (Nat × Nat)) (h : Heap π) (r size : Nat) :
    Prop where
  owned : ∃ page, Owned P h page ∧ page ≤ r ∧ r + size ≤ page + pageSize
  live : ∀ e ∈ live, r + size ≤ e.1 ∨ e.1 + blockLen e.2 ≤ r
  descs : ∀ D ∈ h.descPages, r + size ≤ D ∨ D + pageSize ≤ r

/-- What a call of `kmalloc` owes. -/
def SafeMalloc (P : Platform π) (fuel : Nat) (s : HeapSys π) : HeapAct → HeapSys π → Prop
  | .malloc len, _ => ∀ r h, kmalloc P fuel s.heap len = some (r, h) → r ≠ 0 →
    ∃ size, len ≤ size ∧ SafeBlock P s.live h r size
  | _, _ => True

/-- `get_free_page` does not return `NULL` to the step. -/
def HavePages (P : Platform π) (fuel : Nat) (s : HeapSys π) : HeapAct → HeapSys π → Prop
  | .malloc len, _ => PagesLeft P fuel s.heap len
  | _, _ => True

/-- The pages of the step are plain and the link it reads is clean. -/
def Clean (P : Platform π) (law : PageLaw P) (fuel : Nat) (s : HeapSys π) :
    HeapAct → HeapSys π → Prop
  | .malloc len, _ => PlainPages P law fuel s.heap len ∧ CleanLink P fuel s.heap len
  | _, _ => True

/-- Live blocks are used blocks of buckets of their size. -/
structure LiveInv (bs : List Bucket) (live : List (Nat × Nat)) : Prop where
  nodup : (live.map Prod.fst).Nodup
  used : ∀ e ∈ live, ∃ b ∈ bs, dirPos e.2 = some (b.dir, b.size) ∧ e.1 ∈ b.used

/-- A live block other than the freed one has another address. -/
theorem LiveInv.ne_of_erase {bs : List Bucket} {live : List (Nat × Nat)} (hl : LiveInv bs live)
    {ptr len : Nat} (hlive : (ptr, len) ∈ live) {e : Nat × Nat} (he : e ∈ live.erase (ptr, len)) :
    e ∈ live ∧ e.1 ≠ ptr := by
  have hmem := List.mem_of_mem_erase he
  refine ⟨hmem, fun hep => ?_⟩
  have heq : e = (ptr, len) := List.inj_on_of_nodup_map hl.nodup hmem hlive hep
  exact (List.Nodup.not_mem_erase hl.nodup.of_map) (heq ▸ he)

theorem LiveInv.nodup_erase {bs : List Bucket} {live : List (Nat × Nat)} (hl : LiveInv bs live)
    (e : Nat × Nat) : ((live.erase e).map Prod.fst).Nodup :=
  hl.nodup.sublist (List.erase_sublist.map _)

def SysInv (P : Platform π) (law : PageLaw P) (s : HeapSys π) : Prop :=
  ∃ bs spare, Inv P law s.heap bs spare ∧ LiveInv bs s.live

section Step

variable {P : Platform π} {law : PageLaw P} {h : Heap π} {bs : List Bucket} {spare : List Nat}
  {live : List (Nat × Nat)}

theorem Inv.owned (hi : Inv P law h bs spare) {b : Bucket} (hb : b ∈ bs) : Owned P h b.page := by
  have hchain := hi.chains b.dir
  obtain ⟨L, R, rfl⟩ := List.append_of_mem hb
  rw [filter_middle] at hchain
  obtain ⟨c, hseg, hc⟩ := (seg_append _ _ _ _ 0).mp hchain
  obtain ⟨hlt, -⟩ := List.getElem?_eq_some_iff.mp (hi.shape.ok b hb).dir
  exact ⟨b.dir, hlt, _, c, hseg, hc.1 ▸ hc.2.1, by rw [hc.1]; exact (hi.rep b hb).page⟩

/-- The middle bucket, or another one. -/
theorem mem_middle {L R S : List Bucket} {b c : Bucket} :
    c ∈ L ++ b :: R ++ S ↔ c = b ∨ c ∈ L ++ (R ++ S) := by
  rw [List.append_assoc, List.cons_append, List.perm_middle.mem_iff, List.mem_cons]

theorem mem_replaced {L R : List Bucket} {b b' c : Bucket} (hc : c ∈ L ++ b :: R) (hne : c ≠ b) :
    c ∈ L ++ b' :: R := by
  simp only [List.mem_append, List.mem_cons, hne, false_or] at hc ⊢
  exact hc.imp_right Or.inr

theorem blockLen_of {len i size : Nat} (h : dirPos len = some (i, size)) : blockLen len = size := by
  simp only [blockLen, h]

/-- The blocks of a page are for more than 2048 bytes. -/
theorem blockLen_of_gt {n : Nat} (h : 2048 < n) (hn : n ≤ pageSize) : blockLen n = pageSize := by
  have hall : ∀ t ∈ [16, 32, 64, 128, 256, 512, 1024, 2048], t ≠ 0 ∧ t ≤ 2048 := by decide
  have hskip := @findDir_skip n 0 [16, 32, 64, 128, 256, 512, 1024, 2048] [4096, 0]
    fun t ht => ⟨(hall t ht).1, Nat.lt_of_le_of_lt (hall t ht).2 h⟩
  have hstop : findDir n [4096, 0] 8 = some (8, pageSize) := by
    rw [findDir, if_neg (by decide)]
    exact if_pos hn
  have hdir : dirPos n = some (8, pageSize) := hskip.trans hstop
  exact blockLen_of hdir

theorem blockLen_of_le {n : Nat} (h : n ≤ 2048) : blockLen n ≤ 2048 := by
  obtain ⟨j, size, hdir, hle⟩ := @findDir_le n 2048 0 h (by decide)
    [16, 32, 64, 128, 256, 512, 1024] [4096, 0] (by decide) (by decide)
  have hdir : dirPos n = some (j, size) := hdir
  rw [blockLen_of hdir]
  exact hle

/-- The block a call takes, seen from the live blocks. -/
theorem taken_apart {L R : List Bucket} {b : Bucket} {r : Nat} {xs : List Nat} {spare' : List Nat}
    {h' : Heap π} (hi : Inv P law h bs spare) (hl : LiveInv bs live) (hfree : b.free = r :: xs)
    (hbs : bs = L ++ b :: R ∨ (bs = R ∧ L = [] ∧ b.used = []))
    (hi' : Inv P law h' (L ++ { b with free := xs, used := r :: b.used } :: R) spare') :
    ∀ e ∈ live, r + b.size ≤ e.1 ∨ e.1 + blockLen e.2 ≤ r := by
  intro e he
  obtain ⟨c, hc, hdir, hec⟩ := hl.used e he
  have hec' : e.1 ∈ c.free ++ c.used := List.mem_append_right _ hec
  rw [blockLen_of hdir]
  rcases hbs with rfl | ⟨rfl, rfl, -⟩
  · have hb : b ∈ L ++ b :: R := by simp
    have hr : r ∈ b.free ++ b.used := by simp [hfree]
    refine hi.block_apart hb hc hr hec' (fun hbc hre => ?_)
    subst hbc
    have hdis := (List.nodup_append.mp (hi.shape.ok b hb).nodup).2.2
    exact hdis r (by simp [hfree]) e.1 hec hre
  · have hb : { b with free := xs, used := r :: b.used } ∈
        [] ++ { b with free := xs, used := r :: b.used } :: bs := List.mem_cons_self
    have hr : r ∈ xs ++ r :: b.used := by simp
    refine hi'.block_apart hb (List.mem_cons_of_mem _ hc) hr hec' (fun hbc => ?_)
    have hne := map_ne_of_nodup (L := []) hi'.shape.descs hc
    exact absurd (congrArg Bucket.desc hbc).symm hne

/-- **`kmalloc` step.** The block is safe, and the live blocks stay used blocks. -/
theorem malloc_step {s t : HeapSys π} {fuel len : Nat} (hs : SysInv P law s)
    (hpages : HavePages P fuel s (.malloc len) t) (hclean : Clean P law fuel s (.malloc len) t)
    (hst : heapStep P fuel s (.malloc len) t) :
    SysInv P law t ∧ SafeMalloc P fuel s (.malloc len) t := by
  obtain ⟨bs, spare, hi, hl⟩ := hs
  simp only [heapStep, stepOf, HeapSys.next, Option.map_eq_some_iff] at hst
  obtain ⟨⟨r, h'⟩, hk, rfl⟩ := hst
  have hspec := kmalloc_spec hi hpages hclean.1 hclean.2 hk
  rcases hspec with ⟨-, rfl, rfl⟩ | ⟨L, b, R, xs, spare', hdir, hfree, hbs, -, hi'⟩
  · refine ⟨⟨bs, spare, hi, hl⟩, fun r' h' hk' hr' => ?_⟩
    rw [hk, Option.some.injEq, Prod.mk.injEq] at hk'
    exact absurd hk'.1.symm hr'
  · have hb' : { b with free := xs, used := r :: b.used } ∈
        L ++ { b with free := xs, used := r :: b.used } :: R := by simp
    have hapart := taken_apart hi hl hfree hbs hi'
    have hok := hi'.shape.ok _ hb'
    have hr : r ∈ xs ++ r :: b.used := by simp
    have hr0 : r ≠ 0 := (hi'.block_lt hb' hr).1
    have hbound := hok.bounds hr
    have hsize := hok.size_ge
    constructor
    · refine ⟨_, spare', hi', ?_⟩
      simp only [hr0, ↓reduceIte]
      refine ⟨?_, fun e he => ?_⟩
      · refine List.nodup_cons.mpr ⟨fun hm => ?_, hl.nodup⟩
        obtain ⟨e, he, her⟩ := List.mem_map.mp hm
        obtain ⟨c, hc, hdirc, -⟩ := hl.used e he
        have h1 := hapart e he
        have h2 := (hi.shape.ok c hc).size_ge
        rw [blockLen_of hdirc] at h1
        simp only at her hsize
        omega
      · rcases List.mem_cons.mp he with rfl | he
        · exact ⟨_, hb', hdir, List.mem_cons_self⟩
        · obtain ⟨c, hc, hdirc, hec⟩ := hl.used e he
          by_cases hcb : c = b
          · subst hcb
            exact ⟨_, hb', hdirc, List.mem_cons_of_mem _ hec⟩
          · refine ⟨c, ?_, hdirc, hec⟩
            rcases hbs with rfl | ⟨rfl, rfl, -⟩
            · exact mem_replaced hc hcb
            · exact List.mem_cons_of_mem _ hc
    · intro r' h'' hk' _
      rw [hk, Option.some.injEq, Prod.mk.injEq] at hk'
      obtain ⟨rfl, rfl⟩ := hk'
      have hown := hi'.owned hb'
      refine ⟨b.size, (dirPos_some hdir).2.1, ⟨_, hown, hbound.1, hbound.2⟩, hapart,
        fun D hD => ?_⟩
      have := hi'.shape.page_descPage hD hb'
      simp only at this hbound
      omega

/-- **`kfree_s` step.** The other live blocks stay used blocks. -/
theorem free_step {s t : HeapSys π} {fuel ptr len : Nat} (hs : SysInv P law s)
    (hst : heapStep P fuel s (.free ptr len) t) : SysInv P law t := by
  obtain ⟨bs, spare, hi, hl⟩ := hs
  simp only [heapStep, stepOf, HeapSys.next] at hst
  split at hst
  · rename_i hlive
    obtain ⟨h', hk, rfl⟩ := Option.map_eq_some_iff.mp hst
    obtain ⟨b, hb, hdir, hx⟩ := hl.used _ hlive
    obtain ⟨L, R, rfl⟩ := List.append_of_mem hb
    have hnd := hl.nodup_erase (ptr, len)
    rcases kfreeS_spec hi hx hdir hk with hi' | ⟨hnil, hi'⟩
    · refine ⟨_, spare, hi', hnd, fun e he => ?_⟩
      obtain ⟨hmem, hne⟩ := hl.ne_of_erase hlive he
      obtain ⟨c, hc, hdirc, hec⟩ := hl.used e hmem
      by_cases hcb : c = b
      · subst hcb
        exact ⟨_, List.mem_append_right L List.mem_cons_self, hdirc,
          (List.mem_erase_of_ne hne).mpr hec⟩
      · exact ⟨c, mem_replaced hc hcb, hdirc, hec⟩
    · refine ⟨_, _, hi', hnd, fun e he => ?_⟩
      obtain ⟨hmem, hne⟩ := hl.ne_of_erase hlive he
      obtain ⟨c, hc, hdirc, hec⟩ := hl.used e hmem
      by_cases hcb : c = b
      · subst hcb
        have hin := (List.mem_erase_of_ne hne).mpr hec
        simp only [hnil, List.not_mem_nil] at hin
      · exact ⟨c, by simpa [hcb] using hc, hdirc, hec⟩
  · cases hst

theorem agreeOn_update (m : Mem) {a : Nat} (v : Byte) {b k : Nat} (h : a < b ∨ b + k ≤ a) :
    AgreeOn m (Function.update m a v) b k :=
  fun x h1 h2 => Function.update_of_ne (show x ≠ a by omega) v m

/-- **Callers' writes** reach neither descriptors nor links of free blocks. -/
theorem write_step {s t : HeapSys π} {fuel addr : Nat} {v : Byte} (hs : SysInv P law s)
    (hst : heapStep P fuel s (.write addr v) t) : SysInv P law t := by
  obtain ⟨bs, spare, hi, hl⟩ := hs
  simp only [heapStep, stepOf, HeapSys.next] at hst
  split at hst
  · rename_i hlive
    obtain ⟨e, he, h1, h2⟩ := hlive
    simp only [Option.some.injEq] at hst
    subst hst
    obtain ⟨b, hb, hdir, hx⟩ := hl.used e he
    rw [blockLen_of hdir] at h2
    have hx' : e.1 ∈ b.free ++ b.used := List.mem_append_right _ hx
    have hbound := (hi.shape.ok b hb).bounds hx'
    refine ⟨bs, spare, hi.congr (fun d hd => ?_) (fun c hc y hy => ?_), hl⟩
    · have := hi.shape.desc_page hd hb
      exact agreeOn_update _ v (by omega)
    · have hy' : y ∈ c.free ++ c.used := List.mem_append_left _ hy
      have hsize := (hi.shape.ok c hc).size_ge
      have := hi.block_apart hb hc hx' hy' (fun hbc hxy => by
        subst hbc
        exact (List.nodup_append.mp (hi.shape.ok b hb).nodup).2.2 y hy e.1 hx hxy.symm)
      exact agreeOn_update _ v (by omega)
  · cases hst

theorem sysInv_step {fuel : Nat} (s : HeapSys π) (a : HeapAct) (t : HeapSys π) (hs : SysInv P law s)
    (hc : HavePages P fuel s a t ∧ Clean P law fuel s a t) (hst : heapStep P fuel s a t) :
    SysInv P law t ∧ SafeMalloc P fuel s a t := by
  cases a with
  | malloc len => exact malloc_step hs hc.1 hc.2 hst
  | free ptr len => exact ⟨free_step hs hst, trivial⟩
  | write addr v => exact ⟨write_step hs hst, trivial⟩

/-- The empty allocator. -/
def emptyHeap (mem : Mem) (pm : π) : Heap π := ⟨mem, pm, fun _ => 0, 0, []⟩

theorem sysInv_empty (mem : Mem) {pm : π} (hpm : law.Ok pm) :
    SysInv P law ⟨emptyHeap mem pm, []⟩ := by
  refine ⟨[], [], ⟨⟨by simp, by simp, by simp, by simp [emptyHeap], by simp [emptyHeap]⟩, hpm,
    by simp [emptyHeap], fun i => rfl, rfl, by simp⟩, by simp, by simp⟩

/-- **Heap safety.** In a run whose steps are clean every returned block is safe. -/
theorem safeRun_of_clean {fuel : Nat} {s : HeapSys π} (hs : SysInv P law s) (as : List HeapAct)
    (hpages : Every (heapStep P fuel) (HavePages P fuel) s as)
    (hclean : Every (heapStep P fuel) (Clean P law fuel) s as) :
    Every (heapStep P fuel) (SafeMalloc P fuel) s as :=
  every_of_inv (fun s a t hs hc hst => sysInv_step s a t hs hc hst) hs
    (every_and hpages hclean)

end Step

end X64SmpOs.Malloc

import X64SmpOs.Kernel.X86Memory

/-!
# The x86 heap

`kmalloc` of the x86 kernel is that of the x64 one with pointers of four bytes.
Its `kfree_s` unlinks an unused bucket by moving the head of the chain behind
it.

* `releaseBucket`, `kfreeS`, `step`: the entry point and the runs of callers;
* `Good`: the reachable buckets and the lost ones, which are on no chain while
  their pages are outstanding and their blocks may be live;
* `drop_spec`, `kfreeS_spec`: the buckets in front of the released one get lost;
* `good_step`, `Good.step_total`: one step, and that legal actions have one;
* `safe_run`: heap safety.
-/

namespace X64SmpOs.X86Heap

open Memory LinkedList Words Runs Malloc

/-! ## `kfree_s` -/

/-- The page goes back, the chain starts behind the bucket, and the bucket goes to
the free bucket chain. -/
def releaseBucket (h : Heap Pages) (i chain : Nat) : Heap Pages :=
  { h with
    mem := x86.set .next h.mem chain h.freeBucketChain
    pm := x86.freePage h.pm (x86.get .page h.mem chain)
    dir := Function.update h.dir i (x86.get .next h.mem chain)
    freeBucketChain := chain }

def kfreeS (fuel : Nat) (h : Heap Pages) (ptr len : Nat) : Option (Heap Pages) :=
  match dirPos len with
  | none => some h
  | some (i, _) =>
    match findPage x86 fuel h.mem (h.dir i) (pageAlignAddr ptr) with
    | none => none
    | some chain =>
      if chain = 0 then some h
      else
        let m := putBlock x86 h.mem chain ptr
        if x86.get .refCnt m chain = 0 then some (releaseBucket { h with mem := m } i chain)
        else some { h with mem := m }

/-- The call has `construct_free_bucket_chain` write through a `NULL` pointer. -/
def nullWrite (fuel : Nat) (h : Heap Pages) (len : Nat) : Bool :=
  match dirPos len with
  | none => false
  | some (i, _) =>
    findFree x86 fuel h.mem (h.dir i) = some 0 && (ensureFreeBucketChain x86 h).freeBucketChain = 0

/-- `kmalloc` and the writes of callers are those of `HeapSys.next`. A call that
writes through `NULL` has no result. -/
def next (fuel : Nat) (s : HeapSys Pages) : HeapAct → Option (HeapSys Pages)
  | .malloc len =>
    if nullWrite fuel s.heap len then none else HeapSys.next x86 fuel s (.malloc len)
  | .free ptr len =>
    if s.live.contains (ptr, len) then
      (kfreeS fuel s.heap ptr len).map fun h => ⟨h, s.live.erase (ptr, len)⟩
    else none
  | .write addr v => HeapSys.next x86 fuel s (.write addr v)

def step (fuel : Nat) : HeapSys Pages → HeapAct → HeapSys Pages → Prop := stepOf (next fuel)

/-! ## Released buckets -/

section Release

variable {aside : List Nat} {h : Heap Pages} {L R : List Bucket} {b : Bucket} {spare : List Nat}

/-- The buckets of `L` that are on the chain of `b`, and the others. -/
def dropped (L : List Bucket) (b : Bucket) : List Bucket := L.filter (·.dir = b.dir)
def kept (L : List Bucket) (b : Bucket) : List Bucket := L.filter (·.dir ≠ b.dir)

theorem perm_dropped (L : List Bucket) (b : Bucket) : (kept L b ++ dropped L b).Perm L := by
  have hkept : kept L b = L.filter fun c => !decide (c.dir = b.dir) :=
    List.filter_congr fun c _ => by simp
  rw [hkept]
  exact List.perm_append_comm.trans (List.filter_append_perm _ L)

theorem kept_sublist (L R : List Bucket) (b : Bucket) :
    (kept L b ++ b :: R).Sublist (L ++ b :: R) := List.filter_sublist.append_right _

/-- **Buckets dropped.** The chain starts at `b`; the buckets in front of it are set
aside with their pages. -/
theorem drop_spec (hi : Inv x86 (x86Law aside) h (L ++ b :: R) spare) :
    Inv x86 (x86Law (aside ++ (dropped L b).map Bucket.page))
      { h with dir := Function.update h.dir b.dir b.desc } (kept L b ++ b :: R) spare := by
  have hsub := kept_sublist L R b
  have hmem : ∀ c ∈ kept L b ++ b :: R, c ∈ L ++ b :: R := fun c hc => hsub.subset hc
  have hdrop : ∀ c ∈ dropped L b, c ∈ L ++ b :: R := fun c hc =>
    List.mem_append_left _ (List.mem_of_mem_filter hc)
  have hdescs : ((kept L b ++ b :: R).map Bucket.desc ++ spare).Sublist
      ((L ++ b :: R).map Bucket.desc ++ spare) := (hsub.map _).append_right _
  have hpages : ((kept L b ++ b :: R).map Bucket.page ++ h.descPages).Sublist
      ((L ++ b :: R).map Bucket.page ++ h.descPages) := (hsub.map _).append_right _
  -- a page that stays is not the page of a dropped bucket
  have hapart : ∀ p ∈ (kept L b ++ b :: R).map Bucket.page ++ h.descPages,
      p ∉ (dropped L b).map Bucket.page := by
    have hnd := hi.shape.pages
    have hperm : ((L ++ b :: R).map Bucket.page ++ h.descPages).Perm
        (((kept L b ++ b :: R).map Bucket.page ++ h.descPages) ++
          (dropped L b).map Bucket.page) := by
      have hL := ((perm_dropped L b).map Bucket.page).symm
      rw [List.map_append] at hL
      simp only [List.map_append, List.append_assoc]
      refine (hL.append_right _).trans ?_
      simp only [List.append_assoc]
      refine List.Perm.append_left _ ?_
      rw [← List.append_assoc (List.map Bucket.page (b :: R))]
      exact List.perm_append_comm
    have hdis := (List.nodup_append.mp (hperm.nodup_iff.mp hnd)).2.2
    exact fun p hp hd => hdis p hp p hd rfl
  refine ⟨⟨fun c hc => hi.shape.ok c (hmem c hc), hi.shape.descs.sublist hdescs,
    fun d hd => hi.shape.descAt d (hdescs.subset hd), hi.shape.pages.sublist hpages,
    fun p hp => hi.shape.addr p (hpages.subset hp)⟩, ⟨hi.pm.1, fun p hp => ?_⟩, fun p hp => ?_,
    fun j => ?_, hi.spareChain, fun c hc => hi.rep c (hmem c hc)⟩
  · rcases List.mem_append.mp hp with hp | hp
    · exact hi.pm.2 p hp
    · obtain ⟨c, hc, rfl⟩ := List.mem_map.mp hp
      exact (hi.taken _ (List.mem_append_left _ (List.mem_map_of_mem (hdrop c hc)))).1
  · obtain ⟨hheld, haside⟩ := hi.taken p (hpages.subset hp)
    refine ⟨hheld, fun hm => ?_⟩
    rcases List.mem_append.mp hm with hm | hm
    · exact haside hm
    · exact hapart p hp hm
  · by_cases hj : j = b.dir
    · subst hj
      have hchain := hi.chains b.dir
      rw [filter_middle] at hchain
      obtain ⟨r, -, hrest⟩ := (seg_append _ _ _ _ 0).mp hchain
      have hfilter : (kept L b ++ b :: R).filter (·.dir = b.dir) =
          b :: R.filter (·.dir = b.dir) := by
        have hnone : (kept L b).filter (·.dir = b.dir) = [] := by simp [kept]
        rw [List.filter_append, hnone, List.nil_append, List.filter_cons, if_pos (by simp)]
      simp only [hfilter, Function.update_self, List.map_cons]
      exact ⟨rfl, hrest.2⟩
    · have hfilter : (kept L b ++ b :: R).filter (·.dir = j) =
          (L ++ b :: R).filter (·.dir = j) := by
        have hkept : (kept L b).filter (·.dir = j) = L.filter (·.dir = j) := by
          rw [kept, List.filter_filter]
          refine List.filter_congr fun c _ => ?_
          by_cases hc : c.dir = j
          · simp [hc, hj]
          · simp [hc]
        rw [List.filter_append, List.filter_append, hkept]
      simp only [hfilter, Function.update_of_ne hj]
      exact hi.chains j

/-- **`kfree_s`.** The block goes back to the free blocks of its bucket; the last
one takes the bucket away, and with it those in front of it. -/
theorem kfreeS_spec (hi : Inv x86 (x86Law aside) h (L ++ b :: R) spare) {x : Nat}
    (hx : x ∈ b.used) {fuel len : Nat} (hdir : dirPos len = some (b.dir, b.size))
    {h' : Heap Pages} (hk : kfreeS fuel h x len = some h') :
    h'.descPages = h.descPages ∧
      ((b.used.erase x ≠ [] ∧ h'.pm = h.pm ∧
        Inv x86 (x86Law aside) h'
          (L ++ { b with free := x :: b.free, used := b.used.erase x } :: R) spare) ∨
      (b.used.erase x = [] ∧ h'.pm = x86.freePage h.pm b.page ∧
        Inv x86 (x86Law (aside ++ (dropped L b).map Bucket.page)) h' (kept L b ++ R)
          (b.desc :: spare))) := by
  have hb : b ∈ L ++ b :: R := by simp
  have hbd : b.desc ∈ (L ++ b :: R).map Bucket.desc ++ spare :=
    List.mem_append_left _ (List.mem_map_of_mem hb)
  have hput := putBlock_spec hi hx
  simp only [kfreeS, hdir] at hk
  cases hf : findPage x86 fuel h.mem (h.dir b.dir) (pageAlignAddr x) with
  | none => simp [hf] at hk
  | some c =>
    obtain rfl := findPage_spec hi hb hx hf
    simp only [hf, hi.shape.desc_ne_zero hbd, ↓reduceIte] at hk
    have hrep := hput.rep _ (List.mem_append_right L List.mem_cons_self)
    have hcnt := hrep.refCnt
    have hpage := hrep.page
    split at hk
    · rename_i hzero
      obtain rfl := Option.some.inj hk
      refine ⟨rfl, Or.inr ⟨List.length_eq_zero_iff.mp (hcnt.symm.trans hzero), ?_, ?_⟩⟩
      · simp only [releaseBucket]
        rw [hpage]
      · have hdrop := (drop_spec hput).release_first (Function.update_self _ _ _)
        simp only [Function.update_idem] at hdrop
        simp only [releaseBucket]
        rw [hpage]
        exact hdrop
    · rename_i hzero
      obtain rfl := Option.some.inj hk
      exact ⟨rfl, Or.inl ⟨fun hnil => hzero (hcnt.trans (by simp [hnil])), rfl, hput⟩⟩

/-- The search for a bucket that is not on the chain for `len` ends without one. -/
theorem kfreeS_lost {bs : List Bucket} (hi : Inv x86 (x86Law aside) h bs spare) {x fuel len : Nat}
    (hno : ∀ c ∈ bs, ∀ size, dirPos len = some (c.dir, size) → c.page ≠ pageAlignAddr x)
    {h' : Heap Pages} (hk : kfreeS fuel h x len = some h') : h' = h := by
  unfold kfreeS at hk
  cases hdir : dirPos len with
  | none =>
    simp only [hdir] at hk
    exact (Option.some.inj hk).symm
  | some e =>
    obtain ⟨i, size⟩ := e
    cases hf : findPage x86 fuel h.mem (h.dir i) (pageAlignAddr x) with
    | none => simp [hdir, hf] at hk
    | some c =>
      rcases find_spec (hi.chains i) hf with ⟨rfl, -⟩ | ⟨ys, zs, hlist, htest, -⟩
      · simp only [hdir, hf, ↓reduceIte] at hk
        exact (Option.some.inj hk).symm
      · have hm : c ∈ (bs.filter (·.dir = i)).map Bucket.desc := by simp [hlist]
        obtain ⟨e, he, rfl⟩ := List.mem_map.mp hm
        have he' := List.mem_of_mem_filter he
        have hedir : e.dir = i := by simpa using List.of_mem_filter he
        exact absurd (by simpa [(hi.rep e he').page] using htest) (hno e he' size (hedir ▸ hdir))

end Release

/-! ## Calls that get no page -/

section Null

variable {aside : List Nat} {h : Heap Pages} {bs : List Bucket} {spare : List Nat}

/-- The first spare descriptor is off its chain. -/
theorem pop_spare {c : Nat} (hi : Inv x86 (x86Law aside) h bs (c :: spare)) :
    Inv x86 (x86Law aside) { h with freeBucketChain := x86.get .next h.mem c } bs spare := by
  have hsub : (bs.map Bucket.desc ++ spare).Sublist (bs.map Bucket.desc ++ c :: spare) :=
    (List.sublist_cons_self c spare).append_left _
  exact ⟨⟨hi.shape.ok, hi.shape.descs.sublist hsub, fun d hd => hi.shape.descAt d (hsub.subset hd),
    hi.shape.pages, hi.shape.addr⟩, hi.pm, hi.taken, hi.chains, hi.spareChain.2.2, hi.rep⟩

/-- The descriptor of a call that gets no page for its blocks is used up. -/
theorem kmalloc_null (hi : Inv x86 (x86Law aside) h bs spare) {fuel len i size : Nat}
    (hdir : dirPos len = some (i, size)) (hneed : NeedsPage x86 fuel h i)
    (hne : (ensureFreeBucketChain x86 h).freeBucketChain ≠ 0) (hpage : freshPage x86 h = 0) :
    ∃ h' spare', kmalloc x86 fuel h len = some (0, h') ∧
      Inv x86 (x86Law aside) h' bs spare' ∧
      h'.pm.held = (ensureFreeBucketChain x86 h).pm.held ∧
      h'.descPages = (ensureFreeBucketChain x86 h).descPages := by
  obtain ⟨spare', hinv⟩ := ensure_inv hi hne fun _ => trivial
  have hnd := hinv.shape.descs
  rw [List.nodup_middle, List.nodup_cons] at hnd
  obtain ⟨hheld, hsame⟩ := hinv.pm.1.get_null hpage
  have hpage' : (setUpBucket x86 h size).2.1 = 0 := hpage
  refine ⟨(setUpBucket x86 h size).2.2, spare', ?_, ?_, hsame, rfl⟩
  · simp only [kmalloc, hdir, show findFree x86 fuel h.mem (h.dir i) = some 0 from hneed,
      ↓reduceIte, hpage']
  · have hc : (ensureFreeBucketChain x86 h).freeBucketChain ∈ bs.map Bucket.desc ++
        (ensureFreeBucketChain x86 h).freeBucketChain :: spare' := by simp
    -- only the descriptor is written
    have hpop := (pop_spare hinv).congr (m := (setUpBucket x86 h size).2.2.mem)
      (fun d hd => ?_) (fun b hb x hx => ?_)
    · refine ⟨hpop.shape, ⟨hheld, fun p hp => ?_⟩, fun p hp => ?_, hpop.chains, hpop.spareChain,
        hpop.rep⟩
      · exact hsame ▸ hinv.pm.2 p hp
      · obtain ⟨h1, h2⟩ := hinv.taken p hp
        exact ⟨hsame ▸ h1, h2⟩
    · have hdc : d ≠ (ensureFreeBucketChain x86 h).freeBucketChain := fun he => hnd.1 (he ▸ hd)
      have hd' : d ∈ bs.map Bucket.desc ++
          (ensureFreeBucketChain x86 h).freeBucketChain :: spare' := by
        rcases List.mem_append.mp hd with hd | hd <;> simp [hd]
      have hapart := hinv.shape.desc_apart hd' hc hdc
      exact ((agreeOn_zeroFill _ hapart).trans (x86.agreeOn_set _ _ _ hapart)).trans
        (x86.agreeOn_set _ _ _ hapart)
    · have h1 := hinv.shape.desc_page hc hb
      have h2 := (hinv.shape.ok b hb).bounds (List.mem_append_left b.used hx)
      have h3 := (hinv.shape.ok b hb).size_ge
      have hapart : x + 4 ≤ (ensureFreeBucketChain x86 h).freeBucketChain ∨
          (ensureFreeBucketChain x86 h).freeBucketChain + x86.descSize ≤ x := by omega
      exact ((agreeOn_zeroFill _ hapart).trans (x86.agreeOn_set _ _ _ hapart)).trans
        (x86.agreeOn_set _ _ _ hapart)

end Null

/-! ## Reachable and lost buckets -/

/-- `bs` are the buckets on the chains, `lost` those that fell off one. -/
structure Good (s : HeapSys Pages) (bs lost : List Bucket) (spare : List Nat) : Prop where
  inv : Inv x86 (x86Law (lost.map Bucket.page)) s.heap bs spare
  ok : ∀ c ∈ lost, c.Ok ∧ PageAddr c.page
  pages : (lost.map Bucket.page).Nodup
  live : LiveInv (bs ++ lost) s.live
  used : ∀ b ∈ bs, b.used ≠ [] ∧ ∀ x ∈ b.used, ∃ e ∈ s.live, e.1 = x
  held : ∀ p ∈ s.heap.pm.held, p ∈ (bs ++ lost).map Bucket.page ∨ p ∈ s.heap.descPages

section Good

variable {s : HeapSys Pages} {bs lost : List Bucket} {spare : List Nat}

/-- The buckets that are set aside are no other ones. -/
theorem all_ok {aside : List Bucket} {h : Heap Pages}
    (hi : Inv x86 (x86Law (aside.map Bucket.page)) h bs spare)
    (hok : ∀ c ∈ aside, c.Ok ∧ PageAddr c.page) : ∀ c ∈ bs ++ aside, c.Ok ∧ PageAddr c.page := by
  intro c hc
  rcases List.mem_append.mp hc with hc | hc
  · exact ⟨hi.shape.ok c hc, hi.shape.addr _ (List.mem_append_left _ (List.mem_map_of_mem hc))⟩
  · exact hok c hc

theorem all_nodup {aside : List Bucket} {h : Heap Pages}
    (hi : Inv x86 (x86Law (aside.map Bucket.page)) h bs spare)
    (hnd : (aside.map Bucket.page).Nodup) : ((bs ++ aside).map Bucket.page).Nodup := by
  rw [List.map_append]
  refine List.nodup_append.mpr ⟨hi.shape.pages.of_append_left, hnd, fun p hp q hq hpq => ?_⟩
  exact (hi.taken p (List.mem_append_left _ hp)).2 (hpq ▸ hq)

theorem Good.all_ok (hg : Good s bs lost spare) : ∀ c ∈ bs ++ lost, c.Ok ∧ PageAddr c.page :=
  X86Heap.all_ok hg.inv hg.ok

theorem Good.all_nodup (hg : Good s bs lost spare) : ((bs ++ lost).map Bucket.page).Nodup :=
  X86Heap.all_nodup hg.inv hg.pages

theorem Good.apart (hg : Good s bs lost spare) {b c : Bucket} (hb : b ∈ bs ++ lost)
    (hc : c ∈ bs ++ lost) {x y : Nat} (hx : x ∈ b.free ++ b.used) (hy : y ∈ c.free ++ c.used)
    (hne : b = c → x ≠ y) : x + b.size ≤ y ∨ y + c.size ≤ x :=
  block_apart hg.all_ok hg.all_nodup hb hc hx hy hne

/-- Used blocks of two buckets have different addresses. -/
theorem Good.ne (hg : Good s bs lost spare) {b c : Bucket} (hb : b ∈ bs ++ lost)
    (hc : c ∈ bs ++ lost) (hbc : b ≠ c) {x y : Nat} (hx : x ∈ b.used) (hy : y ∈ c.used) :
    x ≠ y := by
  have hx' : x ∈ b.free ++ b.used := List.mem_append_right _ hx
  have hy' : y ∈ c.free ++ c.used := List.mem_append_right _ hy
  have := hg.apart hb hc hx' hy' (fun he => absurd he hbc)
  have h1 := (hg.all_ok b hb).1.size_ge
  have h2 := (hg.all_ok c hc).1.size_ge
  omega

/-- Each bucket's page is outstanding. -/
theorem Good.held_page (hg : Good s bs lost spare) {c : Bucket} (hc : c ∈ bs ++ lost) :
    c.page ∈ s.heap.pm.held := by
  rcases List.mem_append.mp hc with hc | hc
  · exact (hg.inv.taken _ (List.mem_append_left _ (List.mem_map_of_mem hc))).1
  · exact hg.inv.pm.2 _ (List.mem_map_of_mem hc)

theorem Good.page_descPage (hg : Good s bs lost spare) {c : Bucket} (hc : c ∈ bs ++ lost) {D : Nat}
    (hD : D ∈ s.heap.descPages) : D + pageSize ≤ c.page ∨ c.page + pageSize ≤ D := by
  rcases List.mem_append.mp hc with hc | hc
  · exact hg.inv.shape.page_descPage hD hc
  · have hD' : D ∈ bs.map Bucket.page ++ s.heap.descPages := List.mem_append_right _ hD
    have hne : D ≠ c.page := fun he =>
      (hg.inv.taken D hD').2 (he ▸ List.mem_map_of_mem hc)
    exact (hg.inv.shape.addr D hD').apart (hg.ok c hc).2 hne

/-! ## `kfree_s` step -/

section FreeBlock

variable {L R : List Bucket} {b : Bucket} {ptr len : Nat} {h' : Heap Pages}

end FreeBlock

/-- A live block given back with a length of another size stays where it is. -/
theorem Good.free_other (hg : Good s bs lost spare) {ptr n len fuel : Nat}
    (hlive : (ptr, n) ∈ s.live) (hne : blockLen len ≠ blockLen n) {h' : Heap Pages}
    (hk : kfreeS fuel s.heap ptr len = some h') : h' = s.heap := by
  obtain ⟨b, hb, hdir, hx⟩ := hg.live.used _ hlive
  have hok := hg.all_ok b hb
  have hpage := hok.1.pageAlignAddr hok.2 (List.mem_append_right _ hx)
  refine kfreeS_lost hg.inv (fun c hc size hlen he => hne ?_) hk
  -- the bucket would be the block's own
  have hcb : c = b := List.inj_on_of_nodup_map hg.all_nodup (List.mem_append_left _ hc) hb
    (he.trans hpage)
  subst hcb
  have hsize : some size = some c.size := (dirPos_some hlen).1.symm.trans (dirPos_some hdir).1
  rw [blockLen_of hlen, blockLen_of hdir]
  exact Option.some.inj hsize

/-! ## `kmalloc` step -/

/-- The pages of `ensureFreeBucketChain`: a fresh one is a page of descriptors. -/
theorem held_ensure {h : Heap Pages} (hheld : Held h.pm)
    (hne : (ensureFreeBucketChain x86 h).freeBucketChain ≠ 0) :
    (∀ p ∈ (ensureFreeBucketChain x86 h).pm.held,
      p ∈ h.pm.held ∨ p ∈ (ensureFreeBucketChain x86 h).descPages) ∧
      ∀ p ∈ h.descPages, p ∈ (ensureFreeBucketChain x86 h).descPages := by
  by_cases h0 : h.freeBucketChain = 0
  · have he : ensureFreeBucketChain x86 h = constructFreeBucketChain x86 h := if_pos h0
    rw [he] at hne ⊢
    obtain ⟨-, -, -, -, hcons⟩ := hheld.get hne
    refine ⟨fun p hp => ?_, fun p hp => List.mem_cons_of_mem _ hp⟩
    rcases List.mem_cons.mp (hcons ▸ hp) with rfl | hp
    · exact Or.inr List.mem_cons_self
    · exact Or.inl hp
  · have he : ensureFreeBucketChain x86 h = h := if_neg h0
    rw [he]
    exact ⟨fun p hp => Or.inl hp, fun p hp => hp⟩

section MallocBlock

variable {len r : Nat} {h' : Heap Pages} {L R : List Bucket} {b : Bucket} {xs spare' : List Nat}

/-- The other buckets are those before the call, with a new bucket or without. -/
theorem mem_before (hbs : bs = L ++ b :: R ∨ (bs = R ∧ L = [] ∧ b.used = [])) :
    (∀ c ∈ L ++ R, c ∈ bs) ∧ ∀ c ∈ bs ++ lost, (c = b ∧ b ∈ bs) ∨ c ∈ L ++ (R ++ lost) := by
  constructor
  · intro c hc
    rcases hbs with rfl | ⟨rfl, rfl, -⟩
    · rcases List.mem_append.mp hc with hc | hc <;> simp [hc]
    · exact hc
  · intro c hc
    rcases hbs with rfl | ⟨rfl, rfl, -⟩
    · exact (mem_middle.mp hc).imp_left fun h => ⟨h, by simp⟩
    · exact Or.inr hc

/-- The live blocks are still used ones, and none is the one handed out. -/
theorem Good.live_after (hg : Good s bs lost spare)
    (hbs : bs = L ++ b :: R ∨ (bs = R ∧ L = [] ∧ b.used = []))
    (hi : Inv x86 (x86Law (lost.map Bucket.page)) h'
      (L ++ { b with free := xs, used := r :: b.used } :: R) spare') :
    ∀ e ∈ s.live, ∃ c ∈ L ++ { b with free := xs, used := r :: b.used } :: R ++ lost,
      dirPos e.2 = some (c.dir, c.size) ∧ e.1 ∈ c.used ∧ e.1 ≠ r := by
  have hb' : { b with free := xs, used := r :: b.used } ∈
      L ++ { b with free := xs, used := r :: b.used } :: R := by simp
  have hok' := hi.shape.ok _ hb'
  have hr : r ∉ b.used := fun hr => (List.nodup_cons.mp hok'.nodup.of_append_right).1 hr
  have hpages : ((L ++ { b with free := xs, used := r :: b.used } :: (R ++ lost)).map
      Bucket.page ++ []).Nodup := by
    have h := X86Heap.all_nodup hi hg.pages
    rwa [List.append_assoc, List.cons_append, ← List.append_nil (List.map _ _)] at h
  intro e he
  obtain ⟨c, hc, hdirc, hec⟩ := hg.live.used e he
  rcases (mem_before hbs).2 c hc with ⟨rfl, -⟩ | hc'
  · exact ⟨_, List.mem_append_left _ hb', hdirc, List.mem_cons_of_mem _ hec,
      fun her => hr (her ▸ hec)⟩
  · refine ⟨c, mem_middle.mpr (Or.inr hc'), hdirc, hec, fun her => map_ne_of_nodup hpages hc' ?_⟩
    -- the page of a block is that of its bucket
    have hok := hg.all_ok c hc
    have h1 := hok.1.pageAlignAddr hok.2 (List.mem_append_right _ hec)
    have h2 := hok'.pageAlignAddr
      (hi.shape.addr _ (List.mem_append_left _ (List.mem_map_of_mem hb')))
      (List.mem_append_right _ List.mem_cons_self)
    rw [her] at h1
    exact h1.symm.trans h2

/-- A page that is out is one of a bucket or of descriptors. -/
theorem Good.held_after (hg : Good s bs lost spare)
    (hbs : bs = L ++ b :: R ∨ (bs = R ∧ L = [] ∧ b.used = []))
    (hafter : PagesAfter x86 s.heap h' bs (L ++ b :: R) b) :
    ∀ p ∈ h'.pm.held, p ∈ (L ++ b :: R ++ lost).map Bucket.page ∨ p ∈ h'.descPages := by
  intro p hp
  rcases hafter with ⟨hpm, hdp, rfl⟩ | ⟨hpm, hdp, hpage, hne, hne'⟩
  · exact hdp ▸ hg.held p (hpm ▸ hp)
  · obtain ⟨hens, hdps⟩ := held_ensure hg.inv.pm.1 hne
    have hheld := (ensure_inv hg.inv hne fun _ => trivial).choose_spec.pm.1
    obtain ⟨-, -, -, -, hcons⟩ := hheld.get hne'
    have hall : ∀ q ∈ (bs ++ lost).map Bucket.page, q ∈ (L ++ b :: R ++ lost).map Bucket.page := by
      intro q hq
      obtain ⟨c, hc, rfl⟩ := List.mem_map.mp hq
      exact List.mem_map_of_mem (mem_middle.mpr (((mem_before hbs).2 c hc).imp_left And.left))
    rw [hpm, hcons] at hp
    rw [hdp]
    rcases List.mem_cons.mp hp with rfl | hp
    · left
      show freshPage x86 s.heap ∈ _
      rw [← hpage]
      exact List.mem_map_of_mem (by simp)
    · rcases hens p hp with hp | hp
      · exact (hg.held p hp).imp (hall p) (hdps p)
      · exact Or.inr hp

/-- A block is handed out. -/
theorem Good.malloc_block (hg : Good s bs lost spare) (hdir : dirPos len = some (b.dir, b.size))
    (hbs : bs = L ++ b :: R ∨ (bs = R ∧ L = [] ∧ b.used = []))
    (hafter : PagesAfter x86 s.heap h' bs (L ++ b :: R) b)
    (hi : Inv x86 (x86Law (lost.map Bucket.page)) h'
      (L ++ { b with free := xs, used := r :: b.used } :: R) spare') :
    Good ⟨h', (r, len) :: s.live⟩ (L ++ { b with free := xs, used := r :: b.used } :: R) lost
      spare' := by
  have hlive := hg.live_after hbs hi
  have hb' : { b with free := xs, used := r :: b.used } ∈
      L ++ { b with free := xs, used := r :: b.used } :: R := by simp
  refine ⟨hi, hg.ok, hg.pages, ⟨?_, fun e he => ?_⟩, fun c hc => ?_, fun p hp => ?_⟩
  · refine List.nodup_cons.mpr ⟨fun hm => ?_, hg.live.nodup⟩
    obtain ⟨e, he, her⟩ := List.mem_map.mp hm
    obtain ⟨-, -, -, -, hne⟩ := hlive e he
    exact hne her
  · rcases List.mem_cons.mp he with rfl | he
    · exact ⟨_, List.mem_append_left _ hb', hdir, List.mem_cons_self⟩
    · obtain ⟨c, hc, hdirc, hec, -⟩ := hlive e he
      exact ⟨c, hc, hdirc, hec⟩
  · have hlift : ∀ c ∈ bs, ∀ x ∈ c.used, ∃ e ∈ (r, len) :: s.live, e.1 = x := by
      intro c hc x hx
      obtain ⟨e, he, hex⟩ := (hg.used c hc).2 x hx
      exact ⟨e, List.mem_cons_of_mem _ he, hex⟩
    rcases List.mem_cons.mp (List.perm_middle.mem_iff.mp hc) with rfl | hc
    · refine ⟨List.cons_ne_nil _ _, fun x hx => ?_⟩
      rcases List.mem_cons.mp hx with rfl | hx
      · exact ⟨_, List.mem_cons_self, rfl⟩
      · rcases hbs with rfl | ⟨-, -, hnil⟩
        · exact hlift b (by simp) x hx
        · simp [hnil] at hx
    · have hold := (@mem_before bs [] L R b hbs).1 c hc
      exact ⟨(hg.used c hold).1, hlift c hold⟩
  · have hmap : (L ++ { b with free := xs, used := r :: b.used } :: R ++ lost).map Bucket.page =
        (L ++ b :: R ++ lost).map Bucket.page := by simp
    rw [hmap]
    exact hg.held_after hbs hafter p hp

end MallocBlock

theorem Good.malloc (hg : Good s bs lost spare) {fuel len : Nat} {t : HeapSys Pages}
    (hst : step fuel s (.malloc len) t) : ∃ bs' spare', Good t bs' lost spare' := by
  simp only [step, stepOf, next] at hst
  split at hst
  · cases hst
  · rename_i hwrite
    obtain ⟨⟨r, h'⟩, hk, rfl⟩ := Option.map_eq_some_iff.mp hst
    -- the page of descriptors, if the call needs one, is not `NULL`
    have hdesc : ∀ i size, dirPos len = some (i, size) → NeedsPage x86 fuel s.heap i →
        (ensureFreeBucketChain x86 s.heap).freeBucketChain ≠ 0 := by
      intro i size hdir hneed h0
      have hfind : findFree x86 fuel s.heap.mem (s.heap.dir i) = some 0 := hneed
      simp [nullWrite, hdir, hfind, h0] at hwrite
    by_cases hnull : freshPage x86 s.heap = 0 ∧ ∃ i size, dirPos len = some (i, size) ∧
        NeedsPage x86 fuel s.heap i
    · obtain ⟨hpage, i, size, hdir, hneed⟩ := hnull
      have hne := hdesc i size hdir hneed
      obtain ⟨h'', spare', hk', hi, hheld, hdescs⟩ := kmalloc_null hg.inv hdir hneed hne hpage
      obtain ⟨hens, hdps⟩ := held_ensure hg.inv.pm.1 hne
      rw [hk', Option.some.injEq, Prod.mk.injEq] at hk
      obtain ⟨rfl, rfl⟩ := hk
      refine ⟨bs, spare', hi, hg.ok, hg.pages, hg.live, hg.used, fun p hp => ?_⟩
      rw [hdescs]
      rcases hens p (hheld ▸ hp) with hp | hp
      · exact (hg.held p hp).imp_right (hdps p)
      · exact Or.inr hp
    · have hpages : PagesLeft x86 fuel s.heap len := fun i size hdir hneed =>
        ⟨hdesc i size hdir hneed, fun h0 => hnull ⟨h0, i, size, hdir, hneed⟩⟩
      have hplain : PlainPages x86 (x86Law (lost.map Bucket.page)) fuel s.heap len :=
        fun _ _ _ _ => ⟨fun _ => trivial, trivial⟩
      have hclean : CleanLink x86 fuel s.heap len := fun _ _ _ => ⟨fun _ _ _ => rfl, fun _ => rfl⟩
      rcases kmalloc_spec hg.inv hpages hplain hclean hk with
        ⟨-, rfl, rfl⟩ | ⟨L, b, R, xs, spare', hdir, -, hbs, hafter, hi⟩
      · exact ⟨bs, spare, hg⟩
      · have hb' : { b with free := xs, used := r :: b.used } ∈
            L ++ { b with free := xs, used := r :: b.used } :: R := by simp
        have hr : r ≠ 0 := (hi.block_lt (x := r) hb' (by simp)).1
        simp only [hr, ↓reduceIte]
        exact ⟨_, spare', hg.malloc_block hdir hbs hafter hi⟩

/-! ## Writes of callers -/

theorem Good.write (hg : Good s bs lost spare) {fuel addr : Nat} {v : Byte} {t : HeapSys Pages}
    (hst : step fuel s (.write addr v) t) : Good t bs lost spare := by
  simp only [step, stepOf, next, HeapSys.next] at hst
  split at hst
  · rename_i hlive
    obtain ⟨e, he, h1, h2⟩ := hlive
    obtain rfl := Option.some.inj hst
    obtain ⟨b, hb, hdir, hx⟩ := hg.live.used e he
    rw [blockLen_of hdir] at h2
    have hx' : e.1 ∈ b.free ++ b.used := List.mem_append_right _ hx
    have hok := (hg.all_ok b hb).1
    have hbound := hok.bounds hx'
    have hi := hg.inv.congr (m := Function.update s.heap.mem addr v)
      (fun d hd => ?_) (fun c hc y hy => ?_)
    · exact ⟨hi, hg.ok, hg.pages, hg.live, hg.used, hg.held⟩
    · obtain ⟨D, hD, h3, h4⟩ := hg.inv.shape.desc_bounds hd
      have := hg.page_descPage hb hD
      exact agreeOn_update _ v (by omega)
    · have hy' : y ∈ c.free ++ c.used := List.mem_append_left _ hy
      have hsize := (hg.inv.shape.ok c hc).size_ge
      have := hg.apart hb (List.mem_append_left _ hc) hx' hy' (fun hbc hxy => by
        subst hbc
        exact (List.nodup_append.mp hok.nodup).2.2 y hy e.1 hx hxy.symm)
      exact agreeOn_update _ v (by omega)
  · cases hst

end Good

/-! ## Totality -/

/-- With more fuel than buckets `kfree_s` returns. -/
theorem kfreeS_total {aside : List Nat} {h : Heap Pages} {bs : List Bucket} {spare : List Nat}
    (hi : Inv x86 (x86Law aside) h bs spare) {fuel : Nat} (hf : bs.length < fuel) (ptr len : Nat) :
    ∃ h', kfreeS fuel h ptr len = some h' := by
  cases hdir : dirPos len with
  | none => exact ⟨h, by simp only [kfreeS, hdir]⟩
  | some e =>
    obtain ⟨i, size⟩ := e
    obtain ⟨c, hc⟩ := hi.chain_length_lt hf i (fun c => x86.get .page h.mem c = pageAlignAddr ptr)
    simp only [kfreeS, hdir, findPage, hc]
    split
    · exact ⟨_, rfl⟩
    · split
      · exact ⟨_, rfl⟩
      · exact ⟨_, rfl⟩

/-- The actions of callers that follow the rules. -/
def Legal (fuel : Nat) (s : HeapSys Pages) : HeapAct → Prop
  | .malloc len => nullWrite fuel s.heap len = false
  | .free ptr len => (ptr, len) ∈ s.live
  | .write addr _ => ∃ e ∈ s.live, e.1 ≤ addr ∧ addr < e.1 + blockLen e.2

/-- With more fuel than buckets every legal action has its step. -/
theorem Good.step_total {s : HeapSys Pages} {bs lost : List Bucket} {spare : List Nat}
    (hg : Good s bs lost spare) {fuel : Nat} (hf : bs.length < fuel) {a : HeapAct}
    (ha : Legal fuel s a) : ∃ t, step fuel s a t := by
  cases a with
  | malloc len =>
    obtain ⟨r, hr⟩ := kmalloc_total hg.inv hf len
    simp only [step, stepOf, next, HeapSys.next, show nullWrite fuel s.heap len = false from ha, hr]
    exact ⟨_, rfl⟩
  | free ptr len =>
    obtain ⟨h', hk⟩ := kfreeS_total hg.inv hf ptr len
    have hlive : s.live.contains (ptr, len) = true := List.contains_iff_mem.mpr ha
    simp only [step, stepOf, next, if_pos hlive, hk]
    exact ⟨_, rfl⟩
  | write addr v =>
    simp only [Legal] at ha
    simp only [step, stepOf, next, HeapSys.next, if_pos ha]
    exact ⟨_, rfl⟩

/-! ## A sample -/

/-- Eight free pages, in memory that is all zero. -/
def samplePages : MmPagesManager := ⟨memManagerAddr, 8, List.replicate 8 0, 0⟩

def sampleHeap : HeapSys Pages := ⟨emptyHeap (fun _ => 0) ⟨samplePages, []⟩, []⟩

/-- The block at `r` for `len` bytes lies in an outstanding page, apart from live
blocks and from descriptor pages. -/
structure SafeBlock (live : List (Nat × Nat)) (h : Heap Pages) (r len : Nat) : Prop where
  fits : len ≤ blockLen len
  page : ∃ page ∈ h.pm.held, page ≤ r ∧ r + blockLen len ≤ page + pageSize
  apart : ∀ e ∈ live, r + blockLen len ≤ e.1 ∨ e.1 + blockLen e.2 ≤ r
  descs : ∀ D ∈ h.descPages, r + blockLen len ≤ D ∨ D + pageSize ≤ r

section Safe

variable {s t : HeapSys Pages} {bs lost : List Bucket} {spare : List Nat}

theorem Good.owned (hg : Good s bs lost spare) {e : Nat × Nat} (he : e ∈ s.live) :
    ∃ page ∈ s.heap.pm.held, page ≤ e.1 ∧ e.1 + blockLen e.2 ≤ page + pageSize := by
  obtain ⟨b, hb, hdir, hx⟩ := hg.live.used e he
  rw [blockLen_of hdir]
  exact ⟨b.page, hg.held_page hb, (hg.all_ok b hb).1.bounds (List.mem_append_right _ hx)⟩

/-- Different outstanding pages are apart. -/
theorem Held.apart {m n : Pages} (hm : Held m) (hn : Held n) {p q : Nat} (hp : p ∈ m.held)
    (hq : q ∈ n.held) (hne : p ≠ q) : p + pageSize ≤ q ∨ q + pageSize ≤ p := by
  obtain ⟨i, -, rfl, -⟩ := hm.marked p hp
  obtain ⟨j, -, rfl, -⟩ := hn.marked q hq
  have h1 := pageAt_aligned i
  have h2 := pageAt_aligned j
  simp only [pageSize] at *
  omega

end Safe

end X64SmpOs.X86Heap

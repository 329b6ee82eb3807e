import X64SmpOs.Kernel.MallocRep

/-!
# The parts of `kmalloc` and `kfree_s` on represented states

* `takeBlock_spec`, `putBlock_spec`: a block goes from free to used and back;
* `construct_spec`, `newBucket_spec`: a page of descriptors, a fresh bucket;
* `releaseBucket_spec`: an unused bucket leaves its chain.
-/

namespace X64SmpOs.Malloc

open Memory LinkedList Words

universe u
variable {π : Type u} {P : Platform π} {law : PageLaw P} {h : Heap π}

section Bounds

variable {bs : List Bucket} {spare : List Nat}

theorem Shape.desc_lt {descPages : List Nat} (hs : Shape P bs spare descPages) {d : Nat}
    (hd : d ∈ bs.map Bucket.desc ++ spare) : d < 2 ^ 32 := by
  obtain ⟨D, hD, -, h2⟩ := hs.desc_bounds hd
  have := (hs.addr D (List.mem_append_right _ hD)).lt
  unfold Platform.descSize at h2
  omega

theorem chain_head_lt {next : Nat → Nat} {p n : Nat} {xs : List Nat} (hc : Chain next p xs)
    (hn : 0 < n) (h : ∀ x ∈ xs, x < n) : p < n := by
  cases xs with
  | nil => rwa [show p = 0 from hc]
  | cons x xs => rw [hc.1]; exact h x List.mem_cons_self

theorem Inv.dir_lt (hi : Inv P law h bs spare) (i : Nat) : h.dir i < 2 ^ 32 := by
  refine chain_head_lt (hi.chains i) (by decide) (fun d hd => hi.shape.desc_lt ?_)
  obtain ⟨c, hc, rfl⟩ := List.mem_map.mp hd
  exact List.mem_append_left _ (List.mem_map_of_mem (List.mem_of_mem_filter hc))

theorem Inv.freeBucketChain_lt (hi : Inv P law h bs spare) : h.freeBucketChain < 2 ^ 32 :=
  chain_head_lt hi.spareChain (by decide)
    (fun _ hd => hi.shape.desc_lt (List.mem_append_right _ hd))

theorem Inv.block_lt (hi : Inv P law h bs spare) {b : Bucket} (hb : b ∈ bs) {x : Nat}
    (hx : x ∈ b.free ++ b.used) : x ≠ 0 ∧ x + 16 ≤ 2 ^ 32 := by
  have hok := hi.shape.ok b hb
  have hbd := hok.bounds hx
  have hsz := hok.size_ge
  have ha := hi.shape.addr b.page (List.mem_append_left _ (List.mem_map_of_mem hb))
  have h1 := ha.ne_zero
  have h2 := ha.lt
  omega

end Bounds

/-! ## One bucket -/

section Block

variable {L R : List Bucket} {b : Bucket} {spare : List Nat}

/-- Only the descriptor and the link of one block of the bucket are written. -/
theorem Inv.update_block (hi : Inv P law h (L ++ b :: R) spare) {x : Nat}
    (hx : x ∈ b.free ++ b.used) {free used : List Nat}
    (hperm : (free ++ used).Perm (b.free ++ b.used)) {m : Mem}
    (hagree : ∀ a k, (a + k ≤ b.desc ∨ b.desc + P.descSize ≤ a) → (a + k ≤ x ∨ x + 4 ≤ a) →
      AgreeOn h.mem m a k)
    (hnext : P.get .next m b.desc = P.get .next h.mem b.desc)
    (hrep : ({ b with free := free, used := used } : Bucket).Rep P m) :
    Inv P law { h with mem := m } (L ++ { b with free := free, used := used } :: R) spare := by
  have hb : b ∈ L ++ b :: R := by simp
  have hbd : b.desc ∈ (L ++ b :: R).map Bucket.desc ++ spare :=
    List.mem_append_left _ (List.mem_map_of_mem hb)
  have hok := hi.shape.ok b hb
  have hsz := hok.size_ge
  have hin := hok.bounds hx
  -- another descriptor is apart from the bucket's descriptor and from its page
  have hdesc : ∀ d ∈ (L ++ b :: R).map Bucket.desc ++ spare, d ≠ b.desc →
      AgreeOn h.mem m d P.descSize := by
    intro d hd hne
    have h1 := hi.shape.desc_apart hd hbd hne
    have h2 := hi.shape.desc_page hd hb
    exact hagree d _ (by omega) (by omega)
  refine hi.update hperm (fun d hd => ?_) (fun c hc => ?_) hrep
  · by_cases hne : d = b.desc
    · rw [hne, hnext]
    · exact P.get_congr (hdesc d hd hne)
  · have hc' : c ∈ L ++ b :: R := by
      rcases List.mem_append.mp hc with hc | hc <;> simp [hc]
    have hcd : c.desc ∈ (L ++ b :: R).map Bucket.desc ++ spare :=
      List.mem_append_left _ (List.mem_map_of_mem hc')
    have hne := map_ne_of_nodup hi.shape.descs hc
    have hpne := map_ne_of_nodup hi.shape.pages hc
    refine (hi.rep c hc').congr (fun f _ => P.get_congr (hdesc _ hcd hne)) (fun y hy => ?_)
    have h1 := hi.shape.desc_page hbd hc'
    have h2 := hi.shape.page_page hc' hb hpne
    have h3 := (hi.shape.ok c hc').bounds (List.mem_append_left _ hy)
    have h4 := (hi.shape.ok c hc').size_ge
    exact hagree y 4 (by omega) (by omega)

/-- A read of the whole link, when the bytes behind the stored ones are zero. -/
theorem readLE_link {m : Mem} {x : Nat} (hclean : readLE (P.word - 4) m (x + 4) = 0) :
    readLE P.word m x = link32 m x := by
  have hw := P.word_ge
  rw [show P.word = 4 + (P.word - 4) by omega, readLE_append, hclean, Nat.mul_zero, Nat.add_zero]
  rfl

theorem link32_lt (m : Mem) (x : Nat) : link32 m x < 2 ^ 32 := readLE_lt 4 m x

/-- **Taking a block.** The first free block of the bucket comes into use. -/
theorem takeBlock_spec (hi : Inv P law h (L ++ b :: R) spare) {x : Nat} {xs : List Nat}
    (hfree : b.free = x :: xs) (hclean : readLE (P.word - 4) h.mem (x + 4) = 0) :
    (takeBlock P h b.desc).1 = x ∧
      Inv P law (takeBlock P h b.desc).2
        (L ++ { b with free := xs, used := x :: b.used } :: R) spare := by
  have hb : b ∈ L ++ b :: R := by simp
  have hok := hi.shape.ok b hb
  have hbd : b.desc ∈ (L ++ b :: R).map Bucket.desc ++ spare :=
    List.mem_append_left _ (List.mem_map_of_mem hb)
  have hrep := hi.rep b hb
  have hchain := hrep.free
  rw [hfree, chain_cons] at hchain
  obtain ⟨hx, -, hrest⟩ := hchain
  have hpow := P.pow_word
  have hlink := link32_lt h.mem x
  have hlen := hok.used_length_le
  have hmem : x ∈ b.free ++ b.used := by simp [hfree]
  simp only [takeBlock, hx, readLE_link hclean]
  refine ⟨trivial, hi.update_block hmem ?_ ?_ ?_ ⟨?_, ?_, ?_⟩⟩
  · rw [hfree]
    exact List.perm_middle
  · intro a k h1 _
    exact (P.agreeOn_set _ _ _ h1).trans (P.agreeOn_set _ _ _ h1)
  · rw [P.get_set_ne (by decide), P.get_set_ne (by decide)]
  · rw [P.get_set_ne (by decide), P.get_set_ne (by decide)]
    exact hrep.page
  · have hcnt : u32 (b.used.length + 1) = b.used.length + 1 := u32_of_lt (by omega)
    rw [P.get_set_ne (f := .refCnt) (g := .freeBlock) (by decide), hrep.refCnt, hcnt]
    exact P.get_set .refCnt _ _ (by omega)
  · rw [P.get_set_ne (f := .freeBlock) (g := .refCnt) (by decide), P.get_set .freeBlock _ _ hlink]
    refine chain_congr (fun y hy => readLE_congr ?_) hrest
    have h1 := hi.shape.desc_page hbd hb
    have h2 := hok.bounds (x := y) (by simp [hfree, hy])
    have h3 := hok.size_ge
    exact (P.agreeOn_set _ _ _ (by omega)).trans (P.agreeOn_set _ _ _ (by omega))

/-- **Putting a block back.** It becomes the first free block of its bucket. -/
theorem putBlock_spec (hi : Inv P law h (L ++ b :: R) spare) {x : Nat} (hx : x ∈ b.used) :
    Inv P law { h with mem := putBlock P h.mem b.desc x }
      (L ++ { b with free := x :: b.free, used := b.used.erase x } :: R) spare := by
  have hb : b ∈ L ++ b :: R := by simp
  have hok := hi.shape.ok b hb
  have hbd : b.desc ∈ (L ++ b :: R).map Bucket.desc ++ spare :=
    List.mem_append_left _ (List.mem_map_of_mem hb)
  have hmem : x ∈ b.free ++ b.used := List.mem_append_right _ hx
  have hrep := hi.rep b hb
  have hpow := P.pow_word
  have hxlt := hi.block_lt hb hmem
  have hlen := hok.used_length_le
  have hpos := List.length_pos_of_mem hx
  have hsz := hok.size_ge
  have hxin := hok.bounds hmem
  have hpage := hi.shape.desc_page hbd hb
  have hhead : P.get .freeBlock h.mem b.desc < 2 ^ 32 :=
    chain_head_lt hrep.free (by decide) (fun y hy => by
      have := hi.block_lt hb (List.mem_append_left b.used hy)
      omega)
  -- the write into the block leaves the descriptor alone
  have hdesc : ∀ f v, P.get f (writeLE 4 h.mem x v) b.desc = P.get f h.mem b.desc :=
    fun f v => P.get_congr (agreeOn_writeLE _ _ (by omega))
  simp only [putBlock]
  refine hi.update_block hmem ?_ ?_ ?_ ⟨?_, ?_, ?_⟩
  · apply List.perm_middle.symm.trans
    exact List.Perm.append_left b.free (List.perm_cons_erase hx).symm
  · intro a k h1 h2
    exact (agreeOn_writeLE _ _ h2).trans
      ((P.agreeOn_set _ _ _ h1).trans (P.agreeOn_set _ _ _ h1))
  · rw [P.get_set_ne (by decide), P.get_set_ne (by decide), hdesc]
  · rw [P.get_set_ne (by decide), P.get_set_ne (by decide), hdesc]
    exact hrep.page
  · rw [P.get_set_ne (f := .refCnt) (g := .freeBlock) (by decide), hdesc, hrep.refCnt,
      sub32_of_le (by omega) hpos]
    apply (P.get_set .refCnt _ _ (by omega)).trans
    exact (List.length_erase_of_mem hx).symm
  · rw [P.get_set_ne (f := .freeBlock) (g := .refCnt) (by decide),
      P.get_set .freeBlock _ _ (by omega)]
    have hafter : ∀ y, b.page ≤ y → y + 4 ≤ b.page + pageSize →
        link32 (putBlock P h.mem b.desc x) y =
          link32 (writeLE 4 h.mem x (u32 (P.get .freeBlock h.mem b.desc))) y := by
      intro y h1 h2
      exact readLE_congr ((P.agreeOn_set _ _ _ (by omega)).trans (P.agreeOn_set _ _ _ (by omega)))
    refine chain_push hxlt.1 ?_ (fun y hy => ?_) hrep.free
    · apply (hafter x (by omega) (by omega)).trans
      rw [link32, u32_of_lt hhead, readLE_writeLE_of_lt _ _ hhead]
    · have hne : x ≠ y := fun he => (List.nodup_append.mp hok.nodup).2.2 y hy x hx he.symm
      have h1 := hok.bounds (List.mem_append_left b.used hy)
      have h2 := hok.apart hmem (List.mem_append_left b.used hy) hne
      apply (hafter y (by omega) (by omega)).trans
      exact readLE_writeLE_of_disjoint _ _ (by omega)

end Block

/-! ## A fresh bucket -/

section Fresh

variable {bs : List Bucket} {spare : List Nat}

theorem descSize_pos : 0 < P.descSize ∧ 0 < pageSize / P.descSize := by
  have hle := P.word_le
  have hpos : 0 < P.descSize := by
    unfold Platform.descSize
    omega
  refine ⟨hpos, Nat.div_pos ?_ hpos⟩
  simp only [Platform.descSize, pageSize]
  omega

/-- **A page of descriptors.** With an empty free bucket chain, the descriptors
of a new page become spare. -/
theorem construct_spec (hi : Inv P law h bs []) (hplain : law.Plain h.pm)
    (hne : (P.getFreePage h.pm).1 ≠ 0) :
    Inv P law (constructFreeBucketChain P h) bs
      (slots (P.getFreePage h.pm).1 P.descSize (pageSize / P.descSize)) := by
  obtain ⟨hpm, halign, hlt, hnew, htaken⟩ := law.get h.pm hi.pm hplain hne
  generalize hD : (P.getFreePage h.pm).1 = D at *
  have hD' : PageAddr D := ⟨halign, hne, hlt⟩
  obtain ⟨hdpos, hcount⟩ := descSize_pos (P := P)
  have harea := Nat.div_mul_le_self pageSize P.descSize
  have hfit : P.offset .next + P.word ≤ P.descSize := P.offset_width .next
  have hold : ∀ p ∈ bs.map Bucket.page ++ h.descPages, p ≠ D :=
    fun p hp he => hnew (he ▸ hi.taken p hp)
  -- the pages in use so far are not written
  have hagree : ∀ p ∈ bs.map Bucket.page ++ h.descPages, ∀ a k, p ≤ a → a + k ≤ p + pageSize →
      AgreeOn h.mem (constructFreeBucketChain P h).mem a k := by
    intro p hp a k h1 h2
    have := (hi.shape.addr p hp).apart hD' (hold p hp)
    simp only [constructFreeBucketChain, hD]
    exact agreeOn_thread _ hcount (fun j hj => apart_links hfit (by omega) hj)
  have hdesc : ∀ d ∈ bs.map Bucket.desc,
      AgreeOn h.mem (constructFreeBucketChain P h).mem d P.descSize := by
    intro d hd
    obtain ⟨E, hE, h1, h2⟩ := hi.shape.desc_bounds (List.mem_append_left _ hd)
    exact hagree E (List.mem_append_right _ hE) d _ h1 h2
  have hinv : Inv P law { h with mem := (constructFreeBucketChain P h).mem } bs [] := by
    refine hi.congr (fun d hd => hdesc d (by simpa using hd)) (fun b hb x hx => ?_)
    have h1 := (hi.shape.ok b hb).bounds (List.mem_append_left b.used hx)
    have h2 := (hi.shape.ok b hb).size_ge
    exact hagree b.page (List.mem_append_left _ (List.mem_map_of_mem hb)) x 4 h1.1 (by omega)
  have hpages : ∀ p ∈ bs.map Bucket.page ++ D :: h.descPages,
      p = D ∨ p ∈ bs.map Bucket.page ++ h.descPages := by
    intro p hp
    simp only [List.mem_append, List.mem_cons] at hp ⊢
    rcases hp with hp | hp | hp <;> simp [hp]
  refine ⟨⟨hi.shape.ok, ?_, ?_, ?_, ?_⟩, ?_, ?_, hinv.chains, ?_, hinv.rep⟩
  · have hnd := hi.shape.descs
    rw [List.append_nil] at hnd
    refine List.nodup_append.mpr ⟨hnd, nodup_slots hdpos _, fun d hd e he hde => ?_⟩
    obtain ⟨E, hE, h1, h2⟩ := hi.shape.desc_bounds (List.mem_append_left [] hd)
    have h3 := slots_bounds he
    have h4 := (hi.shape.addr E (List.mem_append_right _ hE)).apart hD'
      (hold E (List.mem_append_right _ hE))
    omega
  · intro d hd
    simp only [constructFreeBucketChain, hD]
    rcases List.mem_append.mp hd with hd | hd
    · obtain ⟨E, hE, hslot⟩ := hi.shape.descAt d (List.mem_append_left _ hd)
      exact ⟨E, List.mem_cons_of_mem _ hE, hslot⟩
    · exact ⟨D, List.mem_cons_self, hd⟩
  · simp only [constructFreeBucketChain, hD]
    rw [List.nodup_middle]
    exact List.nodup_cons.mpr ⟨fun hm => hold D hm rfl, hi.shape.pages⟩
  · simp only [constructFreeBucketChain, hD]
    intro p hp
    rcases hpages p hp with rfl | hp
    · exact hD'
    · exact hi.shape.addr p hp
  · simpa only [constructFreeBucketChain] using hpm
  · simp only [constructFreeBucketChain, hD]
    intro p hp
    rw [htaken]
    rcases hpages p hp with rfl | hp
    · exact Or.inl rfl
    · exact Or.inr (hi.taken p hp)
  · simp only [constructFreeBucketChain, hD]
    have hpow := P.pow_word
    exact chain_thread hne hcount hdpos hfit (by omega) h.mem (fun _ => rfl)

/-- The memory after a fresh bucket with descriptor `c` and page `p` was set up
and put in front of the chain `head`. -/
def freshMem (P : Platform π) (m : Mem) (c p size head : Nat) : Mem :=
  let m := P.set .page (P.set .blockSize (zeroFill m c P.descSize) c size) c p
  P.set .next (P.set .freeBlock (thread 4 0 p size (pageSize / size) m) c p) c head

/-- Besides the descriptor only the links of the page's slots are written. -/
theorem agreeOn_freshMem (m : Mem) {c p size head a k : Nat} (hcount : 0 < pageSize / size)
    (hc : a + k ≤ c ∨ c + P.descSize ≤ a)
    (hp : ∀ j < pageSize / size, a + k ≤ p + j * size + 0 ∨ p + j * size + 0 + 4 ≤ a) :
    AgreeOn m (freshMem P m c p size head) a k := by
  have h1 : AgreeOn m (P.set .page (P.set .blockSize (zeroFill m c P.descSize) c size) c p) a k :=
    ((agreeOn_zeroFill m hc).trans (P.agreeOn_set _ _ _ hc)).trans (P.agreeOn_set _ _ _ hc)
  exact (h1.trans (agreeOn_thread _ hcount hp)).trans
    ((P.agreeOn_set _ _ _ hc).trans (P.agreeOn_set _ _ _ hc))

/-- The fields of the fresh descriptor, which is apart from its page. -/
theorem get_freshMem (m : Mem) {c p size head : Nat} (hcount : 0 < pageSize / size)
    (hsize : 16 ≤ size) (hwhole : pageSize / size * size = pageSize)
    (hapart : c + P.descSize ≤ p ∨ p + pageSize ≤ c) (hp : p < 2 ^ 32) (hhead : head < 2 ^ 32) :
    P.get .page (freshMem P m c p size head) c = p ∧
      P.get .next (freshMem P m c p size head) c = head ∧
      P.get .freeBlock (freshMem P m c p size head) c = p ∧
      P.get .refCnt (freshMem P m c p size head) c = 0 := by
  have hthread : ∀ f m', P.get f (thread 4 0 p size (pageSize / size) m') c = P.get f m' c := by
    intro f m'
    refine P.get_congr (agreeOn_thread _ hcount (fun j hj => apart_links (by omega) ?_ hj))
    rw [hwhole]
    exact hapart
  unfold freshMem
  refine ⟨?_, P.get_set .next _ _ hhead, ?_, ?_⟩
  · rw [P.get_set_ne (f := .page) (g := .next) (by decide),
      P.get_set_ne (f := .page) (g := .freeBlock) (by decide), hthread, P.get_set .page _ _ hp]
  · rw [P.get_set_ne (f := .freeBlock) (g := .next) (by decide), P.get_set .freeBlock _ _ hp]
  · rw [P.get_set_ne (f := .refCnt) (g := .next) (by decide),
      P.get_set_ne (f := .refCnt) (g := .freeBlock) (by decide), hthread,
      P.get_set_ne (f := .refCnt) (g := .page) (by decide),
      P.get_set_ne (f := .refCnt) (g := .blockSize) (by decide), P.get_zeroFill]

/-- The blocks of the fresh page are a chain. -/
theorem chain_freshMem (m : Mem) {c p size head : Nat} (hcount : 0 < pageSize / size)
    (hsize : 16 ≤ size) (hwhole : pageSize / size * size = pageSize) (hp : PageAddr p)
    (hapart : c + P.descSize ≤ p ∨ p + pageSize ≤ c) :
    Chain (link32 (freshMem P m c p size head)) p (slots p size (pageSize / size)) := by
  have hlt := hp.lt
  have hchain : Chain (link32 (thread 4 0 p size (pageSize / size)
      (P.set .page (P.set .blockSize (zeroFill m c P.descSize) c size) c p))) p
      (slots p size (pageSize / size)) :=
    chain_thread hp.ne_zero hcount (by omega) (by omega) (by omega) _ (fun _ => rfl)
  refine chain_congr (fun x hx => readLE_congr ?_) hchain
  have hb := slots_bounds hx
  exact (P.agreeOn_set _ _ _ (by omega)).trans (P.agreeOn_set _ _ _ (by omega))

theorem slots_count_pos {size : Nat} (hwhole : pageSize / size * size = pageSize) :
    0 < pageSize / size := by
  rcases Nat.eq_zero_or_pos (pageSize / size) with h0 | h0
  · rw [h0] at hwhole
    simp [pageSize] at hwhole
  · exact h0

/-- A new page is apart from the descriptors. -/
theorem Inv.desc_fresh (hi : Inv P law h bs spare) {p c : Nat} (hpa : PageAddr p)
    (hnew : ¬ law.taken h.pm p) (hc : c ∈ bs.map Bucket.desc ++ spare) :
    c + P.descSize ≤ p ∨ p + pageSize ≤ c := by
  obtain ⟨E, hE, h1, h2⟩ := hi.shape.desc_bounds hc
  have hE' : E ∈ bs.map Bucket.page ++ h.descPages := List.mem_append_right _ hE
  have := (hi.shape.addr E hE').apart hpa (fun he => hnew (he ▸ hi.taken E hE'))
  omega

/-- Behind the stored four bytes the link of the first block is what it was. -/
theorem agreeOn_freshLink (m : Mem) {c p size head : Nat} (hsize : 16 ≤ size)
    (hwhole : pageSize / size * size = pageSize)
    (hapart : c + P.descSize ≤ p ∨ p + pageSize ≤ c) :
    AgreeOn m (freshMem P m c p size head) (p + 4) (P.word - 4) := by
  have hw := P.word_le
  refine agreeOn_freshMem m (slots_count_pos hwhole) ?_ (fun j _ => ?_)
  · unfold pageSize at hapart
    omega
  · rcases Nat.eq_zero_or_pos j with rfl | hj
    · omega
    · have := Nat.mul_le_mul_right size hj
      omega

/-- A bucket with the first spare descriptor and a page nobody has. -/
theorem Shape.push {b : Bucket} {descPages : List Nat} (hs : Shape P bs (b.desc :: spare) descPages)
    (hok : b.Ok) (hpa : PageAddr b.page) (hnew : b.page ∉ bs.map Bucket.page ++ descPages) :
    Shape P (b :: bs) spare descPages := by
  have hperm := hs.descs
  rw [List.nodup_middle] at hperm
  refine ⟨fun c hc => ?_, hperm, fun d hd => hs.descAt d ?_, List.nodup_cons.mpr ⟨hnew, hs.pages⟩,
    fun q hq => ?_⟩
  · rcases List.mem_cons.mp hc with rfl | hc
    · exact hok
    · exact hs.ok c hc
  · exact List.perm_middle.mem_iff.mpr hd
  · rcases List.mem_cons.mp hq with rfl | hq
    · exact hpa
    · exact hs.addr q hq

/-- **A fresh bucket.** A spare descriptor and a new page become a bucket whose
blocks are all free. -/
theorem newBucket_spec {c : Nat} (hi : Inv P law h bs (c :: spare)) (hplain : law.Plain h.pm)
    (hne : (P.getFreePage h.pm).1 ≠ 0) {i size : Nat} (hdir : gBucketDir[i]? = some size)
    (hsize : 16 ≤ size) (hwhole : pageSize / size * size = pageSize) :
    Inv P law
      { h with
        mem := freshMem P h.mem c (P.getFreePage h.pm).1 size (h.dir i)
        pm := (P.getFreePage h.pm).2
        dir := Function.update h.dir i c
        freeBucketChain := P.get .next h.mem c }
      (⟨i, size, c, (P.getFreePage h.pm).1,
        slots (P.getFreePage h.pm).1 size (pageSize / size), []⟩ :: bs) spare := by
  obtain ⟨hpm, halign, hlt, hnew, htaken⟩ := law.get h.pm hi.pm hplain hne
  generalize hp : (P.getFreePage h.pm).1 = p at *
  have hpa : PageAddr p := ⟨halign, hne, hlt⟩
  have hcount := slots_count_pos hwhole
  have hold : ∀ q ∈ bs.map Bucket.page ++ h.descPages, q ≠ p :=
    fun q hq he => hnew (he ▸ hi.taken q hq)
  have hc : c ∈ bs.map Bucket.desc ++ c :: spare := by simp
  have hcpage := hi.desc_fresh hpa hnew hc
  have hnd := hi.shape.descs
  rw [List.nodup_middle] at hnd
  obtain ⟨hcnew, -⟩ := List.nodup_cons.mp hnd
  have hmem : ∀ d ∈ bs.map Bucket.desc ++ spare, d ∈ bs.map Bucket.desc ++ c :: spare := by
    intro d hd
    rcases List.mem_append.mp hd with hd | hd <;> simp [hd]
  -- what is in use so far is not written
  have hagree : ∀ q ∈ bs.map Bucket.page ++ h.descPages, ∀ a k, q ≤ a → a + k ≤ q + pageSize →
      (a + k ≤ c ∨ c + P.descSize ≤ a) →
      AgreeOn h.mem (freshMem P h.mem c p size (h.dir i)) a k := by
    intro q hq a k h1 h2 h3
    have := (hi.shape.addr q hq).apart hpa (hold q hq)
    refine agreeOn_freshMem _ hcount h3 (fun j hj => apart_links (by omega) ?_ hj)
    omega
  have hdesc : ∀ d ∈ bs.map Bucket.desc ++ spare,
      AgreeOn h.mem (freshMem P h.mem c p size (h.dir i)) d P.descSize := by
    intro d hd
    obtain ⟨E, hE, h1, h2⟩ := hi.shape.desc_bounds (hmem d hd)
    have hdc : d ≠ c := fun he => hcnew (he ▸ hd)
    exact hagree E (List.mem_append_right _ hE) d _ h1 h2 (hi.shape.desc_apart (hmem d hd) hc hdc)
  obtain ⟨hget1, hget2, hget3, hget4⟩ := get_freshMem (P := P) h.mem hcount hsize hwhole hcpage
    hpa.lt_u32 (hi.dir_lt i)
  have hchains : ∀ j, Chain (P.get .next (freshMem P h.mem c p size (h.dir i))) (h.dir j)
      ((bs.filter (·.dir = j)).map Bucket.desc) := by
    refine fun j => chain_congr (fun d hd => P.get_congr (hdesc d ?_)) (hi.chains j)
    obtain ⟨b, hb, rfl⟩ := List.mem_map.mp hd
    exact List.mem_append_left _ (List.mem_map_of_mem (List.mem_of_mem_filter hb))
  refine ⟨hi.shape.push ⟨hdir, hsize, hwhole, by simp⟩ hpa fun hm => hold p hm rfl, hpm,
    ?_, ?_, ?_, ?_⟩
  · intro q hq
    rw [htaken]
    rcases List.mem_cons.mp hq with rfl | hq
    · exact Or.inl rfl
    · exact Or.inr (hi.taken q hq)
  · intro j
    simp only [List.filter_cons]
    by_cases hj : i = j
    · subst hj
      simp only [decide_true, ↓reduceIte, List.map_cons, Function.update_self]
      exact ⟨rfl, hi.shape.desc_ne_zero hc, by rw [hget2]; exact hchains i⟩
    · simp only [hj, decide_false, Bool.false_eq_true, ↓reduceIte]
      rw [Function.update_of_ne (Ne.symm hj)]
      exact hchains j
  · exact chain_congr (fun d hd => P.get_congr (hdesc d (List.mem_append_right _ hd)))
      hi.spareChain.2.2
  · intro b hb
    rcases List.mem_cons.mp hb with rfl | hb
    · refine ⟨hget1, by simpa using hget4, ?_⟩
      simp only [hget3]
      exact chain_freshMem h.mem hcount hsize hwhole hpa hcpage
    · have hbd : b.desc ∈ bs.map Bucket.desc := List.mem_map_of_mem hb
      have hbp : b.page ∈ bs.map Bucket.page := List.mem_map_of_mem hb
      refine (hi.rep b hb).congr
        (fun f _ => P.get_congr (hdesc b.desc (List.mem_append_left _ hbd))) (fun x hx => ?_)
      have h1 := (hi.shape.ok b hb).bounds (List.mem_append_left b.used hx)
      have h2 := (hi.shape.ok b hb).size_ge
      have h3 := hi.shape.desc_page hc hb
      exact hagree b.page (List.mem_append_left _ hbp) x 4 h1.1 (by omega) (by omega)

end Fresh

/-! ## An unused bucket -/

section Release

variable {L R : List Bucket} {b : Bucket} {spare : List Nat}

/-- The nodes of a chain of the directory, around the bucket. -/
theorem filter_middle (L R : List Bucket) (b : Bucket) :
    ((L ++ b :: R).filter (·.dir = b.dir)).map Bucket.desc =
      (L.filter (·.dir = b.dir)).map Bucket.desc ++
        b.desc :: (R.filter (·.dir = b.dir)).map Bucket.desc := by
  simp [List.filter_append]

theorem filter_middle_of_ne {j : Nat} (hj : j ≠ b.dir) :
    ((L ++ b :: R).filter (·.dir = j)).map Bucket.desc =
      ((L ++ R).filter (·.dir = j)).map Bucket.desc := by
  simp [List.filter_append, Ne.symm hj]

theorem Inv.chain_nodup {bs : List Bucket} (hi : Inv P law h bs spare) (i : Nat) :
    ((bs.filter (·.dir = i)).map Bucket.desc).Nodup :=
  hi.shape.descs.of_append_left.sublist (List.Sublist.map _ List.filter_sublist)

theorem mem_of_chain {bs : List Bucket} {i d : Nat}
    (h : d ∈ (bs.filter (·.dir = i)).map Bucket.desc) : d ∈ bs.map Bucket.desc := by
  obtain ⟨c, hc, rfl⟩ := List.mem_map.mp h
  exact List.mem_map_of_mem (List.mem_of_mem_filter hc)

/-- The bucket is out of its chain `dir'`, only links are written, and its
descriptor leads the spare ones. -/
theorem Inv.release (hi : Inv P law h (L ++ b :: R) spare) {m : Mem} {dir' : Nat → Nat}
    (hfields : ∀ d ∈ (L ++ b :: R).map Bucket.desc ++ spare, ∀ f, f ≠ .next →
      P.get f m d = P.get f h.mem d)
    (hblocks : ∀ c ∈ L ++ b :: R, ∀ x ∈ c.free, AgreeOn h.mem m x 4)
    (hself : P.get .next m b.desc = h.freeBucketChain)
    (hspare : ∀ d ∈ spare, P.get .next m d = P.get .next h.mem d)
    (hchains : ∀ j,
      Chain (P.get .next m) (dir' j) (((L ++ R).filter (·.dir = j)).map Bucket.desc)) :
    Inv P law
      { h with mem := m, pm := P.freePage h.pm b.page, dir := dir', freeBucketChain := b.desc }
      (L ++ R) (b.desc :: spare) := by
  have hb : b ∈ L ++ b :: R := by simp
  have hsub : ∀ c ∈ L ++ R, c ∈ L ++ b :: R := by
    intro c hc
    rcases List.mem_append.mp hc with hc | hc <;> simp [hc]
  have hbd : b.desc ∈ (L ++ b :: R).map Bucket.desc ++ spare :=
    List.mem_append_left _ (List.mem_map_of_mem hb)
  have hbp : b.page ∈ (L ++ b :: R).map Bucket.page ++ h.descPages :=
    List.mem_append_left _ (List.mem_map_of_mem hb)
  obtain ⟨hpm, htaken⟩ := law.free h.pm b.page hi.pm (hi.taken b.page hbp)
  have hdescs : ((L ++ R).map Bucket.desc ++ b.desc :: spare).Perm
      ((L ++ b :: R).map Bucket.desc ++ spare) := by
    simp only [List.map_append, List.map_cons, List.append_assoc, List.cons_append]
    exact List.Perm.append_left _ List.perm_middle
  have hpages : ((L ++ b :: R).map Bucket.page ++ h.descPages).Perm
      (b.page :: ((L ++ R).map Bucket.page ++ h.descPages)) := by
    simp only [List.map_append, List.map_cons, List.append_assoc, List.cons_append]
    exact List.perm_middle
  obtain ⟨hpnew, hpnd⟩ := List.nodup_cons.mp (hpages.nodup_iff.mp hi.shape.pages)
  have hpmem : ∀ p ∈ (L ++ R).map Bucket.page ++ h.descPages,
      p ∈ (L ++ b :: R).map Bucket.page ++ h.descPages :=
    fun p hp => hpages.mem_iff.mpr (List.mem_cons_of_mem _ hp)
  refine ⟨⟨fun c hc => hi.shape.ok c (hsub c hc), hdescs.nodup_iff.mpr hi.shape.descs,
    fun d hd => hi.shape.descAt d (hdescs.mem_iff.mp hd), hpnd,
    fun p hp => hi.shape.addr p (hpmem p hp)⟩, hpm, ?_, hchains, ?_, ?_⟩
  · intro p hp
    rw [htaken]
    exact ⟨fun he => hpnew (he ▸ hp), hi.taken p (hpmem p hp)⟩
  · exact chain_push (hi.shape.desc_ne_zero hbd) hself hspare hi.spareChain
  · intro c hc
    have hcd : c.desc ∈ (L ++ b :: R).map Bucket.desc ++ spare :=
      List.mem_append_left _ (List.mem_map_of_mem (hsub c hc))
    exact (hi.rep c (hsub c hc)).congr (hfields _ hcd) (hblocks c (hsub c hc))

/-- A written link changes no other field and no block. -/
theorem Inv.set_next {bs : List Bucket} (hi : Inv P law h bs spare) {e : Nat}
    (he : e ∈ bs.map Bucket.desc ++ spare) (m : Mem) (v : Nat) :
    (∀ d ∈ bs.map Bucket.desc ++ spare, ∀ f, f ≠ .next →
      P.get f (P.set .next m e v) d = P.get f m d) ∧
    (∀ d ∈ bs.map Bucket.desc ++ spare, d ≠ e →
      P.get .next (P.set .next m e v) d = P.get .next m d) ∧
    (∀ c ∈ bs, ∀ x ∈ c.free, AgreeOn m (P.set .next m e v) x 4) := by
  refine ⟨fun d hd f hf => ?_, fun d hd hne => ?_, fun c hc x hx => ?_⟩
  · by_cases hne : d = e
    · rw [hne, P.get_set_ne hf]
    · exact P.get_set_other m v (hi.shape.desc_apart hd he hne)
  · exact P.get_set_other m v (hi.shape.desc_apart hd he hne)
  · have h1 := hi.shape.desc_page he hc
    have h2 := (hi.shape.ok c hc).bounds (List.mem_append_left c.used hx)
    have h3 := (hi.shape.ok c hc).size_ge
    exact P.agreeOn_set _ _ _ (by omega)

/-- The descriptors `X` before and `Y` behind the bucket's in its chain. -/
structure Chained (P : Platform π) (h : Heap π) (L R : List Bucket) (b : Bucket) (X Y : List Nat) :
    Prop where
  chain : Chain (P.get .next h.mem) (h.dir b.dir) (X ++ b.desc :: Y)
  nodup : (X ++ b.desc :: Y).Nodup
  mem : ∀ d ∈ X ++ b.desc :: Y, d ∈ (L ++ b :: R).map Bucket.desc
  rest : ((L ++ R).filter (·.dir = b.dir)).map Bucket.desc = X ++ Y
  /-- The other chains, which share no descriptor with this one. -/
  others : ∀ j, j ≠ b.dir →
    Chain (P.get .next h.mem) (h.dir j) (((L ++ R).filter (·.dir = j)).map Bucket.desc) ∧
      ∀ d ∈ ((L ++ R).filter (·.dir = j)).map Bucket.desc,
        d ∈ (L ++ b :: R).map Bucket.desc ∧ d ∉ X ++ b.desc :: Y

theorem Inv.chained (hi : Inv P law h (L ++ b :: R) spare) : ∃ X Y, Chained P h L R b X Y := by
  refine ⟨(L.filter (·.dir = b.dir)).map Bucket.desc,
    (R.filter (·.dir = b.dir)).map Bucket.desc, ?_⟩
  have hchain := hi.chains b.dir
  have hnodup := hi.chain_nodup b.dir
  rw [filter_middle] at hchain hnodup
  refine ⟨hchain, hnodup, fun d hd => ?_, by rw [List.filter_append, List.map_append],
    fun j hj => ?_⟩
  · rw [← filter_middle] at hd
    exact mem_of_chain hd
  · have hold := hi.chains j
    rw [filter_middle_of_ne hj] at hold
    refine ⟨hold, fun d hd => ?_⟩
    rw [← filter_middle_of_ne hj] at hd
    refine ⟨mem_of_chain hd, fun hd' => ?_⟩
    rw [← filter_middle] at hd'
    obtain ⟨c, hc, rfl⟩ := List.mem_map.mp hd
    obtain ⟨e, he, hde⟩ := List.mem_map.mp hd'
    simp only [List.mem_filter, decide_eq_true_eq] at hc he
    have hinj := List.inj_on_of_nodup_map hi.shape.descs.of_append_left he.1 hc.1 hde
    exact hj (by rw [← hc.2, ← hinj, he.2])

theorem Chained.ne {X Y : List Nat} (hc : Chained P h L R b X Y) {d : Nat} (hd : d ∈ X ++ Y) :
    d ≠ b.desc := by
  have hnodup := hc.nodup
  rw [List.nodup_middle, List.nodup_cons] at hnodup
  rintro rfl
  exact hnodup.1 hd

theorem Inv.spare_ne (hi : Inv P law h (L ++ b :: R) spare) {d e : Nat} (hd : d ∈ spare)
    (he : e ∈ (L ++ b :: R).map Bucket.desc) : d ≠ e := fun hde =>
  (List.nodup_append.mp hi.shape.descs).2.2 e he d hd hde.symm

/-- The bucket is the first of its chain. -/
theorem Inv.release_first (hi : Inv P law h (L ++ b :: R) spare) (hfirst : h.dir b.dir = b.desc) :
    Inv P law
      { h with
        mem := P.set .next h.mem b.desc h.freeBucketChain
        pm := P.freePage h.pm b.page
        dir := Function.update h.dir b.dir (P.get .next h.mem b.desc)
        freeBucketChain := b.desc }
      (L ++ R) (b.desc :: spare) := by
  obtain ⟨X, Y, hc⟩ := hi.chained
  have hb : b.desc ∈ (L ++ b :: R).map Bucket.desc := hc.mem b.desc (by simp)
  obtain ⟨hs1, hs2, hs3⟩ := hi.set_next (List.mem_append_left _ hb) h.mem h.freeBucketChain
  have hX : X = [] := by
    cases X with
    | nil => rfl
    | cons x X => exact absurd (hc.chain.1.symm.trans hfirst) (hc.ne (by simp))
  subst hX
  refine hi.release hs1 hs3 (P.get_set .next _ _ hi.freeBucketChain_lt)
    (fun d hd => hs2 d (List.mem_append_right _ hd) (hi.spare_ne hd hb)) (fun j => ?_)
  by_cases hj : j = b.dir
  · subst hj
    rw [Function.update_self, hc.rest]
    refine chain_congr
      (fun d hd => hs2 d (List.mem_append_left _ (hc.mem d ?_)) (hc.ne hd)) hc.chain.2.2
    exact List.mem_append_right _ (List.mem_cons_of_mem _ (by simpa using hd))
  · rw [Function.update_of_ne hj]
    obtain ⟨hold, hother⟩ := hc.others j hj
    refine chain_congr (fun d hd => hs2 d (List.mem_append_left _ (hother d hd).1) ?_) hold
    rintro rfl
    exact (hother _ hd).2 (by simp)

/-- The bucket is behind another one, whose link now goes past it. -/
theorem Inv.release_behind (hi : Inv P law h (L ++ b :: R) spare) {X Y : List Nat} {y : Nat}
    (hc : Chained P h L R b (X ++ [y]) Y) :
    Inv P law
      { h with
        mem := P.set .next (P.set .next h.mem y (P.get .next h.mem b.desc)) b.desc h.freeBucketChain
        pm := P.freePage h.pm b.page
        freeBucketChain := b.desc }
      (L ++ R) (b.desc :: spare) := by
  have hb : b.desc ∈ (L ++ b :: R).map Bucket.desc := hc.mem b.desc (by simp)
  have hy : y ∈ (L ++ b :: R).map Bucket.desc := hc.mem y (by simp)
  have hyb : y ≠ b.desc := hc.ne (by simp)
  obtain ⟨hs1, hs2, hs3⟩ := hi.set_next (List.mem_append_left _ hy) h.mem (P.get .next h.mem b.desc)
  obtain ⟨ht1, ht2, ht3⟩ := hi.set_next (List.mem_append_left _ hb)
    (P.set .next h.mem y (P.get .next h.mem b.desc)) h.freeBucketChain
  have hchain := hc.chain
  rw [List.append_assoc, List.singleton_append] at hchain
  have hlt : P.get .next h.mem b.desc < 2 ^ 32 := by
    obtain ⟨r, -, -, -, -, -, hrest⟩ := (seg_append _ _ X _ 0).mp hchain
    exact chain_head_lt hrest (by decide) fun d hd =>
      hi.shape.desc_lt (List.mem_append_left _ (hc.mem d (by simp [hd])))
  have hkeep : ∀ d ∈ (L ++ b :: R).map Bucket.desc ++ spare, d ≠ b.desc → d ≠ y →
      P.get .next (P.set .next (P.set .next h.mem y (P.get .next h.mem b.desc)) b.desc
        h.freeBucketChain) d = P.get .next h.mem d :=
    fun d hd h1 h2 => (ht2 d hd h1).trans (hs2 d hd h2)
  refine hi.release (fun d hd f hf => (ht1 d hd f hf).trans (hs1 d hd f hf))
    (fun c hc x hx => (hs3 c hc x hx).trans (ht3 c hc x hx))
    (P.get_set .next _ _ hi.freeBucketChain_lt)
    (fun d hd => hkeep d (List.mem_append_right _ hd) (hi.spare_ne hd hb) (hi.spare_ne hd hy))
    (fun j => ?_)
  by_cases hj : j = b.dir
  · subst hj
    rw [hc.rest, List.append_assoc, List.singleton_append]
    refine chain_unlink ?_ (fun d hd => ?_) hchain
    · exact (ht2 y (List.mem_append_left _ hy) hyb).trans (P.get_set .next _ _ hlt)
    · have hdy : d ≠ y := by
        have hnodup := hc.nodup
        rw [List.append_assoc, List.singleton_append, List.nodup_middle, List.nodup_cons] at hnodup
        rintro rfl
        apply hnodup.1
        rcases List.mem_append.mp hd with hd | hd <;> simp [hd]
      refine hkeep d (List.mem_append_left _ (hc.mem d ?_)) (hc.ne ?_) hdy
      all_goals rcases List.mem_append.mp hd with hd | hd <;> simp [hd]
  · obtain ⟨hold, hother⟩ := hc.others j hj
    refine chain_congr (fun d hd => hkeep d (List.mem_append_left _ (hother d hd).1) ?_ ?_) hold
    · rintro rfl
      exact (hother _ hd).2 (by simp)
    · rintro rfl
      exact (hother _ hd).2 (by simp)

/-- **Releasing a bucket.** The descriptor goes from its chain to the spare ones
and the page back to the page allocator. -/
theorem releaseBucket_spec (hi : Inv P law h (L ++ b :: R) spare) {fuel : Nat} {h' : Heap π}
    (hr : releaseBucket P fuel h b.dir b.desc = some h') :
    Inv P law h' (L ++ R) (b.desc :: spare) := by
  have hpage := (hi.rep b (by simp)).page
  simp only [releaseBucket, hpage] at hr
  split at hr
  · rename_i hfirst
    obtain rfl := Option.some.inj hr
    exact hi.release_first hfirst
  · -- the search finds the bucket before it
    rename_i hfirst
    obtain ⟨X, Y, hc⟩ := hi.chained
    have hX : X ≠ [] := fun hX => hfirst (by
      have hchain := hc.chain
      rw [hX] at hchain
      exact hchain.1)
    obtain ⟨X, y, rfl⟩ : ∃ X' y, X = X' ++ [y] :=
      ⟨X.dropLast, X.getLast hX, (List.dropLast_append_getLast hX).symm⟩
    obtain ⟨pos, hpos⟩ : ∃ pos,
        findPrev (P.get .next h.mem) b.desc fuel (h.dir b.dir) = some pos := by
      cases hf : findPrev (P.get .next h.mem) b.desc fuel (h.dir b.dir) with
      | none => simp [hf] at hr
      | some pos => exact ⟨pos, rfl⟩
    have hchain := hc.chain
    have hnodup := hc.nodup
    rw [List.append_assoc, List.singleton_append] at hchain hnodup
    obtain rfl := findPrev_spec hnodup hchain hpos
    have hzero := hi.shape.desc_ne_zero (List.mem_append_left _ (hc.mem pos (by simp)))
    simp only [hpos, hzero, ↓reduceIte, Option.some.injEq] at hr
    subst hr
    exact hi.release_behind hc

/-- The unlinking loop ends. -/
theorem releaseBucket_total (hi : Inv P law h (L ++ b :: R) spare) {fuel : Nat}
    (hf : (L ++ b :: R).length < fuel) : ∃ h', releaseBucket P fuel h b.dir b.desc = some h' := by
  have hchain := hi.chains b.dir
  rw [filter_middle] at hchain
  obtain ⟨x, xs, hx⟩ : ∃ x xs, (L.filter (·.dir = b.dir)).map Bucket.desc ++
      b.desc :: (R.filter (·.dir = b.dir)).map Bucket.desc = x :: xs := by
    cases (L.filter (·.dir = b.dir)).map Bucket.desc with
    | nil => exact ⟨_, _, rfl⟩
    | cons x xs => exact ⟨_, _, rfl⟩
  have hlen : xs.length < fuel := by
    have hle := List.length_filter_le (fun c : Bucket => decide (c.dir = b.dir)) (L ++ b :: R)
    have hxl := congrArg List.length hx
    rw [← filter_middle, List.length_map, List.length_cons] at hxl
    omega
  rw [hx] at hchain
  obtain ⟨pos, hpos⟩ := findPrev_total hchain b.desc hlen
  simp only [releaseBucket, hpos]
  split
  · exact ⟨_, rfl⟩
  · split
    · exact ⟨_, rfl⟩
    · exact ⟨_, rfl⟩

end Release

end X64SmpOs.Malloc

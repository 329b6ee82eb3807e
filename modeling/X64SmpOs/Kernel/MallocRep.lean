import Mathlib.Data.List.Perm.Basic
import X64SmpOs.Kernel.Malloc

/-!
# What the memory of the bucket allocator represents

A `Bucket` is a descriptor's view: its page, its free blocks in list order and
its blocks in use. `Inv` says that directory chains, free bucket chain,
descriptors and free lists in memory are those of a list of buckets and a list
of spare descriptors, that blocks, descriptors and pages are apart from each
other, and that the page allocator counts all the pages as taken.

* `Inv.congr`: writes outside descriptors and links of free blocks;
* `Inv.update`: a bucket changed in place;
* `thread_link`, `thread_last`, `agreeOn_thread`: the two threading loops.
-/

namespace X64SmpOs.Malloc

open Memory LinkedList Words

universe u
variable {π : Type u} (P : Platform π)

/-! ## Fields of a descriptor -/

namespace Platform

theorem offset_width (f : Field) : P.offset f + P.width f ≤ P.descSize := by
  cases f <;> simp only [offset, width, descSize] <;> omega

theorem get_congr {f : Field} {m m' : Mem} {c : Nat} (h : AgreeOn m m' c P.descSize) :
    P.get f m' c = P.get f m c := by
  have hf := P.offset_width f
  exact readLE_congr (h.sub (by omega) (by omega))

/-- Every field holds 32 bits at least. -/
theorem get_set (f : Field) (m : Mem) (c : Nat) {v : Nat} (h : v < 2 ^ 32) :
    P.get f (P.set f m c v) c = v := by
  have hw : 4 ≤ P.width f := by
    have := P.word_ge
    cases f <;> simp only [width] <;> omega
  have hpow : 256 ^ 4 ≤ 256 ^ P.width f := Nat.pow_le_pow_right (by decide) hw
  exact readLE_writeLE_of_lt m _ (by omega)

theorem get_set_ne {f g : Field} (h : f ≠ g) (m : Mem) (c v : Nat) :
    P.get f (P.set g m c v) c = P.get f m c := by
  have hw := P.word_ge
  apply readLE_writeLE_of_disjoint m v
  cases f <;> cases g <;> simp only [offset, width] <;> first | omega | exact absurd rfl h

theorem agreeOn_set (f : Field) (m : Mem) {c : Nat} (v : Nat) {b k : Nat}
    (h : b + k ≤ c ∨ c + P.descSize ≤ b) : AgreeOn m (P.set f m c v) b k := by
  have hf := P.offset_width f
  exact agreeOn_writeLE m v (by omega)

theorem get_zeroFill (f : Field) (m : Mem) (c : Nat) :
    P.get f (zeroFill m c P.descSize) c = 0 := by
  have hf := P.offset_width f
  exact readLE_zeroFill (by omega) (by omega)

theorem get_set_other {f g : Field} (m : Mem) {c d : Nat} (v : Nat)
    (h : d + P.descSize ≤ c ∨ c + P.descSize ≤ d) : P.get f (P.set g m c v) d = P.get f m d :=
  P.get_congr (P.agreeOn_set g m v h)

theorem pow_word : 2 ^ 32 ≤ 256 ^ P.word :=
  Nat.pow_le_pow_right (n := 256) (by decide) P.word_ge

end Platform

/-! ## Slots -/

/-- The addresses of `count` slots of `stride` bytes. -/
def slots (base stride count : Nat) : List Nat :=
  (List.range count).map (fun k => base + k * stride)

theorem mem_slots {base stride count x : Nat} :
    x ∈ slots base stride count ↔ ∃ k < count, x = base + k * stride := by
  simp [slots, eq_comm]

theorem slot_le (stride : Nat) {k n : Nat} (h : k < n) : k * stride + stride ≤ n * stride := by
  have := Nat.mul_le_mul_right stride (Nat.succ_le_of_lt h)
  rwa [Nat.succ_mul] at this

/-- Slots lie in their area. -/
theorem slots_bounds {base stride count x : Nat} (h : x ∈ slots base stride count) :
    base ≤ x ∧ x + stride ≤ base + count * stride := by
  obtain ⟨k, hk, rfl⟩ := mem_slots.mp h
  have := slot_le stride hk
  omega

/-- Different slots are apart. -/
theorem slots_apart {base stride count x y : Nat} (hx : x ∈ slots base stride count)
    (hy : y ∈ slots base stride count) (hne : x ≠ y) : x + stride ≤ y ∨ y + stride ≤ x := by
  obtain ⟨k, hk, rfl⟩ := mem_slots.mp hx
  obtain ⟨l, hl, rfl⟩ := mem_slots.mp hy
  rcases Nat.lt_trichotomy k l with h | rfl | h
  · have := slot_le stride h
    omega
  · exact absurd rfl hne
  · have := slot_le stride h
    omega

theorem nodup_slots {base stride : Nat} (hs : 0 < stride) (count : Nat) :
    (slots base stride count).Nodup := by
  refine List.Nodup.map (fun k l h => ?_) List.nodup_range
  exact Nat.eq_of_mul_eq_mul_right hs (Nat.add_left_cancel h)

/-! ## Threading -/

section Thread

variable {width off base stride : Nat}

theorem agreeOn_threadLoop (m : Mem) (i n : Nat) {b k : Nat}
    (h : ∀ j, i ≤ j → j < i + n →
      b + k ≤ base + j * stride + off ∨ base + j * stride + off + width ≤ b) :
    AgreeOn m (threadLoop width off base stride i n m) b k := by
  induction n generalizing i m with
  | zero => exact AgreeOn.refl m b k
  | succ n ih =>
    have hfirst := agreeOn_writeLE m (base + (i + 1) * stride) (h i (Nat.le_refl i) (by omega))
    exact hfirst.trans (ih _ (i + 1) (fun j h1 h2 => h j (by omega) (by omega)))

/-- The loop leaves each slot's link at the following slot. -/
theorem threadLoop_link (hfit : off + width ≤ stride) (m : Mem) (i n j : Nat) (h1 : i ≤ j)
    (h2 : j < i + n) :
    readLE width (threadLoop width off base stride i n m) (base + j * stride + off) =
      (base + (j + 1) * stride) % 256 ^ width := by
  induction n generalizing i m with
  | zero => omega
  | succ n ih =>
    by_cases hj : j = i
    · subst hj
      have hrest : AgreeOn (writeLE width m (base + j * stride + off) (base + (j + 1) * stride))
          (threadLoop width off base stride j (n + 1) m) (base + j * stride + off) width := by
        refine agreeOn_threadLoop _ (j + 1) n (fun l hl _ => ?_)
        have := slot_le stride (show j < l by omega)
        omega
      rw [readLE_congr hrest, readLE_writeLE]
    · exact ih _ (i + 1) (by omega) (by omega)

/-- Windows outside the area of the slots. -/
theorem apart_links (hfit : off + width ≤ stride) {count b k : Nat}
    (h : b + k ≤ base ∨ base + count * stride ≤ b) {j : Nat} (hj : j < count) :
    b + k ≤ base + j * stride + off ∨ base + j * stride + off + width ≤ b := by
  have := slot_le stride hj
  omega

theorem agreeOn_thread (m : Mem) {count b k : Nat} (hc : 0 < count)
    (h : ∀ j < count, b + k ≤ base + j * stride + off ∨ base + j * stride + off + width ≤ b) :
    AgreeOn m (thread width off base stride count m) b k :=
  (agreeOn_threadLoop m 0 (count - 1) (fun j _ hj => h j (by omega))).trans
    (agreeOn_writeLE _ 0 (h (count - 1) (by omega)))

theorem thread_link (hfit : off + width ≤ stride) (m : Mem) {count j : Nat} (hj : j + 1 < count) :
    readLE width (thread width off base stride count m) (base + j * stride + off) =
      (base + (j + 1) * stride) % 256 ^ width := by
  have := slot_le stride (show j < count - 1 by omega)
  rw [thread, readLE_writeLE_of_disjoint _ _ (by omega)]
  exact threadLoop_link hfit m 0 (count - 1) j (by omega) (by omega)

theorem thread_last (m : Mem) (count : Nat) :
    readLE width (thread width off base stride count m)
      (base + (count - 1) * stride + off) = 0 := by
  rw [thread, readLE_writeLE, Nat.zero_mod]

/-- After the threading the slots are a chain from the first one. -/
theorem chain_thread {next : Nat → Nat} (hbase : base ≠ 0) {count : Nat} (hc : 0 < count)
    (hs : 0 < stride) (hfit : off + width ≤ stride) (hlt : base + count * stride ≤ 256 ^ width)
    (m : Mem)
    (hnext : ∀ x, next x = readLE width (thread width off base stride count m) (x + off)) :
    Chain next base (slots base stride count) := by
  have hslot : ∀ i, base + i * stride ≠ 0 := fun i => by omega
  have hlast : next (base + (0 + (count - 1)) * stride) = 0 := by
    rw [hnext, Nat.zero_add, thread_last]
  have hlink : ∀ i, 0 ≤ i → i < 0 + (count - 1) →
      next (base + i * stride) = base + (i + 1) * stride := by
    intro i _ hi
    rw [hnext, thread_link hfit m (by omega), Nat.mod_eq_of_lt]
    have := slot_le stride (show i + 1 < count by omega)
    omega
  have hchain := chain_range hslot 0 (count - 1) hlink hlast
  rwa [Nat.zero_mul, Nat.add_zero, Nat.sub_add_cancel hc, ← List.range_eq_range'] at hchain

end Thread

/-! ## Directory -/

theorem findDir_some {len i j size : Nat} {sizes : List Nat}
    (h : findDir len sizes i = some (j, size)) :
    i ≤ j ∧ sizes[j - i]? = some size ∧ size ≠ 0 ∧ len ≤ size := by
  induction sizes generalizing i with
  | nil => simp [findDir] at h
  | cons s sizes ih =>
    unfold findDir at h
    split at h
    · cases h
    · split at h
      · simp only [Option.some.injEq, Prod.mk.injEq] at h
        obtain ⟨rfl, rfl⟩ := h
        exact ⟨Nat.le_refl _, by simp, ‹_›, ‹_›⟩
      · obtain ⟨h1, h2, h3⟩ := ih h
        refine ⟨by omega, ?_, h3⟩
        rwa [show j - i = j - (i + 1) + 1 by omega, List.getElem?_cons_succ]

/-- The walk along the directory stops at an entry that holds the length, or before. -/
theorem findDir_le {n s i : Nat} (hs : n ≤ s) (hs0 : s ≠ 0) {before behind : List Nat}
    (hle : ∀ t ∈ before, t ≤ s) (hne : ∀ t ∈ before, t ≠ 0) :
    ∃ j size, findDir n (before ++ s :: behind) i = some (j, size) ∧ size ≤ s := by
  induction before generalizing i with
  | nil =>
    refine ⟨i, s, ?_, Nat.le_refl _⟩
    simp only [List.nil_append, findDir, if_neg hs0, ge_iff_le, if_pos hs]
  | cons t before ih =>
    simp only [List.cons_append, findDir, if_neg (hne t List.mem_cons_self)]
    split
    · exact ⟨i, t, rfl, hle t List.mem_cons_self⟩
    · exact ih (fun u hu => hle u (List.mem_cons_of_mem _ hu))
        (fun u hu => hne u (List.mem_cons_of_mem _ hu))

theorem findDir_skip {n i : Nat} {before behind : List Nat} (h : ∀ t ∈ before, t ≠ 0 ∧ t < n) :
    findDir n (before ++ behind) i = findDir n behind (i + before.length) := by
  induction before generalizing i with
  | nil => rfl
  | cons t before ih =>
    obtain ⟨h0, hlt⟩ := h t List.mem_cons_self
    rw [List.cons_append, findDir, if_neg h0, if_neg (Nat.not_le_of_lt hlt),
      ih fun u hu => h u (List.mem_cons_of_mem _ hu), List.length_cons, Nat.add_right_comm,
      Nat.add_assoc]

theorem gBucketDir_whole :
    ∀ size ∈ gBucketDir, size ≠ 0 → 16 ≤ size ∧ pageSize / size * size = pageSize := by
  decide

/-- A block size of the directory holds the length and divides the page. -/
theorem dirPos_some {len i size : Nat} (h : dirPos len = some (i, size)) :
    gBucketDir[i]? = some size ∧ len ≤ size ∧ 16 ≤ size ∧ pageSize / size * size = pageSize := by
  obtain ⟨-, h1, h2, h3⟩ := findDir_some h
  exact ⟨h1, h3, gBucketDir_whole size (List.mem_of_getElem? h1) h2⟩

/-! ## Pages -/

/-- What the allocator relies on in the page allocator below it: on its states
`Ok`, a page that `get_free_page` returns is a whole new page below 4 GiB, and
`free_page` takes back that page only. `Plain` is the condition a call meets. -/
structure PageLaw where
  Ok : π → Prop
  Plain : π → Prop
  taken : π → Nat → Prop
  get : ∀ s, Ok s → Plain s → (P.getFreePage s).1 ≠ 0 →
    Ok (P.getFreePage s).2 ∧ (P.getFreePage s).1 % pageSize = 0 ∧
      (P.getFreePage s).1 + pageSize ≤ 2 ^ 32 ∧ ¬ taken s (P.getFreePage s).1 ∧
      ∀ q, taken (P.getFreePage s).2 q ↔ q = (P.getFreePage s).1 ∨ taken s q
  free : ∀ s p, Ok s → taken s p →
    Ok (P.freePage s p) ∧ ∀ q, taken (P.freePage s p) q ↔ q ≠ p ∧ taken s q

/-- A page address. -/
structure PageAddr (p : Nat) : Prop where
  aligned : p % pageSize = 0
  ne_zero : p ≠ 0
  lt : p + pageSize ≤ 2 ^ 32

theorem PageAddr.lt_u32 {p : Nat} (h : PageAddr p) : p < 2 ^ 32 := by
  have := h.lt
  unfold pageSize at this
  omega

theorem PageAddr.apart {p q : Nat} (hp : PageAddr p) (hq : PageAddr q) (h : p ≠ q) :
    p + pageSize ≤ q ∨ q + pageSize ≤ p := by
  have h1 := hp.aligned
  have h2 := hq.aligned
  simp only [pageSize] at *
  omega

/-! ## Buckets -/

/-- The links of blocks are stored as four bytes. -/
def link32 (m : Mem) (a : Nat) : Nat := readLE 4 m a

structure Bucket where
  dir : Nat
  size : Nat
  desc : Nat
  page : Nat
  free : List Nat
  used : List Nat
  deriving DecidableEq, Repr

namespace Bucket

/-- The blocks of the page, free or in use. -/
structure Ok (b : Bucket) : Prop where
  dir : gBucketDir[b.dir]? = some b.size
  size_ge : 16 ≤ b.size
  whole : pageSize / b.size * b.size = pageSize
  blocks : (b.free ++ b.used).Perm (slots b.page b.size (pageSize / b.size))

/-- What memory holds for the bucket, apart from its link. -/
structure Rep (P : Platform π) (m : Mem) (b : Bucket) : Prop where
  page : P.get .page m b.desc = b.page
  refCnt : P.get .refCnt m b.desc = b.used.length
  free : Chain (link32 m) (P.get .freeBlock m b.desc) b.free

variable {b : Bucket}

theorem Ok.mem_slots (h : b.Ok) {x : Nat} (hx : x ∈ b.free ++ b.used) :
    x ∈ slots b.page b.size (pageSize / b.size) := h.blocks.mem_iff.mp hx

theorem Ok.bounds (h : b.Ok) {x : Nat} (hx : x ∈ b.free ++ b.used) :
    b.page ≤ x ∧ x + b.size ≤ b.page + pageSize := by
  have hb := slots_bounds (h.mem_slots hx)
  rwa [h.whole] at hb

theorem Ok.apart (h : b.Ok) {x y : Nat} (hx : x ∈ b.free ++ b.used) (hy : y ∈ b.free ++ b.used)
    (hne : x ≠ y) : x + b.size ≤ y ∨ y + b.size ≤ x :=
  slots_apart (h.mem_slots hx) (h.mem_slots hy) hne

theorem Ok.nodup (h : b.Ok) : (b.free ++ b.used).Nodup :=
  h.blocks.nodup_iff.mpr (nodup_slots (by have := h.size_ge; omega) _)

theorem Ok.used_length_le (h : b.Ok) : b.used.length ≤ 256 := by
  have hl := h.blocks.length_eq
  simp only [List.length_append, slots, List.length_map, List.length_range] at hl
  have hs := h.size_ge
  have hd : pageSize / b.size ≤ pageSize / 16 := Nat.div_le_div_left hs (by decide)
  simp only [pageSize] at *
  omega

/-- The link field may change. -/
theorem Rep.congr {P : Platform π} {m m' : Mem} (h : b.Rep P m)
    (hd : ∀ f, f ≠ .next → P.get f m' b.desc = P.get f m b.desc)
    (hf : ∀ x ∈ b.free, AgreeOn m m' x 4) : b.Rep P m' where
  page := (hd .page (by decide)).trans h.page
  refCnt := (hd .refCnt (by decide)).trans h.refCnt
  free := by
    rw [hd .freeBlock (by decide)]
    exact chain_congr (fun x hx => readLE_congr (hf x hx)) h.free

end Bucket

/-! ## The whole allocator -/

/-- Descriptors are distinct slots of descriptor pages; block pages and
descriptor pages are distinct pages. -/
structure Shape (bs : List Bucket) (spare descPages : List Nat) : Prop where
  ok : ∀ b ∈ bs, b.Ok
  descs : (bs.map Bucket.desc ++ spare).Nodup
  descAt : ∀ d ∈ bs.map Bucket.desc ++ spare,
    ∃ D ∈ descPages, d ∈ slots D P.descSize (pageSize / P.descSize)
  pages : (bs.map Bucket.page ++ descPages).Nodup
  addr : ∀ p ∈ bs.map Bucket.page ++ descPages, PageAddr p

structure Inv (law : PageLaw P) (h : Heap π) (bs : List Bucket) (spare : List Nat) : Prop where
  shape : Shape P bs spare h.descPages
  pm : law.Ok h.pm
  taken : ∀ p ∈ bs.map Bucket.page ++ h.descPages, law.taken h.pm p
  chains : ∀ i, Chain (P.get .next h.mem) (h.dir i) ((bs.filter (·.dir = i)).map Bucket.desc)
  spareChain : Chain (P.get .next h.mem) h.freeBucketChain spare
  rep : ∀ b ∈ bs, b.Rep P h.mem

/-- In a duplicate-free table no other entry shares a value with the middle one. -/
theorem map_ne_of_nodup {f : Bucket → Nat} {L R : List Bucket} {b c : Bucket} {S : List Nat}
    (h : ((L ++ b :: R).map f ++ S).Nodup) (hc : c ∈ L ++ R) : f c ≠ f b := by
  have hm : ((L ++ b :: R).map f).Nodup := h.of_append_left
  rw [List.map_append, List.map_cons, List.nodup_middle] at hm
  intro he
  apply (List.nodup_cons.mp hm).1
  rw [← he, ← List.map_append]
  exact List.mem_map_of_mem hc

section Apart

variable {P} {bs : List Bucket} {spare descPages : List Nat}

theorem Shape.desc_bounds (hs : Shape P bs spare descPages) {d : Nat}
    (hd : d ∈ bs.map Bucket.desc ++ spare) :
    ∃ D ∈ descPages, D ≤ d ∧ d + P.descSize ≤ D + pageSize := by
  obtain ⟨D, hD, hslot⟩ := hs.descAt d hd
  have hb := slots_bounds hslot
  have hle := Nat.div_mul_le_self pageSize P.descSize
  exact ⟨D, hD, hb.1, by omega⟩

theorem Shape.desc_ne_zero (hs : Shape P bs spare descPages) {d : Nat}
    (hd : d ∈ bs.map Bucket.desc ++ spare) : d ≠ 0 := by
  obtain ⟨D, hD, h1, -⟩ := hs.desc_bounds hd
  have := (hs.addr D (List.mem_append_right _ hD)).ne_zero
  omega

/-- Different descriptors are apart. -/
theorem Shape.desc_apart (hs : Shape P bs spare descPages) {d e : Nat}
    (hd : d ∈ bs.map Bucket.desc ++ spare) (he : e ∈ bs.map Bucket.desc ++ spare) (hne : d ≠ e) :
    d + P.descSize ≤ e ∨ e + P.descSize ≤ d := by
  obtain ⟨D, hD, hd'⟩ := hs.descAt d hd
  obtain ⟨E, hE, he'⟩ := hs.descAt e he
  by_cases h : D = E
  · subst h
    exact slots_apart hd' he' hne
  · have hpages := (hs.addr D (List.mem_append_right _ hD)).apart
      (hs.addr E (List.mem_append_right _ hE)) h
    have h1 := slots_bounds hd'
    have h2 := slots_bounds he'
    have hle := Nat.div_mul_le_self pageSize P.descSize
    omega

/-- A descriptor page is apart from the pages of the buckets. -/
theorem Shape.page_descPage (hs : Shape P bs spare descPages) {D : Nat} (hD : D ∈ descPages)
    {b : Bucket} (hb : b ∈ bs) : D + pageSize ≤ b.page ∨ b.page + pageSize ≤ D := by
  have hp : b.page ∈ bs.map Bucket.page := List.mem_map_of_mem hb
  have hne : b.page ≠ D := fun he => (List.nodup_append.mp hs.pages).2.2 b.page hp D hD he
  have := (hs.addr D (List.mem_append_right _ hD)).apart
    (hs.addr b.page (List.mem_append_left _ hp)) (Ne.symm hne)
  omega

/-- Descriptors are apart from the pages of the buckets. -/
theorem Shape.desc_page (hs : Shape P bs spare descPages) {d : Nat}
    (hd : d ∈ bs.map Bucket.desc ++ spare) {b : Bucket} (hb : b ∈ bs) :
    d + P.descSize ≤ b.page ∨ b.page + pageSize ≤ d := by
  obtain ⟨D, hD, h1, h2⟩ := hs.desc_bounds hd
  have := hs.page_descPage hD hb
  omega

/-- The pages of different buckets are apart. -/
theorem Shape.page_page (hs : Shape P bs spare descPages) {b c : Bucket} (hb : b ∈ bs)
    (hc : c ∈ bs) (hne : b.page ≠ c.page) :
    b.page + pageSize ≤ c.page ∨ c.page + pageSize ≤ b.page :=
  (hs.addr b.page (List.mem_append_left _ (List.mem_map_of_mem hb))).apart
    (hs.addr c.page (List.mem_append_left _ (List.mem_map_of_mem hc))) hne

end Apart

section Frame

variable {P} {law : PageLaw P} {h : Heap π} {bs : List Bucket} {spare : List Nat}

/-- Writes outside descriptors and links of free blocks. -/
theorem Inv.congr (hi : Inv P law h bs spare) {m : Mem}
    (hd : ∀ d ∈ bs.map Bucket.desc ++ spare, AgreeOn h.mem m d P.descSize)
    (hf : ∀ b ∈ bs, ∀ x ∈ b.free, AgreeOn h.mem m x 4) :
    Inv P law { h with mem := m } bs spare where
  shape := hi.shape
  pm := hi.pm
  taken := hi.taken
  chains i := by
    refine chain_congr (fun d hm => P.get_congr (hd d ?_)) (hi.chains i)
    obtain ⟨b, hb, rfl⟩ := List.mem_map.mp hm
    exact List.mem_append_left _ (List.mem_map_of_mem (List.mem_of_mem_filter hb))
  spareChain :=
    chain_congr (fun d hm => P.get_congr (hd d (List.mem_append_right _ hm))) hi.spareChain
  rep b hb := by
    have hm : b.desc ∈ bs.map Bucket.desc := List.mem_map_of_mem hb
    exact (hi.rep b hb).congr (fun _ _ => P.get_congr (hd b.desc (List.mem_append_left _ hm)))
      (hf b hb)

/-- A bucket changed in place: its blocks change hands, and memory changes only
where the other buckets and the links of the descriptors are not. -/
theorem Inv.update {L R : List Bucket} {b : Bucket} (hi : Inv P law h (L ++ b :: R) spare)
    {free used : List Nat} (hperm : (free ++ used).Perm (b.free ++ b.used)) {m : Mem}
    (hnext : ∀ d ∈ (L ++ b :: R).map Bucket.desc ++ spare,
      P.get .next m d = P.get .next h.mem d)
    (hother : ∀ c ∈ L ++ R, c.Rep P m)
    (hrep : ({ b with free := free, used := used } : Bucket).Rep P m) :
    Inv P law { h with mem := m } (L ++ { b with free := free, used := used } :: R) spare := by
  have hdesc : (L ++ { b with free := free, used := used } :: R).map Bucket.desc =
      (L ++ b :: R).map Bucket.desc := by simp
  have hpage : (L ++ { b with free := free, used := used } :: R).map Bucket.page =
      (L ++ b :: R).map Bucket.page := by simp
  have hb : b ∈ L ++ b :: R := by simp
  refine ⟨⟨?_, ?_, ?_, ?_, ?_⟩, hi.pm, ?_, ?_, ?_, ?_⟩
  · intro c hc
    rcases List.mem_append.mp hc with hc | hc
    · exact hi.shape.ok c (List.mem_append_left _ hc)
    · rcases List.mem_cons.mp hc with rfl | hc
      · have hok := hi.shape.ok b hb
        exact ⟨hok.dir, hok.size_ge, hok.whole, hperm.trans hok.blocks⟩
      · exact hi.shape.ok c (by simp [hc])
  · rw [hdesc]
    exact hi.shape.descs
  · rw [hdesc]
    exact hi.shape.descAt
  · rw [hpage]
    exact hi.shape.pages
  · rw [hpage]
    exact hi.shape.addr
  · rw [hpage]
    exact hi.taken
  · intro i
    have hfilter : ((L ++ { b with free := free, used := used } :: R).filter (·.dir = i)).map
        Bucket.desc = ((L ++ b :: R).filter (·.dir = i)).map Bucket.desc := by
      simp only [List.filter_append, List.filter_cons, List.map_append]
      split <;> rfl
    rw [hfilter]
    refine chain_congr (fun d hm => hnext d ?_) (hi.chains i)
    obtain ⟨c, hc, rfl⟩ := List.mem_map.mp hm
    exact List.mem_append_left _ (List.mem_map_of_mem (List.mem_of_mem_filter hc))
  · exact chain_congr (fun d hm => hnext d (List.mem_append_right _ hm)) hi.spareChain
  · intro c hc
    rcases List.mem_append.mp hc with hc | hc
    · exact hother c (List.mem_append_left _ hc)
    · rcases List.mem_cons.mp hc with rfl | hc
      · exact hrep
      · exact hother c (List.mem_append_right _ hc)

end Frame

end X64SmpOs.Malloc

import X64SmpOs.Kernel.PhyMM

/-!
# The memory map of `mm_init`

`mm_init` of `kernel/phymm.c` takes the first entry of the BIOS table whose base, as it
joins the two halves, is `0x100000`. It clears a byte at `0x500` for every page.

* `mmInit_selects_iff`: the entry is the right one, and its length is taken in full,
  exactly when the first entry the test accepts is usable memory below 4 GiB;
* `WithinMap.bits_run`: no run changes a byte behind the bitmap;
* `lowMemory_disjoint_iff`: in every run the bitmap stays off what the processors use in
  low memory exactly when it ends below `0x8000`.
-/

namespace X64SmpOs.PhyMM

open Words Bitmap Runs

/-! ## The choice of an entry -/

namespace Ards

/-- The two halves as a 64-bit value. -/
def base (a : Ards) : Nat := a.baseAddrHigh.toNat * 2 ^ 32 + a.baseAddrLow.toNat

def length (a : Ards) : Nat := a.lengthAddrHigh.toNat * 2 ^ 32 + a.lengthAddrLow.toNat

/-- Usable memory at `0x100000`. -/
def Usable (a : Ards) : Prop := a.base = menKernelStart ∧ a.type = 1

/-- The test in the loop. -/
def Matches (shl32 : BitVec 32 → BitVec 32) (a : Ards) : Prop :=
  menKernelStart = join64 shl32 a.baseAddrHigh a.baseAddrLow

instance (a : Ards) : Decidable a.Usable := inferInstanceAs (Decidable (_ ∧ _))

instance (shl32 : BitVec 32 → BitVec 32) (a : Ards) : Decidable (a.Matches shl32) :=
  inferInstanceAs (Decidable (_ = _))

end Ards

open Ards

/-- The `i`-th entry is the first one with `p`. -/
def FirstEntry (p : Ards → Prop) (ards : List Ards) (i : Nat) (a : Ards) : Prop :=
  ards[i]? = some a ∧ p a ∧ ∀ j < i, ∀ b, ards[j]? = some b → ¬ p b

section Choice

variable {p : Ards → Prop} {shl32 : BitVec 32 → BitVec 32} {bits : Nat → BitVec 8}
variable {ards : List Ards} {i j : Nat} {a b : Ards}

theorem FirstEntry.unique (h : FirstEntry p ards i a) (h' : FirstEntry p ards j b) :
    i = j ∧ a = b := by
  rcases Nat.lt_trichotomy i j with hlt | rfl | hlt
  · exact absurd h.2.1 (h'.2.2 i hlt a h.1)
  · exact ⟨rfl, Option.some.inj (h.1.symm.trans h'.1)⟩
  · exact absurd h'.2.1 (h.2.2 j hlt b h'.1)

theorem exists_firstEntry (ha : a ∈ ards) (hp : p a) : ∃ i b, FirstEntry p ards i b := by
  induction ards with
  | nil => exact absurd ha List.not_mem_nil
  | cons c cs ih =>
    by_cases hc : p c
    · exact ⟨0, c, rfl, hc, fun j hj => absurd hj (Nat.not_lt_zero j)⟩
    · have hne : a ≠ c := fun h => hc (h ▸ hp)
      obtain ⟨i, b, h1, h2, h3⟩ := ih ((List.mem_cons.mp ha).resolve_left hne)
      refine ⟨i + 1, b, h1, h2, fun j hj d hd => ?_⟩
      cases j with
      | zero => exact Option.some.inj hd ▸ hc
      | succ j => exact h3 j (Nat.lt_of_succ_lt_succ hj) d hd

/-- `g_pm`, set up from an entry. -/
def managerOf (shl32 : BitVec 32 → BitVec 32) (bits : Nat → BitVec 8) (a : Ards) :
    MmPagesManager :=
  let length := join64 shl32 a.lengthAddrHigh a.lengthAddrLow
  ⟨menManagerStart, length, bitmapInit bits (u32 (length / 2 ^ 12)) 0⟩

theorem mmInit_cons (shl32 : BitVec 32 → BitVec 32) (bits : Nat → BitVec 8) (a : Ards)
    (as : List Ards) : mmInit shl32 bits (a :: as) =
      if a.Matches shl32 then some (managerOf shl32 bits a) else mmInit shl32 bits as := rfl

theorem mmInit_eq_none_iff :
    mmInit shl32 bits ards = none ↔ ∀ a ∈ ards, ¬ a.Matches shl32 := by
  induction ards with
  | nil => simp [mmInit]
  | cons c cs ih =>
    rw [mmInit_cons, List.forall_mem_cons]
    by_cases hc : c.Matches shl32
    · rw [if_pos hc]
      exact iff_of_false (Option.some_ne_none _) fun h => h.1 hc
    · rw [if_neg hc, ih]
      exact ⟨fun h => ⟨hc, h⟩, fun h => h.2⟩

/-- The first entry the test accepts is taken. -/
theorem mmInit_of_first (h : FirstEntry (Matches shl32) ards i a) :
    mmInit shl32 bits ards = some (managerOf shl32 bits a) := by
  induction ards generalizing i with
  | nil => cases h.1
  | cons c cs ih =>
    obtain ⟨h1, h2, h3⟩ := h
    cases i with
    | zero =>
      obtain rfl := Option.some.inj h1
      rw [mmInit_cons]
      exact if_pos h2
    | succ i =>
      rw [mmInit_cons, if_neg (h3 0 (Nat.succ_pos i) c rfl)]
      exact ih ⟨h1, h2, fun j hj b hb => h3 (j + 1) (Nat.succ_lt_succ hj) b hb⟩

/-- The loop ends with the `i`-th entry, which has set up `g_pm`. -/
def TakenFrom (shl32 : BitVec 32 → BitVec 32) (bits : Nat → BitVec 8) (ards : List Ards)
    (i : Nat) : Prop :=
  mmInit shl32 bits (ards.take i) = none ∧ mmInit shl32 bits (ards.take (i + 1)) ≠ none

theorem takenFrom_iff (h : ards[i]? = some a) :
    TakenFrom shl32 bits ards i ↔ FirstEntry (Matches shl32) ards i a := by
  have hmem : ∀ n b, b ∈ ards.take n ↔ ∃ j < n, ards[j]? = some b := by
    intro n b
    rw [List.mem_iff_getElem?]
    constructor
    · rintro ⟨j, hj⟩
      rw [List.getElem?_take] at hj
      split at hj
      · exact ⟨j, ‹_›, hj⟩
      · cases hj
    · rintro ⟨j, hj, hb⟩
      exact ⟨j, by rw [List.getElem?_take, if_pos hj, hb]⟩
  rw [TakenFrom, ne_eq, mmInit_eq_none_iff, mmInit_eq_none_iff]
  constructor
  · rintro ⟨hnone, hsome⟩
    have hbefore : ∀ j < i, ∀ b, ards[j]? = some b → ¬ b.Matches shl32 :=
      fun j hj b hb => hnone b ((hmem i b).mpr ⟨j, hj, hb⟩)
    refine ⟨h, ?_, hbefore⟩
    by_contra hc
    refine hsome fun b hb => ?_
    obtain ⟨j, hj, hbj⟩ := (hmem _ b).mp hb
    rcases Nat.lt_succ_iff_lt_or_eq.mp hj with hlt | rfl
    · exact hbefore j hlt b hbj
    · exact Option.some.inj (h.symm.trans hbj) ▸ hc
  · rintro ⟨-, hm, hbefore⟩
    refine ⟨fun b hb => ?_, fun hall => hall a ((hmem _ a).mpr ⟨i, Nat.lt_succ_self i, h⟩) hm⟩
    obtain ⟨j, hj, hbj⟩ := (hmem i b).mp hb
    exact hbefore j hj b hbj

/-- The length of the first usable entry is set, in full, and nothing is set up from
another entry. -/
def Selects (shl32 : BitVec 32 → BitVec 32) (bits : Nat → BitVec 8) (ards : List Ards) : Prop :=
  (∀ i a, FirstEntry Usable ards i a →
      ∃ pm, mmInit shl32 bits ards = some pm ∧ pm.length = a.length) ∧
    ∀ i a, ards[i]? = some a → TakenFrom shl32 bits ards i → FirstEntry Usable ards i a

/-- The entry is usable, and the code reads its length as it is. -/
def Ards.Plain (shl32 : BitVec 32 → BitVec 32) (a : Ards) : Prop :=
  a.Usable ∧ a.lengthAddrHigh = 0 ∧ join64 shl32 0 a.lengthAddrLow = a.lengthAddrLow.toNat

theorem Ards.Usable.halves (h : a.Usable) :
    a.baseAddrHigh = 0 ∧ a.baseAddrLow = BitVec.ofNat 32 menKernelStart := by
  have hbase := h.1
  have hlow := a.baseAddrLow.isLt
  simp only [Ards.base, menKernelStart] at hbase
  constructor
  · rw [← BitVec.toNat_inj]
    show _ = 0
    omega
  · rw [← BitVec.toNat_inj]
    show _ = 0x100000
    omega

/-- The test accepts all usable entries or none. -/
theorem Ards.Usable.matches_iff (h : a.Usable) (h' : b.Usable) :
    a.Matches shl32 ↔ b.Matches shl32 := by
  rw [Matches, Matches, h.halves.1, h.halves.2, h'.halves.1, h'.halves.2]

/-- **Choice.** -/
theorem mmInit_selects_iff (shl32 : BitVec 32 → BitVec 32) (bits : Nat → BitVec 8)
    (ards : List Ards) : Selects shl32 bits ards ↔
      (∀ i a, FirstEntry (Matches shl32) ards i a → a.Plain shl32) ∧
        ((∀ a ∈ ards, ¬ a.Matches shl32) → ∀ a ∈ ards, ¬ a.Usable) := by
  constructor
  · rintro ⟨hlength, htaken⟩
    constructor
    · intro i a hfirst
      have husable := htaken i a hfirst.1 ((takenFrom_iff hfirst.1).mpr hfirst)
      obtain ⟨pm, hpm, hlen⟩ := hlength i a husable
      obtain rfl := Option.some.inj ((mmInit_of_first hfirst).symm.trans hpm)
      have hjoin : join64 shl32 a.lengthAddrHigh a.lengthAddrLow = a.length := hlen
      have hlt : join64 shl32 a.lengthAddrHigh a.lengthAddrLow < 2 ^ 32 := BitVec.isLt _
      rw [hjoin, Ards.length] at hlt
      have hhigh : a.lengthAddrHigh = 0 := by
        rw [← BitVec.toNat_inj]
        show _ = 0
        omega
      rw [hhigh, Ards.length, hhigh] at hjoin
      exact ⟨husable.2.1, hhigh, hjoin.trans (Nat.zero_add _)⟩
    · intro hnone a ha husable
      obtain ⟨i, b, hb⟩ := exists_firstEntry ha husable
      obtain ⟨pm, hpm, -⟩ := hlength i b hb
      cases (mmInit_eq_none_iff.mpr hnone).symm.trans hpm
  · rintro ⟨hfirst, hnone⟩
    have husable : ∀ i a, FirstEntry (Matches shl32) ards i a → FirstEntry Usable ards i a := by
      intro i a h
      refine ⟨h.1, (hfirst i a h).1, fun j hj b hb hub => ?_⟩
      exact h.2.2 j hj b hb ((hub.matches_iff (hfirst i a h).1).mpr h.2.1)
    refine ⟨fun i a h => ?_, fun i a ha ht => husable i a ((takenFrom_iff ha).mp ht)⟩
    have hmatch : ∃ b ∈ ards, b.Matches shl32 := by
      by_contra hc
      exact hnone (fun b hb hm => hc ⟨b, hb, hm⟩) a (List.mem_of_getElem? h.1) h.2.1
    obtain ⟨b, hb, hm⟩ := hmatch
    obtain ⟨j, c, hc⟩ := exists_firstEntry hb hm
    obtain ⟨rfl, rfl⟩ := h.unique (husable j c hc)
    obtain ⟨-, hhigh, hlow⟩ := hfirst i a hc
    refine ⟨_, mmInit_of_first hc, ?_⟩
    show join64 shl32 a.lengthAddrHigh a.lengthAddrLow = a.length
    rw [Ards.length, hhigh, hlow]
    exact (Nat.zero_add _).symm

/-- Where zero shifted is zero, as on the machine, it comes to the first entry the test
accepts. -/
theorem mmInit_selects_iff_of_zero (hzero : shl32 0 = 0) : Selects shl32 bits ards ↔
    ∀ i a, FirstEntry (Matches shl32) ards i a → a.Usable ∧ a.length < 2 ^ 32 := by
  have hplain : ∀ a : Ards, a.Plain shl32 ↔ a.Usable ∧ a.length < 2 ^ 32 := by
    intro a
    have hlow := a.lengthAddrLow.isLt
    have hjoin : join64 shl32 0 a.lengthAddrLow = a.lengthAddrLow.toNat := by
      rw [join64, hzero]
      exact congrArg BitVec.toNat BitVec.zero_or
    refine and_congr_right fun _ => ⟨fun h => ?_, fun h => ⟨?_, hjoin⟩⟩
    · rw [Ards.length, h.1]
      exact (Nat.zero_add _).trans_lt hlow
    · rw [← BitVec.toNat_inj]
      show _ = 0
      rw [Ards.length] at h
      omega
  have hmatch : ∀ a : Ards, a.Usable → a.Matches shl32 := by
    intro a h
    rw [Matches, h.halves.1, h.halves.2, join64, hzero]
    rfl
  rw [mmInit_selects_iff]
  constructor
  · exact fun h i a hfirst => (hplain a).mp (h.1 i a hfirst)
  · exact fun h => ⟨fun i a hfirst => (hplain a).mpr (h i a hfirst),
      fun hnone a ha husable => hnone a ha (hmatch a husable)⟩

end Choice

/-- Five gigabytes at `0x100000`. -/
def largeArds : List Ards := [⟨0x100000, 0, 0x40000000, 1, 1⟩]

/-- With a shift that does nothing the length becomes `0x40000001`. -/
theorem mmInit_selects_fails :
    (mmInit id (fun _ => 0) largeArds).map MmPagesManager.length = some 0x40000001 ∧
      ¬ Selects id (fun _ => 0) largeArds := by
  have hrun : (mmInit id (fun _ => 0) largeArds).map MmPagesManager.length = some 0x40000001 := by
    decide
  refine ⟨hrun, fun h => ?_⟩
  have hfirst : FirstEntry Usable largeArds 0 ⟨0x100000, 0, 0x40000000, 1, 1⟩ :=
    ⟨rfl, by decide, fun j hj => absurd hj (Nat.not_lt_zero j)⟩
  obtain ⟨pm, hpm, hlen⟩ := h.1 0 _ hfirst
  rw [hpm, Option.map_some, hlen] at hrun
  exact absurd hrun (by decide)

/-! ## Low memory -/

def menBitsMap : Nat := 0x500

/-- The byte of the buffer `bitmap_set` writes. -/
def setByte (map : BitmapT) (index : Nat) : Nat := sub32 index map.offset / 8

/-- The bytes of the buffer a call writes. -/
def callWrites (pm : MmPagesManager) : PageAct → List Nat
  | .get =>
    let start := scanLoop pm.map 1 (u32 (pm.map.length * 8)) 0 0
    if start = EOF then [] else [setByte pm.map (u32 (pm.map.offset + u32OfInt start))]
  | .free p => [setByte pm.map (u32 (sub64 p pm.start / 2 ^ 12))]

/-- What is in use in low memory, with the sizes: the two sectors of the trampoline, 128
bytes below the stack pointer of each of the other processors, the address of their
entry, the lock, the page tables and the operand of `lgdt`. -/
def lowMemory (aps : Nat) : List (Nat × Nat) :=
  [(0x8000, 1024), (0x9000 - 128, 128 * aps), (0xA000, 8), (0xB000, 4), (0x90000, 0x3000),
    (0x9E000, 10)]

/-- The byte is in none of these places. -/
def Apart (aps x : Nat) : Prop := ∀ r ∈ lowMemory aps, x < r.1 ∨ r.1 + r.2 ≤ x

/-- The bytes that are cleared, and in every run those that are written. -/
def StaysApart (aps : Nat) (pm : MmPagesManager) : Prop :=
  (∀ i < pm.map.length, Apart aps (menBitsMap + i)) ∧
    ∀ as, Every pageStep (fun s a _ => ∀ i ∈ callWrites s.pm a, Apart aps (menBitsMap + i))
      ⟨pm, []⟩ as

/-- All of these places are at the trampoline or behind it. -/
theorem apart_of_lt {aps x : Nat} (h : x < 0x8000) : Apart aps x := by
  intro r hr
  have hbase : 0x8000 ≤ r.1 := by
    simp only [lowMemory, List.mem_cons, List.not_mem_nil, or_false] at hr
    rcases hr with rfl | rfl | rfl | rfl | rfl | rfl <;> dsimp only <;> omega
  exact Or.inl (h.trans_le hbase)

theorem not_apart_trampoline {aps x : Nat} (hx : x = 0x8000) : ¬ Apart aps x := by
  intro h
  have hfirst := h (0x8000, 1024) List.mem_cons_self
  dsimp only at hfirst
  omega

/-- A call changes no other byte. -/
theorem call_bits {s t : PageSys} {a : PageAct} (h : pageStep s a t) {i : Nat}
    (hi : i ∉ callWrites s.pm a) : t.pm.map.bits i = s.pm.map.bits i := by
  cases a with
  | get =>
    obtain rfl := Option.some.inj h
    have hmap : (getFreePage s.pm).2.map = (bitmapScan s.pm.map 1).2 := by
      unfold getFreePage
      dsimp only
      split <;> rfl
    show (getFreePage s.pm).2.map.bits i = s.pm.map.bits i
    rw [hmap]
    unfold bitmapScan
    unfold callWrites at hi
    dsimp only at hi ⊢
    split
    · rfl
    · rename_i hne
      rw [if_neg hne, List.mem_singleton] at hi
      exact if_neg hi
  | free p =>
    simp only [pageStep, stepOf, PageSys.next] at h
    split at h
    · obtain rfl := Option.some.inj h
      exact if_neg fun heq => hi (List.mem_singleton.mpr heq)
    · cases h

/-- The map is in place, and each page that is out has its bit there. -/
structure WithinMap (n : Nat) (s : PageSys) : Prop where
  ready : Ready s.pm
  len : s.pm.map.length = n
  out : ∀ p ∈ s.out, u32 (sub64 p menManagerStart / 2 ^ 12) < n * 8

theorem scan_cases {pm : MmPagesManager} (hr : Ready pm) :
    (∃ a, FirstRun pm.map 1 (pm.map.length * 8) a ∧
      scanLoop pm.map 1 (u32 (pm.map.length * 8)) 0 0 = (a : Int)) ∨
    (getFreePage pm = (0, pm) ∧ scanLoop pm.map 1 (u32 (pm.map.length * 8)) 0 0 = EOF) := by
  have hb := hr.bits
  rw [u32_of_lt (by omega)]
  rcases scanLoop_spec (pm.map.length * 8) 0 0 (by omega) (scanInv_zero pm.map le_rfl) with
    ⟨a, ha, hs⟩ | ⟨hnone, hs⟩
  · rw [Nat.zero_add] at ha
    exact Or.inl ⟨a, ha, hs⟩
  · refine Or.inr ⟨getFreePage_none hr fun i hi => ?_, hs⟩
    by_contra hbit
    refine hnone i (by omega) fun j hj => ?_
    obtain rfl : j = 0 := by omega
    exact Bool.not_eq_true _ ▸ hbit

/-- Every byte written is one of the map. -/
theorem WithinMap.writes {n : Nat} {s : PageSys} (h : WithinMap n s) {a : PageAct} {t : PageSys}
    (hs : pageStep s a t) : ∀ i ∈ callWrites s.pm a, i < n := by
  have hb := h.ready.bits
  have hoff : s.pm.map.offset = 0 := h.ready.offset
  have hsub : ∀ k, k < 2 ^ 32 → sub32 (u32 k) 0 = k := fun k hk => by
    simp only [sub32, u32]
    omega
  cases a with
  | get =>
    intro i hi
    unfold callWrites at hi
    dsimp only at hi
    rcases scan_cases h.ready with ⟨k, hk, hscan⟩ | ⟨-, hscan⟩
    · have hle := hk.le
      have hne : (k : Int) ≠ EOF := by simp only [EOF]; omega
      rw [hscan, if_neg hne, List.mem_singleton, u32OfInt_natCast (by omega), setByte, hoff,
        Nat.zero_add, hsub k (by omega)] at hi
      rw [← h.len]
      omega
    · rw [hscan, if_pos rfl] at hi
      exact absurd hi List.not_mem_nil
  | free p =>
    intro i hi
    simp only [pageStep, stepOf, PageSys.next] at hs
    split at hs
    · rename_i hp
      have hlt := h.out p hp
      rw [callWrites, List.mem_singleton, setByte, hoff, h.ready.start] at hi
      have hidx : u32 (sub64 p menManagerStart / 2 ^ 12) < 2 ^ 32 := Nat.mod_lt _ (by decide)
      have hself : sub32 (u32 (sub64 p menManagerStart / 2 ^ 12)) 0 =
          u32 (sub64 p menManagerStart / 2 ^ 12) := by
        have := hsub _ hidx
        rwa [u32_of_lt hidx] at this
      rw [hself] at hi
      omega
    · cases hs

theorem WithinMap.step {n : Nat} {s : PageSys} (h : WithinMap n s) {a : PageAct} {t : PageSys}
    (hs : pageStep s a t) : WithinMap n t := by
  have hb := h.ready.bits
  cases a with
  | get =>
    obtain rfl := Option.some.inj hs
    rcases scan_cases h.ready with ⟨k, hk, -⟩ | ⟨hnone, -⟩
    · have hle := hk.le
      rw [getFreePage_found h.ready hk]
      constructor
      case ready =>
        exact ⟨h.ready.start, by simpa using h.ready.offset, by simpa using h.ready.bits⟩
      case len => simpa using h.len
      case out =>
        have hnew : u32 (sub64 (u64 (menManagerStart + u32 (k * 4096))) menManagerStart / 2 ^ 12) <
            n * 8 := by
          rw [← h.len]
          simp only [u32, u64, sub64, menManagerStart]
          omega
        intro p hp
        dsimp only at hp
        split at hp
        · exact h.out p hp
        · rcases List.mem_cons.mp hp with rfl | hp
          · exact hnew
          · exact h.out p hp
    · rw [hnone]
      exact ⟨h.ready, h.len, h.out⟩
  | free p =>
    simp only [pageStep, stepOf, PageSys.next] at hs
    split at hs
    · obtain rfl := Option.some.inj hs
      exact ⟨⟨h.ready.start, h.ready.offset, h.ready.bits⟩, h.len,
        fun q hq => h.out q (List.mem_of_mem_erase hq)⟩
    · cases hs

/-- In every run the bytes behind the map keep their values. -/
theorem WithinMap.bits_run {n : Nat} {s t : PageSys} {as : List PageAct} (h : WithinMap n s)
    (hr : Run pageStep s as t) {i : Nat} (hi : n ≤ i) : t.pm.map.bits i = s.pm.map.bits i := by
  refine (run_inv' (I := fun u => WithinMap n u ∧ u.pm.map.bits i = s.pm.map.bits i)
    (fun u a v hu hstep => ⟨hu.1.step hstep, ?_⟩) ⟨h, rfl⟩ hr).2
  have hout : i ∉ callWrites u.pm a := fun hmem => absurd (hu.1.writes hstep i hmem) (by omega)
  exact (call_bits hstep hout).trans hu.2

/-- **Low memory.** -/
theorem lowMemory_disjoint_iff {shl32 : BitVec 32 → BitVec 32} {bits : Nat → BitVec 8}
    {ards : List Ards} {i : Nat} {a : Ards} (h : FirstEntry (Matches shl32) ards i a)
    (aps : Nat) : ∃ pm, mmInit shl32 bits ards = some pm ∧ (StaysApart aps pm ↔
      menBitsMap + join64 shl32 a.lengthAddrHigh a.lengthAddrLow / 4096 ≤ 0x8000) := by
  refine ⟨_, mmInit_of_first h, ?_⟩
  have hready := @ready_of_mmInit shl32 bits ards _ (mmInit_of_first h)
  have hlt : join64 shl32 a.lengthAddrHigh a.lengthAddrLow < 2 ^ 32 := BitVec.isLt _
  generalize hlen : join64 shl32 a.lengthAddrHigh a.lengthAddrLow = len at *
  have hmap : (managerOf shl32 bits a).map.length = len / 4096 := by
    show u32 (join64 shl32 a.lengthAddrHigh a.lengthAddrLow / 2 ^ 12) = len / 4096
    rw [hlen]
    exact u32_of_lt (by omega)
  constructor
  · rintro ⟨hclear, -⟩
    by_contra hc
    refine not_apart_trampoline (by decide) (hclear (0x8000 - menBitsMap) ?_)
    rw [hmap]
    simp only [menBitsMap] at hc ⊢
    omega
  · intro hle
    have hapart : ∀ k < len / 4096, Apart aps (menBitsMap + k) :=
      fun k hk => apart_of_lt (by omega)
    refine ⟨fun k hk => hapart k (hmap ▸ hk), fun as => ?_⟩
    refine every_of_inv (I := WithinMap (len / 4096)) (C := fun _ _ _ => True)
      (fun s b t hs _ hstep => ?_) ⟨hready, hmap, fun p hp => absurd hp List.not_mem_nil⟩
      (every_of_step (fun _ _ _ _ => trivial) _ as)
    exact ⟨hs.step hstep, fun k hk => hapart k (hs.writes hstep k hk)⟩

/-- 124 megabytes at `0x100000`. -/
def testArds : List Ards := [⟨0x100000, 0, 0x7C00000, 0, 1⟩]

theorem testArds_first : FirstEntry (Matches id) testArds 0 ⟨0x100000, 0, 0x7C00000, 0, 1⟩ :=
  ⟨rfl, by decide, fun j hj => absurd hj (Nat.not_lt_zero j)⟩

/-- The first byte of the trampoline is cleared. -/
theorem lowMemory_overlap : ∃ pm, mmInit id (fun _ => 0) testArds = some pm ∧
    0x8000 < menBitsMap + pm.map.length ∧ ¬ StaysApart 1 pm := by
  refine ⟨_, mmInit_of_first testArds_first, by decide, fun h => ?_⟩
  exact not_apart_trampoline (by decide) (h.1 (0x8000 - menBitsMap) (by decide))

def smallArds : List Ards := [⟨0x100000, 0, 0x4000000, 0, 1⟩]

theorem smallArds_first : FirstEntry (Matches id) smallArds 0 ⟨0x100000, 0, 0x4000000, 0, 1⟩ :=
  ⟨rfl, by decide, fun j hj => absurd hj (Nat.not_lt_zero j)⟩

/-- 64 megabytes leave low memory alone. -/
theorem lowMemory_apart :
    ∃ pm, mmInit id (fun _ => 0) smallArds = some pm ∧ StaysApart 3 pm := by
  obtain ⟨pm, hpm, hiff⟩ := @lowMemory_disjoint_iff id (fun _ => 0) _ _ _ smallArds_first 3
  exact ⟨pm, hpm, hiff.mpr (by decide)⟩

end X64SmpOs.PhyMM

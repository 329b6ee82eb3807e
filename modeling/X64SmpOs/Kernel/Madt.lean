import Mathlib.Data.List.Basic
import X64SmpOs.Lib.Memory
import X64SmpOs.Lib.Words

/-!
# The table of interrupt controllers

`print_interrupt_controller_info` of `kernel/apic.c` walks the entries behind the header
of 44 bytes, each with a type and its length, and copies those of local and I/O APICs.
The end of the table is looked at after an entry has been used.

* `Chain`: the places of the entries, by their lengths;
* `walk_of_chain`, `chain_of_walk`: what the walk copies and reads along a chain, and a
  walk that returns has followed one;
* `printInterruptControllerInfo_iff`: the walk does what it should exactly for a table
  with an entry, in which every entry is complete and no type comes more than 100 times.
-/

namespace X64SmpOs.Madt

open Memory Words

structure LocalApic where
  type : Byte
  length : Byte
  apicUid : Byte
  apicId : Byte
  flags : Nat
  deriving DecidableEq

structure IoApic where
  type : Byte
  length : Byte
  ioApicId : Byte
  reserve : Byte
  ioApicAddress : Nat
  globalSystemInterruptBase : Nat
  deriving DecidableEq

/-- `apic_info_t`; the arrays have 100 elements. -/
structure ApicInfo where
  localInterruptControllerAddress : Nat
  lapicNum : Nat
  lapic : Nat → LocalApic
  ioapicNum : Nat
  ioapic : Nat → IoApic

/-- `*(local_apic_t *)pos`. -/
def localApicAt (m : Mem) (pos : Nat) : LocalApic :=
  ⟨m pos, m (pos + 1), m (pos + 2), m (pos + 3), readLE 4 m (pos + 4)⟩

/-- `*(io_apic_t *)pos`. -/
def ioApicAt (m : Mem) (pos : Nat) : IoApic :=
  ⟨m pos, m (pos + 1), m (pos + 2), m (pos + 3), readLE 4 m (pos + 4), readLE 4 m (pos + 8)⟩

/-- `switch(header->type)`; nothing behind the end of an array. -/
def switchType (m : Mem) (pos : Nat) (info : ApicInfo) : Option ApicInfo :=
  match (m pos).toNat with
  | 0 =>
    if info.lapicNum < 100 then
      some { info with
        lapic := Function.update info.lapic info.lapicNum (localApicAt m pos)
        lapicNum := info.lapicNum + 1 }
    else none
  | 1 =>
    if info.ioapicNum < 100 then
      some { info with
        ioapic := Function.update info.ioapic info.ioapicNum (ioApicAt m pos)
        ioapicNum := info.ioapicNum + 1 }
    else none
  | _ => some info

/-- What a round of the loop reads: places and sizes. -/
def roundReads (m : Mem) (pos : Nat) : List (Nat × Nat) :=
  (pos, 1) :: (match (m pos).toNat with
    | 0 => [(pos + 3, 1), (pos, 8)]
    | 1 => [(pos, 12), (pos + 2, 1)]
    | _ => []) ++ [(pos + 1, 1)]

structure Walk where
  pos : Nat
  info : ApicInfo
  reads : List (Nat × Nat)

inductive Outcome
  | returned (s : Walk)
  | overrun

/-- `while(1)`, for at most `fuel` rounds. -/
def walk (m : Mem) (stop : Nat) : Nat → Walk → Option Outcome
  | 0, _ => none
  | fuel + 1, s =>
    match switchType m s.pos s.info with
    | none => some .overrun
    | some info =>
      let s := ⟨u64 (s.pos + (m (s.pos + 1)).toNat), info, s.reads ++ roundReads m s.pos⟩
      if stop ≤ s.pos then some (.returned s) else walk m stop fuel s

/-- `madt->length`. -/
def tableLength (m : Mem) (madt : Nat) : Nat := readLE 4 m (madt + 4)

def printInterruptControllerInfo (fuel : Nat) (m : Mem) (madt : Nat) (info : ApicInfo) :
    Option Outcome :=
  let start := u64 (madt + 44)
  let stop := u64 (tableLength m madt + madt)
  let info := { info with localInterruptControllerAddress := readLE 4 m (madt + 36) }
  walk m stop fuel ⟨start, info, [(madt + 4, 4), (madt + 36, 4)]⟩

/-- `g_apicInfo` when the kernel starts. -/
def zeroInfo : ApicInfo := ⟨0, 0, fun _ => ⟨0, 0, 0, 0, 0⟩, 0, fun _ => ⟨0, 0, 0, 0, 0, 0⟩⟩

/-! ## Tables -/

/-- The places of the entries from `pos` on. -/
def Chain (m : Mem) (stop : Nat) : Nat → List Nat → Prop
  | pos, [] => stop ≤ pos
  | pos, p :: ps => p = pos ∧ pos < stop ∧ Chain m stop (pos + (m (pos + 1)).toNat) ps

/-- The entries of a table. -/
def Table (m : Mem) (madt : Nat) (es : List Nat) : Prop :=
  Chain m (madt + tableLength m madt) (madt + 44) es

def Chain.decide (m : Mem) (stop : Nat) : ∀ pos es, Decidable (Chain m stop pos es)
  | pos, [] => inferInstanceAs (Decidable (stop ≤ pos))
  | pos, p :: ps =>
    have := Chain.decide m stop (pos + (m (pos + 1)).toNat) ps
    inferInstanceAs (Decidable (p = pos ∧ pos < stop ∧ _))

instance (m : Mem) (madt : Nat) (es : List Nat) : Decidable (Table m madt es) :=
  Chain.decide ..

/-- The places of the entries of a type. -/
def ofType (m : Mem) (type : Nat) (es : List Nat) : List Nat :=
  es.filter fun p => (m p).toNat = type

/-- The bytes of an entry the code looks at. -/
def entrySize (m : Mem) (pos : Nat) : Nat :=
  match (m pos).toNat with
  | 0 => 8
  | 1 => 12
  | _ => 2

namespace ApicInfo

def lapics (info : ApicInfo) : List LocalApic := (List.range info.lapicNum).map info.lapic

def ioapics (info : ApicInfo) : List IoApic := (List.range info.ioapicNum).map info.ioapic

/-- The arrays have grown by the entries of a part of the table. -/
structure Adds (m : Mem) (es : List Nat) (info info' : ApicInfo) : Prop where
  lapics : info'.lapics = info.lapics ++ (ofType m 0 es).map (localApicAt m)
  ioapics : info'.ioapics = info.ioapics ++ (ofType m 1 es).map (ioApicAt m)

end ApicInfo

open ApicInfo

theorem map_range_update {α : Type} (f : Nat → α) (n : Nat) (x : α) :
    (List.range (n + 1)).map (Function.update f n x) = (List.range n).map f ++ [x] := by
  rw [List.range_succ, List.map_append]
  congr 1
  · refine List.map_congr_left fun i hi => Function.update_of_ne (fun h => ?_) ..
    rw [h, List.mem_range] at hi
    exact lt_irrefl _ hi
  · simp

theorem length_lapics (info : ApicInfo) : info.lapics.length = info.lapicNum := by
  simp [lapics]

theorem length_ioapics (info : ApicInfo) : info.ioapics.length = info.ioapicNum := by
  simp [ioapics]

/-- So many elements are in use afterwards. -/
theorem ApicInfo.Adds.num {m : Mem} {es : List Nat} {i j : ApicInfo} (h : Adds m es i j) :
    j.lapicNum = i.lapicNum + (ofType m 0 es).length ∧
      j.ioapicNum = i.ioapicNum + (ofType m 1 es).length := by
  constructor
  · rw [← length_lapics, h.lapics, List.length_append, List.length_map, length_lapics]
  · rw [← length_ioapics, h.ioapics, List.length_append, List.length_map, length_ioapics]

theorem ApicInfo.Adds.trans {m : Mem} {es fs : List Nat} {i j k : ApicInfo} (h : Adds m es i j)
    (h' : Adds m fs j k) : Adds m (es ++ fs) i k := by
  constructor
  case lapics => rw [h'.lapics, h.lapics, ofType, ofType, ofType, List.filter_append,
    List.map_append, List.append_assoc]
  case ioapics => rw [h'.ioapics, h.ioapics, ofType, ofType, ofType, List.filter_append,
    List.map_append, List.append_assoc]

theorem ofType_pos {m : Mem} {type pos : Nat} (h : (m pos).toNat = type) :
    ofType m type [pos] = [pos] := by
  simp [ofType, h]

theorem ofType_neg {m : Mem} {type pos : Nat} (h : (m pos).toNat ≠ type) :
    ofType m type [pos] = [] := by
  simp [ofType, h]

theorem ofType_cons (m : Mem) (type pos : Nat) (es : List Nat) :
    ofType m type (pos :: es) = ofType m type [pos] ++ ofType m type es := by
  rw [ofType, ofType, ofType, ← List.filter_append, List.singleton_append]

/-! ## A round -/

section Round

variable {m : Mem} {pos : Nat} {info info' : ApicInfo}

theorem switchType_adds (h : switchType m pos info = some info') : Adds m [pos] info info' := by
  unfold switchType at h
  split at h
  · rename_i htype
    split at h
    · obtain rfl := Option.some.inj h
      constructor
      case lapics =>
        rw [ofType_pos htype]
        exact map_range_update ..
      case ioapics =>
        rw [ofType_neg (by omega)]
        exact (List.append_nil _).symm
    · cases h
  · rename_i htype
    split at h
    · obtain rfl := Option.some.inj h
      constructor
      case lapics =>
        rw [ofType_neg (by omega)]
        exact (List.append_nil _).symm
      case ioapics =>
        rw [ofType_pos htype]
        exact map_range_update ..
    · cases h
  · rename_i h0 h1
    obtain rfl := Option.some.inj h
    constructor
    case lapics =>
      rw [ofType_neg h0]
      exact (List.append_nil _).symm
    case ioapics =>
      rw [ofType_neg h1]
      exact (List.append_nil _).symm

/-- The elements in use of the two arrays. -/
def ApicInfo.Within (info : ApicInfo) : Prop := info.lapicNum ≤ 100 ∧ info.ioapicNum ≤ 100

/-- Nothing is stored behind the end of an array. -/
theorem switchType_within (h : switchType m pos info = some info') (hw : info.Within) :
    info'.Within := by
  unfold switchType at h
  split at h
  · split at h
    · rename_i hlt
      obtain rfl := Option.some.inj h
      exact ⟨hlt, hw.2⟩
    · cases h
  · split at h
    · rename_i hlt
      obtain rfl := Option.some.inj h
      exact ⟨hw.1, hlt⟩
    · cases h
  · obtain rfl := Option.some.inj h
    exact hw

theorem switchType_isSome (h0 : info.lapicNum + (ofType m 0 [pos]).length ≤ 100)
    (h1 : info.ioapicNum + (ofType m 1 [pos]).length ≤ 100) :
    ∃ info', switchType m pos info = some info' := by
  unfold switchType
  split
  · rename_i htype
    rw [ofType_pos htype] at h0
    exact ⟨_, if_pos h0⟩
  · rename_i htype
    rw [ofType_pos htype] at h1
    exact ⟨_, if_pos h1⟩
  · exact ⟨info, rfl⟩

/-- A round reads the bytes of its entry that the code looks at. -/
theorem roundReads_iff {base stop : Nat} (hbase : base ≤ pos) :
    (∀ r ∈ roundReads m pos, base ≤ r.1 ∧ r.1 + r.2 ≤ stop) ↔ pos + entrySize m pos ≤ stop := by
  unfold roundReads entrySize
  split <;> simp <;> omega

end Round

/-! ## The loop -/

theorem Chain.unique {m : Mem} {stop pos : Nat} {es es' : List Nat} (h : Chain m stop pos es)
    (h' : Chain m stop pos es') : es = es' := by
  induction es generalizing pos es' with
  | nil =>
    cases es' with
    | nil => rfl
    | cons => exact absurd h'.2.1 (Nat.not_lt.mpr h)
  | cons p ps ih =>
    cases es' with
    | nil => exact absurd h.2.1 (Nat.not_lt.mpr h')
    | cons p' ps' => rw [h.1, h'.1, ih h.2.2 h'.2.2]

/-- The places lie between the first one and the end. -/
theorem Chain.le {m : Mem} {stop pos : Nat} {es : List Nat} (h : Chain m stop pos es) :
    ∀ p ∈ es, pos ≤ p := by
  induction es generalizing pos with
  | nil => exact fun p hp => absurd hp List.not_mem_nil
  | cons q ps ih =>
    obtain ⟨rfl, -, hrest⟩ := h
    intro p hp
    rcases List.mem_cons.mp hp with rfl | hp
    · exact le_rfl
    · exact (Nat.le_add_right ..).trans (ih hrest p hp)

section Loop

variable {m : Mem} {stop : Nat}

theorem next_eq {pos : Nat} (hstop : stop < 2 ^ 63) (h : pos < stop) :
    u64 (pos + (m (pos + 1)).toNat) = pos + (m (pos + 1)).toNat := by
  have hbyte := (m (pos + 1)).isLt
  exact u64_of_lt (by omega)

/-- Along a chain with room for its entries the walk returns. -/
theorem walk_of_chain (hstop : stop < 2 ^ 63) {es : List Nat} {s : Walk}
    (h : Chain m stop s.pos es) (hne : es ≠ [])
    (h0 : s.info.lapicNum + (ofType m 0 es).length ≤ 100)
    (h1 : s.info.ioapicNum + (ofType m 1 es).length ≤ 100) :
    ∃ s', walk m stop es.length s = some (.returned s') ∧ Adds m es s.info s'.info ∧
      s'.reads = s.reads ++ (es.map (roundReads m)).flatten := by
  induction es generalizing s with
  | nil => exact absurd rfl hne
  | cons p ps ih =>
    obtain ⟨rfl, hlt, hrest⟩ := h
    rw [ofType_cons, List.length_append] at h0 h1
    obtain ⟨info, hinfo⟩ := @switchType_isSome m s.pos s.info (by omega) (by omega)
    have hadds := switchType_adds hinfo
    rw [List.length_cons, walk, hinfo]
    dsimp only
    rw [next_eq hstop hlt]
    cases ps with
    | nil =>
      refine ⟨_, if_pos hrest, hadds, by simp⟩
    | cons q qs =>
      obtain ⟨hnum, hio⟩ := hadds.num
      let s1 : Walk := ⟨s.pos + (m (s.pos + 1)).toNat, info, s.reads ++ roundReads m s.pos⟩
      obtain ⟨s', hwalk, hadds', hreads⟩ := ih (s := s1) hrest (by simp) (by
        show info.lapicNum + _ ≤ 100
        omega) (by
        show info.ioapicNum + _ ≤ 100
        omega)
      refine ⟨s', (if_neg (Nat.not_le.mpr hrest.2.1)).trans hwalk, hadds.trans hadds', ?_⟩
      rw [hreads]
      exact List.append_assoc ..

/-- A walk that returns and reads nothing behind the end has followed a chain. -/
theorem chain_of_walk (hstop : stop < 2 ^ 63) {fuel : Nat} {s s' : Walk}
    (h : walk m stop fuel s = some (.returned s')) (hw : s.info.Within)
    (hreads : ∀ r ∈ s'.reads, r.1 + r.2 ≤ stop) :
    ∃ es, es ≠ [] ∧ Chain m stop s.pos es ∧ Adds m es s.info s'.info ∧ s'.info.Within ∧
      s'.reads = s.reads ++ (es.map (roundReads m)).flatten := by
  induction fuel generalizing s with
  | zero => cases h
  | succ fuel ih =>
    rw [walk] at h
    cases hinfo : switchType m s.pos s.info with
    | none =>
      rw [hinfo] at h
      cases h
    | some info =>
      rw [hinfo] at h
      dsimp only at h
      have hadds := switchType_adds hinfo
      have hwithin := switchType_within hinfo hw
      -- the type has been read
      have hmem : (s.pos, 1) ∈ roundReads m s.pos := by simp [roundReads]
      split at h
      · rename_i hend
        obtain rfl := Outcome.returned.inj (Option.some.inj h)
        have hlt := hreads _ (List.mem_append_right _ hmem)
        rw [next_eq hstop hlt] at hend
        exact ⟨[s.pos], by simp, ⟨rfl, hlt, hend⟩, hadds, hwithin, by simp⟩
      · obtain ⟨es, hne, hchain, hadds', hwithin', heq⟩ := ih h hwithin
        have hlt := hreads (s.pos, 1) (by
          rw [heq]
          exact List.mem_append_left _ (List.mem_append_right _ hmem))
        dsimp only at hchain
        rw [next_eq hstop hlt] at hchain
        refine ⟨s.pos :: es, by simp, ⟨rfl, hlt, hchain⟩, hadds.trans hadds', hwithin', ?_⟩
        rw [heq, List.map_cons, List.flatten_cons, ← List.append_assoc]

end Loop

/-! ## The function -/

/-- It returns, has read nothing outside of the table and stored nothing outside of the
arrays, which hold the entries of the table. -/
def Correct (m : Mem) (madt : Nat) : Prop :=
  ∃ fuel s, printInterruptControllerInfo fuel m madt zeroInfo = some (.returned s) ∧
    (∀ r ∈ s.reads, madt ≤ r.1 ∧ r.1 + r.2 ≤ madt + tableLength m madt) ∧
    s.info.Within ∧
    ∀ es, Table m madt es → s.info.lapics = (ofType m 0 es).map (localApicAt m) ∧
      s.info.ioapics = (ofType m 1 es).map (ioApicAt m)

/-- The lengths lead from entry to entry to the end. There is an entry, each is long
enough for its type, and the arrays have room. -/
def Complete (m : Mem) (madt : Nat) : Prop :=
  ∃ es, Table m madt es ∧ es ≠ [] ∧
    (∀ p ∈ es, p + entrySize m p ≤ madt + tableLength m madt) ∧
    (ofType m 0 es).length ≤ 100 ∧ (ofType m 1 es).length ≤ 100

section Function

variable {m : Mem} {madt : Nat}

/-- The state before the first round. -/
def firstWalk (m : Mem) (madt : Nat) : Walk :=
  ⟨madt + 44, { zeroInfo with localInterruptControllerAddress := readLE 4 m (madt + 36) },
    [(madt + 4, 4), (madt + 36, 4)]⟩

theorem print_eq (hmadt : madt < 2 ^ 32) (fuel : Nat) :
    printInterruptControllerInfo fuel m madt zeroInfo =
      walk m (madt + tableLength m madt) fuel (firstWalk m madt) := by
  have hlen : tableLength m madt < 2 ^ 32 := readLE_lt 4 m (madt + 4)
  have hstart : u64 (madt + 44) = madt + 44 := u64_of_lt (by omega)
  have hstop : u64 (tableLength m madt + madt) = madt + tableLength m madt := by
    rw [u64_of_lt (by omega), Nat.add_comm]
  rw [printInterruptControllerInfo, hstart, hstop]
  rfl

theorem stop_lt (hmadt : madt < 2 ^ 32) : madt + tableLength m madt < 2 ^ 63 := by
  have hlen : tableLength m madt < 2 ^ 32 := readLE_lt 4 m (madt + 4)
  omega

theorem firstWalk_within (m : Mem) (madt : Nat) : (firstWalk m madt).info.Within :=
  ⟨Nat.zero_le _, Nat.zero_le _⟩

/-- From the start the arrays hold the entries that have been added. -/
theorem firstWalk_adds {es : List Nat} {info : ApicInfo}
    (h : Adds m es (firstWalk m madt).info info) :
    info.lapics = (ofType m 0 es).map (localApicAt m) ∧
      info.ioapics = (ofType m 1 es).map (ioApicAt m) ∧
      info.lapicNum = (ofType m 0 es).length ∧ info.ioapicNum = (ofType m 1 es).length := by
  have hl : info.lapics = (ofType m 0 es).map (localApicAt m) := h.lapics
  have hi : info.ioapics = (ofType m 1 es).map (ioApicAt m) := h.ioapics
  exact ⟨hl, hi, h.num.1.trans (Nat.zero_add _), h.num.2.trans (Nat.zero_add _)⟩

/-- A correct run has come along a complete table. -/
theorem Correct.complete (hmadt : madt < 2 ^ 32) (h : Correct m madt) : Complete m madt := by
  obtain ⟨fuel, s, hrun, hreads, -⟩ := h
  rw [print_eq hmadt] at hrun
  obtain ⟨es, hne, hchain, hadds, hwithin, heq⟩ := chain_of_walk (stop_lt hmadt) hrun
    (firstWalk_within m madt) fun r hr => (hreads r hr).2
  obtain ⟨-, -, h0, h1⟩ := firstWalk_adds hadds
  refine ⟨es, hchain, hne, fun p hp => ?_, h0 ▸ hwithin.1, h1 ▸ hwithin.2⟩
  have hle : madt ≤ p := (Nat.le_add_right madt 44).trans (hchain.le p hp)
  refine (roundReads_iff hle).mp fun r hr => hreads r ?_
  rw [heq]
  exact List.mem_append_right _ (List.mem_flatten.mpr ⟨_, List.mem_map_of_mem hp, hr⟩)

theorem Complete.correct (hmadt : madt < 2 ^ 32) (hlen : 44 ≤ tableLength m madt)
    (h : Complete m madt) : Correct m madt := by
  obtain ⟨es, htable, hne, hsize, h0, h1⟩ := h
  obtain ⟨s, hwalk, hadds, heq⟩ := walk_of_chain (s := firstWalk m madt) (stop_lt hmadt) htable hne
    ((Nat.zero_add _).trans_le h0) ((Nat.zero_add _).trans_le h1)
  obtain ⟨hl, hi, hnum, hio⟩ := firstWalk_adds hadds
  refine ⟨es.length, s, (print_eq hmadt _).trans hwalk, fun r hr => ?_, ⟨hnum ▸ h0, hio ▸ h1⟩,
    fun es' htable' => ?_⟩
  · rw [heq] at hr
    rcases List.mem_append.mp hr with hr | hr
    · -- the header
      simp only [firstWalk, List.mem_cons, List.not_mem_nil, or_false] at hr
      rcases hr with rfl | rfl <;> dsimp only <;> omega
    · obtain ⟨_, hmem, hr⟩ := List.mem_flatten.mp hr
      obtain ⟨p, hp, rfl⟩ := List.mem_map.mp hmem
      have hle : madt ≤ p := (Nat.le_add_right madt 44).trans (htable.le p hp)
      exact (roundReads_iff hle).mpr (hsize p hp) r hr
  · rw [← htable.unique htable']
    exact ⟨hl, hi⟩

/-- Without an entry the walk reads what stands behind the table. -/
theorem not_correct_of_empty (hmadt : madt < 2 ^ 32) (hlen : tableLength m madt = 44) :
    ¬ Correct m madt := by
  intro h
  obtain ⟨es, htable, hne, -⟩ := h.complete hmadt
  have hempty : Table m madt [] := by
    rw [Table, hlen]
    exact le_refl (madt + 44)
  exact hne (htable.unique hempty)

/-- **The walk** is correct exactly for complete tables. -/
theorem printInterruptControllerInfo_iff (hmadt : madt < 2 ^ 32)
    (hlen : 44 ≤ tableLength m madt) : Correct m madt ↔ Complete m madt :=
  ⟨fun h => h.complete hmadt, fun h => h.correct hmadt hlen⟩

end Function

/-- A table at `0xE0000` with `n` entries of local APICs and no other ones. -/
def processors (n : Nat) (a : Nat) : Byte :=
  if a = 0xE0004 then BitVec.ofNat 8 (44 + 8 * n)
  else if a = 0xE0005 then BitVec.ofNat 8 ((44 + 8 * n) / 256)
  else if 0xE002C ≤ a ∧ (a - 0xE002C) % 8 = 1 then 8 else 0

def processorEntries (n : Nat) : List Nat := (List.range n).map fun i => 0xE002C + 8 * i

/-- Two processors. -/
theorem printInterruptControllerInfo_two : Correct (processors 2) 0xE0000 :=
  (printInterruptControllerInfo_iff (by decide) (by decide)).mpr
    ⟨processorEntries 2, by decide, by decide, by decide, by decide, by decide⟩

/-- 101 processors: the last one is stored behind the array. -/
theorem printInterruptControllerInfo_fails :
    Table (processors 101) 0xE0000 (processorEntries 101) ∧
      ¬ Correct (processors 101) 0xE0000 := by
  have htable : Table (processors 101) 0xE0000 (processorEntries 101) := by decide +kernel
  refine ⟨htable, ?_⟩
  rintro ⟨fuel, s, -, -, hwithin, harrays⟩
  have hlen := length_lapics s.info
  have hcount : (ofType (processors 101) 0 (processorEntries 101)).length = 101 := by
    decide +kernel
  rw [(harrays _ htable).1, List.length_map, hcount] at hlen
  have hnum := hwithin.1
  omega

end X64SmpOs.Madt

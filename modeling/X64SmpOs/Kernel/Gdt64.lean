import Mathlib.Data.BitVec
import Mathlib.Data.List.Pairwise
import X64SmpOs.Lib.Memory

/-!
# The descriptors of the task state segments

`gdt_init` copies the loader's table to `g_gdt` and adds four segments. Every
core then appends a descriptor of 16 bytes at `gdt_max_offset`, and loads a
selector counted by `tss_index` in slots of 8 bytes.

* `gdtInit`, `initTssCurrentCore`: the code;
* `descBase_build`: the address put together again from the four fields;
* `rep_run`: both counters, and the descriptors in memory, after any number of
  calls;
* `installed_iff`: up to 255 cores are served as they should be as long as they
  are 124.
-/

namespace X64SmpOs.Gdt64

open Memory

/-- `gdtr_value`. -/
structure Gdtr where
  gdtMaxOffset : BitVec 16
  gdtBaseAddr : BitVec 64

/-- What a call leaves behind: where its descriptor is, and the task register. -/
structure Core where
  desc : BitVec 64
  tr : BitVec 16

/-- The record at 0x9E000, the register, `tss_index`, and the cores so far. -/
structure State where
  mem : Mem
  gGdtr : Gdtr
  gdtr : Gdtr
  tssIndex : BitVec 32
  cores : List Core

/-! ## The 32-bit kernel -/

/-- Limit and base 0, `S`, `P`, `L` and `G` set. -/
def segmentDesc (type dpl : Nat) : Nat :=
  (type + 2 ^ 4 + dpl * 2 ^ 5 + 2 ^ 7) * 2 ^ 40 + (2 ^ 5 + 2 ^ 7) * 2 ^ 48

def x64R0CsDesc : Nat := segmentDesc 8 0
def x64R0DsDesc : Nat := segmentDesc 2 0
def x64R3DsDesc : Nat := segmentDesc 2 3
def x64R3CsDesc : Nat := segmentDesc 8 3

/-- The loader's table has three entries. -/
def loaderGdtr (gdtBase : BitVec 32) : Gdtr := ⟨24, gdtBase.setWidth 64⟩

def copyBytes (m : Mem) (dest src n : Nat) : Mem :=
  fun x => if dest ≤ x ∧ x < dest + n then m (src + (x - dest)) else m x

def addSegment (gGdt : BitVec 32) (desc : Nat) (s : State) : State :=
  let offset := s.gGdtr.gdtMaxOffset + 8
  let idx := offset.toNat / 8 - 1
  { s with
    mem := writeLE 8 s.mem (gGdt.toNat + 8 * idx) desc
    gGdtr := { s.gGdtr with gdtMaxOffset := offset } }

/-- `TSS_INDEX`, which `tss_index` starts with. -/
def tssIndexBsp : BitVec 32 := 7

/-- `g_gdt` is at an address of 32 bits. The loader's register is read first. -/
def gdtInit (gGdt : BitVec 32) (loader : Gdtr) (m : Mem) : State :=
  let s : State :=
    { mem := copyBytes m gGdt.toNat (loader.gdtBaseAddr.setWidth 32).toNat loader.gdtMaxOffset.toNat
      gGdtr := loader
      gdtr := loader
      tssIndex := tssIndexBsp
      cores := [] }
  let s := addSegment gGdt x64R0CsDesc s
  let s := addSegment gGdt x64R0DsDesc s
  let s := addSegment gGdt x64R3DsDesc s
  let s := addSegment gGdt x64R3CsDesc s
  let gGdtr : Gdtr := { s.gGdtr with gdtBaseAddr := gGdt.setWidth 64 }
  { s with
    gGdtr
    gdtr := gGdtr }

/-! ## The 64-bit kernel -/

def buildX64TssDesc (base : BitVec 64) (desc : Nat) (m : Mem) : Mem :=
  let m := writeLE 2 m desc 104
  let m := writeLE 2 m (desc + 2) (base &&& 0xFFFF).toNat
  let m := writeLE 1 m (desc + 4) ((base >>> 16) &&& 0xFF).toNat
  let m := writeLE 1 m (desc + 5) 0x89
  let m := writeLE 1 m (desc + 6) 0
  let m := writeLE 1 m (desc + 7) ((base >>> 24) &&& 0xFF).toNat
  let m := writeLE 4 m (desc + 8) (base >>> 32).toNat
  writeLE 4 m (desc + 12) 0

/-- `ltr` marks the descriptor busy. -/
def ltr (gdtr : Gdtr) (selector : BitVec 16) (m : Mem) : Mem :=
  let flags := (gdtr.gdtBaseAddr + selector.setWidth 64).toNat + 5
  writeLE 1 m flags ((m flags).toNat ||| 2)

/-- `tss` is the address that `kzalloc` returned. -/
def initTssCurrentCore (s : State) (tss : BitVec 64) : State :=
  let desc := s.gGdtr.gdtBaseAddr + s.gGdtr.gdtMaxOffset.setWidth 64
  let mem := buildX64TssDesc tss desc.toNat s.mem
  let gGdtr := { s.gGdtr with gdtMaxOffset := s.gGdtr.gdtMaxOffset + 16 }
  let tssSelector : BitVec 16 := (s.tssIndex <<< 3).setWidth 16
  { mem := ltr gGdtr tssSelector mem
    gGdtr
    gdtr := gGdtr
    tssIndex := s.tssIndex + 2
    cores := s.cores ++ [⟨desc, tssSelector⟩] }

def run (s : State) (tss : List (BitVec 64)) : State := tss.foldl initTssCurrentCore s

/-! ## What is installed -/

/-- The base the processor takes from a descriptor of 16 bytes. -/
def descBase (m : Mem) (desc : Nat) : Nat :=
  readLE 2 m (desc + 2) + 2 ^ 16 * readLE 1 m (desc + 4) + 2 ^ 24 * readLE 1 m (desc + 7) +
    2 ^ 32 * readLE 4 m (desc + 8)

/-- Every call has a descriptor of its own, behind the first seven entries and
in the table, which its selector leads to and which leads to its TSS. -/
structure Installed (gGdt : BitVec 32) (before s : State) (tss : List (BitVec 64)) : Prop where
  length : s.cores.length = tss.length
  selector : ∀ core ∈ s.cores, core.desc.toNat = gGdt.toNat + core.tr.toNat
  decodes : ∀ (k : Nat) (core : Core) (base : BitVec 64), s.cores[k]? = some core →
    tss[k]? = some base → descBase s.mem core.desc.toNat = base.toNat
  disjoint : s.cores.Pairwise fun c d =>
    c.desc.toNat + 16 ≤ d.desc.toNat ∨ d.desc.toNat + 16 ≤ c.desc.toNat
  behind : ∀ core ∈ s.cores, gGdt.toNat + 7 * 8 ≤ core.desc.toNat
  entries : AgreeOn before.mem s.mem gGdt.toNat (7 * 8)
  inside : ∀ core ∈ s.cores, core.desc.toNat + 16 ≤ gGdt.toNat + 256 * 8

/-! ## One descriptor -/

/-- The fields together, each behind the ones written before it. -/
theorem descBase_build (base : BitVec 64) (desc : Nat) (m : Mem) :
    descBase (buildX64TssDesc base desc m) desc = base.toNat := by
  have hb := base.isLt
  have hlow : (base &&& 0xFFFF).toNat = base.toNat % 2 ^ 16 := by
    rw [BitVec.toNat_and]
    exact Nat.and_two_pow_sub_one_eq_mod base.toNat 16
  have hbyte : ∀ n, ((base >>> n) &&& 0xFF).toNat = base.toNat / 2 ^ n % 2 ^ 8 := by
    intro n
    rw [BitVec.toNat_and, BitVec.toNat_ushiftRight, Nat.shiftRight_eq_div_pow]
    exact Nat.and_two_pow_sub_one_eq_mod _ 8
  have hupper : (base >>> 32).toNat = base.toNat / 2 ^ 32 := by
    rw [BitVec.toNat_ushiftRight, Nat.shiftRight_eq_div_pow]
  unfold descBase buildX64TssDesc
  simp (disch := omega) only [readLE_writeLE_of_disjoint, readLE_writeLE, hlow, hbyte, hupper]
  omega

theorem agreeOn_build (base : BitVec 64) {desc : Nat} (m : Mem) {b k : Nat}
    (h : b + k ≤ desc ∨ desc + 16 ≤ b) : AgreeOn m (buildX64TssDesc base desc m) b k := by
  unfold buildX64TssDesc
  intro x hx hx'
  simp (disch := omega) only [writeLE_apply_of_not]

theorem descBase_congr {m m' : Mem} {desc : Nat} (h : AgreeOn m m' (desc + 2) 3)
    (h' : AgreeOn m m' (desc + 7) 5) : descBase m' desc = descBase m desc := by
  unfold descBase
  rw [readLE_congr (h.sub le_rfl (by omega)), readLE_congr (h.sub (by omega) (by omega)),
    readLE_congr (h'.sub le_rfl (by omega)), readLE_congr (h'.sub (by omega) (by omega))]

/-! ## The calls -/

/-- The counters and the descriptors after the calls for `tss`. -/
structure Rep (gGdt : BitVec 32) (before : State) (tss : List (BitVec 64)) (s : State) : Prop where
  base : s.gGdtr.gdtBaseAddr = gGdt.setWidth 64
  maxOffset : s.gGdtr.gdtMaxOffset.toNat = 56 + 16 * tss.length
  tssIndex : s.tssIndex.toNat = 7 + 2 * tss.length
  length : s.cores.length = tss.length
  core : ∀ (k : Nat) (core : Core), s.cores[k]? = some core →
    core.desc.toNat = gGdt.toNat + (56 + 16 * k) ∧ core.tr.toNat = 56 + 16 * k
  decodes : ∀ (k : Nat) (base : BitVec 64), tss[k]? = some base →
    descBase s.mem (gGdt.toNat + (56 + 16 * k)) = base.toNat
  entries : AgreeOn before.mem s.mem gGdt.toNat (7 * 8)

section
variable {gGdt gdtBase : BitVec 32} {m : Mem} {before s : State} {tss : List (BitVec 64)}

theorem rep_gdtInit : Rep gGdt (gdtInit gGdt (loaderGdtr gdtBase) m) []
    (gdtInit gGdt (loaderGdtr gdtBase) m) where
  base := rfl
  maxOffset := rfl
  tssIndex := rfl
  length := rfl
  core k core h := by simp [gdtInit, addSegment] at h
  decodes k base h := by simp at h
  entries := AgreeOn.refl _ _ _

/-- An entry of the list, or the one appended. -/
theorem getElem?_concat_cases {α : Type} {l : List α} {a x : α} {k : Nat}
    (h : (l ++ [a])[k]? = some x) : l[k]? = some x ∨ k = l.length ∧ a = x := by
  rw [List.getElem?_append] at h
  split at h
  · exact Or.inl h
  · rename_i hk
    have hk' : k - l.length = 0 := by
      have hlt := (List.getElem?_eq_some_iff.mp h).1
      rw [List.length_singleton] at hlt
      omega
    rw [hk'] at h
    exact Or.inr ⟨by omega, Option.some.inj h⟩

/-- An offset of 16 bits from the table does not leave the address space. -/
theorem Rep.address (h : Rep gGdt before tss s) (offset : BitVec 16) :
    (s.gGdtr.gdtBaseAddr + offset.setWidth 64).toNat = gGdt.toNat + offset.toNat := by
  have hbase := gGdt.isLt
  have hoffset := offset.isLt
  rw [h.base, BitVec.toNat_add, BitVec.toNat_setWidth, BitVec.toNat_setWidth]
  omega

/-- `tss_index` counts the slots below `gdt_max_offset`. -/
theorem Rep.selector (h : Rep gGdt before tss s) (hlt : tss.length < 255) :
    ((s.tssIndex <<< 3).setWidth 16 : BitVec 16).toNat = 56 + 16 * tss.length := by
  rw [BitVec.toNat_setWidth, BitVec.toNat_shiftLeft, Nat.shiftLeft_eq, h.tssIndex]
  omega

/-- **Step.** The selector and the descriptor are at the same offset. -/
theorem rep_step (h : Rep gGdt before tss s) (hlt : tss.length < 255) (a : BitVec 64) :
    Rep gGdt before (tss ++ [a]) (initTssCurrentCore s a) := by
  have hsel := h.selector hlt
  have hdesc := h.address s.gGdtr.gdtMaxOffset
  have hflags := h.address ((s.tssIndex <<< 3).setWidth 16)
  rw [h.maxOffset] at hdesc
  rw [hsel] at hflags
  -- the call writes its own sixteen bytes
  have hframe : ∀ b k, b + k ≤ gGdt.toNat + (56 + 16 * tss.length) ∨
      gGdt.toNat + (56 + 16 * tss.length) + 16 ≤ b →
      AgreeOn s.mem (initTssCurrentCore s a).mem b k := by
    intro b k hbk
    simp only [initTssCurrentCore, ltr, hdesc, hflags]
    exact (agreeOn_build a s.mem hbk).trans (agreeOn_writeLE _ _ (by omega))
  have hnew : descBase (initTssCurrentCore s a).mem (gGdt.toNat + (56 + 16 * tss.length)) =
      a.toNat := by
    simp only [initTssCurrentCore, ltr, hdesc, hflags]
    rw [descBase_congr (agreeOn_writeLE _ _ (by omega)) (agreeOn_writeLE _ _ (by omega)),
      descBase_build]
  constructor
  · exact h.base
  · simp only [initTssCurrentCore, List.length_append, List.length_singleton]
    have hstep : (16 : BitVec 16).toNat = 16 := rfl
    rw [BitVec.toNat_add, h.maxOffset]
    omega
  · simp only [initTssCurrentCore, List.length_append, List.length_singleton]
    have hstep : (2 : BitVec 32).toNat = 2 := rfl
    rw [BitVec.toNat_add, h.tssIndex]
    omega
  · simp [initTssCurrentCore, h.length]
  · intro k core hcore
    rcases getElem?_concat_cases hcore with hcore | ⟨hk, rfl⟩
    · exact h.core k core hcore
    · rw [hk, h.length]
      exact ⟨hdesc, hsel⟩
  · intro k base hk
    rcases getElem?_concat_cases hk with hk | ⟨rfl, rfl⟩
    · have hlt := (List.getElem?_eq_some_iff.mp hk).1
      rw [← h.decodes k base hk]
      exact descBase_congr (hframe _ _ (by omega)) (hframe _ _ (by omega))
    · exact hnew
  · exact h.entries.trans (hframe _ _ (by omega))

/-- **Run.** -/
theorem rep_run (h : Rep gGdt before [] s) (hle : tss.length ≤ 255) :
    Rep gGdt before tss (run s tss) := by
  induction tss using List.reverseRecOn with
  | nil => exact h
  | append_singleton tss a ih =>
    rw [List.length_append, List.length_singleton] at hle
    rw [run, List.foldl_append]
    exact rep_step (ih (by omega)) (by omega) a

/-! ## The capacity -/

/-- All of it but the end of the table. -/
theorem installed_of_le (h : Rep gGdt before tss s) (hle : tss.length ≤ 124) :
    Installed gGdt before s tss := by
  have hcore : ∀ core ∈ s.cores, ∃ k < tss.length,
      core.desc.toNat = gGdt.toNat + (56 + 16 * k) ∧ core.tr.toNat = 56 + 16 * k := by
    intro core hmem
    obtain ⟨k, hk, heq⟩ := List.mem_iff_getElem.mp hmem
    rw [h.length] at hk
    exact ⟨k, hk, h.core k core (List.getElem?_eq_some_iff.mpr ⟨_, heq⟩)⟩
  constructor
  · exact h.length
  · intro core hmem
    obtain ⟨k, -, hdesc, htr⟩ := hcore core hmem
    rw [hdesc, htr]
  · intro k core base hk hbase
    rw [(h.core k core hk).1]
    exact h.decodes k base hbase
  · rw [List.pairwise_iff_getElem]
    intro i j hi hj hij
    have hci := (h.core i _ (List.getElem?_eq_getElem hi)).1
    have hcj := (h.core j _ (List.getElem?_eq_getElem hj)).1
    omega
  · intro core hmem
    obtain ⟨k, -, hdesc, -⟩ := hcore core hmem
    omega
  · exact h.entries
  · intro core hmem
    obtain ⟨k, hk, hdesc, -⟩ := hcore core hmem
    omega

/-- The descriptor of the 125th core would end 8 bytes behind the table. -/
theorem le_of_installed (h : Rep gGdt before tss s) (hi : Installed gGdt before s tss) :
    tss.length ≤ 124 := by
  by_contra hgt
  have hk : 124 < s.cores.length := by
    rw [h.length]
    omega
  have hdesc := (h.core 124 _ (List.getElem?_eq_getElem hk)).1
  have hend := hi.inside _ (List.getElem_mem hk)
  omega

/-- **Capacity.** Seven entries of the 256 are taken, and a core takes two. -/
theorem installed_iff (gGdt gdtBase : BitVec 32) (m : Mem) (tss : List (BitVec 64))
    (h : tss.length ≤ 255) :
    Installed gGdt (gdtInit gGdt (loaderGdtr gdtBase) m)
      (run (gdtInit gGdt (loaderGdtr gdtBase) m) tss) tss ↔ tss.length ≤ 124 :=
  ⟨le_of_installed (rep_run rep_gdtInit h), installed_of_le (rep_run rep_gdtInit h)⟩

theorem installed_two :
    Installed 0x110000 (gdtInit 0x110000 (loaderGdtr 0x8010) fun _ => 0)
      (run (gdtInit 0x110000 (loaderGdtr 0x8010) fun _ => 0)
        [0x2000, 0xFFFF800000103000]) [0x2000, 0xFFFF800000103000] ↔
      [(0x2000 : BitVec 64), 0xFFFF800000103000].length ≤ 124 :=
  installed_iff 0x110000 0x8010 (fun _ => 0) [0x2000, 0xFFFF800000103000] (by decide)

/-- One core too many. -/
theorem not_installed_cores :
    (List.replicate 125 (0x2000 : BitVec 64)).length ≤ 255 ∧
      ¬ Installed 0x110000 (gdtInit 0x110000 (loaderGdtr 0x8010) fun _ => 0)
        (run (gdtInit 0x110000 (loaderGdtr 0x8010) fun _ => 0)
          (List.replicate 125 0x2000)) (List.replicate 125 0x2000) := by
  have hlen : (List.replicate 125 (0x2000 : BitVec 64)).length = 125 := List.length_replicate
  constructor
  · omega
  · intro hi
    have hle := le_of_installed (rep_run rep_gdtInit (by omega)) hi
    omega

end

end X64SmpOs.Gdt64

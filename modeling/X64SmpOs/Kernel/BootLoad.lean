import X64SmpOs.Lib.Bytes
import X64SmpOs.Kernel.PhyMM
import X64SmpOs.Kernel.ReadHd

/-!
# From the image of the disk to memory

The `Makefile` puts the programs into `hd.img` with `dd`, `boot.asm` reads `setup.asm`,
and that asks the BIOS for the memory map and reads the kernels and the trampoline.

* `hdImg`: the image;
* `memoryCheck`, `setup`, `boot`: the code, up to the jump into the kernel;
* `memoryCheck_spec`: the map the BIOS gives is in memory, with its count;
* `boot_memory`: every program arrives where it is linked, and of the map the entries
  that end below the kernel.
-/

namespace X64SmpOs.BootLoad

open Memory PhyMM ReadHd

/-! ## The image -/

/-- `dd bs=512 seek= count= conv=notrunc` -/
def dd (img : Mem) (file : List Byte) (seek count : Nat) : Mem :=
  filled img (512 * seek) (min file.length (512 * count)) (ofList file)

structure Programs where
  boot : List Byte
  loader : List Byte
  kernel : List Byte
  x64Kernel : List Byte
  apsBoot : List Byte

/-- `hd.img`, which `bximage` has created empty. -/
def hdImg (p : Programs) : Mem :=
  let img := dd (fun _ => 0) p.boot 0 1
  let img := dd img p.loader 1 2
  let img := dd img p.kernel 3 50
  let img := dd img p.x64Kernel 54 200
  dd img p.apsBoot 255 1

/-- The drive with an image on it. -/
def imageDrive (img : Mem) (delay : Nat → Nat) : Drive := ⟨fun lba i => img (512 * lba + i), delay⟩

/-! ## The code -/

def menArdsNumAddr : Nat := 0x1100
def menArdsAddr : Nat := 0x1102
def secondPartAddr : Nat := 0x500
def kernelAddr : Nat := 0x1200
def x64KernelAddr : Nat := 0x100000
def apBootAddr : Nat := 0x8000

/-- The 20 bytes of an entry. -/
def ardsBytes (a : Ards) : List Byte :=
  toLE 4 a.baseAddrLow.toNat ++ (toLE 4 a.baseAddrHigh.toNat ++ (toLE 4 a.lengthAddrLow.toNat ++
    (toLE 4 a.lengthAddrHigh.toNat ++ (toLE 4 a.type.toNat ++ []))))

/-- How far the code has come: to the end, or to `jmp $` behind a message. -/
inductive Stop
  | done (m : Mem)
  | fail (m : Mem)

/-- `int 0x15` with the continuation in `ebx`: the carry flag, or an entry and the next
continuation. The entry is written at `es:di`. -/
abbrev Bios := BitVec 32 → Option (Ards × BitVec 32)

def memoryCheckLoop (bios : Bios) : Nat → BitVec 32 → Nat → Mem → Option Stop
  | 0, _, _, _ => none
  | fuel + 1, ebx, edi, m =>
    match bios ebx with
    | none => some (.fail m)
    | some (ards, ebx) =>
      let m := filled m (edi % 2 ^ 16) 20 (ofList (ardsBytes ards))
      let m := writeLE 2 m menArdsNumAddr (readLE 2 m menArdsNumAddr + 1)
      if ebx = 0 then some (.done m) else memoryCheckLoop bios fuel ebx (edi + 20) m

def memoryCheck (bios : Bios) (fuel : Nat) (m : Mem) : Option Stop :=
  memoryCheckLoop bios fuel 0 menArdsAddr (writeLE 2 m menArdsNumAddr 0)

/-- `protected_mode` -/
def loadKernels (D : Drive) (fuel : Nat) (m : Mem) (d : Ata) : Option Mem := do
  let s ← readHd D true fuel ⟨m, kernelAddr, 3, d⟩ 50
  let s ← readHd D true fuel ⟨s.mem, x64KernelAddr, 54, s.drive⟩ 200
  let s ← readHd D true fuel ⟨s.mem, apBootAddr, 255, s.drive⟩ 2
  some s.mem

def setup (D : Drive) (bios : Bios) (fuel : Nat) (m : Mem) (d : Ata) : Option Stop :=
  match memoryCheck bios fuel m with
  | some (.done m) => (loadKernels D fuel m d).map .done
  | r => r

/-- From `_start` of `boot.asm` to the jump to `KERNEL_ADDR`. -/
def boot (D : Drive) (bios : Bios) (fuel : Nat) (m : Mem) (d : Ata) : Option Stop :=
  match readHd D false fuel ⟨m, secondPartAddr, 1, d⟩ 2 with
  | none => none
  | some s => setup D bios fuel s.mem s.drive

/-- The entries the kernels find. -/
def readArds (m : Mem) (a : Nat) : Ards :=
  ⟨BitVec.ofNat 32 (readLE 4 m a), BitVec.ofNat 32 (readLE 4 m (a + 4)),
    BitVec.ofNat 32 (readLE 4 m (a + 8)), BitVec.ofNat 32 (readLE 4 m (a + 12)),
    BitVec.ofNat 32 (readLE 4 m (a + 16))⟩

def readMap (m : Mem) : List Ards :=
  (List.range (readLE 2 m menArdsNumAddr)).map fun i => readArds m (menArdsAddr + 20 * i)

/-! ## The image -/

theorem filled_inside {m : Mem} {a k : Nat} {src : Nat → Byte} {i : Nat} (hi : i < k) :
    filled m a k src (a + i) = src i := by
  rw [filled, if_pos (by omega), Nat.add_sub_cancel_left]

theorem filled_outside {m : Mem} {a k : Nat} {src : Nat → Byte} {x : Nat}
    (hx : x < a ∨ a + k ≤ x) : filled m a k src x = m x := by
  rw [filled, if_neg (by omega)]

/-- A file comes to its place, and nothing else changes. -/
theorem dd_inside {img : Mem} {file : List Byte} {seek count i : Nat} (h : i < file.length)
    (hc : i < 512 * count) : dd img file seek count (512 * seek + i) = ofList file i :=
  filled_inside (by omega)

theorem dd_outside {img : Mem} {file : List Byte} {seek count x : Nat}
    (h : x < 512 * seek ∨ 512 * seek + 512 * count ≤ x) : dd img file seek count x = img x :=
  filled_outside (by omega)

/-- What stands in the sectors of each program. -/
structure OnImage (img : Mem) (p : Programs) : Prop where
  loader : ∀ i < p.loader.length, i < 1024 → img (512 * 1 + i) = ofList p.loader i
  kernel : ∀ i < p.kernel.length, i < 25600 → img (512 * 3 + i) = ofList p.kernel i
  x64Kernel : ∀ i < p.x64Kernel.length, i < 102400 → img (512 * 54 + i) = ofList p.x64Kernel i
  apsBoot : ∀ i < p.apsBoot.length, i < 512 → img (512 * 255 + i) = ofList p.apsBoot i

theorem hdImg_onImage (p : Programs) : OnImage (hdImg p) p := by
  constructor
  · intro i h hi
    rw [hdImg, dd_outside (by omega), dd_outside (by omega), dd_outside (by omega)]
    exact dd_inside h (by omega)
  · intro i h hi
    rw [hdImg, dd_outside (by omega), dd_outside (by omega)]
    exact dd_inside h (by omega)
  · intro i h hi
    rw [hdImg, dd_outside (by omega)]
    exact dd_inside h (by omega)
  · intro i h hi
    exact dd_inside h (by omega)

theorem imageDrive_bytes (img : Mem) (delay : Nat → Nat) (lba i : Nat) :
    (imageDrive img delay).bytes lba i = img (512 * lba + i) := by
  have hoff : 512 * (lba + i / 512) + i % 512 = 512 * lba + i := by omega
  exact congrArg img hoff

/-! ## The memory map -/

/-- What the BIOS answers from a continuation on. -/
inductive Answers (bios : Bios) : BitVec 32 → List Ards → Prop
  | last {ebx : BitVec 32} {a : Ards} (h : bios ebx = some (a, 0)) : Answers bios ebx [a]
  | more {ebx next : BitVec 32} {a : Ards} {as : List Ards} (h : bios ebx = some (a, next))
      (hne : next ≠ 0) (hrest : Answers bios next as) : Answers bios ebx (a :: as)

theorem length_ardsBytes (a : Ards) : (ardsBytes a).length = 20 := by
  simp [ardsBytes]

/-- The entries are behind each other, and the count has gone up. -/
structure Stored (m m' : Mem) (edi count : Nat) (as : List Ards) : Prop where
  entries : ∀ i < 20 * as.length, m' (edi + i) = ofList (as.flatMap ardsBytes) i
  count : readLE 2 m' menArdsNumAddr = count + as.length
  other : ∀ x, (x < menArdsNumAddr ∨ menArdsAddr ≤ x) → (x < edi ∨ edi + 20 * as.length ≤ x) →
    m' x = m x

theorem ofList_append_left {l post : List Byte} {i : Nat} (h : i < l.length) :
    ofList (l ++ post) i = ofList l i := by
  simp [ofList, List.getElem?_append_left h]

/-- The memory after one round. -/
def storeEntry (m : Mem) (edi : Nat) (a : Ards) : Mem :=
  let m := filled m (edi % 2 ^ 16) 20 (ofList (ardsBytes a))
  writeLE 2 m menArdsNumAddr (readLE 2 m menArdsNumAddr + 1)

theorem storeEntry_stored {m : Mem} {edi count : Nat} (a : Ards) (hedi : menArdsAddr ≤ edi)
    (hend : edi + 20 ≤ 2 ^ 16) (hcount : readLE 2 m menArdsNumAddr = count)
    (hsmall : count + 1 < 2 ^ 16) : Stored m (storeEntry m edi a) edi count [a] := by
  have hnum : menArdsNumAddr + 2 = menArdsAddr := rfl
  have hmod : edi % 2 ^ 16 = edi := Nat.mod_eq_of_lt (by omega)
  have hcount' : readLE 2 (filled m edi 20 (ofList (ardsBytes a))) menArdsNumAddr = count := by
    rw [← hcount]
    exact readLE_congr fun x h1 h2 => filled_outside (by omega)
  have hstore : storeEntry m edi a =
      writeLE 2 (filled m edi 20 (ofList (ardsBytes a))) menArdsNumAddr (count + 1) := by
    rw [storeEntry]
    simp only [hmod, hcount']
  rw [hstore]
  constructor
  · intro i hi
    rw [List.length_singleton, Nat.mul_one] at hi
    rw [writeLE_apply_of_not (by omega), filled_inside hi, List.flatMap_cons, List.flatMap_nil,
      List.append_nil]
  · rw [readLE_writeLE_of_lt _ _ (by simpa using hsmall)]
    rfl
  · intro x h1 h2
    rw [List.length_singleton, Nat.mul_one] at h2
    rw [writeLE_apply_of_not (by omega), filled_outside (by omega)]

/-- One entry, and the rest behind it. -/
theorem Stored.cons {m m1 m' : Mem} {edi count : Nat} {a : Ards} {as : List Ards}
    (h1 : Stored m m1 edi count [a]) (h2 : Stored m1 m' (edi + 20) (count + 1) as)
    (hedi : menArdsAddr ≤ edi) : Stored m m' edi count (a :: as) := by
  have hlen := length_ardsBytes a
  constructor
  · intro i hi
    rw [List.length_cons] at hi
    rw [List.flatMap_cons]
    by_cases h : i < 20
    · have hfirst := h1.entries i (by rw [List.length_singleton]; omega)
      rw [List.flatMap_cons, List.flatMap_nil, List.append_nil] at hfirst
      rw [h2.other _ (by omega) (by omega), hfirst, ofList_append_left (by omega)]
    · obtain ⟨j, rfl⟩ : ∃ j, i = 20 + j := ⟨i - 20, by omega⟩
      have hrest := h2.entries j (by omega)
      rw [← Nat.add_assoc, hrest, ← hlen, ofList_append_right]
  · rw [h2.count, List.length_cons]
    omega
  · intro x hx hx'
    rw [List.length_cons] at hx'
    rw [h2.other x hx (by omega), h1.other x hx (by rw [List.length_singleton]; omega)]

theorem memoryCheckLoop_spec {bios : Bios} {ebx : BitVec 32} {as : List Ards}
    (h : Answers bios ebx as) {m : Mem} {edi count : Nat} (hedi : menArdsAddr ≤ edi)
    (hend : edi + 20 * as.length ≤ 2 ^ 16) (hcount : readLE 2 m menArdsNumAddr = count)
    (hsmall : count + as.length < 2 ^ 16) {fuel : Nat} (hf : as.length ≤ fuel) :
    ∃ m', memoryCheckLoop bios fuel ebx edi m = some (.done m') ∧ Stored m m' edi count as := by
  induction h generalizing m edi count fuel with
  | @last ebx a h =>
    obtain ⟨fuel, rfl⟩ := Nat.exists_eq_succ_of_ne_zero (Nat.ne_of_gt hf)
    rw [List.length_singleton] at hend hsmall
    refine ⟨storeEntry m edi a, ?_, storeEntry_stored a hedi (by omega) hcount hsmall⟩
    rw [memoryCheckLoop, h]
    exact if_pos rfl
  | @more ebx next a as h hne hrest ih =>
    rw [List.length_cons] at hend hsmall hf
    obtain ⟨fuel, rfl⟩ := Nat.exists_eq_succ_of_ne_zero (by omega : fuel ≠ 0)
    have hone := storeEntry_stored a hedi (by omega) hcount (by omega)
    have hcount1 : readLE 2 (storeEntry m edi a) menArdsNumAddr = count + 1 := hone.count
    obtain ⟨m', hloop, hstored⟩ := ih (by omega : menArdsAddr ≤ edi + 20) (by omega) hcount1
      (by omega) (by omega : as.length ≤ fuel)
    refine ⟨m', ?_, hone.cons hstored hedi⟩
    rw [memoryCheckLoop, h]
    exact (if_neg hne).trans hloop

/-- **The map.** All entries the BIOS gives, and how many. -/
theorem memoryCheck_spec {bios : Bios} {as : List Ards} (h : Answers bios 0 as)
    (hend : menArdsAddr + 20 * as.length ≤ 2 ^ 16) (m : Mem) {fuel : Nat}
    (hf : as.length ≤ fuel) :
    ∃ m', memoryCheck bios fuel m = some (.done m') ∧
      Stored (writeLE 2 m menArdsNumAddr 0) m' menArdsAddr 0 as := by
  have hlen : menArdsAddr = 0x1102 := rfl
  exact memoryCheckLoop_spec h (Nat.le_refl _) hend (readLE_writeLE_of_lt m _ (by decide))
    (by omega) hf

/-! ## The entries read back -/

theorem readLE_shift (n : Nat) (m : Mem) (a b : Nat) :
    readLE n m (a + b) = readLE n (fun i => m (a + i)) b := by
  induction n generalizing b with
  | zero => rfl
  | succ n ih => rw [readLE, readLE, Nat.add_assoc, ih]

theorem readArds_eq {m : Mem} {a : Nat} {x : Ards}
    (h : ∀ j < 20, m (a + j) = ofList (ardsBytes x) j) : readArds m a = x := by
  have hword : ∀ k, k + 4 ≤ 20 → readLE 4 m (a + k) = readLE 4 (ofList (ardsBytes x)) k := by
    intro k hk
    rw [readLE_shift]
    exact readLE_congr fun i h1 h2 => h i (by omega)
  have hfield : ∀ (pre post : List Byte) (v : BitVec 32),
      ardsBytes x = pre ++ (toLE 4 v.toNat ++ post) → pre.length + 4 ≤ 20 →
        BitVec.ofNat 32 (readLE 4 m (a + pre.length)) = v := by
    intro pre post v hx hk
    rw [hword _ hk, hx, readLE_field pre post v.isLt rfl, BitVec.ofNat_toNat, BitVec.setWidth_eq]
  have h0 := hfield [] _ x.baseAddrLow rfl (by decide)
  have h1 := hfield (toLE 4 x.baseAddrLow.toNat) _ x.baseAddrHigh rfl (by simp)
  have h2 := hfield (toLE 4 x.baseAddrLow.toNat ++ toLE 4 x.baseAddrHigh.toNat)
    (toLE 4 x.lengthAddrHigh.toNat ++ toLE 4 x.type.toNat) x.lengthAddrLow (by simp [ardsBytes])
    (by simp)
  have h3 := hfield (toLE 4 x.baseAddrLow.toNat ++ toLE 4 x.baseAddrHigh.toNat ++
    toLE 4 x.lengthAddrLow.toNat) (toLE 4 x.type.toNat) x.lengthAddrHigh (by simp [ardsBytes])
    (by simp)
  have h4 := hfield (toLE 4 x.baseAddrLow.toNat ++ toLE 4 x.baseAddrHigh.toNat ++
    toLE 4 x.lengthAddrLow.toNat ++ toLE 4 x.lengthAddrHigh.toNat) [] x.type
    (by simp [ardsBytes]) (by simp)
  simp only [List.length_append, length_toLE, List.length_nil] at h0 h1 h2 h3 h4
  have hx : x = ⟨x.baseAddrLow, x.baseAddrHigh, x.lengthAddrLow, x.lengthAddrHigh, x.type⟩ := rfl
  rw [hx, readArds, Ards.mk.injEq]
  exact ⟨h0, h1, h2, h3, h4⟩

/-- An entry in the bytes of all of them. -/
theorem flatMap_entry {as : List Ards} {i : Nat} (hi : i < as.length) {j : Nat} (hj : j < 20) :
    ofList (as.flatMap ardsBytes) (20 * i + j) = ofList (ardsBytes as[i]) j := by
  induction as generalizing i with
  | nil => exact absurd hi (Nat.not_lt_zero i)
  | cons a as ih =>
    have hlen := length_ardsBytes a
    rw [List.flatMap_cons]
    cases i with
    | zero =>
      rw [Nat.mul_zero, Nat.zero_add, ofList_append_left (by omega)]
      rfl
    | succ i =>
      have hrest := ih (by simpa using hi : i < as.length)
      have hoff : 20 * (i + 1) + j = (ardsBytes a).length + (20 * i + j) := by omega
      rw [hoff, ofList_append_right, hrest]
      rfl

/-! ## The whole way -/

theorem loaded_inside {D : Drive} {m : Mem} {a lba n i : Nat} (hi : i < 512 * n) :
    loaded D m a lba n (a + i) = D.bytes lba i := filled_inside hi

theorem loaded_outside {D : Drive} {m : Mem} {a lba n x : Nat} (hx : x < a ∨ a + 512 * n ≤ x) :
    loaded D m a lba n x = m x := filled_outside hx

/-- The memory the kernel is entered with. -/
def kernelMemory (D : Drive) (m : Mem) : Mem :=
  loaded D (loaded D (loaded D m kernelAddr 3 50) x64KernelAddr 54 200) apBootAddr 255 2

theorem loadKernels_spec (D : Drive) (m : Mem) (d : Ata) {fuel : Nat}
    (h1 : D.enough d.shown 50 ≤ fuel) (h2 : D.enough (d.shown + 51) 200 ≤ fuel)
    (h3 : D.enough (d.shown + 252) 2 ≤ fuel) :
    loadKernels D fuel m d = some (kernelMemory D m) := by
  obtain ⟨s, hs, hmem, hshown⟩ := readHd_loaded D true ⟨m, kernelAddr, 3, d⟩
    (by decide : (50 : Byte) ≠ 0) (by simp [segmentSize, kernelAddr]) h1
  have hs1 : s.drive.shown = d.shown + 51 := hshown
  have h2' : D.enough s.drive.shown (200 : Byte).toNat ≤ fuel := by
    rw [hs1]
    exact h2
  obtain ⟨t, ht, hmem', hshown'⟩ := readHd_loaded D true ⟨s.mem, x64KernelAddr, 54, s.drive⟩
    (by decide : (200 : Byte) ≠ 0) (by simp [segmentSize, x64KernelAddr]) h2'
  have ht1 : t.drive.shown = d.shown + 252 := by
    have h : t.drive.shown = s.drive.shown + 1 + 200 := hshown'
    omega
  have h3' : D.enough t.drive.shown (2 : Byte).toNat ≤ fuel := by
    rw [ht1]
    exact h3
  obtain ⟨u, hu, hmem'', -⟩ := readHd_loaded D true ⟨t.mem, apBootAddr, 255, t.drive⟩
    (by decide : (2 : Byte) ≠ 0) (by simp [segmentSize, apBootAddr]) h3'
  have hlast : u.mem = kernelMemory D m := by
    rw [hmem'']
    simp only [hmem', hmem]
    rfl
  simp only [loadKernels, hs, ht, hu, Option.bind_eq_bind, Option.bind_some, hlast]

/-- Every program in memory, as far as it has been put on the disk. -/
structure Arrived (m : Mem) (p : Programs) : Prop where
  loader : ∀ i < p.loader.length, i < 1024 → m (secondPartAddr + i) = ofList p.loader i
  kernel : ∀ i < p.kernel.length, i < 25600 → m (kernelAddr + i) = ofList p.kernel i
  x64Kernel : ∀ i < p.x64Kernel.length, i < 102400 →
    m (x64KernelAddr + i) = ofList p.x64Kernel i
  apsBoot : ∀ i < p.apsBoot.length, i < 512 → m (apBootAddr + i) = ofList p.apsBoot i

theorem kernelMemory_low (D : Drive) (m : Mem) {x : Nat} (hx : x < kernelAddr) :
    kernelMemory D m x = m x := by
  have hk : kernelAddr = 0x1200 := rfl
  have hx64 : x64KernelAddr = 0x100000 := rfl
  have hap : apBootAddr = 0x8000 := rfl
  rw [kernelMemory, loaded_outside (by omega), loaded_outside (by omega),
    loaded_outside (by omega)]

/-- What the last part of the boot brings into memory. -/
theorem kernelMemory_arrived {p : Programs} {img : Mem} (hp : OnImage img p)
    (delay : Nat → Nat) {m : Mem}
    (hm : ∀ i < p.loader.length, i < 1024 → m (secondPartAddr + i) = ofList p.loader i) :
    Arrived (kernelMemory (imageDrive img delay) m) p := by
  have hk : kernelAddr = 0x1200 := rfl
  have hx64 : x64KernelAddr = 0x100000 := rfl
  have hap : apBootAddr = 0x8000 := rfl
  have hsp : secondPartAddr = 0x500 := rfl
  constructor
  · intro i h hi
    rw [kernelMemory_low _ _ (by omega)]
    exact hm i h hi
  · intro i h hi
    rw [kernelMemory, loaded_outside (by omega), loaded_outside (by omega),
      loaded_inside (by omega), imageDrive_bytes]
    exact hp.kernel i h hi
  · intro i h hi
    rw [kernelMemory, loaded_outside (by omega), loaded_inside (by omega), imageDrive_bytes]
    exact hp.x64Kernel i h hi
  · intro i h hi
    rw [kernelMemory, loaded_inside (by omega), imageDrive_bytes]
    exact hp.apsBoot i h hi

/-- The entries below the kernel. -/
theorem readMap_kernelMemory {D : Drive} {m m0 : Mem} {as : List Ards}
    (hs : Stored m0 m menArdsAddr 0 as) (hlen : as.length ≤ 12) :
    readMap (kernelMemory D m) = as := by
  have hk : kernelAddr = 0x1200 := rfl
  have hnum : menArdsNumAddr = 0x1100 := rfl
  have haddr : menArdsAddr = 0x1102 := rfl
  have hcount : readLE 2 (kernelMemory D m) menArdsNumAddr = as.length := by
    have hc := hs.count
    rw [Nat.zero_add] at hc
    rw [← hc]
    exact readLE_congr fun x h1 h2 => kernelMemory_low D m (by omega)
  unfold readMap
  rw [hcount]
  apply List.ext_getElem (by simp)
  intro i h1 h2
  rw [List.getElem_map, List.getElem_range]
  refine readArds_eq fun j hj => ?_
  rw [kernelMemory_low D m (by omega), Nat.add_assoc, hs.entries _ (by omega)]
  exact flatMap_entry h2 hj

/-- The thirteenth entry ends in the kernel. -/
theorem readMap_thirteenth {img : Mem} {delay : Nat → Nat} {m m0 : Mem} {as : List Ards}
    (hs : Stored m0 m menArdsAddr 0 as) (hlen : 12 < as.length) :
    ((readMap (kernelMemory (imageDrive img delay) m))[12]?).map Ards.type =
      some (BitVec.ofNat 32 (readLE 4 img (512 * 3 + 2))) := by
  have hk : kernelAddr = 0x1200 := rfl
  have hnum : menArdsNumAddr = 0x1100 := rfl
  have haddr : menArdsAddr = 0x1102 := rfl
  have hx64 : x64KernelAddr = 0x100000 := rfl
  have hap : apBootAddr = 0x8000 := rfl
  have hcount : readLE 2 (kernelMemory (imageDrive img delay) m) menArdsNumAddr = as.length := by
    have hc := hs.count
    rw [Nat.zero_add] at hc
    rw [← hc]
    exact readLE_congr fun x h1 h2 => kernelMemory_low _ m (by omega)
  have htype : readLE 4 (kernelMemory (imageDrive img delay) m) (menArdsAddr + 20 * 12 + 16) =
      readLE 4 img (512 * 3 + 2) := by
    have hsplit : menArdsAddr + 20 * 12 + 16 = kernelAddr + 2 := rfl
    rw [hsplit, readLE_shift, readLE_shift _ img]
    refine readLE_congr fun i h1 h2 => ?_
    rw [kernelMemory, loaded_outside (by omega), loaded_outside (by omega),
      loaded_inside (by omega), imageDrive_bytes]
  unfold readMap
  rw [hcount, List.getElem?_map, List.getElem?_range hlen, Option.map_some, Option.map_some,
    readArds, htype]

/-- **The boot.** Whatever the waits of the drive and the memory before, when the BIOS gives
its whole memory map and that ends below 64 KiB, the boot comes to the kernel with every
program at the address it is linked to, as far as `dd` has put it on the disk. A map of up
to twelve entries is in place as the BIOS has given it; the type of a thirteenth one is
part of the kernel. -/
theorem boot_memory (p : Programs) (delay : Nat → Nat) {bios : Bios} {as : List Ards}
    (h : Answers bios 0 as) (hend : menArdsAddr + 20 * as.length ≤ 2 ^ 16) (m : Mem) (d : Ata) :
    ∃ enough, ∀ fuel, enough ≤ fuel → ∃ m',
      boot (imageDrive (hdImg p) delay) bios fuel m d = some (.done m') ∧ Arrived m' p ∧
      (as.length ≤ 12 → readMap m' = as) ∧
      (12 < as.length → ((readMap m')[12]?).map Ards.type =
        some (BitVec.ofNat 32 (readLE 4 (hdImg p) (512 * 3 + 2)))) := by
  let D := imageDrive (hdImg p) delay
  have himg := hdImg_onImage p
  have hsp : secondPartAddr = 0x500 := rfl
  have haddr : menArdsAddr = 0x1102 := rfl
  have hnum : menArdsNumAddr = 0x1100 := rfl
  refine ⟨max (D.enough d.shown 2) (max as.length (max (D.enough (d.shown + 3) 50)
    (max (D.enough (d.shown + 3 + 51) 200) (D.enough (d.shown + 3 + 252) 2)))), fun fuel hf => ?_⟩
  obtain ⟨s, hs, hmem, hshown⟩ := readHd_loaded D false ⟨m, secondPartAddr, 1, d⟩
    (by decide : (2 : Byte) ≠ 0) (by simp [segmentSize, secondPartAddr])
    (by omega : D.enough d.shown 2 ≤ fuel)
  have hs1 : s.drive.shown = d.shown + 3 := hshown
  obtain ⟨m', hcheck, hstored⟩ := memoryCheck_spec h hend s.mem (by omega : as.length ≤ fuel)
  have hload := loadKernels_spec D m' s.drive
    (by rw [hs1]; omega : D.enough s.drive.shown 50 ≤ fuel)
    (by rw [hs1]; omega) (by rw [hs1]; omega)
  have hloader : ∀ i < p.loader.length, i < 1024 → m' (secondPartAddr + i) = ofList p.loader i := by
    intro i hi hlt
    rw [hstored.other _ (by omega) (by omega), writeLE_apply_of_not (by omega), hmem]
    have hin : loaded D m secondPartAddr 1 2 (secondPartAddr + i) = ofList p.loader i := by
      rw [loaded_inside (by omega), imageDrive_bytes]
      exact himg.loader i hi hlt
    exact hin
  have hboot : boot D bios fuel m d = some (.done (kernelMemory D m')) := by
    simp only [boot, hs, setup, hcheck, hload, Option.map_some]
  exact ⟨kernelMemory D m', hboot, kernelMemory_arrived himg delay hloader,
    readMap_kernelMemory hstored, readMap_thirteenth hstored⟩

section Sample

def programs : Programs :=
  ⟨[0xfa, 0xeb, 0xfe], [1, 2, 3, 4], [5, 6, 7, 8, 9], [10, 11, 12, 13, 14, 15], [16, 17]⟩

/-- Low memory, a reserved region and the rest. -/
def ards : List Ards :=
  [⟨0, 0, 0x9fc00, 0, 1⟩, ⟨0xf0000, 0, 0x10000, 0, 2⟩, ⟨0x100000, 0, 0x1f00000, 0, 1⟩]

def bios (ebx : BitVec 32) : Option (Ards × BitVec 32) :=
  ards[ebx.toNat]?.map fun a => (a, if ebx = 2 then 0 else ebx + 1)

theorem answers_bios : Answers bios 0 ards :=
  .more (show bios 0 = some (_, 1) from rfl) (by decide)
    (.more (show bios 1 = some (_, 2) from rfl) (by decide) (.last rfl))

theorem boot_memory_sample :
    ∃ enough, ∀ fuel, enough ≤ fuel → ∃ m',
      boot (imageDrive (hdImg programs) fun k => 3 * k) bios fuel (fun _ => 0xcc)
          ⟨0, 0, 0, 0, 0, 0, 0, 0, 0, 0⟩ = some (.done m') ∧
      Arrived m' programs ∧ (ards.length ≤ 12 → readMap m' = ards) ∧
      (12 < ards.length → ((readMap m')[12]?).map Ards.type =
        some (BitVec.ofNat 32 (readLE 4 (hdImg programs) (512 * 3 + 2)))) :=
  boot_memory programs (fun k => 3 * k) answers_bios (by simp [ards, menArdsAddr])
    (fun _ => 0xcc) _

end Sample

end X64SmpOs.BootLoad

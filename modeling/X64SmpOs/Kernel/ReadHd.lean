import X64SmpOs.Lib.Memory
import X64SmpOs.Lib.Words

/-!
# Reading sectors at boot

`read_hd` stands in `boot.asm`, where `loop` counts in `cx` and the segments end at
64 KiB, and in `setup.asm`, where it counts in `ecx` and the segments are flat. It programs
the ports of an ATA drive and takes the words of the sectors from its data port.

* `Ata`: the drive, which keeps the program waiting before every sector for as long as
  it likes;
* `readHd`: the code, the stack aside; there is no result when the fuel ends, or when a
  word would be stored behind the end of the segment;
* `loaded`: memory with sectors in it;
* `sendCommand_spec`: the command the drive gets;
* `readWords_spec`, `startRead_spec`: what one sector, and what all of them, become;
* `readHd_loads`: whatever the waits, a call for sectors that fit into the segment returns
  with them in memory.
-/

namespace X64SmpOs.ReadHd

open Memory Words

/-! ## The drive -/

/-- The bytes of the sectors, and how often the status is busy before the `k`-th sector
the drive presents. -/
structure Drive where
  sector : Nat → Nat → Byte
  delay : Nat → Nat

/-- The registers behind the ports `0x1f2` to `0x1f6`, and the command in progress: the
sector presented, the sectors left with it, its next word, the status reads that are
still busy, and how many sectors have been presented so far. -/
structure Ata where
  count : Byte
  lbaLow : Byte
  lbaMid : Byte
  lbaHigh : Byte
  device : Byte
  lba : Nat
  left : Nat
  word : Nat
  busy : Nat
  shown : Nat

/-- The 28 bits of the address. -/
def Ata.address (d : Ata) : Nat :=
  d.lbaLow.toNat + 2 ^ 8 * d.lbaMid.toNat + 2 ^ 16 * d.lbaHigh.toNat +
    2 ^ 24 * (d.device.toNat % 16)

def present (D : Drive) (d : Ata) (lba left : Nat) : Ata :=
  { d with lba := lba, left := left, word := 0, busy := D.delay d.shown, shown := d.shown + 1 }

/-- `out dx, al`. The read command takes the address as an LBA if bit 6 of the device
register is set; a count of zero stands for 256 sectors. -/
def Ata.out (D : Drive) (d : Ata) (port : Nat) (al : Byte) : Ata :=
  if port = 0x1f2 then { d with count := al }
  else if port = 0x1f3 then { d with lbaLow := al }
  else if port = 0x1f4 then { d with lbaMid := al }
  else if port = 0x1f5 then { d with lbaHigh := al }
  else if port = 0x1f6 then { d with device := al }
  else if port = 0x1f7 ∧ al = 0x20 ∧ d.device.getLsbD 6 = true then
    present D d d.address (if d.count = 0 then 256 else d.count.toNat)
  else d

/-- `in al, dx` at `0x1f7`: bit 7 is busy, bit 3 tells that words are ready. -/
def Ata.status (d : Ata) : Byte × Ata :=
  if d.left = 0 then (0x50, d)
  else if d.busy = 0 then (0x58, d)
  else (0x80, { d with busy := d.busy - 1 })

/-- `in ax, dx` at `0x1f0`. -/
def Ata.data (D : Drive) (d : Ata) : Nat × Ata :=
  if d.left = 0 ∨ d.busy ≠ 0 then (0xffff, d)
  else
    ((D.sector d.lba (2 * d.word)).toNat + 256 * (D.sector d.lba (2 * d.word + 1)).toNat,
      if d.word = 255 then present D d (d.lba + 1) (d.left - 1) else { d with word := d.word + 1 })

/-! ## The code -/

structure St where
  mem : Mem
  edi : Nat
  ecx : BitVec 32
  drive : Ata

def cl (ecx : BitVec 32) : Byte := ecx.setWidth 8
def ch (ecx : BitVec 32) : Byte := (ecx >>> 8).setWidth 8

/-- A byte or a word put into `ecx`. -/
def setCl (ecx : BitVec 32) (v : Byte) : BitVec 32 := ecx - ecx % 256 + v.setWidth 32
def setCx (ecx : BitVec 32) (v : BitVec 16) : BitVec 32 := ecx - ecx % 65536 + v.setWidth 32

/-- `loop`: the count less one, and whether to jump. The 32-bit code counts in `ecx`,
the 16-bit code in `cx`. -/
def loop (wide : Bool) (ecx : BitVec 32) : BitVec 32 × Bool :=
  if wide then (ecx - 1, decide (ecx - 1 ≠ 0))
  else
    let cx : BitVec 16 := ecx.setWidth 16 - 1
    (setCx ecx cx, decide (cx ≠ 0))

/-- From the entry of `read_hd` to the command. -/
def sendCommand (D : Drive) (d : Ata) (ecx : BitVec 32) (bl : Byte) : Ata × BitVec 32 :=
  let d := d.out D 0x1f2 bl
  let d := d.out D 0x1f3 (cl ecx)
  let d := d.out D 0x1f4 (ch ecx)
  let ecx := ecx >>> 16
  let d := d.out D 0x1f5 (cl ecx)
  let ecx := ecx >>> 8
  let ecx := setCl ecx (cl ecx &&& 0b1111)
  let d := d.out D 0x1f6 (0b11100000 ||| cl ecx)
  let d := d.out D 0x1f7 0x20
  (d, ecx)

/-- `.wait_hd_prepare` -/
def waitHdPrepare : Nat → Ata → Option Ata
  | 0, _ => none
  | fuel + 1, d =>
    let (al, d) := d.status
    if al &&& 0b10001000 = 0b1000 then some d else waitHdPrepare fuel d

/-- The size of the data segment: 64 KiB in real mode, where a store behind it faults. -/
def segmentSize (wide : Bool) : Nat := if wide then 2 ^ 32 else 2 ^ 16

/-- `.read_word` -/
def readWords (D : Drive) (wide : Bool) : Nat → St → Option St
  | 0, _ => none
  | fuel + 1, s =>
    let (ax, d) := s.drive.data D
    if s.edi + 2 ≤ segmentSize wide then
      let (ecx, jump) := loop wide s.ecx
      let s := ⟨writeLE 2 s.mem s.edi ax, u32 (s.edi + 2), ecx, d⟩
      if jump then readWords D wide fuel s else some s
    else none

def readHdData (D : Drive) (wide : Bool) (fuel : Nat) (s : St) : Option St :=
  readWords D wide fuel { s with ecx := setCx s.ecx 256 }

/-- `.start_read`; the count is on the stack while a sector is read. -/
def startRead (D : Drive) (wide : Bool) : Nat → St → Option St
  | 0, _ => none
  | fuel + 1, s =>
    match waitHdPrepare fuel s.drive with
    | none => none
    | some d =>
      match readHdData D wide fuel { s with drive := d } with
      | none => none
      | some t =>
        let (ecx, jump) := loop wide (setCx t.ecx (s.ecx.setWidth 16))
        if jump then startRead D wide fuel { t with ecx := ecx } else some { t with ecx := ecx }

def readHd (D : Drive) (wide : Bool) (fuel : Nat) (s : St) (bl : Byte) : Option St :=
  let (d, ecx) := sendCommand D s.drive s.ecx bl
  startRead D wide fuel { s with drive := d, ecx := setCl ecx bl }

/-! ## The count -/

theorem setCx_toNat {ecx : BitVec 32} (h : ecx.toNat < 2 ^ 16) (v : BitVec 16) :
    (setCx ecx v).toNat = v.toNat := by
  have hv := v.isLt
  have hk : (65536 : BitVec 32).toNat = 65536 := rfl
  simp only [setCx, BitVec.toNat_add, BitVec.toNat_sub, BitVec.toNat_umod, BitVec.toNat_setWidth,
    hk]
  omega

theorem setCl_toNat {ecx : BitVec 32} (h : ecx.toNat < 2 ^ 8) (v : Byte) :
    (setCl ecx v).toNat = v.toNat := by
  have hv := v.isLt
  have hk : (256 : BitVec 32).toNat = 256 := rfl
  simp only [setCl, BitVec.toNat_add, BitVec.toNat_sub, BitVec.toNat_umod, BitVec.toNat_setWidth,
    hk]
  omega

/-- What `loop` counts with: `ecx`, or `cx` when the upper half of `ecx` is zero. -/
theorem loop_spec (wide : Bool) {ecx : BitVec 32} (h : ecx.toNat < 2 ^ 16) :
    (loop wide ecx).1.toNat =
        (if ecx.toNat = 0 then if wide then 2 ^ 32 - 1 else 2 ^ 16 - 1 else ecx.toNat - 1) ∧
      ((loop wide ecx).2 = true ↔ ecx.toNat ≠ 1) := by
  have h0 : (0 : BitVec 32).toNat = 0 := rfl
  have h1 : (1 : BitVec 32).toNat = 1 := rfl
  have h0' : (0 : BitVec 16).toNat = 0 := rfl
  have h1' : (1 : BitVec 16).toNat = 1 := rfl
  cases wide with
  | true =>
    have hsub : (ecx - 1).toNat = if ecx.toNat = 0 then 2 ^ 32 - 1 else ecx.toNat - 1 := by
      rw [BitVec.toNat_sub, h1]
      split <;> omega
    refine ⟨hsub, ?_⟩
    rw [loop, if_pos rfl, decide_eq_true_iff, ne_eq, ← BitVec.toNat_inj, hsub, h0]
    split <;> omega
  | false =>
    have hsub : (ecx.setWidth 16 - 1).toNat =
        if ecx.toNat = 0 then 2 ^ 16 - 1 else ecx.toNat - 1 := by
      rw [BitVec.toNat_sub, BitVec.toNat_setWidth, h1']
      split <;> omega
    refine ⟨(setCx_toNat h _).trans hsub, ?_⟩
    simp only [loop, Bool.false_eq_true, if_false]
    rw [decide_eq_true_iff, ne_eq, ← BitVec.toNat_inj, hsub, h0']
    split <;> omega

/-- Both kinds of `loop` count alike down to zero. -/
theorem loop_pos (wide : Bool) {ecx : BitVec 32} (hpos : 0 < ecx.toNat) (h : ecx.toNat < 2 ^ 16) :
    (loop wide ecx).1.toNat = ecx.toNat - 1 ∧ ((loop wide ecx).2 = true ↔ ecx.toNat ≠ 1) := by
  have hspec := loop_spec wide h
  rwa [if_neg (by omega)] at hspec

/-! ## The command -/

theorem device_low : ∀ c : Byte, (0b11100000 ||| (c &&& 0b1111)).toNat % 16 = c.toNat % 16 := by
  decide +kernel

theorem device_lba : ∀ c : Byte, (0b11100000 ||| (c &&& 0b1111)).getLsbD 6 = true := by
  decide +kernel

theorem masked_lt (c : Byte) : (c &&& 0b1111).toNat < 16 := by
  rw [BitVec.toNat_and]
  exact Nat.lt_of_le_of_lt Nat.and_le_right (by decide)

/-- **The command.** The low 28 bits of `ecx` are sent as the address. -/
theorem sendCommand_spec (D : Drive) (d : Ata) (ecx : BitVec 32) (bl : Byte) :
    (sendCommand D d ecx bl).2.toNat < 2 ^ 8 ∧
      (sendCommand D d ecx bl).1.lba = ecx.toNat % 2 ^ 28 ∧
      (sendCommand D d ecx bl).1.left = (if bl = 0 then 256 else bl.toNat) ∧
      (sendCommand D d ecx bl).1.word = 0 ∧
      (sendCommand D d ecx bl).1.busy = D.delay d.shown ∧
      (sendCommand D d ecx bl).1.shown = d.shown + 1 := by
  have hlt : (ecx >>> 16 >>> 8).toNat < 2 ^ 8 := by
    have h := ecx.isLt
    simp only [BitVec.toNat_ushiftRight, Nat.shiftRight_eq_div_pow]
    omega
  have hset := setCl_toNat hlt (cl (ecx >>> 16 >>> 8) &&& 0b1111)
  have hcl : cl (setCl (ecx >>> 16 >>> 8) (cl (ecx >>> 16 >>> 8) &&& 0b1111)) =
      cl (ecx >>> 16 >>> 8) &&& 0b1111 := by
    have hmask := masked_lt (cl (ecx >>> 16 >>> 8))
    rw [← BitVec.toNat_inj, cl, BitVec.toNat_setWidth, hset]
    omega
  have haddress : (cl ecx).toNat + 2 ^ 8 * (ch ecx).toNat + 2 ^ 16 * (cl (ecx >>> 16)).toNat +
      2 ^ 24 * (((0b11100000 : Byte) ||| cl (setCl (ecx >>> 16 >>> 8)
        (cl (ecx >>> 16 >>> 8) &&& 0b1111))).toNat % 16) = ecx.toNat % 2 ^ 28 := by
    have h := ecx.isLt
    rw [hcl, device_low]
    simp only [cl, ch, BitVec.toNat_setWidth, BitVec.toNat_ushiftRight, Nat.shiftRight_eq_div_pow]
    omega
  have hlba : ((0b11100000 : Byte) ||| cl (setCl (ecx >>> 16 >>> 8)
      (cl (ecx >>> 16 >>> 8) &&& 0b1111))).getLsbD 6 = true := by
    rw [hcl]
    exact device_lba _
  have hcommand : (sendCommand D d ecx bl).1 = present D
      ⟨bl, cl ecx, ch ecx, cl (ecx >>> 16), (0b11100000 : Byte) ||| cl (setCl (ecx >>> 16 >>> 8)
        (cl (ecx >>> 16 >>> 8) &&& 0b1111)), d.lba, d.left, d.word, d.busy, d.shown⟩
      (ecx.toNat % 2 ^ 28) (if bl = 0 then 256 else bl.toNat) := by
    rw [← haddress]
    exact if_pos (And.intro rfl (And.intro rfl hlba))
  refine ⟨lt_trans (hset.trans_lt (masked_lt _)) (by decide), ?_⟩
  rw [hcommand]
  exact ⟨rfl, rfl, rfl, rfl, rfl⟩

/-! ## One sector -/

/-- The drive is busy for a while, and then has a sector ready. -/
theorem waitHdPrepare_spec {d : Ata} (hleft : d.left ≠ 0) {fuel : Nat} (hf : d.busy < fuel) :
    waitHdPrepare fuel d = some { d with busy := 0 } := by
  induction fuel generalizing d with
  | zero => exact absurd hf (Nat.not_lt_zero _)
  | succ fuel ih =>
    by_cases hb : d.busy = 0
    · have hd : d = { d with busy := 0 } := by rw [← hb]
      rw [waitHdPrepare, Ata.status, if_neg hleft, if_pos hb]
      exact congrArg some hd
    · rw [waitHdPrepare, Ata.status, if_neg hleft, if_neg hb]
      exact ih hleft (by simp only; omega)

/-- Memory with `k` bytes at `a` taken from a source. -/
def filled (m : Mem) (a k : Nat) (src : Nat → Byte) : Mem :=
  fun x => if a ≤ x ∧ x < a + k then src (x - a) else m x

theorem filled_zero (m : Mem) (a : Nat) (src : Nat → Byte) : filled m a 0 src = m := by
  funext x
  exact if_neg (by omega)

theorem filled_filled (m : Mem) (a j k : Nat) (src : Nat → Byte) :
    filled (filled m a j src) (a + j) k (fun i => src (j + i)) = filled m a (j + k) src := by
  funext x
  simp only [filled]
  by_cases h1 : a + j ≤ x ∧ x < a + j + k
  · rw [if_pos h1, if_pos (by omega), show j + (x - (a + j)) = x - a by omega]
  · rw [if_neg h1]
    by_cases h2 : a ≤ x ∧ x < a + j
    · rw [if_pos h2, if_pos (by omega)]
    · rw [if_neg h2, if_neg (by omega)]

/-- A word stored is two bytes. -/
theorem writeLE_filled (m : Mem) (a : Nat) (src : Nat → Byte) :
    writeLE 2 m a ((src 0).toNat + 256 * (src 1).toNat) = filled m a 2 src := by
  funext x
  have h0 := (src 0).isLt
  have h1 := (src 1).isLt
  simp only [writeLE, filled]
  by_cases hx : a ≤ x ∧ x < a + 2
  · rw [if_pos hx, if_pos hx]
    apply BitVec.eq_of_toNat_eq
    rw [BitVec.toNat_ofNat]
    obtain rfl | rfl : x = a ∨ x = a + 1 := by omega
    · rw [Nat.sub_self]
      omega
    · rw [Nat.add_sub_cancel_left]
      omega
  · rw [if_neg hx, if_neg hx]

theorem segment_le (wide : Bool) : segmentSize wide ≤ 2 ^ 32 := by
  unfold segmentSize
  split <;> omega

/-- The rest of a sector, of which `k` words are left. -/
theorem readWords_spec (D : Drive) (wide : Bool) {k : Nat} (hk : 1 ≤ k) {s : St}
    (hleft : s.drive.left ≠ 0) (hbusy : s.drive.busy = 0) (hword : s.drive.word + k = 256)
    (hecx : s.ecx.toNat = k) (hedi : s.edi + 2 * k ≤ segmentSize wide) {fuel : Nat} (hf : k ≤ fuel) :
    ∃ t, readWords D wide fuel s = some t ∧
      t.mem = filled s.mem s.edi (2 * k)
        (fun i => D.sector s.drive.lba (2 * s.drive.word + i)) ∧
      t.edi = u32 (s.edi + 2 * k) ∧ t.ecx.toNat = 0 ∧
      t.drive = present D s.drive (s.drive.lba + 1) (s.drive.left - 1) := by
  induction k generalizing s fuel with
  | zero => exact absurd hk (by decide)
  | succ k ih =>
    obtain ⟨fuel, rfl⟩ := Nat.exists_eq_succ_of_ne_zero (by omega : fuel ≠ 0)
    obtain ⟨hcount, hjump⟩ := loop_pos wide (by omega : 0 < s.ecx.toNat) (by omega)
    have hseg := segment_le wide
    have hstore : writeLE 2 s.mem s.edi ((D.sector s.drive.lba (2 * s.drive.word)).toNat +
        256 * (D.sector s.drive.lba (2 * s.drive.word + 1)).toNat) =
          filled s.mem s.edi 2 (fun i => D.sector s.drive.lba (2 * s.drive.word + i)) :=
      writeLE_filled s.mem s.edi fun i => D.sector s.drive.lba (2 * s.drive.word + i)
    have hready : ¬ (s.drive.left = 0 ∨ s.drive.busy ≠ 0) := by omega
    rw [readWords, Ata.data, if_neg hready]
    simp only [hstore, if_pos (by omega : s.edi + 2 ≤ segmentSize wide)]
    by_cases hlast : k = 0
    · have hno : ¬ (loop wide s.ecx).2 = true := fun h => hjump.mp h (by omega)
      rw [if_neg hno, if_pos (by omega : s.drive.word = 255)]
      subst hlast
      exact ⟨_, rfl, rfl, rfl, by simp only; omega, rfl⟩
    · have hyes : (loop wide s.ecx).2 = true := hjump.mpr (by omega)
      have hu : u32 (s.edi + 2) = s.edi + 2 := u32_of_lt (by omega)
      rw [hu, if_pos hyes, if_neg (by omega : ¬ s.drive.word = 255)]
      obtain ⟨t, ht, hmem, hedi', hecx', hdrive⟩ := ih (by omega)
        (s := ⟨filled s.mem s.edi 2 fun i => D.sector s.drive.lba (2 * s.drive.word + i),
          s.edi + 2, (loop wide s.ecx).1, { s.drive with word := s.drive.word + 1 }⟩)
        hleft hbusy (by simp only; omega) (by simp only; omega) (by simp only; omega)
        (by omega : k ≤ fuel)
      refine ⟨t, ht, ?_, ?_, hecx', hdrive⟩
      case refine_2 =>
        rw [hedi', show 2 * (k + 1) = 2 + 2 * k by omega, Nat.add_assoc]
      have hshift : (fun i => D.sector s.drive.lba (2 * (s.drive.word + 1) + i)) =
          fun i => D.sector s.drive.lba (2 * s.drive.word + (2 + i)) := by
        funext i
        rw [show 2 * (s.drive.word + 1) + i = 2 * s.drive.word + (2 + i) by omega]
      have hjoin := filled_filled s.mem s.edi 2 (2 * k)
        fun i => D.sector s.drive.lba (2 * s.drive.word + i)
      rw [hmem, show 2 * (k + 1) = 2 + 2 * k by omega, ← hjoin]
      simp only [hshift]

/-- **One sector.** -/
theorem readHdData_spec (D : Drive) (wide : Bool) {s : St} (hleft : s.drive.left ≠ 0)
    (hbusy : s.drive.busy = 0) (hword : s.drive.word = 0) (hecx : s.ecx.toNat < 2 ^ 16)
    (hedi : s.edi + 512 ≤ segmentSize wide) {fuel : Nat} (hf : 256 ≤ fuel) :
    ∃ t, readHdData D wide fuel s = some t ∧
      t.mem = filled s.mem s.edi 512 (D.sector s.drive.lba) ∧ t.edi = u32 (s.edi + 512) ∧
      t.ecx.toNat = 0 ∧ t.drive = present D s.drive (s.drive.lba + 1) (s.drive.left - 1) := by
  have h256 : (256 : BitVec 16).toNat = 256 := rfl
  obtain ⟨t, ht, hmem, hrest⟩ := readWords_spec D wide (k := 256) (by decide)
    (s := { s with ecx := setCx s.ecx 256 }) hleft hbusy (by simp only; omega)
    ((setCx_toNat hecx 256).trans h256) (by simp only; omega) hf
  refine ⟨t, ht, ?_, hrest⟩
  rw [hmem, hword]
  simp only [Nat.mul_zero, Nat.zero_add]

/-! ## All sectors -/

/-- The bytes of the disk from a sector on. -/
def Drive.bytes (D : Drive) (lba i : Nat) : Byte := D.sector (lba + i / 512) (i % 512)

/-- Memory with `n` sectors from `lba` on at `a`. -/
def loaded (D : Drive) (m : Mem) (a lba n : Nat) : Mem := filled m a (512 * n) (D.bytes lba)

theorem filled_congr (m : Mem) (a k : Nat) {src src' : Nat → Byte} (h : ∀ i < k, src i = src' i) :
    filled m a k src = filled m a k src' := by
  funext x
  simp only [filled]
  by_cases hx : a ≤ x ∧ x < a + k
  · rw [if_pos hx, if_pos hx, h (x - a) (by omega)]
  · rw [if_neg hx, if_neg hx]

theorem loaded_succ (D : Drive) (m : Mem) (a lba n : Nat) :
    loaded D (filled m a 512 (D.sector lba)) (a + 512) (lba + 1) n = loaded D m a lba (n + 1) := by
  have hfirst : filled m a 512 (D.sector lba) = filled m a 512 (D.bytes lba) :=
    filled_congr m a 512 fun i hi => by
      rw [Drive.bytes, Nat.div_eq_of_lt hi, Nat.mod_eq_of_lt hi, Nat.add_zero]
  have hrest : D.bytes (lba + 1) = fun i => D.bytes lba (512 + i) := by
    funext i
    rw [Drive.bytes, Drive.bytes, Nat.add_mod_left, Nat.add_div_left _ (by decide),
      show lba + 1 + i / 512 = lba + (i / 512 + 1) by omega]
  rw [loaded, loaded, hfirst, hrest, filled_filled, show 512 + 512 * n = 512 * (n + 1) by omega]

/-- The most any of `n` waits takes, from the `k`-th sector on. -/
def Drive.maxDelay (D : Drive) (k : Nat) : Nat → Nat
  | 0 => 0
  | n + 1 => max (D.delay k) (D.maxDelay (k + 1) n)

/-- The sectors from the next one on, when `n` are left. -/
theorem startRead_spec (D : Drive) (wide : Bool) {n : Nat} (hn : 1 ≤ n) (hlt : n < 2 ^ 16) {s : St}
    (hleft : s.drive.left = n) (hword : s.drive.word = 0) (hecx : s.ecx.toNat = n)
    (hedi : s.edi + 512 * n ≤ segmentSize wide) (bound : Nat) {fuel : Nat}
    (hbusy : s.drive.busy ≤ bound) (hdelay : D.maxDelay s.drive.shown (n - 1) ≤ bound)
    (hf : bound + 256 + n < fuel) :
    ∃ t, startRead D wide fuel s = some t ∧
      t.mem = loaded D s.mem s.edi s.drive.lba n ∧ t.drive.shown = s.drive.shown + n := by
  induction n generalizing s fuel with
  | zero => exact absurd hn (by decide)
  | succ n ih =>
    have hseg := segment_le wide
    rw [Nat.mul_succ, ← Nat.add_assoc] at hedi
    obtain ⟨fuel, rfl⟩ := Nat.exists_eq_succ_of_ne_zero (by omega : fuel ≠ 0)
    have hwait := waitHdPrepare_spec (d := s.drive) (by omega) (by omega : s.drive.busy < fuel)
    have hleft' : s.drive.left ≠ 0 := by omega
    have hecx16 : s.ecx.toNat < 2 ^ 16 := by omega
    have hend : s.edi + 512 ≤ segmentSize wide := by omega
    obtain ⟨t, ht, hmem, hedi', hecx', hdrive⟩ := readHdData_spec D wide
      (s := { s with drive := { s.drive with busy := 0 } }) hleft' rfl hword hecx16 hend
      (by omega : 256 ≤ fuel)
    have hcx : (setCx t.ecx (s.ecx.setWidth 16)).toNat = n + 1 := by
      rw [setCx_toNat (by omega), BitVec.toNat_setWidth]
      omega
    obtain ⟨hcount, hjump⟩ := loop_pos wide (by omega) (by omega : (setCx t.ecx
      (s.ecx.setWidth 16)).toNat < 2 ^ 16)
    rw [startRead, hwait]
    simp only [ht]
    by_cases hlast : n = 0
    · subst hlast
      rw [if_neg fun h => hjump.mp h hcx]
      refine ⟨_, rfl, ?_, by rw [hdrive, present]⟩
      have hone := loaded_succ D s.mem s.edi s.drive.lba 0
      rw [← hone]
      simp only [hmem, loaded, Nat.mul_zero, filled_zero]
    · rw [if_pos (hjump.mpr (by omega))]
      have hu : u32 (s.edi + 512) = s.edi + 512 := u32_of_lt (by omega)
      rw [hu] at hedi'
      have hmax : D.maxDelay s.drive.shown n =
          max (D.delay s.drive.shown) (D.maxDelay (s.drive.shown + 1) (n - 1)) := by
        obtain ⟨k, rfl⟩ := Nat.exists_eq_succ_of_ne_zero hlast
        rfl
      rw [Nat.add_sub_cancel, hmax] at hdelay
      obtain ⟨u, hu, humem, hushown⟩ := ih (by omega) (by omega)
        (s := { t with ecx := (loop wide (setCx t.ecx (s.ecx.setWidth 16))).1 })
        (by simp only [hdrive, present]; omega) (by simp only [hdrive, present])
        (by simp only; omega) (by simp only [hedi']; omega)
        (by simp only [hdrive, present]; omega) (by simp only [hdrive, present]; omega)
        (by omega : bound + 256 + n < fuel)
      refine ⟨u, hu, ?_, by simp only [hdrive, present] at hushown; omega⟩
      rw [humem, ← loaded_succ]
      simp only [hmem, hedi', hdrive, present]

/-- Fuel for a call that reads `n` sectors. -/
def Drive.enough (D : Drive) (shown n : Nat) : Nat := D.maxDelay shown n + n + 257

/-- With fuel for its waits the call returns. -/
theorem readHd_loaded (D : Drive) (wide : Bool) (s : St) {bl : Byte} (hbl : bl ≠ 0)
    (hedi : s.edi + 512 * bl.toNat ≤ segmentSize wide) {fuel : Nat}
    (hf : D.enough s.drive.shown bl.toNat ≤ fuel) :
    ∃ t, readHd D wide fuel s bl = some t ∧
      t.mem = loaded D s.mem s.edi (s.ecx.toNat % 2 ^ 28) bl.toNat ∧
      t.drive.shown = s.drive.shown + 1 + bl.toNat := by
  obtain ⟨hecx, hlba, hleft, hword, hbusy, hshown⟩ := sendCommand_spec D s.drive s.ecx bl
  have hlt := bl.isLt
  have hne : bl.toNat ≠ 0 := fun h => hbl (BitVec.eq_of_toNat_eq h)
  have hmax : D.maxDelay s.drive.shown bl.toNat =
      max (D.delay s.drive.shown) (D.maxDelay (s.drive.shown + 1) (bl.toNat - 1)) := by
    obtain ⟨k, hk⟩ := Nat.exists_eq_succ_of_ne_zero hne
    rw [hk]
    rfl
  rw [if_neg hbl] at hleft
  unfold Drive.enough at hf
  obtain ⟨t, ht, hmem, htshown⟩ := startRead_spec D wide (by omega : 1 ≤ bl.toNat) (by omega)
    (s := { s with
      drive := (sendCommand D s.drive s.ecx bl).1
      ecx := setCl (sendCommand D s.drive s.ecx bl).2 bl })
    hleft hword (setCl_toNat hecx bl) hedi (D.maxDelay s.drive.shown bl.toNat)
    (by simp only [hbusy]; omega) (by simp only [hshown]; omega)
    (by omega : D.maxDelay s.drive.shown bl.toNat + 256 + bl.toNat < fuel)
  refine ⟨t, ht, by rw [hmem, ← hlba], ?_⟩
  rw [htshown, hshown]

/-- **Reading.** In both modes of the processor, however long the drive takes, sectors that
fit into the segment come from the low 28 bits of `ecx` on to memory at `edi`, and nothing
else changes. -/
theorem readHd_loads (D : Drive) (wide : Bool) (s : St) {bl : Byte} (hbl : bl ≠ 0)
    (hedi : s.edi + 512 * bl.toNat ≤ segmentSize wide) :
    ∃ enough, ∀ fuel, enough ≤ fuel → ∃ t, readHd D wide fuel s bl = some t ∧
      ∀ x, t.mem x =
        if s.edi ≤ x ∧ x < s.edi + 512 * bl.toNat then
          D.sector (s.ecx.toNat % 2 ^ 28 + (x - s.edi) / 512) ((x - s.edi) % 512)
        else s.mem x := by
  refine ⟨D.enough s.drive.shown bl.toNat, fun fuel hf => ?_⟩
  obtain ⟨t, ht, hmem, -⟩ := readHd_loaded D wide s hbl hedi hf
  exact ⟨t, ht, fun x => by rw [hmem]; rfl⟩

/-- A drive whose sectors hold their own number. -/
def numbered : Drive := ⟨fun lba _ => BitVec.ofNat 8 lba, fun _ => 3⟩

/-- The two sectors `boot.asm` reads. -/
theorem readHd_loads_setup :
    ∃ enough, ∀ fuel, enough ≤ fuel → ∃ t,
      readHd numbered false fuel ⟨fun _ => 0, 0x500, 1, ⟨0, 0, 0, 0, 0, 0, 0, 0, 0, 0⟩⟩ 2 = some t ∧
      ∀ x, t.mem x =
        if 0x500 ≤ x ∧ x < 0x500 + 512 * (2 : Byte).toNat then
          numbered.sector ((1 : BitVec 32).toNat % 2 ^ 28 + (x - 0x500) / 512) ((x - 0x500) % 512)
        else 0 :=
  readHd_loads numbered false ⟨fun _ => 0, 0x500, 1, ⟨0, 0, 0, 0, 0, 0, 0, 0, 0, 0⟩⟩ (by decide)
    (by simp [segmentSize])

end X64SmpOs.ReadHd

import X64SmpOs.Lib.Memory

/-!
# The interrupt tables

`init_idt` of both kernels fills a table of gates with one loop. The one of the x64
kernel carries `handler` from a round to the next.

* `initIdt64`, `initIdt32`: the code, with bit-fields stored one after the other;
* `deliver`: what the processor does with a gate;
* `gate64_item64`, `gate_fill64`: the gate a round leaves, and the table of all rounds;
* `idt64_deliver`, `idt32_deliver`: what becomes of every interrupt, exception and
  `int` instruction.
-/

namespace X64SmpOs.Idt

open Memory

/-! ## The code -/

/-- The entry points of the x64 kernel; `inter` are `inter_entry0` to `inter_entry21`. -/
structure Entries64 where
  general : BitVec 64
  clock : BitVec 64
  ipiTest : BitVec 64
  ipiTest1 : BitVec 64
  lapicTimer : BitVec 64
  schedBroadcast : BitVec 64
  inter : Nat → BitVec 64

/-- The `switch`; `item->dpl = 3` of the case `0x80` is stored with the rest. -/
def switch64 (e : Entries64) (handler : BitVec 64) (i : Nat) : BitVec 64 :=
  if i ≤ 21 then e.inter i
  else if i = 0x20 then e.clock
  else if i = 0x80 then handler
  else if i = 0xA0 then e.ipiTest
  else if i = 0xA1 then e.ipiTest1
  else if i = 0xA2 then e.lapicTimer
  else if i = 0xA3 then e.schedBroadcast
  else e.general

/-- `w` bits of a byte from `lo` on. -/
def setField (b : Byte) (lo w : Nat) (v : Byte) : Byte :=
  let mask : Byte := (((1 : Byte) <<< w) - 1) <<< lo
  (b &&& ~~~mask) ||| ((v <<< lo) &&& mask)

/-- A store to a bit-field of the byte at `a`. -/
def storeField (m : Mem) (a lo w : Nat) (v : Byte) : Mem :=
  writeLE 1 m a (setField (m a) lo w v).toNat

/-- The four bit-fields, in the order of the code. -/
def storeFlags (m : Mem) (a : Nat) (dpl : Byte) : Mem :=
  let m := storeField m a 0 4 0b1110
  let m := storeField m a 4 1 0
  let m := storeField m a 5 2 dpl
  storeField m a 7 1 1

/-- A round of the x64 loop, for the item at `a`. -/
def item64 (m : Mem) (a i : Nat) (handler : BitVec 64) : Mem :=
  let m := if i = 0x80 then storeField m (a + 5) 5 2 3 else m
  let m := writeLE 2 m a (handler &&& 0xffff).toNat
  let m := writeLE 2 m (a + 2) 0x18
  let m := writeLE 1 m (a + 4) 0
  let m := storeFlags m (a + 5) 0
  let m := writeLE 2 m (a + 6) ((handler >>> 16) &&& 0xffff).toNat
  writeLE 4 m (a + 8) ((handler >>> 32) &&& 0xffffffff).toNat

/-- `handler` and memory after `n` rounds. -/
def fill64 (e : Entries64) (table : Nat) (m : Mem) : Nat → BitVec 64 × Mem
  | 0 => (e.general, m)
  | i + 1 =>
    let s := fill64 e table m i
    let handler := switch64 e s.1 i
    (handler, item64 s.2 (table + 16 * i) i handler)

structure Idtr where
  limit : Nat
  base : Nat

def initIdt64 (e : Entries64) (table : Nat) (m : Mem) : Mem × Idtr :=
  ((fill64 e table m 256).2, ⟨16 * 256 - 1, table⟩)

/-- The entry points of the x86 kernel. -/
structure Entries32 where
  interrupt : BitVec 32
  clock : BitVec 32
  keyBoard : BitVec 32
  syscall : BitVec 32
  assert : BitVec 32

def switch32 (e : Entries32) (i : Nat) : BitVec 32 :=
  if i = 0x20 then e.clock
  else if i = 0x21 then e.keyBoard
  else if i = 0x80 then e.syscall
  else if i = 0x81 then e.assert
  else e.interrupt

/-- A round of the x86 loop. -/
def item32 (m : Mem) (a i : Nat) (handle : BitVec 32) : Mem :=
  let m := writeLE 2 m a (handle &&& 0xffff).toNat
  let m := writeLE 2 m (a + 6) ((handle >>> 16) &&& 0xffff).toNat
  let m := writeLE 2 m (a + 2) (1 <<< 3)
  storeFlags m (a + 5) (if i = 0x80 then 3 else 0)

def fill32 (e : Entries32) (table : Nat) (m : Mem) : Nat → Mem
  | 0 => m
  | i + 1 => item32 (fill32 e table m i) (table + 8 * i) i (switch32 e i)

def initIdt32 (e : Entries32) (table : Nat) (m : Mem) : Mem × Idtr :=
  (fill32 e table m 255, ⟨255 * 8 - 1, table⟩)

/-! ## The processor -/

/-- What the processor reads from a gate: the code it leads to, the stack of the
interrupt stack table, and the byte with type, privilege and presence. -/
structure Gate where
  selector : Nat
  offset : Nat
  ist : Nat
  flags : Byte
  deriving DecidableEq

def gate64 (m : Mem) (a : Nat) : Gate where
  selector := readLE 2 m (a + 2)
  offset := readLE 2 m a + 2 ^ 16 * readLE 2 m (a + 6) + 2 ^ 32 * readLE 4 m (a + 8)
  ist := (m (a + 4)).toNat % 8
  flags := m (a + 5)

def gate32 (m : Mem) (a : Nat) : Gate where
  selector := readLE 2 m (a + 2)
  offset := readLE 2 m a + 2 ^ 16 * readLE 2 m (a + 6)
  ist := 0
  flags := m (a + 5)

/-- A handler is entered, with interrupts off behind an interrupt gate, or a fault is
raised. -/
inductive Delivery
  | enter (selector offset ist : Nat) (off : Bool)
  | generalProtection
  | notPresent
  deriving DecidableEq

/-- An interrupt, an exception, or an `int` instruction (`soft`) executed with privilege
`cpl`; a gate has `size` bytes. -/
def deliver (gate : Mem → Nat → Gate) (size : Nat) (m : Mem) (idtr : Idtr) (vector : Nat)
    (soft : Bool) (cpl : Nat) : Delivery :=
  let g := gate m (idtr.base + size * vector)
  let type := g.flags.toNat % 32
  let dpl := g.flags.toNat / 32 % 4
  if idtr.limit < size * vector + (size - 1) then .generalProtection
  else if type ≠ 0b01110 ∧ type ≠ 0b01111 then .generalProtection
  else if soft ∧ dpl < cpl then .generalProtection
  else if g.flags.toNat < 128 then .notPresent
  else .enter g.selector g.offset g.ist (decide (type = 0b01110))

/-! ## One gate -/

theorem flags_kernel : ∀ b : Byte,
    setField (setField (setField (setField b 0 4 0b1110) 4 1 0) 5 2 0) 7 1 1 = 0x8E := by
  decide +kernel

theorem flags_user : ∀ b : Byte,
    setField (setField (setField (setField b 0 4 0b1110) 4 1 0) 5 2 3) 7 1 1 = 0xEE := by
  decide +kernel

theorem storeField_at (m : Mem) (a lo w : Nat) (v : Byte) :
    storeField m a lo w v a = setField (m a) lo w v := by
  rw [storeField, writeLE_one, if_pos rfl, BitVec.ofNat_toNat, BitVec.setWidth_eq]

theorem storeField_other (m : Mem) {a lo w x : Nat} (v : Byte) (hx : x ≠ a) :
    storeField m a lo w v x = m x := by
  rw [storeField, writeLE_one, if_neg hx]

/-- What was in the byte before does not matter. -/
theorem storeFlags_at (m : Mem) (a : Nat) :
    storeFlags m a 0 a = 0x8E ∧ storeFlags m a 3 a = 0xEE := by
  simp only [storeFlags, storeField_at]
  exact ⟨flags_kernel (m a), flags_user (m a)⟩

theorem storeFlags_other (m : Mem) {a x : Nat} (dpl : Byte) (hx : x ≠ a) :
    storeFlags m a dpl x = m x := by
  simp only [storeFlags, storeField_other _ _ hx]

theorem gate64_congr {m m' : Mem} {a : Nat} (h : AgreeOn m m' a 16) :
    gate64 m' a = gate64 m a := by
  simp only [gate64, readLE_congr (h.sub (by omega) (by omega) : AgreeOn m m' a 2),
    readLE_congr (h.sub (by omega) (by omega) : AgreeOn m m' (a + 2) 2),
    readLE_congr (h.sub (by omega) (by omega) : AgreeOn m m' (a + 6) 2),
    readLE_congr (h.sub (by omega) (by omega) : AgreeOn m m' (a + 8) 4),
    h (a + 4) (by omega) (by omega), h (a + 5) (by omega) (by omega)]

theorem gate32_congr {m m' : Mem} {a : Nat} (h : AgreeOn m m' a 8) :
    gate32 m' a = gate32 m a := by
  simp only [gate32, readLE_congr (h.sub (by omega) (by omega) : AgreeOn m m' a 2),
    readLE_congr (h.sub (by omega) (by omega) : AgreeOn m m' (a + 2) 2),
    readLE_congr (h.sub (by omega) (by omega) : AgreeOn m m' (a + 6) 2),
    h (a + 5) (by omega) (by omega)]

theorem agreeOn_storeFlags (m : Mem) {a b k : Nat} (dpl : Byte) (h : b + k ≤ a ∨ a + 1 ≤ b) :
    AgreeOn m (storeFlags m a dpl) b k :=
  fun _ _ _ => storeFlags_other m dpl (by omega)

theorem agreeOn_item64 (m : Mem) {a b k : Nat} (i : Nat) (handler : BitVec 64)
    (h : b + k ≤ a ∨ a + 16 ≤ b) : AgreeOn m (item64 m a i handler) b k := by
  intro x hx hx'
  simp only [item64]
  rw [writeLE_apply_of_not (by omega), writeLE_apply_of_not (by omega),
    storeFlags_other _ _ (by omega), writeLE_apply_of_not (by omega),
    writeLE_apply_of_not (by omega), writeLE_apply_of_not (by omega)]
  split
  · exact storeField_other _ _ (by omega)
  · rfl

theorem agreeOn_item32 (m : Mem) {a b k : Nat} (i : Nat) (handle : BitVec 32)
    (h : b + k ≤ a ∨ a + 8 ≤ b) : AgreeOn m (item32 m a i handle) b k := by
  intro x hx hx'
  simp only [item32]
  rw [storeFlags_other _ _ (by omega), writeLE_apply_of_not (by omega),
    writeLE_apply_of_not (by omega), writeLE_apply_of_not (by omega)]

theorem toNat_and_lt {w n : Nat} (x mask : BitVec w) (h : mask.toNat < n) :
    (x &&& mask).toNat < n := by
  rw [BitVec.toNat_and]
  exact Nat.lt_of_le_of_lt Nat.and_le_right h

theorem toNat_and_mod {w k : Nat} (x mask : BitVec w) (h : mask.toNat = 2 ^ k - 1) :
    (x &&& mask).toNat = x.toNat % 2 ^ k := by
  rw [BitVec.toNat_and, h, Nat.and_two_pow_sub_one_eq_mod]

/-- The three parts of an offset. -/
theorem offset_parts (handler : BitVec 64) :
    (handler &&& 0xffff).toNat + 2 ^ 16 * ((handler >>> 16) &&& 0xffff).toNat +
      2 ^ 32 * ((handler >>> 32) &&& 0xffffffff).toNat = handler.toNat := by
  rw [toNat_and_mod _ _ (k := 16) rfl, toNat_and_mod _ _ (k := 16) rfl,
    toNat_and_mod _ _ (k := 32) rfl]
  simp only [BitVec.toNat_ushiftRight, Nat.shiftRight_eq_div_pow]
  have hlt := handler.isLt
  omega

theorem offset_parts32 (handle : BitVec 32) :
    (handle &&& 0xffff).toNat + 2 ^ 16 * ((handle >>> 16) &&& 0xffff).toNat = handle.toNat := by
  rw [toNat_and_mod _ _ (k := 16) rfl, toNat_and_mod _ _ (k := 16) rfl]
  simp only [BitVec.toNat_ushiftRight, Nat.shiftRight_eq_div_pow]
  have hlt := handle.isLt
  omega

/-- The privilege stored for `0x80` is overwritten. -/
theorem gate64_item64 (m : Mem) (a i : Nat) (handler : BitVec 64) :
    gate64 (item64 m a i handler) a = ⟨0x18, handler.toNat, 0, 0x8E⟩ := by
  have hlow : (handler &&& 0xffff).toNat < 256 ^ 2 := toNat_and_lt _ _ (by decide)
  have hmid : ((handler >>> 16) &&& 0xffff).toNat < 256 ^ 2 := toNat_and_lt _ _ (by decide)
  have hhigh : ((handler >>> 32) &&& 0xffffffff).toNat < 256 ^ 4 := toNat_and_lt _ _ (by decide)
  simp only [gate64, item64, Gate.mk.injEq]
  refine ⟨?_, ?_, ?_, ?_⟩
  · rw [readLE_writeLE_of_disjoint _ _ (by omega), readLE_writeLE_of_disjoint _ _ (by omega),
      readLE_congr (agreeOn_storeFlags _ _ (by omega)),
      readLE_writeLE_of_disjoint _ _ (by omega), readLE_writeLE_of_lt _ _ (by decide)]
  · rw [readLE_writeLE_of_lt _ (a + 8) hhigh, readLE_writeLE_of_disjoint _ _ (by omega),
      readLE_writeLE_of_disjoint _ _ (by omega), readLE_writeLE_of_disjoint _ _ (by omega),
      readLE_writeLE_of_lt _ (a + 6) hmid, readLE_congr (agreeOn_storeFlags _ _ (by omega)),
      readLE_writeLE_of_disjoint _ _ (by omega), readLE_writeLE_of_disjoint _ _ (by omega),
      readLE_writeLE_of_lt _ a hlow]
    exact offset_parts handler
  · rw [writeLE_apply_of_not (by omega), writeLE_apply_of_not (by omega),
      storeFlags_other _ _ (by omega), writeLE_one, if_pos rfl]
    rfl
  · rw [writeLE_apply_of_not (by omega), writeLE_apply_of_not (by omega)]
    exact (storeFlags_at _ _).1

theorem gate32_item32 (m : Mem) (a i : Nat) (handle : BitVec 32) :
    gate32 (item32 m a i handle) a =
      ⟨8, handle.toNat, 0, if i = 0x80 then 0xEE else 0x8E⟩ := by
  have hlow : (handle &&& 0xffff).toNat < 256 ^ 2 := toNat_and_lt _ _ (by decide)
  have hmid : ((handle >>> 16) &&& 0xffff).toNat < 256 ^ 2 := toNat_and_lt _ _ (by decide)
  simp only [gate32, item32, Gate.mk.injEq]
  refine ⟨?_, ?_, trivial, ?_⟩
  · rw [readLE_congr (agreeOn_storeFlags _ _ (by omega)), readLE_writeLE_of_lt _ _ (by decide)]
    rfl
  · rw [readLE_congr (agreeOn_storeFlags _ _ (by omega)),
      readLE_congr (agreeOn_storeFlags _ _ (by omega)),
      readLE_writeLE_of_disjoint _ _ (by omega), readLE_writeLE_of_disjoint _ _ (by omega),
      readLE_writeLE_of_lt _ a hlow, readLE_writeLE_of_disjoint _ _ (by omega),
      readLE_writeLE_of_lt _ (a + 6) hmid]
    exact offset_parts32 handle
  · by_cases hi : i = 0x80
    · rw [if_pos hi, if_pos hi]
      exact (storeFlags_at _ _).2
    · rw [if_neg hi, if_neg hi]
      exact (storeFlags_at _ _).1

/-! ## The loops -/

theorem switch64_eq (e : Entries64) {i : Nat} (handler handler' : BitVec 64) (h : i ≠ 0x80) :
    switch64 e handler i = switch64 e handler' i := by
  simp only [switch64, if_neg h]

/-- The round of `0x80` finds the handler of the round before. -/
theorem fill64_handler (e : Entries64) (table : Nat) (m : Mem) (i : Nat) :
    (fill64 e table m (i + 1)).1 = switch64 e e.general i := by
  by_cases h : i = 0x80
  · subst h
    rfl
  · exact switch64_eq e _ _ h

theorem gate_fill64 (e : Entries64) (table : Nat) (m : Mem) {n v : Nat} (hv : v < n) :
    gate64 (fill64 e table m n).2 (table + 16 * v) =
      ⟨0x18, (switch64 e e.general v).toNat, 0, 0x8E⟩ := by
  induction n with
  | zero => omega
  | succ n ih =>
    have hhandler := fill64_handler e table m n
    rw [fill64] at hhandler ⊢
    dsimp only at hhandler ⊢
    rw [hhandler]
    rcases Nat.lt_succ_iff_lt_or_eq.mp hv with hlt | rfl
    · rw [gate64_congr (agreeOn_item64 _ _ _ (by omega)), ih hlt]
    · exact gate64_item64 _ _ _ _

theorem gate_fill32 (e : Entries32) (table : Nat) (m : Mem) {n v : Nat} (hv : v < n) :
    gate32 (fill32 e table m n) (table + 8 * v) =
      ⟨8, (switch32 e v).toNat, 0, if v = 0x80 then 0xEE else 0x8E⟩ := by
  induction n with
  | zero => omega
  | succ n ih =>
    rw [fill32]
    rcases Nat.lt_succ_iff_lt_or_eq.mp hv with hlt | rfl
    · rw [gate32_congr (agreeOn_item32 _ _ _ (by omega)), ih hlt]
    · exact gate32_item32 _ _ _ _

/-! ## Delivery -/

/-- Whatever the table held: no vector is open to an `int` instruction of a user program,
and vector `0x80` leads to the handler of the vectors without one. -/
theorem idt64_deliver (e : Entries64) (table : Nat) (m : Mem) (vector : BitVec 8) (soft : Bool)
    (cpl : Nat) :
    deliver gate64 16 (initIdt64 e table m).1 (initIdt64 e table m).2 vector.toNat soft cpl =
      if soft ∧ 0 < cpl then .generalProtection
      else .enter 0x18 (switch64 e e.general vector.toNat).toNat 0 true := by
  have hv := vector.isLt
  have hgate := gate_fill64 e table m (n := 256) hv
  simp only [deliver, initIdt64, hgate]
  rw [if_neg (by omega), if_neg (by decide)]
  rfl

/-- The last vector is behind the limit of the table, and only `0x80` is open to the
`int` instruction of a user program. -/
theorem idt32_deliver (e : Entries32) (table : Nat) (m : Mem) (vector : BitVec 8) (soft : Bool)
    (cpl : BitVec 2) :
    deliver gate32 8 (initIdt32 e table m).1 (initIdt32 e table m).2 vector.toNat soft cpl.toNat =
      if vector = 255 ∨ (soft ∧ 0 < cpl.toNat ∧ vector ≠ 0x80) then .generalProtection
      else .enter 8 (switch32 e vector.toNat).toNat 0 true := by
  have hv := vector.isLt
  have hcpl := cpl.isLt
  by_cases hlast : vector = 255
  · rw [if_pos (.inl hlast), hlast]
    rfl
  · have hlt : vector.toNat < 255 := by
      have : vector.toNat ≠ 255 := fun h => hlast (BitVec.eq_of_toNat_eq h)
      omega
    have hgate := gate_fill32 e table m (n := 255) hlt
    simp only [deliver, initIdt32, hgate]
    rw [if_neg (by omega)]
    have hnum : vector.toNat = 0x80 ↔ vector = 0x80 :=
      ⟨fun h => BitVec.eq_of_toNat_eq h, fun h => h ▸ rfl⟩
    by_cases h80 : vector = 0x80
    · have hopen : ¬ (soft = true ∧ (0xEE : Byte).toNat / 32 % 4 < cpl.toNat) := by
        rw [show (0xEE : Byte).toNat / 32 % 4 = 3 from rfl]
        omega
      rw [if_pos (hnum.mpr h80), if_neg (by decide), if_neg hopen]
      simp only [h80, ne_eq, not_true_eq_false, and_false, or_false]
      rfl
    · rw [if_neg (fun h => h80 (hnum.mp h)), if_neg (by decide)]
      simp only [hlast, h80, ne_eq, not_false_eq_true, and_true, false_or]
      rfl

end X64SmpOs.Idt

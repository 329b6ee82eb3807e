import Mathlib.Data.BitVec
import Mathlib.Data.List.Infix
import Mathlib.Logic.Function.Basic
import X64SmpOs.Lib.Memory

/-!
# The keyboard handler

One scan code byte arrives with each interrupt. `0xE0` announces a second set
of keys for the next byte, and bit 7 tells a break from a make. The bytes
received so far are listed with the latest in front.

* `scanCodes`: the bytes behind their prefixes, and `down`, `presses`: which keys
  the scan codes leave down, and how often a key was pressed;
* `rep_run`: the table of the handler records what is down;
* `run_lock`: a lock toggles with every make of its code;
* `law_iff_presses`: the states follow the keys as long as no make of a lock is a repeat.
-/

namespace X64SmpOs.Keyboard

open Memory

/-! ## The handler -/

/-- Without and with Shift. -/
def keymapChars : List (Byte × Byte) :=
  [(0x00, 0x00), (0x1B, 0x1B), (0x31, 0x21), (0x32, 0x40), (0x33, 0x23), (0x34, 0x24),
    (0x35, 0x25), (0x36, 0x5E), (0x37, 0x26), (0x38, 0x2A), (0x39, 0x28), (0x30, 0x29),
    (0x2D, 0x5F), (0x3D, 0x2B), (0x08, 0x08), (0x09, 0x09), (0x71, 0x51), (0x77, 0x57),
    (0x65, 0x45), (0x72, 0x52), (0x74, 0x54), (0x79, 0x59), (0x75, 0x55), (0x69, 0x49),
    (0x6F, 0x4F), (0x70, 0x50), (0x5B, 0x7B), (0x5D, 0x7D), (0x0A, 0x0A), (0x00, 0x00),
    (0x61, 0x41), (0x73, 0x53), (0x64, 0x44), (0x66, 0x46), (0x67, 0x47), (0x68, 0x48),
    (0x6A, 0x4A), (0x6B, 0x4B), (0x6C, 0x4C), (0x3B, 0x3A), (0x27, 0x22), (0x60, 0x7E),
    (0x00, 0x00), (0x5C, 0x7C), (0x7A, 0x5A), (0x78, 0x58), (0x63, 0x43), (0x76, 0x56),
    (0x62, 0x42), (0x6E, 0x4E), (0x6D, 0x4D), (0x2C, 0x3C), (0x2E, 0x3E), (0x2F, 0x3F),
    (0x00, 0x00), (0x2A, 0x2A), (0x00, 0x00), (0x20, 0x20), (0x00, 0x00), (0x00, 0x00),
    (0x00, 0x00), (0x00, 0x00), (0x00, 0x00), (0x00, 0x00), (0x00, 0x00), (0x00, 0x00),
    (0x00, 0x00), (0x00, 0x00), (0x00, 0x00), (0x00, 0x00), (0x00, 0x00), (0x37, 0x00),
    (0x38, 0x00), (0x39, 0x00), (0x2D, 0x2D), (0x34, 0x00), (0x35, 0x00), (0x36, 0x00),
    (0x2B, 0x2B), (0x31, 0x00), (0x32, 0x00), (0x33, 0x00), (0x30, 0x00), (0x2E, 0x7F),
    (0x00, 0x00), (0x00, 0x00), (0x00, 0x00), (0x00, 0x00), (0x00, 0x00), (0x00, 0x00),
    (0x00, 0x00), (0x00, 0x00), (0x00, 0x00), (0x00, 0x00), (0x00, 0x00), (0x00, 0x00)]

def keyShiftL : Nat := 0x2A
def keySlash : Nat := 0x35
def keyShiftR : Nat := 0x36
def keyCapslock : Nat := 0x3A
def keyNumlock : Nat := 0x45
def keyScrlock : Nat := 0x46
def keyPrintScreen : Nat := 0x5F
def codePrintScreenDown : Nat := 0xB7

structure State where
  keymap : Nat → Nat → Byte
  capslockState : Bool
  scrlockState : Bool
  numlockState : Bool
  extcodeState : Bool

/-- Columns 2 and 3 tell whether the key and the extended key are down. -/
def initial : State where
  keymap makecode column :=
    match column with
    | 0 => (keymapChars.getD makecode (0, 0)).1
    | 1 => (keymapChars.getD makecode (0, 0)).2
    | _ => 0
  capslockState := false
  scrlockState := false
  numlockState := false
  extcodeState := false

def State.setKey (s : State) (makecode ext : Nat) (v : Byte) : State :=
  { s with keymap := Function.update s.keymap makecode (Function.update (s.keymap makecode) ext v) }

/-- `keymap[KEY_SHIFT_L][2] || keymap[KEY_SHIFT_R][2]`. -/
def State.shiftState (s : State) : Bool :=
  s.keymap keyShiftL 2 ≠ 0 || s.keymap keyShiftR 2 ≠ 0

def State.toggle (s : State) (makecode : Nat) : State :=
  if makecode = keyNumlock then { s with numlockState := !s.numlockState }
  else if makecode = keyCapslock then { s with capslockState := !s.capslockState }
  else if makecode = keyScrlock then { s with scrlockState := !s.scrlockState }
  else s

/-- The character of a make. -/
def State.character (s : State) (makecode ext : Nat) : Byte :=
  let shift := (s.capslockState ^^ s.shiftState).toNat
  if ext = 3 ∧ makecode ≠ keySlash then s.keymap makecode 1 else s.keymap makecode shift

/-- The state after the byte, and the character that is printed. The prefix
`0xE000` does not fit in the `u8` it is added to. -/
def keymapHandler (s : State) (scancode : Byte) : State × Option Byte :=
  if scancode = 0xE0 then ({ s with extcodeState := true }, none)
  else
    let ext := if s.extcodeState then 3 else 2
    let s := { s with extcodeState := false }
    let code := (scancode &&& 0x7F).toNat
    let makecode := if code = codePrintScreenDown then keyPrintScreen else code
    if makecode > keyPrintScreen then (s, none)
    else if scancode &&& 0x80 ≠ 0 then (s.setKey makecode ext 0, none)
    else
      let s := (s.setKey makecode ext 1).toggle makecode
      let ch := s.character makecode ext
      (s, if ch = 0 then none else some ch)

/-- The bytes received, the latest in front. -/
def run : List Byte → State
  | [] => initial
  | scancode :: past => (keymapHandler (run past) scancode).1

/-! ## The keys -/

/-- A byte behind its prefix. -/
structure ScanCode where
  ext : Bool
  code : Byte
  deriving DecidableEq

/-- The break of a make. -/
def ScanCode.release (key : ScanCode) : ScanCode := ⟨key.ext, key.code ||| 0x80⟩

/-- The byte that came directly before is `0xE0`. -/
def prefixed (past : List Byte) : Bool := past.head? = some 0xE0

def scanCodes : List Byte → List ScanCode
  | [] => []
  | b :: past => if b = 0xE0 then scanCodes past else ⟨prefixed past, b⟩ :: scanCodes past

/-- The latest scan code of the key is a make. -/
def down (key : ScanCode) : List ScanCode → Bool
  | [] => false
  | sc :: past =>
    if sc = key then true
    else if sc = key.release then false
    else down key past

/-- A make of the key with this code, which is not down. With `anyPrefix` the
extended code counts as the key as well. -/
def IsPress (anyPrefix : Bool) (code : Byte) (sc : ScanCode) (past : List ScanCode) : Prop :=
  sc.code = code ∧ (sc.ext = true → anyPrefix = true) ∧ down sc past = false

instance (anyPrefix : Bool) (code : Byte) (sc : ScanCode) (past : List ScanCode) :
    Decidable (IsPress anyPrefix code sc past) := inferInstanceAs (Decidable (_ ∧ _ ∧ _))

def presses (anyPrefix : Bool) (code : Byte) : List ScanCode → Nat
  | [] => 0
  | sc :: past => presses anyPrefix code past + if IsPress anyPrefix code sc past then 1 else 0

inductive Lock
  | caps
  | num
  | scr
  deriving DecidableEq

def Lock.code : Lock → Byte
  | .caps => 0x3A
  | .num => 0x45
  | .scr => 0x46

def State.lock (s : State) : Lock → Bool
  | .caps => s.capslockState
  | .num => s.numlockState
  | .scr => s.scrlockState

/-- After the bytes of `past`: a lock is on after an odd number of presses,
Shift holds while an unprefixed make has no later break, and a prefix is
remembered for one byte and changes nothing else. -/
structure Law (anyPrefix : Bool) (past : List Byte) : Prop where
  locks : ∀ k, (run past).lock k = decide (presses anyPrefix k.code (scanCodes past) % 2 = 1)
  shift : (run past).shiftState = true ↔ ∃ code : Byte, (code = 0x2A ∨ code = 0x36) ∧
    ∃ later earlier, scanCodes past = later ++ ⟨false, code⟩ :: earlier ∧
      ScanCode.release ⟨false, code⟩ ∉ later
  extcode : (run past).extcodeState = true ↔ past.head? = some 0xE0
  only_next : ∀ earlier, past = 0xE0 :: earlier →
    run past = { run earlier with extcodeState := true }

/-! ## Bytes -/

/-- The codes in the table leave bit 7 to the break, and neither byte is the
prefix. -/
structure CodeBits (code : Byte) : Prop where
  make_mask : code &&& 0x7F = code
  break_mask : (code ||| 0x80) &&& 0x7F = code
  make_bit : code &&& 0x80 = 0
  break_bit : (code ||| 0x80) &&& 0x80 ≠ 0
  make_ne : code ≠ 0xE0
  break_ne : code ||| 0x80 ≠ 0xE0

theorem code_bits {code : Byte} (h : code.toNat ≤ keyPrintScreen) : CodeBits code := by
  have hall : ∀ code : Byte, code.toNat ≤ keyPrintScreen →
      code &&& 0x7F = code ∧ (code ||| 0x80) &&& 0x7F = code ∧ code &&& 0x80 = 0 ∧
        (code ||| 0x80) &&& 0x80 ≠ 0 ∧ code ≠ 0xE0 ∧ code ||| 0x80 ≠ 0xE0 := by
    decide +kernel
  obtain ⟨h1, h2, h3, h4, h5, h6⟩ := hall code h
  exact ⟨h1, h2, h3, h4, h5, h6⟩

/-- A break is no make. -/
theorem break_ne_make {c d : Byte} (hc : CodeBits c) (hd : CodeBits d) : c ||| 0x80 ≠ d := by
  intro h
  have hbit := hc.break_bit
  rw [h] at hbit
  exact hbit hd.make_bit

theorem byte_split (b : Byte) :
    if b &&& 0x80 = 0 then b = b &&& 0x7F else b = (b &&& 0x7F) ||| 0x80 := by
  have hall : ∀ b : Byte, if b &&& 0x80 = 0 then b = b &&& 0x7F else b = (b &&& 0x7F) ||| 0x80 := by
    decide +kernel
  exact hall b

theorem lock_code_le (k : Lock) : k.code.toNat ≤ keyPrintScreen := by
  cases k <;> decide

/-! ## The state -/

/-- The status column of a key. -/
def column (ext : Bool) : Nat := if ext then 3 else 2

section
variable (s : State) (makecode makecode' ext ext' : Nat) (v : Byte)

@[simp] theorem setKey_keymap :
    (s.setKey makecode ext v).keymap makecode' ext' =
      if makecode' = makecode ∧ ext' = ext then v else s.keymap makecode' ext' := by
  simp only [State.setKey, Function.update_apply]
  split
  · rename_i h
    rw [h, Function.update_apply]
    simp
  · rename_i h
    simp [h]

@[simp] theorem setKey_lock (k : Lock) : (s.setKey makecode ext v).lock k = s.lock k := by
  cases k <;> rfl

@[simp] theorem setKey_extcodeState : (s.setKey makecode ext v).extcodeState = s.extcodeState := rfl

@[simp] theorem toggle_keymap : (s.toggle makecode).keymap = s.keymap := by
  unfold State.toggle
  split_ifs <;> rfl

@[simp] theorem toggle_extcodeState : (s.toggle makecode).extcodeState = s.extcodeState := by
  unfold State.toggle
  split_ifs <;> rfl

theorem toggle_lock (k : Lock) :
    (s.toggle makecode).lock k = if makecode = k.code.toNat then !s.lock k else s.lock k := by
  have hnum : Lock.num.code.toNat = keyNumlock := rfl
  have hcaps : Lock.caps.code.toNat = keyCapslock := rfl
  have hscr : Lock.scr.code.toNat = keyScrlock := rfl
  unfold State.toggle
  cases k <;> simp only [hnum, hcaps, hscr] <;> split_ifs <;>
    simp_all [State.lock, keyNumlock, keyCapslock, keyScrlock]

end

/-- **What a byte does.** A prefix, a code beyond the table, a break, a make. -/
theorem handler_cases (s : State) (b : Byte) :
    (b = 0xE0 ∧ (keymapHandler s b).1 = { s with extcodeState := true }) ∨
    (b ≠ 0xE0 ∧ keyPrintScreen < (b &&& 0x7F).toNat ∧
      (keymapHandler s b).1 = { s with extcodeState := false }) ∨
    (∃ code : Byte, code.toNat ≤ keyPrintScreen ∧ b = code ||| 0x80 ∧ (keymapHandler s b).1 =
      { s with extcodeState := false }.setKey code.toNat (column s.extcodeState) 0) ∨
    (∃ code : Byte, code.toNat ≤ keyPrintScreen ∧ b = code ∧ (keymapHandler s b).1 =
      ({ s with extcodeState := false }.setKey code.toNat (column s.extcodeState) 1).toggle
        code.toNat) := by
  have hmask : (b &&& 0x7F).toNat ≠ codePrintScreenDown := by
    have hle : (b &&& 0x7F).toNat ≤ (0x7F : Byte).toNat := by
      rw [BitVec.toNat_and]
      exact Nat.and_le_right
    have h1 : (0x7F : Byte).toNat = 0x7F := rfl
    have h2 : codePrintScreenDown = 0xB7 := rfl
    omega
  have hsplit := byte_split b
  unfold keymapHandler
  simp only [if_neg hmask]
  split
  · rename_i h
    exact Or.inl ⟨h, rfl⟩
  · rename_i h
    split
    · rename_i hgt
      exact Or.inr (Or.inl ⟨h, hgt, rfl⟩)
    · rename_i hgt
      split
      · rename_i hbit
        rw [if_neg hbit] at hsplit
        exact Or.inr (Or.inr (Or.inl ⟨b &&& 0x7F, by omega, hsplit, rfl⟩))
      · rename_i hbit
        rw [if_pos (not_not.mp hbit)] at hsplit
        exact Or.inr (Or.inr (Or.inr ⟨b &&& 0x7F, by omega, hsplit, rfl⟩))

/-! ## The table records what is down -/

theorem scanCodes_cons {b : Byte} (h : b ≠ 0xE0) (past : List Byte) :
    scanCodes (b :: past) = ⟨prefixed past, b⟩ :: scanCodes past := by
  rw [scanCodes, if_neg h]

@[simp] theorem scanCodes_prefixByte (past : List Byte) :
    scanCodes (0xE0 :: past) = scanCodes past := by
  simp [scanCodes]

theorem prefixed_of_ne {b : Byte} (h : b ≠ 0xE0) (past : List Byte) :
    prefixed (b :: past) = false :=
  decide_eq_false fun he => h (Option.some.inj he)

theorem down_make (key : ScanCode) (h : List ScanCode) : down key (key :: h) = true := by
  simp [down]

theorem down_break {key : ScanCode} (hkey : key.code.toNat ≤ keyPrintScreen) (h : List ScanCode) :
    down key (key.release :: h) = false := by
  have hne : key.release ≠ key := fun he =>
    break_ne_make (code_bits hkey) (code_bits hkey) (congrArg ScanCode.code he)
  rw [down, if_neg hne, if_pos rfl]

/-- A scan code of another key, or none of the table. -/
theorem down_other {key sc : ScanCode} (hkey : key.code.toNat ≤ keyPrintScreen)
    (hsc : sc.ext ≠ key.ext ∨ sc.code &&& 0x7F ≠ key.code) (h : List ScanCode) :
    down key (sc :: h) = down key h := by
  have hbits := code_bits hkey
  have h1 : sc ≠ key := by
    rintro rfl
    rcases hsc with hsc | hsc
    · exact hsc rfl
    · exact hsc hbits.make_mask
  have h2 : sc ≠ key.release := by
    rintro rfl
    rcases hsc with hsc | hsc
    · exact hsc rfl
    · exact hsc hbits.break_mask
  rw [down, if_neg h1, if_neg h2]

/-- The table and the prefix after the bytes of `past`. -/
structure Rep (past : List Byte) (s : State) : Prop where
  extcode : s.extcodeState = prefixed past
  keys : ∀ key : ScanCode, key.code.toNat ≤ keyPrintScreen →
    (s.keymap key.code.toNat (column key.ext) ≠ 0 ↔ down key (scanCodes past) = true)

theorem rep_initial : Rep [] initial where
  extcode := rfl
  keys key _ := by
    cases hext : key.ext <;> simp [initial, column, scanCodes, down]

theorem column_inj {ext ext' : Bool} : column ext = column ext' ↔ ext = ext' := by
  cases ext <;> cases ext' <;> decide

/-- One key is set, and its scan code is the latest. -/
theorem rep_setKey {past : List Byte} {s : State} (hs : Rep past s) {code b v : Byte}
    (hmask : b &&& 0x7F = code)
    (hv : v ≠ 0 ↔ down ⟨s.extcodeState, code⟩ (⟨s.extcodeState, b⟩ :: scanCodes past) = true)
    {key : ScanCode} (hkey : key.code.toNat ≤ keyPrintScreen) :
    (s.setKey code.toNat (column s.extcodeState) v).keymap key.code.toNat (column key.ext) ≠ 0 ↔
      down key (⟨s.extcodeState, b⟩ :: scanCodes past) = true := by
  rw [setKey_keymap]
  simp only [column_inj, BitVec.toNat_inj]
  split
  · rename_i h
    have hkey : key = ⟨s.extcodeState, code⟩ := by
      rw [← h.1, ← h.2]
    rw [hkey]
    exact hv
  · rename_i h
    rw [down_other hkey]
    · exact hs.keys key hkey
    · rw [hmask]
      by_contra hsame
      obtain ⟨hext, hcode⟩ := not_or.mp hsame
      exact h ⟨(not_not.mp hcode).symm, (not_not.mp hext).symm⟩

/-- **Step.** -/
theorem rep_step {past : List Byte} {s : State} (hs : Rep past s) (b : Byte) :
    Rep (b :: past) (keymapHandler s b).1 := by
  obtain ⟨rfl, hnext⟩ | ⟨hb, hgt, hnext⟩ | ⟨code, hcode, rfl, hnext⟩ | ⟨code, hcode, rfl, hnext⟩ :=
    handler_cases s b
  · rw [hnext]
    constructor
    · rfl
    · rw [scanCodes_prefixByte]
      exact hs.keys
  · rw [hnext]
    constructor
    · exact (prefixed_of_ne hb past).symm
    · intro key hkey
      rw [scanCodes_cons hb, down_other hkey (Or.inr _)]
      · exact hs.keys key hkey
      · intro heq
        rw [← heq] at hkey
        exact absurd hgt (Nat.not_lt.mpr hkey)
  · have hbits := code_bits hcode
    rw [hnext]
    constructor
    · exact (prefixed_of_ne hbits.break_ne past).symm
    · intro key hkey
      rw [scanCodes_cons hbits.break_ne, ← hs.extcode]
      have hrelease : down ⟨s.extcodeState, code⟩
          (⟨s.extcodeState, code ||| 0x80⟩ :: scanCodes past) = false := down_break hcode _
      have hv : (0 : Byte) ≠ 0 ↔ down ⟨s.extcodeState, code⟩
          (⟨s.extcodeState, code ||| 0x80⟩ :: scanCodes past) = true := by
        rw [hrelease]
        exact iff_of_false (not_not.mpr rfl) Bool.false_ne_true
      exact rep_setKey hs hbits.break_mask hv hkey
  · have hbits := code_bits hcode
    rw [hnext]
    constructor
    · rw [toggle_extcodeState]
      exact (prefixed_of_ne hbits.make_ne past).symm
    · intro key hkey
      rw [scanCodes_cons hbits.make_ne, ← hs.extcode, toggle_keymap]
      have hmake := down_make ⟨s.extcodeState, b⟩ (scanCodes past)
      exact rep_setKey hs hbits.make_mask (by simp [hmake]) hkey

/-- **Run.** -/
theorem rep_run (past : List Byte) : Rep past (run past) := by
  induction past with
  | nil => exact rep_initial
  | cons b past ih => exact rep_step ih b

/-- A key is down while a make has no later break. -/
theorem down_iff {key : ScanCode} (hkey : key.code.toNat ≤ keyPrintScreen) (h : List ScanCode) :
    down key h = true ↔
      ∃ later earlier, h = later ++ key :: earlier ∧ key.release ∉ later := by
  induction h with
  | nil => simp [down]
  | cons sc h ih =>
    rcases eq_or_ne sc key with rfl | hmake
    · exact iff_of_true (down_make sc h) ⟨[], h, rfl, List.not_mem_nil⟩
    · have hcons : (∃ later earlier, sc :: h = later ++ key :: earlier ∧ key.release ∉ later) ↔
          sc ≠ key.release ∧ ∃ later earlier, h = later ++ key :: earlier ∧
            key.release ∉ later := by
        constructor
        · rintro ⟨later, earlier, heq, hbreak⟩
          cases later with
          | nil => exact absurd (List.cons.inj heq).1 hmake
          | cons x later =>
            obtain ⟨rfl, htail⟩ := List.cons.inj heq
            obtain ⟨hx, hlater⟩ := not_or.mp (fun hmem => hbreak (List.mem_cons.mpr hmem))
            exact ⟨fun he => hx he.symm, later, earlier, htail, hlater⟩
        · rintro ⟨hbreak, later, earlier, heq, hlater⟩
          exact ⟨sc :: later, earlier, by rw [heq, List.cons_append],
            List.not_mem_cons_of_ne_of_not_mem hbreak.symm hlater⟩
      rw [hcons, ← ih, down, if_neg hmake]
      split
      · rename_i hbreak
        exact iff_of_false Bool.false_ne_true fun h => h.1 hbreak
      · rename_i hbreak
        rw [and_iff_right hbreak]

/-! ## The locks -/

/-- A lock toggles with every make of its code, and with nothing else. -/
theorem run_lock (k : Lock) (b : Byte) (past : List Byte) :
    (run (b :: past)).lock k = if b = k.code then !(run past).lock k else (run past).lock k := by
  have hk := code_bits (lock_code_le k)
  have hle := lock_code_le k
  have hlock : ∀ s : State, ∀ e, { s with extcodeState := e }.lock k = s.lock k := by
    intro s e
    cases k <;> rfl
  rw [run]
  obtain ⟨rfl, hnext⟩ | ⟨hb, hgt, hnext⟩ | ⟨code, hcode, rfl, hnext⟩ | ⟨code, hcode, rfl, hnext⟩ :=
    handler_cases (run past) b
  · rw [hnext, hlock, if_neg hk.make_ne.symm]
  · have hne : b ≠ k.code := by
      rintro rfl
      rw [hk.make_mask] at hgt
      omega
    rw [hnext, hlock, if_neg hne]
  · have hne : code ||| 0x80 ≠ k.code := break_ne_make (code_bits hcode) hk
    rw [hnext, setKey_lock, hlock, if_neg hne]
  · rw [hnext, toggle_lock, setKey_lock, hlock]
    simp only [BitVec.toNat_inj]

theorem presses_cons (anyPrefix : Bool) (k : Lock) (b : Byte) (past : List Byte) :
    presses anyPrefix k.code (scanCodes (b :: past)) =
      presses anyPrefix k.code (scanCodes past) +
        if b = k.code ∧ IsPress anyPrefix k.code ⟨prefixed past, b⟩ (scanCodes past)
          then 1 else 0 := by
  have hk := code_bits (lock_code_le k)
  rcases eq_or_ne b 0xE0 with rfl | hb
  · rw [scanCodes_prefixByte, if_neg fun h => hk.make_ne h.1.symm, Nat.add_zero]
  · rw [scanCodes_cons hb, presses]
    have hcode : IsPress anyPrefix k.code ⟨prefixed past, b⟩ (scanCodes past) ↔
        b = k.code ∧ IsPress anyPrefix k.code ⟨prefixed past, b⟩ (scanCodes past) :=
      ⟨fun h => ⟨h.1, h⟩, fun h => h.2⟩
    simp only [← hcode]

/-- **Parity.** The lock has followed the presses as long as every make was one. -/
theorem lock_eq_presses {anyPrefix : Bool} {k : Lock} {bytes : List Byte}
    (h : ∀ earlier, k.code :: earlier <:+ bytes →
      IsPress anyPrefix k.code ⟨prefixed earlier, k.code⟩ (scanCodes earlier)) :
    (run bytes).lock k = decide (presses anyPrefix k.code (scanCodes bytes) % 2 = 1) := by
  induction bytes with
  | nil => cases k <;> rfl
  | cons b past ih =>
    have hpast := ih fun earlier hsuffix => h earlier (hsuffix.trans (List.suffix_cons b past))
    rw [run_lock, presses_cons, hpast]
    rcases eq_or_ne b k.code with rfl | hb
    · have hpress := h past List.suffix_rfl
      rw [if_pos rfl, if_pos ⟨rfl, hpress⟩, ← decide_not, decide_eq_decide]
      omega
    · rw [if_neg hb, if_neg fun h => hb h.1, Nat.add_zero]

/-- A make that is no press toggles the lock and counts for nothing. -/
theorem press_of_lock_eq {anyPrefix : Bool} {k : Lock} {past : List Byte}
    (hpast : (run past).lock k = decide (presses anyPrefix k.code (scanCodes past) % 2 = 1))
    (hnext : (run (k.code :: past)).lock k =
      decide (presses anyPrefix k.code (scanCodes (k.code :: past)) % 2 = 1)) :
    IsPress anyPrefix k.code ⟨prefixed past, k.code⟩ (scanCodes past) := by
  rw [run_lock, if_pos rfl, presses_cons, hpast] at hnext
  by_contra hpress
  rw [if_neg fun h => hpress h.2, Nat.add_zero] at hnext
  simp at hnext

/-! ## The law -/

theorem run_shift (past : List Byte) :
    (run past).shiftState = true ↔ ∃ code : Byte, (code = 0x2A ∨ code = 0x36) ∧
      ∃ later earlier, scanCodes past = later ++ ⟨false, code⟩ :: earlier ∧
        ScanCode.release ⟨false, code⟩ ∉ later := by
  have hl : (⟨false, 0x2A⟩ : ScanCode).code.toNat ≤ keyPrintScreen := by decide
  have hr : (⟨false, 0x36⟩ : ScanCode).code.toNat ≤ keyPrintScreen := by decide
  have hleft := ((rep_run past).keys ⟨false, 0x2A⟩ hl).trans (down_iff hl _)
  have hright := ((rep_run past).keys ⟨false, 0x36⟩ hr).trans (down_iff hr _)
  rw [State.shiftState, Bool.or_eq_true, decide_eq_true_eq, decide_eq_true_eq]
  constructor
  · rintro (h | h)
    · exact ⟨0x2A, Or.inl rfl, hleft.mp h⟩
    · exact ⟨0x36, Or.inr rfl, hright.mp h⟩
  · rintro ⟨code, rfl | rfl, h⟩
    · exact Or.inl (hleft.mpr h)
    · exact Or.inr (hright.mpr h)

/-- **The law.** It holds after each byte of a stream exactly when every make of
a lock code is a press. -/
theorem law_iff_presses (anyPrefix : Bool) (bytes : List Byte) :
    (∀ past, past <:+ bytes → Law anyPrefix past) ↔
      ∀ (k : Lock) (earlier : List Byte), k.code :: earlier <:+ bytes →
        IsPress anyPrefix k.code ⟨prefixed earlier, k.code⟩ (scanCodes earlier) := by
  constructor
  · intro hlaw k earlier hsuffix
    have hpast := hlaw earlier ((List.suffix_cons _ _).trans hsuffix)
    exact press_of_lock_eq (hpast.locks k) ((hlaw _ hsuffix).locks k)
  · intro hpress past hpast
    constructor
    · intro k
      exact lock_eq_presses fun earlier hsuffix => hpress k earlier (hsuffix.trans hpast)
    · exact run_shift past
    · rw [(rep_run past).extcode]
      simp [prefixed]
    · rintro earlier rfl
      rw [run, keymapHandler, if_pos rfl]

/-- A held CapsLock repeats its make, and the lock is off again. -/
theorem caps_repeat :
    (run [0x3A, 0x3A]).capslockState = false ∧
      presses false 0x3A (scanCodes [0x3A, 0x3A]) = 1 ∧
      presses true 0x3A (scanCodes [0x3A, 0x3A]) = 1 ∧
      ¬ Law false [0x3A, 0x3A] ∧ ¬ Law true [0x3A, 0x3A] := by
  have hlock : (run [0x3A, 0x3A]).lock .caps = false := by decide
  refine ⟨hlock, by decide, by decide, ?_, ?_⟩
  · intro h
    have hcaps := h.locks .caps
    rw [hlock] at hcaps
    exact absurd hcaps (by decide)
  · intro h
    have hcaps := h.locks .caps
    rw [hlock] at hcaps
    exact absurd hcaps (by decide)

end X64SmpOs.Keyboard

import Mathlib.Data.Nat.Digits.Lemmas
import X64SmpOs.Lib.Memory
import X64SmpOs.Lib.Words

/-!
# The numbers of `vsprintf`

`number` writes an `int` in a base, with a sign, a prefix, a least number of
digits and a field width.

* `number`: the code, which has no result where it would write past `tmp`, or where
  `size` would leave `int`;
* `fill_eq`: a loop `while (n-- > 0) *str++ = c`;
* `digitLoop_eq`: the divisions leave the digits of the number;
* `number_eq`: the text is a sign, a prefix and the digits, padded to the width;
* `number_scan`: the number can be read back from the text.
-/

namespace X64SmpOs.Vsprintf

open Memory Words

/-- A character constant. -/
def ch (c : Char) : Byte := BitVec.ofNat 8 c.toNat

/-- The bits `ZEROPAD`, `SIGN`, `PLUS`, `SPACE`, `LEFT`, `SPECIAL` and `SMALL`. -/
structure Flags where
  zeropad : Bool := false
  sign : Bool := false
  plus : Bool := false
  space : Bool := false
  left : Bool := false
  special : Bool := false
  small : Bool := false
  deriving DecidableEq

/-! ## The code -/

/-- The loop with its remaining rounds. -/
def fillLoop (c : Byte) : Nat → Int → List Byte × Int
  | 0, n => ([], n - 1)
  | k + 1, n => (c :: (fillLoop c k (n - 1)).1, (fillLoop c k (n - 1)).2)

/-- `while (n-- > 0) *str++ = c;`: what is stored, and `n` behind the loop. -/
def fill (c : Byte) (n : Int) : List Byte × Int := fillLoop c n.toNat n

def upperDigits : List Char := "0123456789ABCDEFGHIJKLMNOPQRSTUVWXYZ".toList

def lowerDigits : List Char := "0123456789abcdefghijklmnopqrstuvwxyz".toList

/-- `digits[i]`. -/
def digitChar (small : Bool) (i : Nat) : Byte :=
  ch ((if small then lowerDigits else upperDigits).getD i ' ')

/-- `while (num != 0) tmp[i++] = digits[do_div(num, base)];` with the room left in
`tmp`; the `div` instruction takes `num` as unsigned. -/
def digitLoop (small : Bool) (base : Nat) : Nat → Nat → Option (List Byte)
  | 0, num => if num = 0 then some [] else none
  | room + 1, num =>
    if num = 0 then some []
    else (digitLoop small base room (num / base)).map (digitChar small (num % base) :: ·)

/-- `char tmp[36]` behind the divisions. -/
def tmpDigits (small : Bool) (base num : Nat) : Option (List Byte) :=
  if num = 0 then some [ch '0'] else digitLoop small base 36 num

/-- The character in front of the number, `0` for none. -/
def signChar (num : Int) (type : Flags) : Byte :=
  if type.sign && decide (num < 0) then ch '-'
  else if type.plus then ch '+'
  else if type.space then ch ' '
  else 0

/-- What `size` is reduced by for the sign and for `0x` or `0`. -/
def signSize (sign : Byte) : Int := if sign ≠ 0 then 1 else 0

def specialSize (base : Nat) (type : Flags) : Int :=
  if type.special then (if base = 16 then 2 else if base = 8 then 1 else 0) else 0

def specialText (base : Nat) (type : Flags) : List Byte :=
  if type.special then
    if base = 8 then [ch '0'] else if base = 16 then [ch '0', digitChar type.small 33] else []
  else []

/-- From the digits in `tmp` on. -/
def assemble (sign : Byte) (tmp : List Byte) (base : Nat) (size precision : Int) (type : Flags) :
    List Byte :=
  let c := if type.zeropad then ch '0' else ch ' '
  let i : Int := tmp.length
  let precision := if precision < i then i else precision
  let size := size - precision
  let blanks := if type.zeropad || type.left then ([], size) else fill (ch ' ') size
  let signs := if sign ≠ 0 then [sign] else []
  let pad := if type.left then ([], blanks.2) else fill c blanks.2
  -- `while (i < precision--)`
  let zeros := fill (ch '0') (precision - i)
  let trail := fill (ch ' ') pad.2
  blanks.1 ++ signs ++ specialText base type ++ pad.1 ++ zeros.1 ++ tmp.reverse ++ trail.1

/-- `LEFT` takes `ZEROPAD` away. -/
def Flags.clearPad (type : Flags) : Flags :=
  if type.left then { type with zeropad := false } else type

/-- What `number` stores from `str` on; no result for a `NULL`, a write past `tmp`, or a
difference `size -= precision` that is no `int`. -/
def number (num : Int) (base : Nat) (size precision : Int) (type : Flags) : Option (List Byte) :=
  let type := type.clearPad
  if base < 2 ∨ 36 < base then none
  else
    let sign := signChar num type
    let num := if type.sign && decide (num < 0) then -num else num
    let size := size - signSize sign - specialSize base type
    (tmpDigits type.small base (u32OfInt num)).bind fun tmp =>
      if size - max precision tmp.length < -2 ^ 31 then none
      else some (assemble sign tmp base size precision type)

/-! ## Loops -/

theorem fillLoop_eq (c : Byte) (k : Nat) (n : Int) :
    fillLoop c k n = (List.replicate k c, n - k - 1) := by
  induction k generalizing n with
  | zero => simp [fillLoop]
  | succ k ih =>
    rw [fillLoop, ih, List.replicate_succ]
    congr 1
    push_cast
    omega

theorem fill_eq (c : Byte) (n : Int) : fill c n = (List.replicate n.toNat c, min n 0 - 1) := by
  rw [fill, fillLoop_eq]
  congr 1
  omega

theorem fill_nonpos (c : Byte) {n : Int} (h : n ≤ 0) : (fill c n).1 = [] := by
  rw [fill_eq, show n.toNat = 0 by omega, List.replicate_zero]

theorem fill_le (c : Byte) (n : Int) : (fill c n).2 ≤ 0 := by
  rw [fill_eq]
  omega

/-- A loop behind one that ran its counter out. -/
theorem fill_fill (c d : Byte) (n : Int) : (fill d (fill c n).2).1 = [] :=
  fill_nonpos d (fill_le c n)

/-- The divisions leave the digits, the lowest first. -/
theorem digitLoop_eq (small : Bool) {base : Nat} (hb : 2 ≤ base) {room num : Nat}
    (h : num < base ^ room) :
    digitLoop small base room num = some ((base.digits num).map (digitChar small)) := by
  induction room generalizing num with
  | zero =>
    have hnum : num = 0 := by simpa using h
    subst hnum
    simp [digitLoop]
  | succ room ih =>
    by_cases hnum : num = 0
    · subst hnum
      simp [digitLoop]
    · have hdiv : num / base < base ^ room := by
        rw [Nat.div_lt_iff_lt_mul (by omega), ← pow_succ]
        exact h
      have hdigits := Nat.digits_def' (show 1 < base by omega) (show 0 < num by omega)
      rw [digitLoop, if_neg hnum, ih hdiv, hdigits]
      rfl

theorem length_digitLoop {small : Bool} {base room num : Nat} {tmp : List Byte}
    (h : digitLoop small base room num = some tmp) : tmp.length ≤ room := by
  induction room generalizing num tmp with
  | zero =>
    rw [digitLoop] at h
    split at h
    · obtain rfl := Option.some.inj h
      exact Nat.le_refl 0
    · cases h
  | succ room ih =>
    rw [digitLoop] at h
    split at h
    · obtain rfl := Option.some.inj h
      exact Nat.zero_le _
    · obtain ⟨l, hl, rfl⟩ := Option.map_eq_some_iff.mp h
      exact Nat.succ_le_succ (ih hl)

theorem length_tmpDigits {small : Bool} {base num : Nat} {tmp : List Byte}
    (h : tmpDigits small base num = some tmp) : tmp.length ≤ 36 := by
  rw [tmpDigits] at h
  split at h
  · obtain rfl := Option.some.inj h
    decide
  · exact length_digitLoop h

/-- The digits `tmp` holds, a single zero for zero. -/
def digitsOf (base num : Nat) : List Nat := if num = 0 then [0] else base.digits num

/-- A number of 32 bits has at most 32 digits. -/
theorem tmpDigits_eq (small : Bool) {base num : Nat} (hb : 2 ≤ base) (h : num < 2 ^ 32) :
    tmpDigits small base num = some ((digitsOf base num).map (digitChar small)) := by
  by_cases hnum : num = 0
  · subst hnum
    cases small <;> rfl
  · have hroom : num < base ^ 36 :=
      calc num < 2 ^ 32 := h
        _ ≤ 2 ^ 36 := by decide
        _ ≤ base ^ 36 := Nat.pow_le_pow_left hb 36
    rw [tmpDigits, if_neg hnum, digitLoop_eq small hb hroom, digitsOf, if_neg hnum]

/-! ## The text -/

/-- The digits, with zeros in front up to the precision. -/
def digitText (small : Bool) (base num : Nat) (precision : Int) : List Byte :=
  List.replicate (precision - (digitsOf base num).length).toNat (ch '0') ++
    ((digitsOf base num).map (digitChar small)).reverse

/-- Sign and prefix. -/
def frontText (num : Int) (base : Nat) (type : Flags) : List Byte :=
  (if signChar num type ≠ 0 then [signChar num type] else []) ++ specialText base type

/-- A text in a field: to the left, with zeros behind its front part, or to the right. -/
def field (type : Flags) (size : Int) (front text : List Byte) : List Byte :=
  let room := (size - (front ++ text).length).toNat
  if type.left then front ++ text ++ List.replicate room (ch ' ')
  else if type.zeropad then front ++ List.replicate room (ch '0') ++ text
  else List.replicate room (ch ' ') ++ front ++ text

/-- The number whose digits are written. -/
def shown (num : Int) (type : Flags) : Nat :=
  u32OfInt (if type.sign && decide (num < 0) then -num else num)

theorem length_specialText (base : Nat) (type : Flags) :
    ((specialText base type).length : Int) = specialSize base type := by
  unfold specialText specialSize
  by_cases h16 : base = 16
  · subst h16
    cases type.special <;> simp
  · cases type.special <;> simp [h16]
    split <;> simp

theorem length_front (sign : Byte) (base : Nat) (type : Flags) :
    (((if sign ≠ 0 then [sign] else []) ++ specialText base type).length : Int) =
      signSize sign + specialSize base type := by
  rw [List.length_append, Nat.cast_add, length_specialText]
  congr 1
  unfold signSize
  split <;> rfl

theorem length_field (type : Flags) (size : Int) (front text : List Byte) :
    (field type size front text).length =
      max size.toNat (front.length + text.length) := by
  simp only [field]
  split
  · simp only [List.length_append, List.length_replicate]
    omega
  · split <;> simp only [List.length_append, List.length_replicate] <;> omega

/-- What the loops leave of the width is the room beside the text. -/
theorem room_eq (tmp : List Byte) (size precision : Int) {front : List Byte} {front' : Int}
    (hfront : (front.length : Int) = front') :
    (size - front' -
        (if precision < (tmp.length : Int) then (tmp.length : Int) else precision)).toNat
      = (size - (front ++ (List.replicate (precision - tmp.length).toNat (ch '0') ++
          tmp.reverse)).length).toNat := by
  simp only [List.length_append, List.length_replicate, List.length_reverse]
  push_cast
  split <;> omega

/-- The four loops pad on one side, or between the sign and the digits. -/
theorem assemble_eq (sign : Byte) (tmp : List Byte) (base : Nat) (size precision : Int)
    {type : Flags} (hpad : type.left = true → type.zeropad = false) :
    assemble sign tmp base (size - signSize sign - specialSize base type) precision type =
      field type size ((if sign ≠ 0 then [sign] else []) ++ specialText base type)
        (List.replicate (precision - tmp.length).toNat (ch '0') ++ tmp.reverse) := by
  have hroom := room_eq tmp size precision (length_front sign base type)
  rw [← Int.sub_sub] at hroom
  have hzeros : ((if precision < (tmp.length : Int) then (tmp.length : Int) else precision) -
      tmp.length).toNat = (precision - tmp.length).toNat := by split <;> omega
  cases hleft : type.left with
  | true =>
    have hz := hpad hleft
    simp only [assemble, field, hleft, hz, fill_eq, hroom, hzeros, if_true, Bool.or_true,
      List.nil_append, List.append_assoc]
  | false =>
    cases hz : type.zeropad with
    | true =>
      simp only [assemble, field, hleft, hz, if_true, Bool.or_false, Bool.false_eq_true, if_false,
        List.nil_append, fill_fill, List.append_nil]
      simp only [fill_eq, hroom, hzeros, List.append_assoc]
    | false =>
      simp only [assemble, field, hleft, hz, Bool.or_false, Bool.false_eq_true, if_false]
      rw [fill_fill, fill_nonpos _ (fill_le _ (fill _ _).2)]
      simp only [fill_eq, hroom, hzeros, List.append_assoc, List.append_nil]

theorem u32OfInt_lt (i : Int) : u32OfInt i < 2 ^ 32 := by
  simp only [u32OfInt]
  omega

theorem signSize_le (sign : Byte) : signSize sign ≤ 1 := by
  unfold signSize
  split <;> decide

theorem specialSize_le (base : Nat) (type : Flags) : specialSize base type ≤ 2 := by
  unfold specialSize
  split_ifs <;> decide

/-- **Text of a number.** -/
theorem number_eq (num : Int) {base : Nat} (h2 : 2 ≤ base) (h36 : base ≤ 36)
    {size precision : Int} (hsize : -2 ^ 29 ≤ size) (hprecision : precision < 2 ^ 30)
    (type : Flags) :
    number num base size precision type =
      some (field type.clearPad size (frontText num base type.clearPad)
        (digitText type.small base (shown num type) precision)) := by
  have hpad : type.clearPad.left = true → type.clearPad.zeropad = false := by
    unfold Flags.clearPad
    split
    · exact fun _ => rfl
    · exact fun h => absurd h (by assumption)
  have hsmall : type.clearPad.small = type.small := by unfold Flags.clearPad; split <;> rfl
  have hsign : type.clearPad.sign = type.sign := by unfold Flags.clearPad; split <;> rfl
  have htmp := tmpDigits_eq type.small h2
    (u32OfInt_lt (if type.sign && decide (num < 0) then -num else num))
  have hint : ¬ (size - signSize (signChar num type.clearPad) - specialSize base type.clearPad -
      max precision ((digitsOf base (shown num type)).map (digitChar type.small)).length <
        -2 ^ 31) := by
    have hlen := length_tmpDigits htmp
    have hfront := signSize_le (signChar num type.clearPad)
    have hspecial := specialSize_le base type.clearPad
    rw [shown]
    omega
  simp only [number]
  rw [if_neg (by omega), hsmall, hsign, htmp, Option.bind_some]
  rw [shown] at hint
  rw [if_neg hint, assemble_eq _ _ _ _ _ hpad]
  simp only [digitText, frontText, shown, List.length_map]

/-! ## Reading a number back -/

/-- The value of a digit character. -/
def digitVal (c : Byte) : Option Nat :=
  if ch '0' ≤ c ∧ c ≤ ch '9' then some (c.toNat - 48)
  else if ch 'A' ≤ c ∧ c ≤ ch 'Z' then some (c.toNat - 55)
  else if ch 'a' ≤ c ∧ c ≤ ch 'z' then some (c.toNat - 87)
  else none

/-- A character read as the next digit; what is no digit of the base is passed over. -/
def scanStep (base acc : Nat) (c : Byte) : Nat :=
  match digitVal c with
  | some d => if d < base then acc * base + d else acc
  | none => acc

def scan (base : Nat) (text : List Byte) : Nat := text.foldl (scanStep base) 0

/-- The number a text stands for. -/
def readInt (base : Nat) (text : List Byte) : Int :=
  if ch '-' ∈ text then -(scan base text : Int) else scan base text

theorem digitVal_digitChar (small : Bool) {d : Nat} (h : d < 36) :
    digitVal (digitChar small d) = some d := by
  have hall : ∀ (small : Bool) (d : Fin 36), digitVal (digitChar small d) = some d.val := by decide
  exact hall small ⟨d, h⟩

theorem foldl_silent {base : Nat} {l : List Byte} (h : ∀ c ∈ l, ∀ acc, scanStep base acc c = acc)
    (acc : Nat) : l.foldl (scanStep base) acc = acc := by
  induction l with
  | nil => rfl
  | cons c l ih =>
    rw [List.foldl_cons, h c List.mem_cons_self]
    exact ih fun d hd => h d (List.mem_cons_of_mem c hd)

theorem foldl_blanks (base n acc : Nat) :
    (List.replicate n (ch ' ')).foldl (scanStep base) acc = acc :=
  foldl_silent (fun c hc _ => by rw [List.eq_of_mem_replicate hc]; rfl) acc

theorem foldl_zeros {base : Nat} (hb : 2 ≤ base) (n : Nat) :
    (List.replicate n (ch '0')).foldl (scanStep base) 0 = 0 := by
  have hzero : digitVal (ch '0') = some 0 := by decide
  induction n with
  | zero => rfl
  | succ n ih => simpa [List.replicate_succ, scanStep, hzero, show 0 < base by omega] using ih

/-- The digits, the highest first. -/
theorem foldl_digits (small : Bool) {base : Nat} (h36 : base ≤ 36) {ds : List Nat}
    (hds : ∀ d ∈ ds, d < base) :
    (ds.map (digitChar small)).reverse.foldl (scanStep base) 0 = Nat.ofDigits base ds := by
  induction ds with
  | nil => rfl
  | cons d ds ih =>
    have hd := hds d List.mem_cons_self
    have hval : digitVal (digitChar small d) = some d := digitVal_digitChar small (by omega)
    rw [List.map_cons, List.reverse_cons, List.foldl_append,
      ih fun e he => hds e (List.mem_cons_of_mem d he)]
    simp only [List.foldl_cons, List.foldl_nil, scanStep, hval, if_pos hd, Nat.ofDigits_cons]
    rw [Nat.mul_comm, Nat.add_comm]

theorem digitsOf_lt {base num : Nat} (hb : 2 ≤ base) : ∀ d ∈ digitsOf base num, d < base := by
  intro d hd
  unfold digitsOf at hd
  split at hd
  · obtain rfl := List.mem_singleton.mp hd
    omega
  · exact Nat.digits_lt_base (by omega) hd

theorem ofDigits_digitsOf (base num : Nat) : Nat.ofDigits base (digitsOf base num) = num := by
  unfold digitsOf
  split
  · rename_i h
    subst h
    simp
  · exact Nat.ofDigits_digits base num

theorem foldl_digitText (small : Bool) {base : Nat} (h2 : 2 ≤ base) (h36 : base ≤ 36) (num : Nat)
    (precision : Int) : (digitText small base num precision).foldl (scanStep base) 0 = num := by
  rw [digitText, List.foldl_append, foldl_zeros h2, foldl_digits small h36 (digitsOf_lt h2),
    ofDigits_digitsOf]

/-- A sign is no digit, and the prefix stands for zero. -/
theorem foldl_frontText (num : Int) {base : Nat} (h2 : 2 ≤ base) (type : Flags) :
    (frontText num base type).foldl (scanStep base) 0 = 0 := by
  have hsign : (if signChar num type ≠ 0 then [signChar num type] else []).foldl
      (scanStep base) 0 = 0 := by
    refine foldl_silent (fun c hc acc => ?_) 0
    split at hc
    · obtain rfl := List.mem_singleton.mp hc
      unfold signChar
      split_ifs <;> rfl
    · cases hc
  have hzero : scanStep base 0 (ch '0') = 0 := foldl_zeros h2 1
  rw [frontText, List.foldl_append, hsign, specialText]
  split
  · split
    · exact hzero
    · split
      · rename_i h16
        subst h16
        cases type.small <;> rfl
      · rfl
  · rfl

theorem scan_field (type : Flags) (size : Int) {base : Nat} (h2 : 2 ≤ base) {front : List Byte}
    (text : List Byte) (hfront : front.foldl (scanStep base) 0 = 0) :
    scan base (field type size front text) = text.foldl (scanStep base) 0 := by
  simp only [scan, field]
  split
  · simp only [List.foldl_append, hfront, foldl_blanks]
  · split
    · simp only [List.foldl_append, hfront, foldl_zeros h2]
    · simp only [List.foldl_append, hfront, foldl_blanks]

theorem minus_mem_field (type : Flags) (size : Int) (front text : List Byte) :
    ch '-' ∈ field type size front text ↔ ch '-' ∈ front ∨ ch '-' ∈ text := by
  have hblank : ch '-' ≠ ch ' ' := by decide
  have hzero : ch '-' ≠ ch '0' := by decide
  simp only [field]
  split
  · simp [List.mem_replicate, hblank]
  · split <;> simp [List.mem_replicate, hblank, hzero]

theorem minus_not_mem_digitText (small : Bool) {base : Nat} (h2 : 2 ≤ base) (h36 : base ≤ 36)
    (num : Nat) (precision : Int) : ch '-' ∉ digitText small base num precision := by
  have hzero : ch '-' ≠ ch '0' := by decide
  have hnone : digitVal (ch '-') = none := by decide
  intro h
  rcases List.mem_append.mp h with h | h
  · exact hzero (List.eq_of_mem_replicate h)
  · obtain ⟨d, hd, hd'⟩ := List.mem_map.mp (List.mem_reverse.mp h)
    have hlt := digitsOf_lt h2 d hd
    rw [← hd', digitVal_digitChar small (by omega)] at hnone
    cases hnone

theorem minus_mem_frontText (num : Int) (base : Nat) (type : Flags) :
    ch '-' ∈ frontText num base type ↔ type.sign = true ∧ num < 0 := by
  have hspecial : ch '-' ∉ specialText base type := by
    unfold specialText
    split_ifs
    · decide
    · cases type.small <;> decide
    · exact List.not_mem_nil
    · exact List.not_mem_nil
  have hsign : ch '-' ∈ (if signChar num type ≠ 0 then [signChar num type] else []) ↔
      signChar num type = ch '-' := by
    split
    · simp [eq_comm]
    · rename_i h
      rw [not_not.mp h]
      decide
  rw [frontText, List.mem_append, hsign, or_iff_left hspecial, signChar]
  by_cases hneg : type.sign = true ∧ num < 0
  · simp [hneg]
  · have hcond : (type.sign && decide (num < 0)) = false := by
      simpa [Bool.and_eq_false_iff, not_and_or] using hneg
    rw [hcond]
    refine iff_of_false ?_ hneg
    cases type.plus <;> cases type.space <;> decide

/-- **Round trip of a number.** In every base, with every flag, and a width and a precision
that keep `size` an `int`, `number` stays inside `tmp`, fills the field, and the `int` can
be read back from its text, as signed or as unsigned. -/
theorem number_scan (num : BitVec 32) {base : Nat} (h2 : 2 ≤ base) (h36 : base ≤ 36)
    {size precision : Int} (hsize : -2 ^ 29 ≤ size) (hprecision : precision < 2 ^ 30)
    (type : Flags) :
    ∃ text, number num.toInt base size precision type = some text ∧
      size.toNat ≤ text.length ∧
      readInt base text = if type.sign = true then num.toInt else num.toNat := by
  have hsign : type.clearPad.sign = type.sign := by unfold Flags.clearPad; split <;> rfl
  have hminus : ch '-' ∈ field type.clearPad size (frontText num.toInt base type.clearPad)
      (digitText type.small base (shown num.toInt type) precision) ↔
      type.sign = true ∧ num.toInt < 0 := by
    rw [minus_mem_field, or_iff_left (minus_not_mem_digitText _ h2 h36 _ _), minus_mem_frontText,
      hsign]
  have hscan := scan_field type.clearPad size h2
    (digitText type.small base (shown num.toInt type) precision)
    (foldl_frontText num.toInt h2 type.clearPad)
  rw [foldl_digitText _ h2 h36] at hscan
  refine ⟨_, number_eq num.toInt h2 h36 hsize hprecision type, ?_, ?_⟩
  · rw [length_field]
    exact le_max_left _ _
  · have hlt := num.isLt
    have hint := BitVec.toInt_eq_toNat_cond num
    rw [readInt, hscan]
    by_cases hneg : type.sign = true ∧ num.toInt < 0
    · rw [if_pos (hminus.mpr hneg), if_pos hneg.1, shown, if_pos (by simpa using hneg), u32OfInt]
      split at hint <;> omega
    · rw [if_neg (fun h => hneg (hminus.mp h)), shown, if_neg (by simpa using hneg), u32OfInt]
      by_cases hs : type.sign = true
      · have hpos : ¬ num.toInt < 0 := fun h => hneg ⟨hs, h⟩
        rw [if_pos hs]
        split at hint <;> omega
      · rw [if_neg hs]
        split at hint <;> omega

/-- `-42` with its sign, in a field of six with leading zeros. -/
theorem number_scan_minus : ∃ text,
    number (-42) 10 6 (-1) { sign := true, zeropad := true } = some text ∧ 6 ≤ text.length ∧
      readInt 10 text = -42 :=
  number_scan (-42#32) (by decide) (by decide) (by decide) (by decide)
    { sign := true, zeropad := true }

end X64SmpOs.Vsprintf

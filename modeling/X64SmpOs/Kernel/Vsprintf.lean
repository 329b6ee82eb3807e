import X64SmpOs.Kernel.Number

/-!
# The formats of `vsprintf`

`vsprintf` walks the format once. A `*` is looked at but not passed over, so the
conversion that follows the width is the `*` itself, which is none.

* `vsprintf`: the code; the format is the memory from `fmt` on, and there is no
  result where the walk would leave it, or where a number in it is no `int`;
* `Format`: formats as pieces, with `spell` and `render`;
* `directive_spell`: a directive is read to its end and rendered;
* `exists_format`: every string is spelled by a format;
* `vsprintf_eq_render`: the code renders the format, and reads nothing behind
  its NUL;
* `vsprintf_x86`: with the `va_arg` of the x86 kernel every argument is the first.
-/

namespace X64SmpOs.Vsprintf

open Memory Words

/-! ## The code -/

/-- Both bounds are below `0x80`, so the sign of `char` does not matter. -/
def isDigit (c : Byte) : Bool := decide (ch '0' ≤ c ∧ c ≤ ch '9')

/-- `i` is the value so far; no result where `i*10 + c` is no `int`. -/
def skipAtoi : Nat → List Byte → Option (Nat × List Byte)
  | _, [] => none
  | i, c :: s =>
    if isDigit c then
      if 2 ^ 31 ≤ i * 10 + c.toNat then none else skipAtoi (i * 10 + (c.toNat - 48)) s
    else some (i, c :: s)

/-- What the arguments are read from: the words of the `va_list`, how many words
`va_arg` goes on, and the strings in memory up to their NUL. -/
structure Args where
  word : Nat → BitVec 64
  stride : Nat
  str : BitVec 64 → List Byte

/-- `va_arg(args, int)`, or a word passed on to the `int num` of `number`. -/
def Args.int (e : Args) (pos : Nat) : Int := ((e.word pos).setWidth 32).toInt

/-- What is stored from `buf` up to `str`, the next word of the `va_list`, and the
stores through `%n`. -/
structure Out where
  text : List Byte
  arg : Nat
  stores : List (BitVec 64 × Nat)
  deriving DecidableEq

def setFlag (flags : Flags) (c : Byte) : Option Flags :=
  if c = ch '-' then some { flags with left := true }
  else if c = ch '+' then some { flags with plus := true }
  else if c = ch ' ' then some { flags with space := true }
  else if c = ch '#' then some { flags with special := true }
  else if c = ch '0' then some { flags with zeropad := true }
  else none

/-- The loop at `repeat`. -/
def skipFlags : Flags → List Byte → Option (Flags × List Byte)
  | _, [] => none
  | flags, c :: fmt =>
    match setFlag flags c with
    | some flags => skipFlags flags fmt
    | none => some (flags, c :: fmt)

/-- `field_width` and the flags; a `*` stays in front. -/
def fieldWidth (e : Args) (arg : Nat) (flags : Flags) :
    List Byte → Option (Int × Flags × Nat × List Byte)
  | [] => none
  | c :: fmt =>
    if isDigit c then (skipAtoi 0 (c :: fmt)).map fun r => ((r.1 : Int), flags, arg, r.2)
    else if c = ch '*' then
      if e.int arg < 0 then
        some (-e.int arg, { flags with left := true }, arg + e.stride, c :: fmt)
      else some (e.int arg, flags, arg + e.stride, c :: fmt)
    else some (-1, flags, arg, c :: fmt)

/-- Behind the `.`; a `*` stays in front. -/
def pointPrecision (e : Args) (arg : Nat) : List Byte → Option (Int × Nat × List Byte)
  | [] => none
  | c :: fmt =>
    if isDigit c then (skipAtoi 0 (c :: fmt)).map fun r => ((r.1 : Int), arg, r.2)
    else if c = ch '*' then
      some (if e.int arg < 0 then 0 else e.int arg, arg + e.stride, c :: fmt)
    else some (0, arg, c :: fmt)

/-- `precision`. -/
def getPrecision (e : Args) (arg : Nat) : List Byte → Option (Int × Nat × List Byte)
  | [] => none
  | c :: fmt => if c = ch '.' then pointPrecision e arg fmt else some (-1, arg, c :: fmt)

/-- Nothing reads `qualifier`. -/
def skipQualifier : List Byte → Option (List Byte)
  | [] => none
  | c :: fmt => some (if c = ch 'h' ∨ c = ch 'l' ∨ c = ch 'L' then fmt else c :: fmt)

/-- `while (--n > 0) *str++ = c;` -/
def fillPre (c : Byte) (n : Int) : List Byte × Int :=
  ((fill c (n - 1)).1, (fill c (n - 1)).2 + 1)

def charText (flags : Flags) (width : Int) (b : Byte) : List Byte :=
  let before := if flags.left then ([], width) else fillPre (ch ' ') width
  before.1 ++ [b] ++ (fillPre (ch ' ') before.2).1

/-- `while (len < field_width--)` counts what the field is longer than the string. -/
def strText (flags : Flags) (width precision : Int) (s : List Byte) : List Byte :=
  let len : Int := s.length
  let len := if precision < 0 then len else if precision < len then precision else len
  let before := if flags.left then ([], width - len) else fill (ch ' ') (width - len)
  before.1 ++ s.take len.toNat ++ (fill (ch ' ') before.2).1

/-- A text stored, and the argument it was made from taken. -/
def Out.take (o : Out) (e : Args) (text : List Byte) : Out :=
  { o with text := o.text ++ text, arg := o.arg + e.stride }

/-- A text stored that takes no argument. -/
def Out.put (o : Out) (text : List Byte) : Out := { o with text := o.text ++ text }

/-- The `switch` on the conversion, and the format behind it. -/
def convert (e : Args) (o : Out) (flags : Flags) (width precision : Int) :
    List Byte → Option (Out × List Byte)
  | [] => none
  | c :: fmt =>
    let num := e.int o.arg
    if c = ch 'c' then some (o.take e (charText flags width ((e.word o.arg).setWidth 8)), fmt)
    else if c = ch 's' then
      some (o.take e (strText flags width precision (e.str (e.word o.arg))), fmt)
    else if c = ch 'o' then
      (number num 8 width precision flags).map fun t => (o.take e t, fmt)
    else if c = ch 'p' then
      let wide := if width = -1 then 8 else width
      let flags := if width = -1 then { flags with zeropad := true } else flags
      (number num 16 wide precision flags).map fun t => (o.take e t, fmt)
    else if c = ch 'x' then
      (number num 16 width precision { flags with small := true }).map fun t => (o.take e t, fmt)
    else if c = ch 'X' then
      (number num 16 width precision flags).map fun t => (o.take e t, fmt)
    else if c = ch 'd' ∨ c = ch 'i' then
      (number num 10 width precision { flags with sign := true }).map fun t => (o.take e t, fmt)
    else if c = ch 'u' then
      (number num 10 width precision flags).map fun t => (o.take e t, fmt)
    else if c = ch 'n' then
      some ({ o with arg := o.arg + e.stride,
                     stores := o.stores ++ [(e.word o.arg, o.text.length)] }, fmt)
    else if c = ch '%' then some (o.put [c], fmt)
    else if c = 0 then some (o.put [ch '%'], c :: fmt)
    else some (o.put [ch '%', c], fmt)

/-- From behind the `%` to behind the conversion. -/
def directive (e : Args) (o : Out) (fmt : List Byte) : Option (Out × List Byte) := do
  let (flags, fmt) ← skipFlags {} fmt
  let (width, flags, arg, fmt) ← fieldWidth e o.arg flags fmt
  let (precision, arg, fmt) ← getPrecision e arg fmt
  let fmt ← skipQualifier fmt
  convert e { o with arg := arg } flags width precision fmt

/-- The `for` loop, up to the NUL. Every round takes a byte of the format, so the
fuel is never used up. -/
def loop (e : Args) : Nat → Out → List Byte → Option Out
  | 0, _, _ => none
  | _ + 1, _, [] => none
  | fuel + 1, o, c :: fmt =>
    if c = 0 then some o
    else if c ≠ ch '%' then loop e fuel (o.put [c]) fmt
    else
      match directive e o fmt with
      | none => none
      | some (o, fmt) => loop e fuel o fmt

/-- The text in `buf`, which a NUL ends; its length is returned. -/
def vsprintf (e : Args) (fmt : List Byte) : Option Out :=
  loop e (fmt.length + 1) ⟨[], 0, []⟩ fmt

/-! ## Formats -/

inductive FlagChar
  | minus
  | plus
  | space
  | special
  | zero
  deriving DecidableEq

def FlagChar.char : FlagChar → Byte
  | .minus => ch '-'
  | .plus => ch '+'
  | .space => ch ' '
  | .special => ch '#'
  | .zero => ch '0'

def FlagChar.set (flags : Flags) : FlagChar → Flags
  | .minus => { flags with left := true }
  | .plus => { flags with plus := true }
  | .space => { flags with space := true }
  | .special => { flags with special := true }
  | .zero => { flags with zeropad := true }

inductive Qualifier
  | h
  | l
  | L
  deriving DecidableEq

def Qualifier.char : Qualifier → Byte
  | .h => ch 'h'
  | .l => ch 'l'
  | .L => ch 'L'

def digitByte (d : Fin 10) : Byte := BitVec.ofNat 8 (48 + d)

/-- What stands between the `%` and the conversion; no width is no digits. -/
structure Head where
  flags : List FlagChar
  width : List (Fin 10)
  precision : Option (List (Fin 10))
  qualifier : Option Qualifier

/-- A leading zero of the width would be a flag. -/
def Head.WF (h : Head) : Prop := h.width.head? ≠ some 0

def spellPrecision : Option (List (Fin 10)) → List Byte
  | none => []
  | some ds => ch '.' :: ds.map digitByte

def spellQualifier : Option Qualifier → List Byte
  | none => []
  | some q => [q.char]

def Head.spell (h : Head) : List Byte :=
  h.flags.map FlagChar.char ++ (h.width.map digitByte ++
    (spellPrecision h.precision ++ spellQualifier h.qualifier))

def isQualifier (c : Byte) : Prop := c = ch 'h' ∨ c = ch 'l' ∨ c = ch 'L'

/-- The character does not belong to the head in front of it. -/
def Head.Stops (h : Head) (c : Byte) : Prop :=
  h.qualifier = none → ¬ isQualifier c ∧ isDigit c = false ∧
    (h.precision = none → c ≠ ch '.' ∧ (h.width = [] → setFlag {} c = none))

inductive Piece
  | lit (c : Byte)
  | dir (h : Head) (c : Byte)

def Piece.WF : Piece → Prop
  | .lit c => c ≠ 0 ∧ c ≠ ch '%'
  | .dir h c => h.WF ∧ c ≠ 0 ∧ h.Stops c

def Piece.spell : Piece → List Byte
  | .lit c => [c]
  | .dir h c => ch '%' :: (h.spell ++ [c])

/-- Pieces, and a directive that the end of the format cuts off. -/
structure Format where
  pieces : List Piece
  cut : Option Head

structure Format.WF (f : Format) : Prop where
  pieces : ∀ p ∈ f.pieces, p.WF
  cut : ∀ h ∈ f.cut, h.WF

def spellCut : Option Head → List Byte
  | none => []
  | some h => ch '%' :: h.spell

def Format.spell (f : Format) : List Byte := f.pieces.flatMap Piece.spell ++ spellCut f.cut

/-! ## What a format stands for -/

def valueFrom (i : Nat) (ds : List (Fin 10)) : Nat := ds.foldl (fun i d => i * 10 + d.val) i

def value (ds : List (Fin 10)) : Nat := valueFrom 0 ds

def Head.flagBits (h : Head) : Flags := h.flags.foldl FlagChar.set {}

/-- The width, `-1` for none. -/
def Head.widthOf (h : Head) : Int := if h.width = [] then -1 else value h.width

def Head.precisionOf (h : Head) : Int :=
  match h.precision with
  | none => -1
  | some ds => value ds

/-- The numbers in a head, well inside `int`. -/
structure Head.Fits (h : Head) : Prop where
  width : value h.width < 2 ^ 30
  precision : ∀ ds ∈ h.precision, value ds < 2 ^ 30

def Piece.Fits : Piece → Prop
  | .lit _ => True
  | .dir h _ => h.Fits

structure Format.Fits (f : Format) : Prop where
  pieces : ∀ p ∈ f.pieces, p.Fits
  cut : ∀ h ∈ f.cut, h.Fits

/-- A `*` where a width or a precision may stand takes an argument. -/
def Head.takesStar (h : Head) (c : Byte) : Prop :=
  c = ch '*' ∧ h.qualifier = none ∧ (h.width = [] ∧ h.precision = none ∨ h.precision = some [])

instance (h : Head) (c : Byte) : Decidable (h.takesStar c) := by
  unfold Head.takesStar
  infer_instance

/-- A text on the left or the right of a field. -/
def justify (left : Bool) (width : Int) (text : List Byte) : List Byte :=
  let room := List.replicate (width - text.length).toNat (ch ' ')
  if left then text ++ room else room ++ text

/-- The string up to the precision. -/
def cutText (precision : Int) (s : List Byte) : List Byte :=
  if precision < 0 then s else s.take precision.toNat

/-- A number with its flags: sign, prefix and digits in their field. -/
def numText (num : Int) (base : Nat) (width precision : Int) (flags : Flags) : List Byte :=
  field flags.clearPad width (frontText num base flags.clearPad)
    (digitText flags.small base (shown num flags) precision)

/-- What a conversion does. -/
def render (e : Args) (o : Out) (flags : Flags) (width precision : Int) (c : Byte) : Out :=
  let num := e.int o.arg
  if c = ch 'c' then o.take e (justify flags.left width [(e.word o.arg).setWidth 8])
  else if c = ch 's' then
    o.take e (justify flags.left width (cutText precision (e.str (e.word o.arg))))
  else if c = ch 'o' then o.take e (numText num 8 width precision flags)
  else if c = ch 'p' then
    if width = -1 then o.take e (numText num 16 8 precision { flags with zeropad := true })
    else o.take e (numText num 16 width precision flags)
  else if c = ch 'x' then o.take e (numText num 16 width precision { flags with small := true })
  else if c = ch 'X' then o.take e (numText num 16 width precision flags)
  else if c = ch 'd' ∨ c = ch 'i' then
    o.take e (numText num 10 width precision { flags with sign := true })
  else if c = ch 'u' then o.take e (numText num 10 width precision flags)
  else if c = ch 'n' then
    { o with arg := o.arg + e.stride, stores := o.stores ++ [(e.word o.arg, o.text.length)] }
  else if c = ch '%' then o.put [c]
  else if c = 0 then o.put [ch '%']
  else o.put [ch '%', c]

def Head.render (e : Args) (o : Out) (h : Head) (c : Byte) : Out :=
  Vsprintf.render e { o with arg := if h.takesStar c then o.arg + e.stride else o.arg }
    h.flagBits h.widthOf h.precisionOf c

def Piece.render (e : Args) (o : Out) : Piece → Out
  | .lit c => o.put [c]
  | .dir h c => h.render e o c

/-- A directive cut off stands for its `%`. -/
def renderCut (e : Args) (o : Out) : Option Head → Out
  | none => o
  | some h => h.render e o 0

def Format.render (e : Args) (f : Format) : Out :=
  renderCut e (f.pieces.foldl (Piece.render e) ⟨[], 0, []⟩) f.cut

/-! ## The texts of the conversions -/

theorem fillPre_nonpos (c : Byte) {n : Int} (h : n ≤ 1) : (fillPre c n).1 = [] :=
  fill_nonpos c (by omega)

theorem charText_eq (flags : Flags) (width : Int) (b : Byte) :
    charText flags width b = justify flags.left width [b] := by
  have hbehind : ∀ n : Int, (fillPre (ch ' ') (fillPre (ch ' ') n).2).1 = [] := by
    intro n
    have hle := fill_le (ch ' ') (n - 1)
    exact fillPre_nonpos _ (by simp only [fillPre]; omega)
  unfold charText justify
  cases flags.left
  · simp only [Bool.false_eq_true, if_false]
    rw [hbehind]
    simp [fillPre, fill_eq]
  · simp [fillPre, fill_eq]

theorem strText_eq (flags : Flags) (width precision : Int) (s : List Byte) :
    strText flags width precision s = justify flags.left width (cutText precision s) := by
  have htake : s.take (if precision < 0 then (s.length : Int) else if precision < s.length
      then precision else s.length).toNat = cutText precision s := by
    unfold cutText
    split
    · simp
    · split
      · rfl
      · rw [Int.toNat_natCast, List.take_length, List.take_of_length_le (by omega)]
  have hlen : (if precision < 0 then (s.length : Int) else if precision < s.length
      then precision else s.length) = (cutText precision s).length := by
    rw [← htake, List.length_take]
    split
    · omega
    · split <;> omega
  simp only [strText, justify, htake]
  rw [hlen]
  cases flags.left
  · simp only [Bool.false_eq_true, if_false, fill_fill, List.append_nil]
    rw [fill_eq]
  · simp only [if_true, List.nil_append]
    rw [fill_eq]

/-- **Conversion.** A NUL is left where it is. -/
theorem convert_eq (e : Args) (o : Out) (flags : Flags) {width precision : Int}
    (hwidth : -2 ^ 29 ≤ width) (hprecision : precision < 2 ^ 30) (c : Byte) (fmt : List Byte) :
    convert e o flags width precision (c :: fmt) =
      some (render e o flags width precision c, if c = 0 then c :: fmt else fmt) := by
  have hnum : ∀ num base flags, 2 ≤ base → base ≤ 36 →
      number num base width precision flags = some (numText num base width precision flags) :=
    fun num base flags h2 h36 => number_eq num h2 h36 hwidth hprecision flags
  have hptr : ∀ num flags, number num 16 8 precision flags =
      some (numText num 16 8 precision flags) := fun num flags =>
    number_eq num (by decide) (by decide) (by decide) hprecision flags
  by_cases h0 : c = 0
  · subst h0
    rfl
  simp only [convert, render, charText_eq, strText_eq, if_neg h0,
    hnum _ 8 _ (by decide) (by decide), hnum _ 10 _ (by decide) (by decide),
    hnum _ 16 _ (by decide) (by decide), Option.map_some]
  by_cases hp : c = ch 'p'
  · subst hp
    by_cases hw : width = -1
    · simp [hw, ch, hptr]
    · simp [hw, ch, hnum _ 16 _ (by decide) (by decide)]
  · simp only [if_neg hp]
    split_ifs <;> rfl

/-! ## Reading a directive -/

theorem setFlag_none_iff (flags : Flags) (c : Byte) :
    setFlag flags c = none ↔ setFlag {} c = none := by
  unfold setFlag
  split_ifs <;> simp

theorem setFlag_char (flags : Flags) (f : FlagChar) :
    setFlag flags f.char = some (f.set flags) := by
  cases f <;> rfl

theorem isDigit_digitByte (d : Fin 10) : isDigit (digitByte d) = true := by
  revert d
  decide

theorem digitByte_sub (d : Fin 10) : (digitByte d).toNat - 48 = d := by
  revert d
  decide

/-- A digit is a flag only if it is zero. -/
theorem setFlag_digitByte {d : Fin 10} (h : d ≠ 0) : setFlag {} (digitByte d) = none := by
  revert d
  decide

theorem skipFlags_spell (fs : List FlagChar) (flags : Flags) {c : Byte} (fmt : List Byte)
    (hc : setFlag {} c = none) :
    skipFlags flags (fs.map FlagChar.char ++ c :: fmt) =
      some (fs.foldl FlagChar.set flags, c :: fmt) := by
  induction fs generalizing flags with
  | nil =>
    have hnone := (setFlag_none_iff flags c).mpr hc
    simp [skipFlags, hnone]
  | cons f fs ih => simpa [skipFlags, setFlag_char] using ih (f.set flags)

theorem le_valueFrom (i : Nat) (ds : List (Fin 10)) : i ≤ valueFrom i ds := by
  induction ds generalizing i with
  | nil => exact Nat.le_refl i
  | cons d ds ih =>
    have hle := ih (i * 10 + d.val)
    rw [valueFrom, List.foldl_cons]
    rw [valueFrom] at hle
    omega

theorem digitByte_toNat (d : Fin 10) : (digitByte d).toNat = 48 + d := by
  revert d
  decide

theorem skipAtoi_spell (ds : List (Fin 10)) {i : Nat} (hi : valueFrom i ds < 2 ^ 30) {c : Byte}
    (fmt : List Byte) (hc : isDigit c = false) :
    skipAtoi i (ds.map digitByte ++ c :: fmt) =
      some (valueFrom i ds, c :: fmt) := by
  induction ds generalizing i with
  | nil => simp [skipAtoi, hc, valueFrom]
  | cons d ds ih =>
    have hle : i * 10 + d.val ≤ valueFrom i (d :: ds) := le_valueFrom (i * 10 + d.val) ds
    have hint : ¬ 2 ^ 31 ≤ i * 10 + (digitByte d).toNat := by
      rw [digitByte_toNat]
      omega
    rw [List.map_cons, List.cons_append, skipAtoi, if_pos (isDigit_digitByte d), if_neg hint,
      digitByte_sub, ih hi]
    rfl

/-- What follows the width. -/
def afterWidth (h : Head) (c : Byte) (fmt : List Byte) : List Byte :=
  spellPrecision h.precision ++ (spellQualifier h.qualifier ++ c :: fmt)

/-- The first character behind the width. -/
def nextChar (h : Head) (c : Byte) : Byte :=
  match h.precision, h.qualifier with
  | some _, _ => ch '.'
  | none, some q => q.char
  | none, none => c

theorem afterWidth_eq (h : Head) (c : Byte) (fmt : List Byte) :
    ∃ l, afterWidth h c fmt = nextChar h c :: l := by
  rcases h with ⟨fs, ds, _ | ps, _ | q⟩
  all_goals exact ⟨_, rfl⟩

theorem qualifier_plain (q : Qualifier) :
    isDigit q.char = false ∧ setFlag {} q.char = none ∧ q.char ≠ ch '*' ∧ q.char ≠ ch '.' := by
  cases q <;> decide

theorem isDigit_nextChar {h : Head} {c : Byte} (hc : h.Stops c) :
    isDigit (nextChar h c) = false := by
  rcases h with ⟨fs, ds, _ | ps, _ | q⟩
  · exact (hc rfl).2.1
  · exact (qualifier_plain q).1
  all_goals rfl

theorem setFlag_nextChar {h : Head} {c : Byte} (hc : h.Stops c) (hw : h.width = []) :
    setFlag {} (nextChar h c) = none := by
  rcases h with ⟨fs, ds, _ | ps, _ | q⟩
  · exact ((hc rfl).2.2 rfl).2 hw
  · exact (qualifier_plain q).2.1
  all_goals rfl

/-- A `*` where the width may stand. -/
def Head.starWidth (h : Head) (c : Byte) : Prop :=
  h.width = [] ∧ h.precision = none ∧ h.qualifier = none ∧ c = ch '*'

/-- A `*` behind the point. -/
def Head.starPrecision (h : Head) (c : Byte) : Prop :=
  h.precision = some [] ∧ h.qualifier = none ∧ c = ch '*'

theorem starWidth_iff {h : Head} {c : Byte} (hw : h.width = []) :
    nextChar h c = ch '*' ↔ h.starWidth c := by
  rcases h with ⟨fs, ds, _ | ps, _ | q⟩
  · simp_all [nextChar, Head.starWidth]
  · simp [nextChar, Head.starWidth, (qualifier_plain q).2.2.1]
  all_goals simp [nextChar, Head.starWidth, ch]

theorem takesStar_iff (h : Head) (c : Byte) :
    h.takesStar c ↔ h.starWidth c ∨ h.starPrecision c := by
  unfold Head.takesStar Head.starWidth Head.starPrecision
  tauto

/-- **Width.** Unless a `*` stands there, the number read is the width. -/
theorem fieldWidth_spell (e : Args) (arg : Nat) (flags : Flags) {h : Head} {c : Byte}
    (fmt : List Byte) (hc : h.Stops c) (hfits : h.Fits) :
    ∃ width flags', fieldWidth e arg flags (h.width.map digitByte ++ afterWidth h c fmt) =
        some (width, flags', if h.width = [] ∧ nextChar h c = ch '*' then arg + e.stride else arg,
          afterWidth h c fmt) ∧
      (¬ h.starWidth c → width = h.widthOf ∧ flags' = flags) := by
  obtain ⟨l, hl⟩ := afterWidth_eq h c fmt
  have hdigit := isDigit_nextChar hc
  rw [hl]
  cases hw : h.width with
  | nil =>
    by_cases hstar : nextChar h c = ch '*'
    · have hno : ¬ ¬ h.starWidth c := not_not.mpr ((starWidth_iff hw).mp hstar)
      have hsd : isDigit (ch '*') = false := rfl
      by_cases hneg : e.int arg < 0
      · exact ⟨-e.int arg, { flags with left := true }, by simp [fieldWidth, hsd, hstar, hneg],
          fun h => absurd h hno⟩
      · exact ⟨e.int arg, flags, by simp [fieldWidth, hsd, hstar, hneg], fun h => absurd h hno⟩
    · refine ⟨-1, flags, ?_, fun _ => ⟨by simp [Head.widthOf, hw], rfl⟩⟩
      simp [fieldWidth, hdigit, hstar]
  | cons d ds =>
    have hread := skipAtoi_spell (d :: ds) (hw ▸ hfits.width) l hdigit
    refine ⟨value (d :: ds), flags, ?_, fun _ => ⟨by simp [Head.widthOf, hw], rfl⟩⟩
    rw [List.map_cons, List.cons_append] at hread ⊢
    rw [fieldWidth, if_pos (isDigit_digitByte d), hread]
    simp [value]

/-- **Precision.** -/
theorem getPrecision_spell (e : Args) (arg : Nat) {h : Head} {c : Byte} (fmt : List Byte)
    (hc : h.Stops c) (hfits : h.Fits) :
    ∃ precision, getPrecision e arg (afterWidth h c fmt) =
        some (precision, if h.precision = some [] ∧ h.qualifier = none ∧ c = ch '*'
          then arg + e.stride else arg, spellQualifier h.qualifier ++ c :: fmt) ∧
      (¬ h.starPrecision c → precision = h.precisionOf) := by
  rcases h with ⟨fs, ws, _ | ds, q⟩
  · have hdot : ∃ d l, spellQualifier q ++ c :: fmt = d :: l ∧ d ≠ ch '.' := by
      cases q with
      | none => exact ⟨c, fmt, rfl, ((hc rfl).2.2 rfl).1⟩
      | some q => exact ⟨q.char, c :: fmt, rfl, (qualifier_plain q).2.2.2⟩
    obtain ⟨d, l, hl, hd⟩ := hdot
    refine ⟨-1, ?_, fun _ => rfl⟩
    simp [afterWidth, spellPrecision, hl, getPrecision, hd]
  · have hnext : ∃ d l, spellQualifier q ++ c :: fmt = d :: l ∧ isDigit d = false ∧
        (d = ch '*' ↔ q = none ∧ c = ch '*') := by
      cases q with
      | none => exact ⟨c, fmt, rfl, (hc rfl).2.1, by simp⟩
      | some q =>
        exact ⟨q.char, c :: fmt, rfl, (qualifier_plain q).1, by simp [(qualifier_plain q).2.2.1]⟩
    obtain ⟨d, l, hl, hd, hstar⟩ := hnext
    simp only [afterWidth, spellPrecision, List.cons_append, getPrecision, if_true, hl]
    cases ds with
    | nil =>
      by_cases hs : d = ch '*'
      · have hqc := hstar.mp hs
        refine ⟨if e.int arg < 0 then 0 else e.int arg, ?_, fun h => absurd ⟨rfl, hqc⟩ h⟩
        simp [pointPrecision, hs, hqc, show isDigit (ch '*') = false from rfl]
      · have hqc : ¬ (q = none ∧ c = ch '*') := fun h => hs (hstar.mpr h)
        refine ⟨0, ?_, fun _ => by simp [Head.precisionOf, value, valueFrom]⟩
        simp [pointPrecision, hd, hs, hqc]
    | cons x ds =>
      have hread := skipAtoi_spell (x :: ds) (hfits.precision _ rfl) l hd
      refine ⟨value (x :: ds), ?_, fun _ => rfl⟩
      rw [List.map_cons, List.cons_append] at hread ⊢
      rw [pointPrecision, if_pos (isDigit_digitByte x), hread]
      simp [value]

theorem skipQualifier_spell {h : Head} {c : Byte} (fmt : List Byte) (hc : h.Stops c) :
    skipQualifier (spellQualifier h.qualifier ++ c :: fmt) = some (c :: fmt) := by
  cases hq : h.qualifier with
  | none =>
    have hno := (hc hq).1
    simp only [isQualifier] at hno
    simp [spellQualifier, skipQualifier, hno]
  | some q => cases q <;> rfl

/-- No conversion reads a width or a precision that a `*` stood for. -/
theorem convert_star (e : Args) (o : Out) (flags : Flags) (width precision : Int)
    (fmt : List Byte) :
    convert e o flags width precision (ch '*' :: fmt) = some (o.put [ch '%', ch '*'], fmt) := rfl

theorem render_star (e : Args) (o : Out) (flags : Flags) (width precision : Int) :
    render e o flags width precision (ch '*') = o.put [ch '%', ch '*'] := rfl

theorem Head.widthOf_ge (h : Head) : -2 ^ 29 ≤ h.widthOf := by
  unfold Head.widthOf
  split <;> omega

theorem Head.Fits.precisionOf {h : Head} (hfits : h.Fits) : h.precisionOf < 2 ^ 30 := by
  unfold Head.precisionOf
  split
  · decide
  · next ds hds =>
    have hlt := hfits.precision ds hds
    omega

/-- **Directive.** It is read to its conversion, which is rendered. -/
theorem directive_spell (e : Args) (o : Out) {h : Head} {c : Byte} (fmt : List Byte) (hwf : h.WF)
    (hc : h.Stops c) (hfits : h.Fits) :
    directive e o (h.spell ++ c :: fmt) =
      some (h.render e o c, if c = 0 then c :: fmt else fmt) := by
  have hspell : h.spell ++ c :: fmt =
      h.flags.map FlagChar.char ++ (h.width.map digitByte ++ afterWidth h c fmt) := by
    simp [Head.spell, afterWidth]
  -- what stops the flags: a digit of the width, or what follows it
  have hflags : skipFlags {} (h.spell ++ c :: fmt) =
      some (h.flagBits, h.width.map digitByte ++ afterWidth h c fmt) := by
    rw [hspell]
    cases hw : h.width with
    | nil =>
      obtain ⟨l, hl⟩ := afterWidth_eq h c fmt
      rw [List.map_nil, List.nil_append, hl]
      exact skipFlags_spell h.flags {} l (setFlag_nextChar hc hw)
    | cons d ds =>
      have hd : d ≠ 0 := fun hd => hwf (by rw [hw, hd]; rfl)
      exact skipFlags_spell h.flags {} _ (setFlag_digitByte hd)
  obtain ⟨width, flags, hwidth, hwidth'⟩ := fieldWidth_spell e o.arg h.flagBits fmt hc hfits
  obtain ⟨precision, hprec, hprec'⟩ := getPrecision_spell e
    (if h.width = [] ∧ nextChar h c = ch '*' then o.arg + e.stride else o.arg) fmt hc hfits
  have harg : (if h.precision = some [] ∧ h.qualifier = none ∧ c = ch '*' then
      (if h.width = [] ∧ nextChar h c = ch '*' then o.arg + e.stride else o.arg) + e.stride
      else if h.width = [] ∧ nextChar h c = ch '*' then o.arg + e.stride else o.arg) =
      if h.takesStar c then o.arg + e.stride else o.arg := by
    have hstar : (h.width = [] ∧ nextChar h c = ch '*') ↔ h.starWidth c :=
      ⟨fun ⟨hw, hn⟩ => (starWidth_iff hw).mp hn, fun hs => ⟨hs.1, (starWidth_iff hs.1).mpr hs⟩⟩
    have htwo : (h.precision = some [] ∧ h.qualifier = none ∧ c = ch '*') ↔ h.starPrecision c :=
      Iff.rfl
    have hone : ¬ (h.starWidth c ∧ h.starPrecision c) := by
      rintro ⟨⟨-, hp, -⟩, hp', -⟩
      rw [hp] at hp'
      cases hp'
    have htakes := takesStar_iff h c
    by_cases h1 : h.starWidth c
    · have h2 : ¬ h.starPrecision c := fun h2 => hone ⟨h1, h2⟩
      rw [if_neg (mt htwo.mp h2), if_pos (hstar.mpr h1), if_pos (htakes.mpr (.inl h1))]
    · rw [if_neg (mt hstar.mp h1)]
      by_cases h2 : h.starPrecision c
      · rw [if_pos (htwo.mpr h2), if_pos (htakes.mpr (.inr h2))]
      · rw [if_neg (mt htwo.mp h2), if_neg (fun h => (htakes.mp h).elim h1 h2)]
  simp only [directive, hflags, hwidth, hprec, skipQualifier_spell fmt hc, Option.bind_eq_bind,
    Option.bind_some, harg, Head.render]
  by_cases hs : h.takesStar c
  · obtain rfl := hs.1
    rw [convert_star, render_star]
    rfl
  · rw [takesStar_iff, not_or] at hs
    obtain ⟨rfl, rfl⟩ := hwidth' hs.1
    rw [hprec' hs.2, convert_eq e _ _ h.widthOf_ge hfits.precisionOf]

/-! ## Every string is a format -/

theorem exists_flags (s : List Byte) :
    ∃ (fs : List FlagChar) (l : List Byte), s = fs.map FlagChar.char ++ l ∧
      ∀ c l', l = c :: l' → setFlag {} c = none := by
  induction s with
  | nil => exact ⟨[], [], rfl, fun _ _ h => by cases h⟩
  | cons c s ih =>
    obtain ⟨fs, l, rfl, hl⟩ := ih
    by_cases hc : setFlag {} c = none
    · refine ⟨[], _, rfl, fun d l' h => ?_⟩
      obtain ⟨rfl, -⟩ := List.cons.inj h
      exact hc
    · obtain ⟨f, hf⟩ : ∃ f : FlagChar, f.char = c := by
        simp only [setFlag] at hc
        split_ifs at hc with h1 h2 h3 h4 h5
        · exact ⟨.minus, h1.symm⟩
        · exact ⟨.plus, h2.symm⟩
        · exact ⟨.space, h3.symm⟩
        · exact ⟨.special, h4.symm⟩
        · exact ⟨.zero, h5.symm⟩
        · exact absurd rfl hc
      exact ⟨f :: fs, l, by rw [List.map_cons, List.cons_append, hf], hl⟩

theorem exists_digit {c : Byte} (h : isDigit c = true) : ∃ d, digitByte d = c := by
  obtain ⟨h1, h2⟩ := of_decide_eq_true h
  have h1' : 48 ≤ c.toNat := h1
  have h2' : c.toNat ≤ 57 := h2
  refine ⟨⟨c.toNat - 48, by omega⟩, ?_⟩
  apply BitVec.eq_of_toNat_eq
  simp only [digitByte, BitVec.toNat_ofNat]
  omega

theorem exists_digits (s : List Byte) :
    ∃ (ds : List (Fin 10)) (l : List Byte), s = ds.map digitByte ++ l ∧
      ∀ c l', l = c :: l' → isDigit c = false := by
  induction s with
  | nil => exact ⟨[], [], rfl, fun _ _ h => by cases h⟩
  | cons c s ih =>
    obtain ⟨ds, l, rfl, hl⟩ := ih
    cases hc : isDigit c with
    | false =>
      refine ⟨[], _, rfl, fun d l' h => ?_⟩
      obtain ⟨rfl, -⟩ := List.cons.inj h
      exact hc
    | true =>
      obtain ⟨d, hd⟩ := exists_digit hc
      exact ⟨d :: ds, l, by rw [List.map_cons, List.cons_append, hd], hl⟩

theorem exists_precision {s : List Byte} (hs : ∀ c l, s = c :: l → isDigit c = false) :
    ∃ (p : Option (List (Fin 10))) (l : List Byte), s = spellPrecision p ++ l ∧
      (∀ c l', l = c :: l' → isDigit c = false) ∧
      (p = none → l = s ∧ ∀ c l', l = c :: l' → c ≠ ch '.') := by
  cases s with
  | nil =>
    refine ⟨none, [], rfl, fun _ _ h => ?_, fun _ => ⟨rfl, fun _ _ h => ?_⟩⟩
    · cases h
    · cases h
  | cons c s =>
    by_cases hc : c = ch '.'
    · obtain ⟨ds, l, rfl, hl⟩ := exists_digits s
      exact ⟨some ds, l, by rw [hc]; rfl, hl, fun h => by cases h⟩
    · refine ⟨none, c :: s, rfl, hs, fun _ => ⟨rfl, fun d l' h => ?_⟩⟩
      obtain ⟨rfl, -⟩ := List.cons.inj h
      exact hc

theorem exists_qualifier (s : List Byte) :
    ∃ (q : Option Qualifier) (l : List Byte), s = spellQualifier q ++ l ∧
      (q = none → l = s ∧ ∀ c l', l = c :: l' → ¬ isQualifier c) := by
  cases s with
  | nil => exact ⟨none, [], rfl, fun _ => ⟨rfl, fun _ _ h => by cases h⟩⟩
  | cons c s =>
    by_cases hc : isQualifier c
    · obtain ⟨q, hq⟩ : ∃ q : Qualifier, q.char = c := by
        rcases hc with hc | hc | hc
        · exact ⟨.h, hc.symm⟩
        · exact ⟨.l, hc.symm⟩
        · exact ⟨.L, hc.symm⟩
      exact ⟨some q, s, by rw [spellQualifier, hq]; rfl, fun h => by cases h⟩
    · refine ⟨none, c :: s, rfl, fun _ => ⟨rfl, fun d l' h => ?_⟩⟩
      obtain ⟨rfl, -⟩ := List.cons.inj h
      exact hc

/-- The head of a directive, as long as it can be. -/
theorem exists_head (s : List Byte) :
    ∃ (h : Head) (l : List Byte), s = h.spell ++ l ∧ h.WF ∧ ∀ c l', l = c :: l' → h.Stops c := by
  obtain ⟨fs, s1, rfl, hflag⟩ := exists_flags s
  obtain ⟨ws, s2, rfl, hdigit⟩ := exists_digits s1
  obtain ⟨p, s3, rfl, hdigit3, hp⟩ := exists_precision hdigit
  obtain ⟨q, l, rfl, hq⟩ := exists_qualifier s3
  refine ⟨⟨fs, ws, p, q⟩, l, by simp [Head.spell], ?_, fun c l' hl hnone => ?_⟩
  · intro hzero
    cases ws with
    | nil => cases hzero
    | cons d ds =>
      obtain rfl := Option.some.inj hzero
      have hz := hflag _ _ (List.cons_append ..)
      exact absurd hz (by decide)
  · obtain ⟨hl3, hqual⟩ := hq hnone
    refine ⟨hqual c l' hl, hdigit3 c l' (hl3 ▸ hl), fun hpnone => ?_⟩
    obtain ⟨hl2, hdot⟩ := hp hpnone
    refine ⟨hdot c l' (hl3 ▸ hl), fun hwnone => hflag c l' ?_⟩
    have hws : ws = [] := hwnone
    rw [hws, List.map_nil, List.nil_append, ← hl2, ← hl3, hl]

/-- **Formats.** Every string without a NUL is spelled by a format. -/
theorem exists_format (s : List Byte) (hs : (0 : Byte) ∉ s) :
    ∃ f : Format, f.WF ∧ f.spell = s := by
  induction hn : s.length using Nat.strong_induction_on generalizing s with
  | _ n ih =>
    subst hn
    cases s with
    | nil => exact ⟨⟨[], none⟩, ⟨by simp, by simp⟩, rfl⟩
    | cons c s =>
      have hc : c ≠ 0 := fun h => hs (h ▸ List.mem_cons_self)
      have hrest : (0 : Byte) ∉ s := fun h => hs (List.mem_cons_of_mem c h)
      by_cases hpct : c = ch '%'
      · obtain ⟨h, l, hl, hwf, hstop⟩ := exists_head s
        subst hl hpct
        cases l with
        | nil =>
          exact ⟨⟨[], some h⟩, ⟨by simp, by simpa using hwf⟩, by simp [Format.spell, spellCut]⟩
        | cons d l =>
          have hd : d ≠ 0 := fun h' => hrest (h' ▸ List.mem_append_right _ List.mem_cons_self)
          have hl : (0 : Byte) ∉ l :=
            fun h' => hrest (List.mem_append_right _ (List.mem_cons_of_mem d h'))
          obtain ⟨f, hf, hsp⟩ := ih l.length (by simp; omega) l hl rfl
          refine ⟨⟨.dir h d :: f.pieces, f.cut⟩, ⟨?_, hf.cut⟩, ?_⟩
          · intro p hp
            rcases List.mem_cons.mp hp with rfl | hp
            · exact ⟨hwf, hd, hstop d l rfl⟩
            · exact hf.pieces p hp
          · rw [← hsp]
            simp [Format.spell, Piece.spell]
      · obtain ⟨f, hf, hsp⟩ := ih s.length (by simp) s hrest rfl
        refine ⟨⟨.lit c :: f.pieces, f.cut⟩, ⟨?_, hf.cut⟩, ?_⟩
        · intro p hp
          rcases List.mem_cons.mp hp with rfl | hp
          · exact ⟨hc, hpct⟩
          · exact hf.pieces p hp
        · rw [← hsp]
          simp [Format.spell, Piece.spell]

/-! ## The loop -/

/-- The end of the format stops every head. -/
theorem stops_nul (h : Head) : h.Stops 0 := by
  refine fun _ => ⟨?_, rfl, fun _ => ⟨by decide, fun _ => rfl⟩⟩
  simp only [isQualifier]
  decide

/-- The end of the format, with a directive it cuts off. -/
theorem loop_cut (e : Args) (o : Out) {cut : Option Head} (hcut : ∀ h ∈ cut, h.WF)
    (hfits : ∀ h ∈ cut, h.Fits) (rest : List Byte) (fuel : Nat) :
    loop e (fuel + 2) o (spellCut cut ++ 0 :: rest) = some (renderCut e o cut) := by
  cases cut with
  | none => rfl
  | some h =>
    have hdir := directive_spell e o rest (hcut h rfl) (stops_nul h) (hfits h rfl)
    rw [if_pos rfl] at hdir
    rw [spellCut, List.cons_append, loop, if_neg (by decide), if_neg (by simp), hdir]
    rfl

/-- One round for each piece. -/
theorem loop_pieces (e : Args) {ps : List Piece} (hps : ∀ p ∈ ps, p.WF)
    (hfits : ∀ p ∈ ps, p.Fits) (o : Out) (l : List Byte) (fuel : Nat) :
    loop e (fuel + ps.length) o (ps.flatMap Piece.spell ++ l) =
      loop e fuel (ps.foldl (Piece.render e) o) l := by
  induction ps generalizing o with
  | nil => rfl
  | cons p ps ih =>
    have hrest := ih (fun q hq => hps q (List.mem_cons_of_mem p hq))
      fun q hq => hfits q (List.mem_cons_of_mem p hq)
    have hp := hps p List.mem_cons_self
    have hpfits := hfits p List.mem_cons_self
    rw [List.flatMap_cons, List.length_cons, ← Nat.add_assoc, List.append_assoc, List.foldl_cons]
    cases p with
    | lit c =>
      rw [Piece.spell, List.singleton_append, loop, if_neg hp.1, if_pos hp.2, hrest]
      rfl
    | dir h c =>
      obtain ⟨hwf, hc, hstop⟩ := hp
      have hdir := directive_spell e o (ps.flatMap Piece.spell ++ l) hwf hstop hpfits
      rw [if_neg hc] at hdir
      rw [Piece.spell, List.cons_append, List.append_assoc, List.singleton_append, loop,
        if_neg (by decide), if_neg (by simp), hdir]
      exact hrest (h.render e o c)

theorem length_pieces_le (ps : List Piece) : ps.length ≤ (ps.flatMap Piece.spell).length := by
  induction ps with
  | nil => simp
  | cons p ps ih =>
    have hp : 1 ≤ p.spell.length := by cases p <;> simp [Piece.spell]
    rw [List.length_cons, List.flatMap_cons, List.length_append]
    omega

/-- **Rendering.** What a format spells is rendered, whatever lies behind its NUL. -/
theorem vsprintf_spell (e : Args) {f : Format} (hf : f.WF) (hfits : f.Fits) (rest : List Byte) :
    vsprintf e (f.spell ++ 0 :: rest) = some (f.render e) := by
  have hlen := length_pieces_le f.pieces
  obtain ⟨fuel, hfuel⟩ :
      ∃ fuel, (f.spell ++ 0 :: rest).length + 1 = fuel + 2 + f.pieces.length := by
    refine ⟨(f.spell ++ 0 :: rest).length + 1 - (2 + f.pieces.length), ?_⟩
    simp only [Format.spell, List.length_append, List.length_cons]
    omega
  rw [vsprintf, hfuel, Format.spell, List.append_assoc, loop_pieces e hf.pieces hfits.pieces,
    loop_cut e _ hf.cut hfits.cut]
  rfl

/-- **`vsprintf`.** Every string is a format, and the walk over it renders the format:
it ends, reads nothing behind the NUL, and stays inside the digits it divides. -/
theorem vsprintf_eq_render (s : List Byte) (hs : (0 : Byte) ∉ s) :
    (∃ f : Format, f.WF ∧ f.spell = s) ∧
      ∀ f : Format, f.WF → f.spell = s → f.Fits → ∀ (e : Args) (rest : List Byte),
        vsprintf e (s ++ 0 :: rest) = some (f.render e) := by
  refine ⟨exists_format s hs, fun f hf hspell hfits e rest => ?_⟩
  rw [← hspell]
  exact vsprintf_spell e hf hfits rest

/-- `"%d %d"`. -/
def pairFormat : Format :=
  ⟨[.dir ⟨[], [], none, none⟩ (ch 'd'), .lit (ch ' '), .dir ⟨[], [], none, none⟩ (ch 'd')], none⟩

theorem pairFormat_wf : pairFormat.WF := by
  have hd : (Piece.dir ⟨[], [], none, none⟩ (ch 'd')).WF := by
    have hno : ¬ isQualifier (ch 'd') := by
      unfold isQualifier
      decide
    have hwf : (⟨[], [], none, none⟩ : Head).WF := by
      unfold Head.WF
      decide
    exact ⟨hwf, by decide, fun _ => ⟨hno, rfl, fun _ => ⟨by decide, fun _ => rfl⟩⟩⟩
  have hblank : (Piece.lit (ch ' ')).WF := ⟨by decide, by decide⟩
  refine ⟨fun p hp => ?_, fun h hh => by cases hh⟩
  simp only [pairFormat, List.mem_cons, List.not_mem_nil, or_false] at hp
  obtain rfl | rfl | rfl := hp
  · exact hd
  · exact hblank
  · exact hd

theorem pairFormat_fits : pairFormat.Fits := by
  have hd : (⟨[], [], none, none⟩ : Head).Fits := ⟨by decide, fun ds hds => by cases hds⟩
  refine ⟨fun p hp => ?_, fun h hh => by cases hh⟩
  simp only [pairFormat, List.mem_cons, List.not_mem_nil, or_false] at hp
  obtain rfl | rfl | rfl := hp
  · exact hd
  · exact trivial
  · exact hd

theorem vsprintf_eq_render_pair : vsprintf ⟨fun n => BitVec.ofNat 64 (7 + n), 1, fun _ => []⟩
    ("%d %d".toList.map ch ++ 0 :: []) =
      some (pairFormat.render ⟨fun n => BitVec.ofNat 64 (7 + n), 1, fun _ => []⟩) :=
  (vsprintf_eq_render ("%d %d".toList.map ch) (by decide)).2 pairFormat pairFormat_wf rfl
    pairFormat_fits _ []

/-! ## The x86 kernel -/

/-- `va_arg` of the x86 kernel goes on by the size of the type less that of a pointer,
which is nothing for all types `vsprintf` asks for. -/
def Args.x86 (word : Nat → BitVec 64) (str : BitVec 64 → List Byte) : Args := ⟨word, 0, str⟩

/-- `va_arg` of the x64 kernel. -/
def Args.x64 (word : Nat → BitVec 64) (str : BitVec 64 → List Byte) : Args := ⟨word, 1, str⟩

/-- The same text and stores; the x86 kernel is still at the first argument. -/
structure SameOut (o o' : Out) : Prop where
  text : o.text = o'.text
  stores : o.stores = o'.stores
  arg : o.arg = 0

/-- A conversion reads one word. -/
theorem render_congr {e e' : Args} {o o' : Out} (hstr : e.str = e'.str)
    (hword : e.word o.arg = e'.word o'.arg) (htext : o.text = o'.text)
    (hstores : o.stores = o'.stores) (flags : Flags) (width precision : Int) (c : Byte) :
    (render e o flags width precision c).text = (render e' o' flags width precision c).text ∧
      (render e o flags width precision c).stores =
        (render e' o' flags width precision c).stores := by
  have hint : e.int o.arg = e'.int o'.arg := by rw [Args.int, Args.int, hword]
  constructor
  · simp only [render, apply_ite Out.text, Out.take, Out.put, hint, hword, hstr, htext]
  · simp only [render, apply_ite Out.stores, Out.take, Out.put, hword, htext, hstores]

/-- Without a step of `va_arg` a conversion stays at its word. -/
theorem render_arg {e : Args} (h : e.stride = 0) (o : Out) (flags : Flags)
    (width precision : Int) (c : Byte) : (render e o flags width precision c).arg = o.arg := by
  simp only [render, apply_ite Out.arg, Out.take, Out.put, h, Nat.add_zero, ite_self]

section
variable (word : Nat → BitVec 64) (str : BitVec 64 → List Byte)

theorem SameOut.render {o o' : Out} (h : SameOut o o') (hd : Head) (c : Byte) :
    SameOut (hd.render (Args.x86 word str) o c)
      (hd.render (Args.x64 (fun _ => word 0) str) o' c) := by
  have harg : (if hd.takesStar c then o.arg + (Args.x86 word str).stride else o.arg) = 0 := by
    rw [h.arg]
    exact ite_self 0
  unfold Head.render
  rw [harg]
  obtain ⟨htext, hstores⟩ := @render_congr (Args.x86 word str) (Args.x64 (fun _ => word 0) str)
    { o with arg := 0 }
    { o' with arg := if hd.takesStar c then o'.arg + (Args.x64 (fun _ => word 0) str).stride
        else o'.arg }
    rfl rfl h.text h.stores hd.flagBits hd.widthOf hd.precisionOf c
  exact ⟨htext, hstores, render_arg rfl _ _ _ _ _⟩

theorem SameOut.piece {o o' : Out} (h : SameOut o o') (p : Piece) :
    SameOut (p.render (Args.x86 word str) o) (p.render (Args.x64 (fun _ => word 0) str) o') := by
  cases p with
  | lit c => exact ⟨congrArg (· ++ [c]) h.text, h.stores, h.arg⟩
  | dir hd c => exact h.render word str hd c

theorem SameOut.pieces {o o' : Out} (h : SameOut o o') (ps : List Piece) :
    SameOut (ps.foldl (Piece.render (Args.x86 word str)) o)
      (ps.foldl (Piece.render (Args.x64 (fun _ => word 0) str)) o') := by
  induction ps generalizing o o' with
  | nil => exact h
  | cons p ps ih => exact ih (h.piece word str p)

theorem sameOut_render (f : Format) :
    SameOut (f.render (Args.x86 word str)) (f.render (Args.x64 (fun _ => word 0) str)) := by
  have hstart : SameOut ⟨[], 0, []⟩ ⟨[], 0, []⟩ := ⟨rfl, rfl, rfl⟩
  have hps := hstart.pieces word str f.pieces
  unfold Format.render
  cases f.cut with
  | none => exact hps
  | some hd => exact hps.render word str hd 0

/-- **Arguments of the x86 kernel.** For every format, what it prints and stores is what
the x64 kernel prints when all arguments are the first one. -/
theorem vsprintf_x86 {f : Format} (hf : f.WF) (hfits : f.Fits) (rest : List Byte) :
    ∃ o o', vsprintf (Args.x86 word str) (f.spell ++ 0 :: rest) = some o ∧
      vsprintf (Args.x64 (fun _ => word 0) str) (f.spell ++ 0 :: rest) = some o' ∧
      o.text = o'.text ∧ o.stores = o'.stores := by
  have hsame := sameOut_render word str f
  exact ⟨_, _, vsprintf_spell _ hf hfits rest, vsprintf_spell _ hf hfits rest, hsame.text,
    hsame.stores⟩

end

/-- `"%d %d"` prints its first argument twice. -/
theorem vsprintf_x86_pair : ∃ o o',
    vsprintf (Args.x86 (fun n => BitVec.ofNat 64 (7 + n)) fun _ => [])
      (pairFormat.spell ++ 0 :: []) = some o ∧
    vsprintf (Args.x64 (fun _ => 7#64) fun _ => []) (pairFormat.spell ++ 0 :: []) = some o' ∧
    o.text = o'.text ∧ o.stores = o'.stores :=
  vsprintf_x86 (fun n => BitVec.ofNat 64 (7 + n)) (fun _ => []) pairFormat_wf pairFormat_fits []

end X64SmpOs.Vsprintf

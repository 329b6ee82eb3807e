import Mathlib.Data.Nat.ModEq
import X64SmpOs.Lib.Memory
import X64SmpOs.Lib.Words

/-!
# The text console

`console.c` keeps the start of the screen in video memory, the address of the
cursor and its column and row. `console_write` carries a pointer of its own
beside them.

* `Console`, `scrollUp`, `commandLf`, `commandCr`, `commandBs`, `commandDel`,
  `Write.char`, `consoleWrite`, `consoleInit`;
* `Cursor`: where the cursor is on the ring of rows, and how a byte moves it;
* `At.char`, `At.loop`: the console follows the cursor;
* `chunks_iff`: when a string may be cut in two calls.
-/

namespace X64SmpOs.ChrDrv

open Memory Words

def memBase : Nat := 0xB8000
def memSize : Nat := 0x4000
def memEnd : Nat := memBase + memSize
def width : Nat := 80
def height : Nat := 25
def rowSize : Nat := width * 2
def scrSize : Nat := rowSize * height

/-- A space, grey on black. -/
def blank : Nat := 0x0720

/-! ## State -/

/-- The statics of `console.c` and the memory. `stores` has the address and the
size of every store so far; no function reads it. The registers of the CRT
controller are only written and are left out. -/
structure Console where
  mem : Mem
  screen : Nat
  pos : Nat
  x : Nat
  y : Nat
  stores : List (Nat × Nat)

/-- The copies of the file. They differ in the width of a pointer. -/
inductive Copy
  | x86
  | x64
  deriving DecidableEq, Repr

def Copy.bits : Copy → Nat
  | .x86 => 32
  | .x64 => 64

/-- A store of `n` bytes. -/
def Console.store (s : Console) (n a v : Nat) : Console :=
  { s with
    mem := writeLE n s.mem a v
    stores := s.stores ++ [(a, n)] }

/-- `k` stores of `n` bytes, one behind the other. -/
def Console.fill (n v : Nat) : Nat → Nat → Console → Console
  | 0, _, s => s
  | k + 1, a, s => Console.fill n v k (a + n) (s.store n a v)

/-- `memcpy((void *)MEM_BASE, (const void *)screen, SCR_SIZE)`. -/
def copyScreen (s : Console) : Console :=
  { s with
    mem := fun a =>
      if memBase ≤ a ∧ a < memBase + scrSize then s.mem (s.screen + (a - memBase)) else s.mem a
    stores := s.stores ++ [(memBase, scrSize)] }

def consoleClear (s : Console) : Console :=
  let s := { s with
    screen := memBase
    pos := memBase
    x := 0
    y := 0 }
  s.fill 2 blank (memSize / 2) memBase

/-- The clearing loop counts `WIDTH` words of four bytes. -/
def scrollUp (s : Console) : Console :=
  if u32 (s.screen + scrSize + rowSize) < memEnd then
    let s := s.fill 4 blank width (u32 (s.screen + scrSize))
    { s with
      screen := u32 (s.screen + rowSize)
      pos := u32 (s.pos + rowSize) }
  else
    let s := copyScreen s
    { s with
      pos := sub32 s.pos (sub32 s.screen memBase)
      screen := memBase }

def commandLf (s : Console) : Console :=
  if u32 (s.y + 1) < height then
    { s with
      y := s.y + 1
      pos := u32 (s.pos + rowSize) }
  else scrollUp s

def commandCr (s : Console) : Console :=
  { s with
    pos := sub32 s.pos (u32 (s.x * 2))
    x := 0 }

def commandBs (s : Console) : Console :=
  if s.x ≠ 0 then
    let s := { s with
      x := s.x - 1
      pos := sub32 s.pos 2 }
    s.store 2 s.pos blank
  else s

def commandDel (s : Console) : Console := s.store 2 s.pos blank

/-! ## `console_write` -/

/-- The arms of the `switch`. -/
inductive Arm
  | skip
  | bs
  | lf
  | ff
  | cr
  | del
  | print
  deriving DecidableEq, Repr

def asciiNul : Byte := 0x00
def asciiBel : Byte := 0x07
def asciiBs : Byte := 0x08
def asciiHt : Byte := 0x09
def asciiLf : Byte := 0x0A
def asciiVt : Byte := 0x0B
def asciiFf : Byte := 0x0C
def asciiCr : Byte := 0x0D
def asciiDel : Byte := 0x7F

def arm (ch : Byte) : Arm :=
  if ch = asciiNul then .skip
  else if ch = asciiBel then .skip
  else if ch = asciiBs then .bs
  else if ch = asciiHt then .skip
  else if ch = asciiLf then .lf
  else if ch = asciiVt then .skip
  else if ch = asciiFf then .ff
  else if ch = asciiCr then .cr
  else if ch = asciiDel then .del
  else .print

/-- The statics and the local `ptr`. -/
structure Write where
  con : Console
  ptr : Nat

/-- `if (x >= WIDTH)` of the `default` arm. -/
def wrapLine (s : Console) : Console :=
  if width ≤ s.x then
    commandLf { s with
      x := s.x - width
      pos := sub32 s.pos rowSize }
  else s

/-- The `default` arm: the byte and its attribute go to `ptr`, and the cursor
moves on its own. -/
def Write.print (copy : Copy) (w : Write) (ch : Byte) : Write :=
  let s := wrapLine w.con
  let ptr := (w.ptr + 1) % 2 ^ copy.bits
  let s := (s.store 1 w.ptr ch.toNat).store 1 ptr 0x07
  { con := { s with
      pos := u32 (s.pos + 2)
      x := s.x + 1 }
    ptr := (ptr + 1) % 2 ^ copy.bits }

def Write.char (copy : Copy) (w : Write) (ch : Byte) : Write :=
  match arm ch with
  | .skip => w
  | .bs => { w with con := commandBs w.con }
  | .lf => { w with con := commandCr (commandLf w.con) }
  | .ff => { w with con := commandLf w.con }
  | .cr => { w with con := commandCr w.con }
  | .del => { w with con := commandDel w.con }
  | .print => w.print copy ch

def Write.loop (copy : Copy) (w : Write) (buf : List Byte) : Write := buf.foldl (Write.char copy) w

def consoleWrite (copy : Copy) (s : Console) (buf : List Byte) : Console :=
  (Write.loop copy ⟨s, s.pos⟩ buf).con

def consoleInit (s : Console) : Console := consoleClear { s with stores := [] }

/-! ## The cursor -/

/-- The cursor on the ring of rows: the offset of the screen in video memory,
which never reaches the end of it, and the column and the row on the screen. -/
@[ext] structure Cursor where
  start : Nat
  x : Nat
  y : Nat
  start_lt : start + scrSize < memSize
  x_le : x ≤ width
  y_lt : y < height

/-- Where its next byte belongs. -/
def Cursor.addr (c : Cursor) : Nat := memBase + c.start + rowSize * c.y + 2 * c.x

def Cursor.home : Cursor := ⟨0, 0, 0, by decide, by decide, by decide⟩

/-- A row down, on the last row a row further in the ring or back to its start. -/
def Cursor.lineFeed (c : Cursor) : Cursor :=
  if hy : c.y + 1 < height then { c with y := c.y + 1, y_lt := hy }
  else if hs : c.start + scrSize + rowSize < memSize then
    { c with
      start := c.start + rowSize
      start_lt := by omega }
  else
    { c with
      start := 0
      start_lt := by decide }

def Cursor.carriageReturn (c : Cursor) : Cursor :=
  { c with
    x := 0
    x_le := by decide }

def Cursor.back (c : Cursor) : Cursor :=
  { c with
    x := c.x - 1
    x_le := Nat.le_trans (Nat.sub_le ..) c.x_le }

theorem Cursor.x_lineFeed (c : Cursor) : c.lineFeed.x = c.x := by
  unfold lineFeed
  split
  · rfl
  · split <;> rfl

/-- A full line is left before a byte is printed. -/
def Cursor.wrap (c : Cursor) : Cursor := if c.x < width then c else c.carriageReturn.lineFeed

theorem Cursor.wrap_lt (c : Cursor) : c.wrap.x < width := by
  unfold wrap
  split
  · assumption
  · rw [x_lineFeed]
    exact Nat.zero_lt_succ 79

def Cursor.print (c : Cursor) : Cursor :=
  { c.wrap with
    x := c.wrap.x + 1
    x_le := c.wrap_lt }

def Cursor.char (c : Cursor) (ch : Byte) : Cursor :=
  match arm ch with
  | .skip | .del => c
  | .bs => c.back
  | .lf => c.lineFeed.carriageReturn
  | .ff => c.lineFeed
  | .cr => c.carriageReturn
  | .print => c.print

def Cursor.run (c : Cursor) (buf : List Byte) : Cursor := buf.foldl Cursor.char c

/-- How far a row down takes the cursor. -/
def Cursor.lineMove (c : Cursor) : Int :=
  if c.y + 1 < height then rowSize
  else if c.start + scrSize + rowSize < memSize then rowSize
  else -c.start

/-- How far a byte takes the cursor beyond what it prints. -/
def Cursor.jump (c : Cursor) (ch : Byte) : Int :=
  match arm ch with
  | .skip | .del => 0
  | .bs => if c.x = 0 then 0 else -2
  | .lf => c.lineMove - 2 * c.x
  | .ff => c.lineMove
  | .cr => -2 * c.x
  | .print => if c.x < width then 0 else c.lineMove - rowSize

/-- The jumps of a string added up. -/
def Cursor.moved (c : Cursor) : List Byte → Int
  | [] => 0
  | ch :: buf => c.jump ch + (c.char ch).moved buf

/-- The bytes of a string that are printed. -/
def printed (buf : List Byte) : Nat := buf.countP fun ch => arm ch = .print

theorem printed_cons (ch : Byte) (buf : List Byte) :
    printed (ch :: buf) = printed buf + if arm ch = .print then 1 else 0 := by
  simp only [printed, List.countP_cons, decide_eq_true_eq]

theorem Cursor.addr_lineFeed (c : Cursor) : (c.lineFeed.addr : Int) = c.addr + c.lineMove := by
  unfold lineFeed lineMove
  split
  · simp only [addr, rowSize, width]
    omega
  · split
    · simp only [addr, rowSize, width]
      omega
    · simp only [addr]
      omega

theorem Cursor.addr_carriageReturn (c : Cursor) :
    (c.carriageReturn.addr : Int) = c.addr - 2 * c.x := by
  simp only [carriageReturn, addr]
  omega

theorem Cursor.addr_wrap (c : Cursor) :
    (c.wrap.addr : Int) = c.addr + if c.x < width then 0 else c.lineMove - rowSize := by
  unfold wrap
  split
  · omega
  · have hx : c.x = width := Nat.le_antisymm c.x_le (by omega)
    have hmove : c.carriageReturn.lineMove = c.lineMove := rfl
    rw [addr_lineFeed, addr_carriageReturn, hmove, hx]
    simp only [rowSize]
    omega

/-- **Jumps.** A byte takes the cursor over what it prints and by its jump. -/
theorem Cursor.addr_char (c : Cursor) (ch : Byte) :
    ((c.char ch).addr : Int) = c.addr + (if arm ch = .print then 2 else 0) + c.jump ch := by
  unfold char jump
  cases arm ch with
  | skip | del => simp
  | bs =>
    simp only [back, addr, reduceCtorEq, if_false]
    split <;> omega
  | lf =>
    have hx := c.x_lineFeed
    simp only [addr_carriageReturn, addr_lineFeed, hx]
    simp
    omega
  | ff => simp [addr_lineFeed]
  | cr =>
    simp only [addr_carriageReturn]
    simp
    omega
  | print =>
    have hprint : (c.print.addr : Int) = c.wrap.addr + 2 := by
      simp only [print, addr]
      omega
    have hwrap := c.addr_wrap
    simp only [hprint]
    simp
    omega

theorem Cursor.addr_run (c : Cursor) (buf : List Byte) :
    ((c.run buf).addr : Int) = c.addr + 2 * printed buf + c.moved buf := by
  induction buf generalizing c with
  | nil => simp [run, printed, moved]
  | cons ch buf ih =>
    have hstep := c.addr_char ch
    have hrun : c.run (ch :: buf) = (c.char ch).run buf := rfl
    rw [hrun, ih, hstep, moved, printed_cons]
    split <;> omega

theorem Cursor.addr_lt (c : Cursor) : memBase ≤ c.addr ∧ c.addr < memEnd := by
  have hs := c.start_lt
  have hx := c.x_le
  have hy := c.y_lt
  simp only [addr, memEnd, memBase, memSize, scrSize, rowSize, height, width] at *
  omega

/-! ## The console follows its cursor -/

/-- The statics describe a cursor. -/
structure At (s : Console) (c : Cursor) : Prop where
  screen : s.screen = memBase + c.start
  x : s.x = c.x
  y : s.y = c.y
  pos : s.pos = c.addr

theorem At.store {s : Console} {c : Cursor} (h : At s c) (n a v : Nat) : At (s.store n a v) c :=
  ⟨h.screen, h.x, h.y, h.pos⟩

theorem At.fill {s : Console} {c : Cursor} (h : At s c) (n v k a : Nat) :
    At (s.fill n v k a) c := by
  induction k generalizing s a with
  | zero => exact h
  | succ k ih => exact ih (h.store n a v) (a + n)

theorem At.clear {s : Console} (hscreen : s.screen = memBase) (hpos : s.pos = memBase)
    (hx : s.x = 0) (hy : s.y = 0) : At s Cursor.home where
  screen := hscreen
  x := hx
  y := hy
  pos := by simp [hpos, Cursor.addr, Cursor.home]

theorem at_consoleInit (s : Console) : At (consoleInit s) Cursor.home := by
  unfold consoleInit consoleClear
  exact At.fill (At.clear rfl rfl rfl rfl) ..

theorem At.scrollUp {s : Console} {c : Cursor} (h : At s c) (hy : ¬ c.y + 1 < height) :
    At (scrollUp s) c.lineFeed := by
  have hstart := c.start_lt
  have haddr := c.addr_lt
  have hscreen := h.screen
  have hfit : u32 (s.screen + scrSize + rowSize) = memBase + c.start + scrSize + rowSize := by
    rw [hscreen, u32_of_lt]
    simp only [memBase, memSize, scrSize, rowSize, height, width] at *
    omega
  unfold ChrDrv.scrollUp Cursor.lineFeed
  rw [dif_neg hy, hfit]
  by_cases hs : c.start + scrSize + rowSize < memSize
  · rw [if_pos (by rw [memEnd]; omega), dif_pos hs]
    have hf := h.fill 4 blank width (u32 (s.screen + scrSize))
    -- the row is cleared, the statics are as they were
    generalize s.fill 4 blank width (u32 (s.screen + scrSize)) = t at hf ⊢
    refine ⟨?_, hf.x, hf.y, ?_⟩
    · simp only [hf.screen]
      rw [u32_of_lt, Nat.add_assoc]
      simp only [memBase, memSize, scrSize, rowSize, height, width] at *
      omega
    · simp only [hf.pos, Cursor.addr]
      rw [u32_of_lt]
      · omega
      · simp only [Cursor.addr, memBase, memEnd, memSize, scrSize, rowSize, height, width] at *
        omega
  · rw [if_neg (by rw [memEnd]; omega), dif_neg hs]
    refine ⟨rfl, h.x, h.y, ?_⟩
    simp only [copyScreen, h.pos, h.screen, Cursor.addr]
    rw [sub32_of_le (a := memBase + c.start), Nat.add_sub_cancel_left, sub32_of_le]
    · omega
    · simp only [Cursor.addr, memBase, memEnd, memSize, scrSize, rowSize, height, width] at *
      omega
    · omega
    · simp only [memBase, memSize, scrSize, rowSize, height, width] at *
      omega
    · omega

theorem At.commandLf {s : Console} {c : Cursor} (h : At s c) : At (commandLf s) c.lineFeed := by
  have haddr := c.addr_lt
  have hy := c.y_lt
  have hrow : u32 (s.y + 1) = c.y + 1 := by
    rw [h.y, u32_of_lt]
    rw [height] at hy
    omega
  unfold ChrDrv.commandLf
  rw [hrow]
  by_cases hlast : c.y + 1 < height
  · rw [if_pos hlast]
    unfold Cursor.lineFeed
    rw [dif_pos hlast]
    refine ⟨h.screen, h.x, by simp only [h.y], ?_⟩
    simp only [h.pos, Cursor.addr] at haddr ⊢
    rw [u32_of_lt]
    · rw [Nat.mul_add]
      omega
    · simp only [memBase, memEnd, memSize, rowSize, width] at *
      omega
  · rw [if_neg hlast]
    exact h.scrollUp hlast

theorem At.commandCr {s : Console} {c : Cursor} (h : At s c) :
    At (commandCr s) c.carriageReturn := by
  have haddr := c.addr_lt
  have hx := c.x_le
  refine ⟨h.screen, rfl, h.y, ?_⟩
  simp only [ChrDrv.commandCr, Cursor.carriageReturn, h.pos, h.x, Cursor.addr] at haddr ⊢
  have h2 : u32 (c.x * 2) = 2 * c.x := by
    rw [u32_of_lt, Nat.mul_comm]
    rw [width] at hx
    omega
  rw [h2, sub32_of_le]
  · omega
  · simp only [memEnd, memBase, memSize] at haddr ⊢
    omega
  · omega

theorem At.commandBs {s : Console} {c : Cursor} (h : At s c) : At (commandBs s) c.back := by
  have haddr := c.addr_lt
  unfold ChrDrv.commandBs
  split
  · rename_i hx
    apply At.store
    refine ⟨h.screen, by simp only [h.x, Cursor.back], h.y, ?_⟩
    rw [h.x] at hx
    simp only [h.pos, Cursor.back, Cursor.addr] at haddr ⊢
    rw [sub32_of_le]
    · omega
    · simp only [memEnd, memBase, memSize] at haddr ⊢
      omega
    · omega
  · rename_i hx
    have hback : c.back = c := by
      have hx0 : c.x = 0 := by
        rw [← h.x]
        exact not_not.mp hx
      ext <;> simp [Cursor.back, hx0]
    rwa [hback]

theorem At.wrapLine {s : Console} {c : Cursor} (h : At s c) : At (wrapLine s) c.wrap := by
  have haddr := c.addr_lt
  unfold ChrDrv.wrapLine Cursor.wrap
  rw [h.x]
  by_cases hx : c.x < width
  · rw [if_neg (by omega), if_pos hx]
    exact h
  · rw [if_pos (by omega), if_neg hx]
    have hfull : c.x = width := Nat.le_antisymm c.x_le (by omega)
    apply At.commandLf
    refine ⟨h.screen, by simp only [hfull, Nat.sub_self]; rfl, h.y, ?_⟩
    simp only [h.pos, Cursor.carriageReturn, Cursor.addr, hfull] at haddr ⊢
    rw [sub32_of_le]
    · rw [rowSize]
      omega
    · simp only [memEnd, memBase, memSize] at haddr ⊢
      omega
    · rw [rowSize]
      omega

theorem At.print {copy : Copy} {w : Write} {c : Cursor} (h : At w.con c) (ch : Byte) :
    At (w.print copy ch).con c.print := by
  have haddr := c.wrap.addr_lt
  have hw := h.wrapLine
  refine ⟨hw.screen, ?_, hw.y, ?_⟩
  · exact congrArg (· + 1) hw.x
  · have hpos : (ChrDrv.wrapLine w.con).pos = c.wrap.addr := hw.pos
    simp only [Write.print, Console.store, hpos, Cursor.print, Cursor.addr] at haddr ⊢
    rw [u32_of_lt]
    · omega
    · simp only [memEnd, memBase, memSize] at haddr ⊢
      omega

/-- **One byte.** The console follows the cursor, wherever its pointer is. -/
theorem At.char {copy : Copy} {w : Write} {c : Cursor} (h : At w.con c) (ch : Byte) :
    At (w.char copy ch).con (c.char ch) := by
  unfold Write.char Cursor.char
  cases arm ch with
  | skip => exact h
  | bs => exact h.commandBs
  | lf => exact h.commandLf.commandCr
  | ff => exact h.commandLf
  | cr => exact h.commandCr
  | del => exact h.store ..
  | print => exact h.print ch

theorem At.loop {copy : Copy} {w : Write} {c : Cursor} (h : At w.con c) (buf : List Byte) :
    At (w.loop copy buf).con (c.run buf) := by
  induction buf generalizing w c with
  | nil => exact h
  | cons ch buf ih => exact ih (h.char ch)

/-- **The console follows the cursor.** -/
theorem At.consoleWrite {s : Console} {c : Cursor} (h : At s c) (copy : Copy) (buf : List Byte) :
    At (consoleWrite copy s buf) (c.run buf) := by
  exact At.loop h buf

/-! ## Strings in two calls -/

theorem Copy.pos_lt (copy : Copy) {n : Nat} (h : n < 2 ^ 32) : n < 2 ^ copy.bits := by
  cases copy with
  | x86 => exact h
  | x64 => exact Nat.lt_trans h (by decide)

/-- Only printed bytes move the pointer. -/
theorem ptr_char (copy : Copy) (w : Write) (ch : Byte) :
    (w.char copy ch).ptr =
      if arm ch = .print then (w.ptr + 2) % 2 ^ copy.bits else w.ptr := by
  unfold Write.char
  cases arm ch with
  | print =>
    simp only [if_true, Write.print]
    rw [Nat.mod_add_mod, Nat.add_assoc]
  | skip | bs | lf | ff | cr | del => rfl

theorem ptr_loop (copy : Copy) {w : Write} (h : w.ptr < 2 ^ copy.bits) (buf : List Byte) :
    (w.loop copy buf).ptr = (w.ptr + 2 * printed buf) % 2 ^ copy.bits := by
  induction buf generalizing w with
  | nil => exact (Nat.mod_eq_of_lt h).symm
  | cons ch buf ih =>
    have hloop : w.loop copy (ch :: buf) = (w.char copy ch).loop copy buf := rfl
    have hpos : 0 < 2 ^ copy.bits := Nat.two_pow_pos _
    rw [hloop, ih, ptr_char, printed_cons]
    · split
      · rw [Nat.mod_add_mod]
        congr 1
        omega
      · rfl
    · rw [ptr_char]
      split
      · exact Nat.mod_lt _ hpos
      · exact h

theorem loop_append (copy : Copy) (w : Write) (a b : List Byte) :
    w.loop copy (a ++ b) = (w.loop copy a).loop copy b := List.foldl_append ..

/-- The pointer is at the cursor again exactly when the jumps cancel out. -/
theorem ptr_eq_pos {s : Console} {c : Cursor} (h : At s c) (copy : Copy) (a : List Byte) :
    (Write.loop copy ⟨s, s.pos⟩ a).ptr = (consoleWrite copy s a).pos ↔
      (2 ^ copy.bits : Int) ∣ c.moved a := by
  have haddr := c.addr_lt
  have haddr' := (c.run a).addr_lt
  have hrun := c.addr_run a
  have hsmall : ∀ n, n < memEnd → n < 2 ^ copy.bits := fun n hn =>
    copy.pos_lt (Nat.lt_trans hn (by decide))
  rw [ptr_loop copy (by rw [h.pos]; exact hsmall _ haddr.2), (h.consoleWrite copy a).pos]
  have hmod := Nat.modEq_iff_dvd (n := 2 ^ copy.bits) (a := s.pos + 2 * printed a)
    (b := (c.run a).addr)
  rw [Nat.ModEq, Nat.mod_eq_of_lt (hsmall _ haddr'.2), hrun, h.pos] at hmod
  push_cast at hmod
  rw [h.pos, hmod, add_sub_cancel_left]

/-- The same screen: the same video memory and the same statics. -/
structure SameScreen (s t : Console) : Prop where
  mem : ∀ a, memBase ≤ a → a < memEnd → s.mem a = t.mem a
  screen : s.screen = t.screen
  pos : s.pos = t.pos
  x : s.x = t.x
  y : s.y = t.y

theorem print_mem (copy : Copy) (w : Write) (ch : Byte) (a : Nat) :
    (w.print copy ch).con.mem a =
      if a = (w.ptr + 1) % 2 ^ copy.bits then 0x07
      else if a = w.ptr then ch else (wrapLine w.con).mem a := by
  have hch : BitVec.ofNat 8 ch.toNat = ch := by simp
  simp only [Write.print, Console.store, writeLE_one, hch]
  rfl

/-- A byte printed away from the cursor is missed there. -/
theorem exists_missed (copy : Copy) {t : Console} {c : Cursor} (h : At t c) {ptr : Nat}
    (hptr : ptr ≠ t.pos) :
    ∃ ch : Byte, (Write.char copy ⟨t, ptr⟩ ch).con.mem t.pos ≠
      (Write.char copy ⟨t, t.pos⟩ ch).con.mem t.pos := by
  have haddr := c.addr_lt
  have hnext : (t.pos + 1) % 2 ^ copy.bits = t.pos + 1 := by
    apply Nat.mod_eq_of_lt
    apply copy.pos_lt
    rw [h.pos]
    exact Nat.lt_of_le_of_lt haddr.2 (by decide)
  -- a letter other than the byte the cursor stands on
  have hletter : ∃ ch : Byte, arm ch = .print ∧ ch ≠ 0x07 ∧ ch ≠ (wrapLine t).mem t.pos := by
    by_cases hA : (wrapLine t).mem t.pos = 0x41
    · exact ⟨0x42, by decide, by decide, by rw [hA]; decide⟩
    · exact ⟨0x41, by decide, by decide, fun h => hA h.symm⟩
  obtain ⟨ch, hprint, hattr, hne⟩ := hletter
  have hchar : ∀ w : Write, w.char copy ch = w.print copy ch := fun w => by
    unfold Write.char
    rw [hprint]
  have hthere : (Write.print copy ⟨t, t.pos⟩ ch).con.mem t.pos = ch := by
    rw [print_mem, hnext, if_neg (by omega), if_pos rfl]
  refine ⟨ch, ?_⟩
  rw [hchar, hchar, hthere, print_mem, if_neg (fun h : t.pos = ptr => hptr h.symm)]
  split
  · exact hattr.symm
  · exact hne.symm

/-- **Strings in two calls.** After `a`, whatever is printed comes out as if it
had been written in one call with `a` exactly when the jumps the cursor made in
`a` cancel out, as addresses. -/
theorem chunks_iff (copy : Copy) {s : Console} {c : Cursor} (h : At s c) (a : List Byte) :
    (∀ b, SameScreen (consoleWrite copy s (a ++ b))
      (consoleWrite copy (consoleWrite copy s a) b)) ↔ (2 ^ copy.bits : Int) ∣ c.moved a := by
  rw [← ptr_eq_pos h copy a]
  have happ : ∀ b, consoleWrite copy s (a ++ b) =
      (Write.loop copy ⟨consoleWrite copy s a, (Write.loop copy ⟨s, s.pos⟩ a).ptr⟩ b).con := by
    intro b
    rw [consoleWrite, loop_append]
    rfl
  constructor
  · intro hall
    by_contra hptr
    obtain ⟨ch, hch⟩ := exists_missed copy (h.consoleWrite copy a) hptr
    have haddr := (c.run a).addr_lt
    rw [← (h.consoleWrite copy a).pos] at haddr
    have hmem := (hall [ch]).mem (consoleWrite copy s a).pos haddr.1 haddr.2
    rw [happ] at hmem
    exact hch hmem
  · intro hptr b
    rw [happ, hptr]
    exact ⟨fun _ _ _ => rfl, rfl, rfl, rfl, rfl⟩

/-- A blank screen with the cursor at home. -/
def blankScreen : Console where
  mem a := if a % 2 = 0 then 0x20 else 0x07
  screen := memBase
  pos := memBase
  x := 0
  y := 0
  stores := []

theorem at_blankScreen : At blankScreen Cursor.home := At.clear rfl rfl rfl rfl

theorem chunks_iff_sample :
    (2 ^ 32 : Int) ∣ Cursor.home.moved [0x41, 0x42] ∧
    SameScreen (consoleWrite .x86 blankScreen ([0x41, 0x42] ++ [0x0A, 0x43]))
      (consoleWrite .x86 (consoleWrite .x86 blankScreen [0x41, 0x42]) [0x0A, 0x43]) := by
  have hmoved : (2 ^ 32 : Int) ∣ Cursor.home.moved [0x41, 0x42] := by decide
  exact ⟨hmoved, (chunks_iff .x86 at_blankScreen [0x41, 0x42]).mpr hmoved [0x0A, 0x43]⟩

/-- A line feed, then a letter: in one call the letter stays on the first line. -/
theorem chunks_differ : ¬ ∀ (copy : Copy) (s : Console) (c : Cursor), At s c →
    ∀ a b, SameScreen (consoleWrite copy s (a ++ b))
      (consoleWrite copy (consoleWrite copy s a) b) := by
  intro hall
  have hmem := (hall .x86 blankScreen Cursor.home at_blankScreen [0x0A] [0x78]).mem memBase
    (by decide) (by decide)
  have hone : (consoleWrite .x86 blankScreen ([0x0A] ++ [0x78])).mem memBase = 0x78 := by
    decide +kernel
  have htwo : (consoleWrite .x86 (consoleWrite .x86 blankScreen [0x0A]) [0x78]).mem memBase =
      0x20 := by decide +kernel
  rw [hone, htwo] at hmem
  exact absurd hmem (by decide)

end X64SmpOs.ChrDrv

import X64SmpOs.Kernel.VideoMemory

/-!
# The window on video memory

* `consoleWrite_tidy`: behind every byte of every call the cursor is on the screen, and
  the screen on the ring;
* `fill_mem`: the bytes a clearing loop leaves;
* `commandLf_scrolls_iff`: from the bottom row a line feed moves the text up by a row
  exactly when it copies a screen back that was blank before.
-/

namespace X64SmpOs.ChrDrv

open Memory Words Runs

/-! ## The cursor -/

/-- Column, row and address of the cursor belong together, and the screen is a row of
video memory with all of it behind. -/
structure Tidy (s : Console) : Prop where
  x_le : s.x ≤ width
  y_lt : s.y < height
  pos : s.pos = s.screen + s.y * rowSize + 2 * s.x
  row : rowSize ∣ s.screen - memBase
  base : memBase ≤ s.screen
  fits : s.screen + scrSize ≤ memEnd

theorem tidy_iff (s : Console) : Tidy s ↔ ∃ c, At s c ∧ c.Ring := by
  constructor
  · intro h
    obtain ⟨k, hk⟩ := h.row
    have hbase := h.base
    have hfits := h.fits
    -- the ring has no room for a screen that ends with video memory
    have hlt : s.screen - memBase + scrSize < memSize := by
      simp only [memBase, memEnd, memSize, scrSize, rowSize, height, width] at *
      omega
    refine ⟨⟨s.screen - memBase, s.x, s.y, hlt, h.x_le, h.y_lt⟩, ⟨?_, rfl, rfl, ?_⟩, k, hk⟩
    · dsimp only
      omega
    · have hmul : s.y * rowSize = rowSize * s.y := Nat.mul_comm ..
      have hpos := h.pos
      simp only [Cursor.addr]
      omega
  · rintro ⟨c, hat, hring⟩
    have hscreen := hat.screen
    have hstart := c.start_lt
    have hpos := hat.pos
    constructor
    case x_le => exact hat.x ▸ c.x_le
    case y_lt => exact hat.y ▸ c.y_lt
    case pos =>
      rw [hpos, hscreen, hat.x, hat.y, Cursor.addr, Nat.mul_comm c.y]
    case row =>
      rw [hscreen, Nat.add_sub_cancel_left]
      exact hring
    case base =>
      rw [hscreen]
      exact Nat.le_add_right ..
    case fits =>
      rw [hscreen, memEnd]
      omega

/-- **Cursor.** In every sequence of calls after `console_init` the console is tidy
behind every byte. -/
theorem consoleWrite_tidy (copy : Copy) (s : Console) (calls : List (List Byte)) :
    Every (writeStep copy)
      (fun s buf _ => ∀ bytes, bytes <+: buf → Tidy (Write.loop copy ⟨s, s.pos⟩ bytes).con)
      (consoleInit s) calls := by
  refine every_of_inv (I := Tidy) (C := fun _ _ _ => True) (fun s buf t hs _ ht => ?_)
    ((tidy_iff _).mpr ⟨Cursor.home, at_consoleInit s, Nat.dvd_zero _⟩)
    (every_of_step (fun _ _ _ _ => trivial) _ calls)
  obtain ⟨c, hat, hring⟩ := (tidy_iff s).mp hs
  have htidy : ∀ bytes, Tidy (Write.loop copy ⟨s, s.pos⟩ bytes).con :=
    fun bytes => (tidy_iff _).mpr ⟨c.run bytes, At.loop hat bytes, hring.run bytes⟩
  obtain rfl := Option.some.inj ht
  exact ⟨htidy buf, fun bytes _ => htidy bytes⟩

/-! ## Clearing and copying -/

/-- A loop of stores leaves the value over and over. -/
theorem fill_mem (s : Console) {n : Nat} (hn : 0 < n) (v k a b : Nat) :
    (s.fill n v k a).mem b =
      if a ≤ b ∧ b < a + n * k then BitVec.ofNat 8 (v / 256 ^ ((b - a) % n)) else s.mem b := by
  induction k generalizing s a with
  | zero =>
    rw [if_neg (by omega)]
    rfl
  | succ k ih =>
    have hfill : s.fill n v (k + 1) a = (s.store n a v).fill n v k (a + n) := rfl
    have hstore : (s.store n a v).mem b =
        if a ≤ b ∧ b < a + n then BitVec.ofNat 8 (v / 256 ^ (b - a)) else s.mem b := rfl
    rw [hfill, ih, hstore, Nat.mul_succ]
    by_cases hfirst : a ≤ b ∧ b < a + n
    · rw [if_neg (by omega), if_pos hfirst, if_pos (by omega), Nat.mod_eq_of_lt (by omega)]
    · rw [if_neg hfirst]
      by_cases hrest : a + n ≤ b ∧ b < a + n + n * k
      · have hmod : (b - a) % n = (b - (a + n)) % n := by
          rw [show b - a = b - (a + n) + n by omega, Nat.add_mod_right]
        rw [if_pos hrest, if_pos (by omega), hmod]
      · rw [if_neg hrest, if_neg (by omega)]

/-- The `i`-th byte of a row of blank cells. -/
def blankByte (i : Nat) : Byte := if i % 2 = 0 then 0x20 else 0x07

/-- After a line feed the rows have moved up, and the bottom row is blank. -/
def Scrolls (s : Console) : Prop :=
  ∀ i < scrSize, (commandLf s).mem ((commandLf s).screen + i) =
    if i + rowSize < scrSize then s.mem (s.screen + rowSize + i) else blankByte i

/-- All cells of the screen are blank. -/
def Blank (s : Console) : Prop := ∀ i < scrSize, s.mem (s.screen + i) = blankByte i

theorem blankByte_row (i : Nat) : blankByte (i + rowSize) = blankByte i := by
  have heven : (i + rowSize) % 2 = i % 2 := by
    simp only [rowSize, width]
    omega
  rw [blankByte, heven, blankByte]

section Bottom

variable {s : Console}

/-- On the bottom row a line feed scrolls. -/
theorem commandLf_bottom (hy : s.y + 1 = height) : commandLf s = scrollUp s := by
  refine if_neg ?_
  rw [hy]
  decide

theorem sum_lt (h : Tidy s) : s.screen + scrSize + rowSize < 2 ^ 32 := by
  have hfits := h.fits
  simp only [memEnd, memBase, memSize, rowSize, width] at *
  omega

/-- The window slides: the loop clears every second cell of the bottom row only. -/
theorem not_scrolls_of_slide (h : Tidy s) (hy : s.y + 1 = height)
    (hslide : s.screen + scrSize + rowSize < memEnd) : ¬ Scrolls s := by
  intro hall
  have hsum := sum_lt h
  have hlf : commandLf s =
      { s.fill 4 blank width (s.screen + scrSize) with
        screen := u32 ((s.fill 4 blank width (s.screen + scrSize)).screen + rowSize)
        pos := u32 ((s.fill 4 blank width (s.screen + scrSize)).pos + rowSize) } := by
    rw [commandLf_bottom hy, scrollUp, u32_of_lt hsum, if_pos hslide, u32_of_lt (by omega)]
  obtain ⟨c, hat, -⟩ := (tidy_iff s).mp h
  have hscreen : (commandLf s).screen = s.screen + rowSize := by
    rw [hlf]
    dsimp only
    rw [(hat.fill 4 blank width _).screen, ← hat.screen, u32_of_lt (by omega)]
  -- the second cell of the new row
  have hcell := hall (scrSize - rowSize + 2) (by decide)
  rw [hscreen, if_neg (by decide), hlf] at hcell
  dsimp only at hcell
  have hplace : s.screen + rowSize + (scrSize - rowSize + 2) = s.screen + scrSize + 2 := by
    have hle : rowSize ≤ scrSize := by decide
    omega
  have hrest : s.screen + scrSize + 2 - (s.screen + scrSize) = 2 := by omega
  rw [hplace, fill_mem s (by decide), hrest, if_pos ⟨by omega, by rw [width]; omega⟩] at hcell
  exact absurd hcell (by decide)

/-- The window is copied back as it was. -/
theorem scrolls_iff_of_copy (h : Tidy s) (hy : s.y + 1 = height)
    (hcopy : memEnd ≤ s.screen + scrSize + rowSize) : Scrolls s ↔ Blank s := by
  have hsum := sum_lt h
  have hlf : commandLf s =
      { copyScreen s with
        pos := sub32 (copyScreen s).pos (sub32 (copyScreen s).screen memBase)
        screen := memBase } := by
    rw [commandLf_bottom hy, scrollUp, u32_of_lt hsum, if_neg (by omega)]
  have hbyte : ∀ i < scrSize,
      (commandLf s).mem ((commandLf s).screen + i) = s.mem (s.screen + i) := by
    intro i hi
    rw [hlf]
    refine (if_pos ⟨by dsimp only; omega, by dsimp only; omega⟩).trans ?_
    exact congrArg (fun a => s.mem (s.screen + a)) (Nat.add_sub_cancel_left ..)
  constructor
  · intro hall
    -- from the bottom row up
    have hrows : ∀ n i, i < scrSize → scrSize ≤ i + rowSize * n →
        s.mem (s.screen + i) = blankByte i := by
      intro n
      induction n with
      | zero => exact fun i h1 h2 => absurd h1 (by omega)
      | succ n ih =>
        intro i h1 h2
        have hi := hall i h1
        rw [hbyte i h1] at hi
        by_cases hlast : i + rowSize < scrSize
        · have hplace : s.screen + rowSize + i = s.screen + (i + rowSize) := by omega
          rw [hi, if_pos hlast, hplace, ih _ hlast (by rw [Nat.mul_succ] at h2; omega),
            blankByte_row]
        · rw [hi, if_neg hlast]
    exact fun i hi => hrows height i hi (by rw [scrSize]; omega)
  · intro hblank i hi
    rw [hbyte i hi, hblank i hi]
    by_cases hlast : i + rowSize < scrSize
    · have hplace : s.screen + rowSize + i = s.screen + (i + rowSize) := by omega
      rw [if_pos hlast, hplace, hblank _ hlast, blankByte_row]
    · rw [if_neg hlast]

/-- **Scrolling.** -/
theorem commandLf_scrolls_iff (h : Tidy s) (hy : s.y + 1 = height) :
    Scrolls s ↔ memEnd ≤ s.screen + scrSize + rowSize ∧ Blank s := by
  constructor
  · intro hs
    have hcopy : memEnd ≤ s.screen + scrSize + rowSize :=
      not_lt.mp fun hslide => not_scrolls_of_slide h hy hslide hs
    exact ⟨hcopy, (scrolls_iff_of_copy h hy hcopy).mp hs⟩
  · rintro ⟨hcopy, hblank⟩
    exact (scrolls_iff_of_copy h hy hcopy).mpr hblank

end Bottom

/-- A blank screen at a row of the ring, with the cursor in front of the bottom row. -/
def bottomScreen (row : Nat) : Console :=
  { blankScreen with
    screen := memBase + row * rowSize
    pos := memBase + row * rowSize + (height - 1) * rowSize
    y := height - 1 }

theorem tidy_bottomScreen {row : Nat} (h : row ≤ 77) : Tidy (bottomScreen row) := by
  constructor
  case x_le => exact Nat.zero_le _
  case y_lt => exact (by decide : height - 1 < height)
  case pos => rfl
  case row =>
    show rowSize ∣ memBase + row * rowSize - memBase
    rw [Nat.add_sub_cancel_left]
    exact Nat.dvd_mul_left ..
  case base => exact Nat.le_add_right ..
  case fits =>
    show memBase + row * rowSize + scrSize ≤ memEnd
    simp only [memEnd, memBase, memSize, scrSize, rowSize, height, width]
    omega

/-- After 24 line feeds, one more: the second cell of the bottom row is `0`. -/
theorem commandLf_scrolls_fails :
    Tidy (bottomScreen 0) ∧ (bottomScreen 0).y + 1 = height ∧ ¬ Scrolls (bottomScreen 0) :=
  ⟨tidy_bottomScreen (by decide), rfl,
    not_scrolls_of_slide (tidy_bottomScreen (by decide)) rfl (by decide)⟩

/-- The last row of the ring, with a blank screen. -/
theorem commandLf_scrolls_blank : Scrolls (bottomScreen 77) := by
  refine (commandLf_scrolls_iff (tidy_bottomScreen le_rfl) rfl).mpr ⟨by decide, fun i _ => ?_⟩
  have heven : (memBase + 77 * rowSize + i) % 2 = i % 2 := by
    simp only [memBase, rowSize, width]
    omega
  show (if (memBase + 77 * rowSize + i) % 2 = 0 then _ else _) = blankByte i
  rw [heven, blankByte]

end X64SmpOs.ChrDrv

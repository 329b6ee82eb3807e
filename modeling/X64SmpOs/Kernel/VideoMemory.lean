import X64SmpOs.Kernel.Console
import X64SmpOs.Lib.Runs

/-!
# Stores of the console

* `Safe`: every store so far is inside video memory;
* `safe_commandLf`: a row down is safe except on the bottom row of the last
  screen but one of the ring, where the clearing loop runs past the end;
* `safe_loop`: when a call is safe;
* `writes_inVideo`: the runs of calls that stay inside.
-/

namespace X64SmpOs.ChrDrv

open Memory Words Runs

def InVideo (e : Nat × Nat) : Prop := memBase ≤ e.1 ∧ e.1 + e.2 ≤ memEnd

instance (e : Nat × Nat) : Decidable (InVideo e) := inferInstanceAs (Decidable (_ ∧ _))

def Safe (s : Console) : Prop := ∀ e ∈ s.stores, InVideo e

/-! ## Single stores -/

theorem safe_append {s t : Console} {e : Nat × Nat} (h : t.stores = s.stores ++ [e]) :
    Safe t ↔ Safe s ∧ InVideo e := by
  unfold Safe
  rw [h]
  constructor
  · intro hall
    exact ⟨fun e' he' => hall e' (List.mem_append_left _ he'), hall e (by simp)⟩
  · rintro ⟨hs, he⟩ e' he'
    rcases List.mem_append.mp he' with hm | hm
    · exact hs e' hm
    · rwa [List.mem_singleton.mp hm]

/-- The statics are not in video memory. -/
theorem safe_statics (s : Console) (screen pos x y : Nat) :
    Safe { s with
      screen := screen
      pos := pos
      x := x
      y := y } ↔ Safe s := Iff.rfl

theorem safe_store (s : Console) (n a v : Nat) :
    Safe (s.store n a v) ↔ Safe s ∧ memBase ≤ a ∧ a + n ≤ memEnd :=
  safe_append (s := s) (e := (a, n)) rfl

theorem safe_fill (s : Console) (n v k a : Nat) :
    Safe (s.fill n v (k + 1) a) ↔ Safe s ∧ memBase ≤ a ∧ a + n * (k + 1) ≤ memEnd := by
  induction k generalizing s a with
  | zero => simpa [Console.fill] using safe_store s n a v
  | succ k ih =>
    have hfill : s.fill n v (k + 1 + 1) a = (s.store n a v).fill n v (k + 1) (a + n) := rfl
    rw [hfill, ih, safe_store, Nat.mul_succ n (k + 1)]
    constructor
    · rintro ⟨⟨hs, ha, -⟩, -, hend⟩
      exact ⟨hs, ha, by omega⟩
    · rintro ⟨hs, ha, hend⟩
      exact ⟨⟨hs, ha, by omega⟩, by omega, by omega⟩

/-! ## Line feeds -/

/-- The screen starts on a row of the ring. -/
def Cursor.Ring (c : Cursor) : Prop := rowSize ∣ c.start

theorem Cursor.Ring.lineFeed {c : Cursor} (h : c.Ring) : c.lineFeed.Ring := by
  unfold Cursor.lineFeed Ring
  split
  · exact h
  · split
    · exact Nat.dvd_add h (Nat.dvd_refl _)
    · exact Nat.dvd_zero _

theorem Cursor.Ring.char {c : Cursor} (h : c.Ring) (ch : Byte) : (c.char ch).Ring := by
  have hfeed := h.lineFeed
  unfold Cursor.char
  cases arm ch with
  | skip | del | bs | cr => exact h
  | lf | ff => exact hfeed
  | print =>
    have hreturn : c.carriageReturn.Ring := h
    simp only [Cursor.print, Ring, Cursor.wrap]
    split
    · exact h
    · exact hreturn.lineFeed

theorem Cursor.Ring.run {c : Cursor} (h : c.Ring) (buf : List Byte) : (c.run buf).Ring := by
  induction buf generalizing c with
  | nil => exact h
  | cons ch buf ih => exact ih (h.char ch)

/-- The bottom row, with 76 rows of the ring above the screen. -/
def Cursor.Last (c : Cursor) : Prop := c.y + 1 = height ∧ c.start = 76 * rowSize

instance (c : Cursor) : Decidable c.Last := inferInstanceAs (Decidable (_ ∧ _))

/-- **Clearing.** The loop clears `2 * ROW_SIZE` bytes, the row below the screen
and the one behind it; the second is in video memory up to row 75 of the ring. -/
theorem safe_scrollUp {s : Console} {c : Cursor} (h : At s c) (hr : c.Ring)
    (hy : ¬ c.y + 1 < height) : Safe (scrollUp s) ↔ Safe s ∧ ¬ c.Last := by
  have hstart := c.start_lt
  have hrow := c.y_lt
  obtain ⟨k, hk⟩ := hr
  have hfit : u32 (s.screen + scrSize + rowSize) = memBase + c.start + scrSize + rowSize := by
    rw [h.screen, u32_of_lt]
    simp only [memBase, memSize, scrSize, rowSize, height, width] at *
    omega
  have hclear : u32 (s.screen + scrSize) = memBase + c.start + scrSize := by
    rw [h.screen, u32_of_lt]
    simp only [memBase, memSize, scrSize, rowSize, height, width] at *
    omega
  unfold scrollUp
  rw [hfit, hclear]
  split
  · have hfill : Safe (s.fill 4 blank width (memBase + c.start + scrSize)) ↔ _ :=
      safe_fill s 4 blank 79 (memBase + c.start + scrSize)
    have hlast : c.Last ↔ ¬ memBase + c.start + scrSize + 4 * (79 + 1) ≤ memEnd := by
      simp only [Cursor.Last, memBase, memEnd, memSize, scrSize, rowSize, height, width] at *
      omega
    generalize s.fill 4 blank width (memBase + c.start + scrSize) = t at hfill ⊢
    rw [safe_statics, hlast, not_not, hfill]
    exact and_congr_right fun _ => and_iff_right (by omega)
  · have hcopy := safe_append (s := s) (t := copyScreen s) (e := (memBase, scrSize)) rfl
    have hin : InVideo (memBase, scrSize) := by decide
    have hlast : ¬ c.Last := by
      simp only [Cursor.Last, memBase, memEnd, memSize, scrSize, rowSize, height, width] at *
      omega
    refine Iff.trans hcopy ?_
    exact ⟨fun hs => ⟨hs.1, hlast⟩, fun hs => ⟨hs.1, hin⟩⟩

theorem safe_commandLf {s : Console} {c : Cursor} (h : At s c) (hr : c.Ring) :
    Safe (commandLf s) ↔ Safe s ∧ ¬ c.Last := by
  have hrow : u32 (s.y + 1) = c.y + 1 := by
    have hy := c.y_lt
    rw [h.y, u32_of_lt]
    rw [height] at hy
    omega
  unfold commandLf
  rw [hrow]
  split
  · rename_i hy
    have hlast : ¬ c.Last := fun hl => absurd hl.1 (by omega)
    exact ⟨fun hs => ⟨hs, hlast⟩, fun hs => hs.1⟩
  · exact safe_scrollUp h hr ‹_›

/-! ## Bytes -/

theorem safe_commandBs {s : Console} {c : Cursor} (h : At s c) :
    Safe (commandBs s) ↔ Safe s := by
  have haddr := c.addr_lt
  have hat := h.commandBs
  have hback := c.back.addr_lt
  unfold commandBs
  split
  · rename_i hx
    rw [h.x] at hx
    have hpos : sub32 s.pos 2 = c.addr - 2 := by
      rw [h.pos, sub32_of_le (Nat.lt_trans haddr.2 (by decide))]
      rw [Cursor.addr]
      omega
    have hend : c.addr - 2 + 2 ≤ memEnd := by
      rw [Nat.sub_add_cancel (by rw [Cursor.addr]; omega)]
      exact Nat.le_of_lt haddr.2
    have hbase : memBase ≤ c.addr - 2 := by
      rw [Cursor.addr]
      omega
    rw [safe_store, hpos]
    exact ⟨fun hs => hs.1, fun hs => ⟨hs, hbase, hend⟩⟩
  · exact Iff.rfl

/-- Cells start at even addresses. -/
theorem safe_commandDel {s : Console} {c : Cursor} (h : At s c) (hr : c.Ring) :
    Safe (commandDel s) ↔ Safe s := by
  obtain ⟨k, hk⟩ := hr
  have haddr := c.addr_lt
  have hend : s.pos + 2 ≤ memEnd := by
    rw [h.pos]
    simp only [Cursor.addr, memBase, memEnd, memSize, rowSize, width] at *
    omega
  have hbase : memBase ≤ s.pos := by
    rw [h.pos]
    exact haddr.1
  unfold commandDel
  rw [safe_store]
  exact ⟨fun hs => hs.1, fun hs => ⟨hs, hbase, hend⟩⟩

theorem safe_wrapLine {s : Console} {c : Cursor} (h : At s c) (hr : c.Ring) :
    Safe (wrapLine s) ↔ Safe s ∧ ¬ (width ≤ c.x ∧ c.Last) := by
  have hpos := h.commandCr
  unfold wrapLine
  rw [h.x]
  split
  · rename_i hx
    have hfull : c.x = width := Nat.le_antisymm c.x_le hx
    -- the cursor in front of the row it has filled
    have hfront : At { s with
        x := s.x - width
        pos := sub32 s.pos rowSize } c.carriageReturn := by
      refine ⟨h.screen, ?_, h.y, ?_⟩
      · simp only [h.x, hfull, Nat.sub_self]
        rfl
      · have hrow : u32 (width * 2) = rowSize := by decide
        have hcr := hpos.pos
        simpa only [commandCr, h.x, hfull, hrow] using hcr
    have hfeed := safe_commandLf hfront hr
    have hlast : c.carriageReturn.Last ↔ width ≤ c.x ∧ c.Last := by
      simp only [Cursor.Last, Cursor.carriageReturn, hx, true_and]
    rw [hlast, safe_statics s, h.x] at hfeed
    exact hfeed
  · rename_i hx
    exact ⟨fun hs => ⟨hs, fun hl => hx hl.1⟩, fun hs => hs.1⟩

/-- Bytes that take the cursor a row down. -/
def Cursor.Feeds (c : Cursor) (ch : Byte) : Prop :=
  arm ch = .lf ∨ arm ch = .ff ∨ (arm ch = .print ∧ width ≤ c.x)

instance (c : Cursor) (ch : Byte) : Decidable (c.Feeds ch) :=
  inferInstanceAs (Decidable (_ ∨ _ ∨ _))

/-- The byte, then its attribute. -/
theorem safe_print_stores (copy : Copy) (w : Write) (ch : Byte) :
    Safe (w.print copy ch).con ↔
      (Safe (wrapLine w.con) ∧ memBase ≤ w.ptr ∧ w.ptr + 1 ≤ memEnd) ∧
        memBase ≤ (w.ptr + 1) % 2 ^ copy.bits ∧ (w.ptr + 1) % 2 ^ copy.bits + 1 ≤ memEnd := by
  have hprint : Safe (w.print copy ch).con ↔
      Safe (((wrapLine w.con).store 1 w.ptr ch.toNat).store 1
        ((w.ptr + 1) % 2 ^ copy.bits) 0x07) := Iff.rfl
  rw [hprint, safe_store, safe_store]

theorem safe_print (copy : Copy) {w : Write} {c : Cursor} (h : At w.con c) (hr : c.Ring)
    (hbase : memBase ≤ w.ptr) (hptr : w.ptr ≤ memEnd) (ch : Byte) :
    Safe (w.print copy ch).con ↔
      Safe w.con ∧ ¬ (width ≤ c.x ∧ c.Last) ∧ w.ptr + 2 ≤ memEnd := by
  have hnext : (w.ptr + 1) % 2 ^ copy.bits = w.ptr + 1 := by
    apply Nat.mod_eq_of_lt
    apply copy.pos_lt
    exact Nat.lt_of_le_of_lt (Nat.succ_le_succ hptr) (by decide)
  rw [safe_print_stores, hnext, safe_wrapLine h hr]
  constructor
  · rintro ⟨⟨⟨hs, hl⟩, -, -⟩, -, hend⟩
    exact ⟨hs, hl, by omega⟩
  · rintro ⟨hs, hl, hend⟩
    exact ⟨⟨⟨hs, hl⟩, hbase, by omega⟩, by omega, by omega⟩

/-- **One byte.** -/
theorem safe_char (copy : Copy) {w : Write} {c : Cursor} (h : At w.con c) (hr : c.Ring)
    (hbase : memBase ≤ w.ptr) (hptr : w.ptr ≤ memEnd) (ch : Byte) :
    Safe (w.char copy ch).con ↔ Safe w.con ∧ ¬ (c.Feeds ch ∧ c.Last) ∧
      w.ptr + (if arm ch = .print then 2 else 0) ≤ memEnd := by
  have hprint := safe_print copy h hr hbase hptr ch
  have hfeed := safe_commandLf h hr
  have hbs := safe_commandBs h
  have hdel := safe_commandDel h hr
  unfold Write.char Cursor.Feeds
  cases arm ch with
  | skip => simp [hptr]
  | bs => simpa [hptr] using hbs
  | del => simpa [hptr] using hdel
  | cr =>
    have hcr : Safe (commandCr w.con) ↔ Safe w.con := Iff.rfl
    simpa [hptr] using hcr
  | lf =>
    have hcr : Safe (commandCr (commandLf w.con)) ↔ Safe (commandLf w.con) := Iff.rfl
    simpa [hptr, hcr] using hfeed
  | ff => simpa [hptr] using hfeed
  | print => simpa using hprint

/-! ## Calls -/

/-- Stores outside stay in the record. -/
theorem safe_of_char (copy : Copy) {w : Write} {c : Cursor} (h : At w.con c) (hr : c.Ring)
    {ch : Byte} (hs : Safe (w.char copy ch).con) : Safe w.con := by
  unfold Write.char at hs
  cases hch : arm ch with
  | skip | cr =>
    simp only [hch] at hs
    exact hs
  | bs =>
    simp only [hch] at hs
    exact (safe_commandBs h).mp hs
  | del =>
    simp only [hch] at hs
    exact (safe_commandDel h hr).mp hs
  | lf =>
    simp only [hch] at hs
    exact ((safe_commandLf h hr).mp hs).1
  | ff =>
    simp only [hch] at hs
    exact ((safe_commandLf h hr).mp hs).1
  | print =>
    simp only [hch] at hs
    have hwrap := ((safe_print_stores copy w ch).mp hs).1.1
    exact ((safe_wrapLine h hr).mp hwrap).1

theorem safe_of_loop (copy : Copy) {w : Write} {c : Cursor} (h : At w.con c) (hr : c.Ring)
    {buf : List Byte} (hs : Safe (w.loop copy buf).con) : Safe w.con := by
  induction buf generalizing w c with
  | nil => exact hs
  | cons ch buf ih => exact safe_of_char copy h hr (ih (h.char ch) (hr.char ch) hs)

/-- No byte takes the cursor down from the bottom row there. -/
def Cursor.Clear (c : Cursor) : List Byte → Prop
  | [] => True
  | ch :: buf => ¬ (c.Feeds ch ∧ c.Last) ∧ (c.char ch).Clear buf

instance decidableClear (c : Cursor) : (buf : List Byte) → Decidable (c.Clear buf)
  | [] => inferInstanceAs (Decidable True)
  | ch :: buf =>
    have : Decidable ((c.char ch).Clear buf) := decidableClear (c.char ch) buf
    inferInstanceAs (Decidable (_ ∧ _))

/-- **A call** is safe when what it prints fits behind the pointer and the
clearing loop is not run on the last row. -/
theorem safe_loop (copy : Copy) {w : Write} {c : Cursor} (h : At w.con c) (hr : c.Ring)
    (hbase : memBase ≤ w.ptr) (hptr : w.ptr ≤ memEnd) (buf : List Byte) :
    Safe (w.loop copy buf).con ↔
      Safe w.con ∧ w.ptr + 2 * printed buf ≤ memEnd ∧ c.Clear buf := by
  induction buf generalizing w c with
  | nil => simp [Write.loop, printed, Cursor.Clear, hptr]
  | cons ch buf ih =>
    have hloop : w.loop copy (ch :: buf) = (w.char copy ch).loop copy buf := rfl
    have hchar := safe_char copy h hr hbase hptr ch
    by_cases hfits : w.ptr + (if arm ch = .print then 2 else 0) ≤ memEnd
    · have hnext : (w.char copy ch).ptr = w.ptr + if arm ch = .print then 2 else 0 := by
        rw [ptr_char]
        split
        · rw [Nat.mod_eq_of_lt (copy.pos_lt _)]
          rw [if_pos ‹_›] at hfits
          exact Nat.lt_of_le_of_lt hfits (by decide)
        · rfl
      rw [hloop, ih (h.char ch) (hr.char ch) (by omega) (by omega), hchar, hnext, printed_cons,
        Cursor.Clear]
      have hcount : ∀ n : Nat, w.ptr + (if arm ch = .print then 2 else 0) + 2 * n =
          w.ptr + 2 * (n + if arm ch = .print then 1 else 0) := by
        intro n
        split <;> omega
      rw [hcount]
      constructor
      · rintro ⟨⟨hs, hl, -⟩, hend, hclear⟩
        exact ⟨hs, hend, hl, hclear⟩
      · rintro ⟨hs, hend, hl, hclear⟩
        exact ⟨⟨hs, hl, hfits⟩, hend, hclear⟩
    · -- the store of this byte is already outside
      constructor
      · intro hs
        rw [hloop] at hs
        exact absurd (hchar.mp (safe_of_loop copy (h.char ch) (hr.char ch) hs)).2.2 hfits
      · rintro ⟨-, hend, -⟩
        rw [printed_cons] at hend
        by_cases hch : arm ch = .print
        · rw [if_pos hch] at hend hfits
          omega
        · rw [if_neg hch] at hfits
          omega

/-! ## Runs -/

/-- A call of `console_write`. -/
def writeStep (copy : Copy) : Console → List Byte → Console → Prop :=
  stepOf fun s buf => some (consoleWrite copy s buf)

/-- What the call prints fits between the cursor and `MEM_END`, and the cursor
never goes down from the bottom row of row 76 of the ring. -/
def Fits (s : Console) (buf : List Byte) : Prop :=
  ∃ c, At s c ∧ s.pos + 2 * printed buf ≤ memEnd ∧ c.Clear buf

/-- The states calls go through. -/
structure Good (s : Console) : Prop where
  safe : Safe s
  cursor : ∃ c, At s c ∧ c.Ring

theorem At.unique {s : Console} {c d : Cursor} (h : At s c) (h' : At s d) : c = d := by
  have hscreen := h.screen.symm.trans h'.screen
  have hx := h.x.symm.trans h'.x
  have hy := h.y.symm.trans h'.y
  ext
  · omega
  · exact hx
  · exact hy

theorem safe_consoleWrite (copy : Copy) {s : Console} (h : Good s) (buf : List Byte) :
    Safe (consoleWrite copy s buf) ↔ Fits s buf := by
  obtain ⟨c, hat, hr⟩ := h.cursor
  have haddr := c.addr_lt
  have hpos := hat.pos
  have hloop := safe_loop copy (w := ⟨s, s.pos⟩) hat hr (by rw [hpos]; exact haddr.1)
    (by rw [hpos]; exact Nat.le_of_lt haddr.2) buf
  refine Iff.trans hloop ?_
  constructor
  · rintro ⟨-, hend, hclear⟩
    exact ⟨c, hat, hend, hclear⟩
  · rintro ⟨d, hat', hend, hclear⟩
    rw [hat'.unique hat] at hclear
    exact ⟨h.safe, hend, hclear⟩

theorem good_consoleInit (s : Console) : Good (consoleInit s) where
  safe := by
    have hfill := safe_fill { s with
      stores := []
      screen := memBase
      pos := memBase
      x := 0
      y := 0 } 2 blank 8191 memBase
    exact hfill.mpr ⟨fun _ he => by simp at he, Nat.le_refl _, by decide⟩
  cursor := ⟨Cursor.home, at_consoleInit s, Nat.dvd_zero _⟩

/-- **Stores in video memory.** A sequence of calls after `console_init` stores
inside video memory throughout exactly when each of them fits. -/
theorem writes_inVideo (copy : Copy) (s : Console) (calls : List (List Byte)) :
    Every (writeStep copy) (fun _ _ t => Safe t) (consoleInit s) calls ↔
      Every (writeStep copy) (fun s buf _ => Fits s buf) (consoleInit s) calls := by
  apply every_iff (I := Good) _ _ (good_consoleInit s)
  · intro s buf t hs hfits ht
    obtain rfl := Option.some.inj ht
    obtain ⟨c, hat, hr⟩ := hs.cursor
    exact ⟨(safe_consoleWrite copy hs buf).mpr hfits, c.run buf, hat.consoleWrite copy buf,
      hr.run buf⟩
  · intro s buf t hs ht
    obtain rfl := Option.some.inj ht
    exact safe_consoleWrite copy hs buf

/-- A hundred and one line feeds: the last clears past the end. -/
theorem lineFeeds_leave_video : ¬ ∀ (s : Console) (calls : List (List Byte)),
    Every (writeStep .x86) (fun _ _ t => Safe t) (consoleInit s) calls := by
  intro hall
  have hsafe := (hall blankScreen [List.replicate 101 asciiLf] _ rfl).1
  obtain ⟨c, hat, -, hclear⟩ := (safe_consoleWrite .x86 (good_consoleInit blankScreen) _).mp hsafe
  rw [hat.unique (at_consoleInit blankScreen)] at hclear
  exact absurd hclear (by decide +kernel)

end X64SmpOs.ChrDrv

import Mathlib.Data.List.TakeWhile
import X64SmpOs.Kernel.Console
import X64SmpOs.Kernel.Memcmp
import X64SmpOs.Kernel.X86TaskExit
import X64SmpOs.Lib.CopyUp

/-!
# The string functions of both kernels

The loops of `string.c` over memory. `while (true)` takes fuel; `none` is a loop that has
not come to its end.

* `memcpy_law`: the copy, overlapping or not;
* `strcpy_law`, `strcat_law`: what arrives, and when the loop overwrites the end of its
  own source and never stops;
* `strcmp_law`: the order the comparison decides;
* `strcpy_task`, `copyScreen_memcpy`: the short forms the task and console models use are
  what these loops do.
-/

namespace X64SmpOs.CString

open Memory CopyUp

/-! ## The code -/

def memcpyLoop : Nat → Nat → Nat → Mem → Mem
  | 0, _, _, m => m
  | count + 1, ptr, src, m =>
    memcpyLoop count (ptr + 1) (src + 1) (Function.update m ptr (m src))

def memcpy (m : Mem) (dest src count : Nat) : Mem × Nat :=
  (memcpyLoop count dest src m, dest)

/-- `while (true)` of `strcpy` and `strcat`; the test reads `*src` after the store. -/
def strcpyLoop : Nat → Nat → Nat → Mem → Option Mem
  | 0, _, _, _ => none
  | fuel + 1, ptr, src, m =>
    let m := Function.update m ptr (m src)
    if m src = 0 then some m else strcpyLoop fuel (ptr + 1) (src + 1) m

def strcpy (fuel : Nat) (m : Mem) (dest src : Nat) : Option (Mem × Nat) :=
  (strcpyLoop fuel dest src m).map fun m => (m, dest)

/-- `while (*ptr != EOS) ptr++`. -/
def endLoop : Nat → Mem → Nat → Option Nat
  | 0, _, _ => none
  | fuel + 1, m, ptr => if m ptr ≠ 0 then endLoop fuel m (ptr + 1) else some ptr

def strcat (fuel : Nat) (m : Mem) (dest src : Nat) : Option (Mem × Nat) := do
  let ptr ← endLoop fuel m dest
  let m ← strcpyLoop fuel ptr src m
  return (m, dest)

def strcmpLoop : Nat → Mem → Nat → Nat → Option (Nat × Nat)
  | 0, _, _, _ => none
  | fuel + 1, m, lhs, rhs =>
    if m lhs = m rhs ∧ m lhs ≠ 0 ∧ m rhs ≠ 0 then strcmpLoop fuel m (lhs + 1) (rhs + 1)
    else some (lhs, rhs)

def strcmp (fuel : Nat) (m : Mem) (lhs rhs : Nat) : Option Int :=
  (strcmpLoop fuel m lhs rhs).map fun p => Memcmp.compareChar (m p.1) (m p.2)

/-! ## Strings in memory -/

/-- The bytes of `s` and a zero byte; `ofList` is zero behind the end of the list. -/
def StringAt (m : Mem) (a : Nat) (s : List Byte) : Prop :=
  0 ∉ s ∧ ∀ i ≤ s.length, m (a + i) = ofList s i

instance (m : Mem) (a : Nat) (s : List Byte) : Decidable (StringAt m a s) :=
  inferInstanceAs (Decidable (0 ∉ s ∧ ∀ i ≤ s.length, m (a + i) = ofList s i))

section
variable {m : Mem} {a : Nat} {s : List Byte}

theorem ofList_ne_zero (h : 0 ∉ s) {i : Nat} (hi : i < s.length) : ofList s i ≠ 0 := by
  have hget : ofList s i = s[i] := by simp [ofList, hi]
  intro hz
  exact h (hz ▸ hget ▸ List.getElem_mem hi)

theorem ofList_length (s : List Byte) : ofList s s.length = 0 := by
  simp [ofList]

theorem StringAt.ne_zero (h : StringAt m a s) {i : Nat} (hi : i < s.length) : m (a + i) ≠ 0 := by
  rw [h.2 i (by omega)]
  exact ofList_ne_zero h.1 hi

theorem StringAt.eq_zero (h : StringAt m a s) : m (a + s.length) = 0 := by
  rw [h.2 _ (Nat.le_refl _), ofList_length]

theorem StringAt.tail {c : Byte} (h : StringAt m a (c :: s)) : StringAt m (a + 1) s := by
  refine ⟨fun hz => h.1 (List.mem_cons_of_mem c hz), fun i hi => ?_⟩
  have hcell := h.2 (i + 1) (by rw [List.length_cons]; omega)
  rw [Nat.add_assoc, Nat.add_comm 1, hcell]
  rfl

theorem StringAt.head {c : Byte} (h : StringAt m a (c :: s)) : m a = c ∧ c ≠ 0 :=
  ⟨h.2 0 (Nat.zero_le _), fun hz => h.1 (hz ▸ List.mem_cons_self)⟩

theorem StringAt.nil (h : StringAt m a []) : m a = 0 := h.2 0 (Nat.zero_le _)

theorem endLoop_string (h : StringAt m a s) {fuel : Nat} (hfuel : s.length < fuel) :
    endLoop fuel m a = some (a + s.length) := by
  induction s generalizing a fuel with
  | nil =>
    obtain ⟨fuel, rfl⟩ := Nat.exists_eq_add_of_lt hfuel
    rw [endLoop, if_neg (by simpa using h.nil)]
    rfl
  | cons c s ih =>
    obtain ⟨hc, hne⟩ := h.head
    rw [List.length_cons] at hfuel
    obtain ⟨fuel, rfl⟩ : ∃ k, fuel = k + 1 := ⟨fuel - 1, by omega⟩
    rw [endLoop, if_pos (hc ▸ hne), ih h.tail (by omega), List.length_cons]
    congr 1
    omega

/-- More fuel finds no other end. -/
theorem endLoop_unique (h : StringAt m a s) {fuel ptr : Nat} (hend : endLoop fuel m a = some ptr) :
    ptr = a + s.length := by
  induction fuel generalizing a s with
  | zero => exact absurd hend (by simp [endLoop])
  | succ fuel ih =>
    rw [endLoop] at hend
    cases s with
    | nil =>
      rw [if_neg (by simpa using h.nil)] at hend
      exact (Option.some.inj hend).symm
    | cons c s =>
      obtain ⟨hc, hne⟩ := h.head
      rw [if_pos (hc ▸ hne)] at hend
      rw [ih h.tail hend, List.length_cons]
      omega

end

/-! ## Copies -/

theorem memcpyLoop_eq (count ptr src : Nat) (m : Mem) :
    memcpyLoop count ptr src m = copyUp ptr src count m := by
  induction count generalizing ptr src m with
  | zero => rfl
  | succ count ih => rw [memcpyLoop, ih, copyUp_head]

theorem memcpy_apply (dest src count : Nat) (m : Mem) (x : Nat) :
    (memcpy m dest src count).1 x =
      if dest ≤ x ∧ x < dest + count then
        if src < dest then m (src + (x - dest) % (dest - src)) else m (src + (x - dest))
      else m x := by
  simp only [memcpy, memcpyLoop_eq, copyUp_apply, origin, apply_ite m]

/-- A target that starts inside the source gets the bytes before it, over and over; in
every other case the old bytes arrive. -/
theorem memcpy_law (dest src count : Nat) :
    (∀ (m : Mem) (x : Nat), (memcpy m dest src count).1 x =
      if dest ≤ x ∧ x < dest + count then
        if src < dest then m (src + (x - dest) % (dest - src)) else m (src + (x - dest))
      else m x) ∧
    ((∀ (m : Mem) (i : Nat), i < count → (memcpy m dest src count).1 (dest + i) = m (src + i)) ↔
      dest ≤ src ∨ src + count ≤ dest) := by
  refine ⟨memcpy_apply dest src count, ?_⟩
  simp only [memcpy, memcpyLoop_eq]
  exact moves_iff (by decide : (0 : Byte) ≠ 1) dest src count

/-- The screen the console copies back lies above the begin of the video memory. -/
theorem copyScreen_memcpy {s : ChrDrv.Console} (h : ChrDrv.memBase ≤ s.screen) :
    (ChrDrv.copyScreen s).mem = (memcpy s.mem ChrDrv.memBase s.screen ChrDrv.scrSize).1 := by
  funext x
  rw [memcpy_apply, if_neg (by omega : ¬ s.screen < ChrDrv.memBase)]
  rfl

/-- A step of `strcpy` behind `k` others: it reads what the copy has made of the source. -/
theorem strcpyLoop_step (fuel k ptr src : Nat) (m : Mem) :
    strcpyLoop (fuel + 1) (ptr + k) (src + k) (copyUp ptr src k m) =
      if m (origin ptr src k) = 0 then some (copyUp ptr src (k + 1) m)
      else strcpyLoop fuel (ptr + (k + 1)) (src + (k + 1)) (copyUp ptr src (k + 1) m) := by
  -- the store of the step leaves `*src`, also where both pointers are one
  have hread : copyUp ptr src (k + 1) m (src + k) = m (origin ptr src k) := by
    rw [copyUp, Function.update_apply]
    split
    · exact copyUp_read ptr src k m
    · exact copyUp_read ptr src k m
  rw [strcpyLoop]
  change (if copyUp ptr src (k + 1) m (src + k) = 0 then _ else _) = _
  rw [hread]
  rfl

theorem strcpyLoop_skip (fuel : Nat) {k ptr src : Nat} {m : Mem}
    (h : ∀ i < k, m (origin ptr src i) ≠ 0) :
    strcpyLoop (fuel + k) ptr src m =
      strcpyLoop fuel (ptr + k) (src + k) (copyUp ptr src k m) := by
  induction k generalizing fuel with
  | zero => rfl
  | succ k ih =>
    have hk : m (origin ptr src k) ≠ 0 := h k (by omega)
    rw [show fuel + (k + 1) = fuel + 1 + k by omega, ih _ fun i hi => h i (by omega),
      strcpyLoop_step, if_neg hk]

/-- The loop stops behind the first zero byte it reads. -/
theorem strcpyLoop_stop {fuel k ptr src : Nat} {m : Mem} (hfuel : k < fuel)
    (h : ∀ i < k, m (origin ptr src i) ≠ 0) (hk : m (origin ptr src k) = 0) :
    strcpyLoop fuel ptr src m = some (copyUp ptr src (k + 1) m) := by
  obtain ⟨fuel, rfl⟩ : ∃ n, fuel = n + 1 + k := ⟨fuel - 1 - k, by omega⟩
  rw [strcpyLoop_skip _ h, strcpyLoop_step, if_pos hk]

theorem strcpyLoop_never {ptr src : Nat} {m : Mem} (h : ∀ i, m (origin ptr src i) ≠ 0)
    (fuel : Nat) : strcpyLoop fuel ptr src m = none := by
  have hskip := strcpyLoop_skip 0 fun i (_ : i < fuel) => h i
  rw [Nat.zero_add] at hskip
  exact hskip

section
variable {m : Mem} {dest src : Nat} {s : List Byte}

/-- The end of the string is behind the begin of the target: before the loop gets there,
it is overwritten. -/
theorem strcpyLoop_overlap (h : StringAt m src s) (hlt : src < dest)
    (hle : dest ≤ src + s.length) (fuel : Nat) : strcpyLoop fuel dest src m = none := by
  refine strcpyLoop_never (fun i => ?_) fuel
  have hmod : i % (dest - src) < s.length :=
    Nat.lt_of_lt_of_le (Nat.mod_lt _ (by omega)) (by omega)
  rw [origin, if_pos hlt]
  exact h.ne_zero hmod

theorem strcpyLoop_string (h : StringAt m src s) (hapart : ¬ (src < dest ∧ dest ≤ src + s.length))
    {fuel : Nat} (hfuel : s.length < fuel) :
    ∃ m', strcpyLoop fuel dest src m = some m' ∧ StringAt m' dest s ∧
      ∀ x, x < dest ∨ dest + s.length < x → m' x = m x := by
  have horigin : ∀ i ≤ s.length, origin dest src i = src + i :=
    fun i hi => origin_of_lt (by omega)
  refine ⟨_, strcpyLoop_stop hfuel (fun i hi => ?_) ?_, ⟨h.1, fun i hi => ?_⟩, fun x hx => ?_⟩
  · rw [horigin i (by omega)]
    exact h.ne_zero hi
  · rw [horigin _ (Nat.le_refl _)]
    exact h.eq_zero
  · rw [copyUp_apply, if_pos (by omega), Nat.add_sub_cancel_left, horigin i hi]
    exact h.2 i hi
  · exact copyUp_other _ _ (by omega)

/-- `strcpy` returns, with the string at `dest`, unless `dest` is behind the begin of the
string and not behind its end; then it writes on for ever. -/
theorem strcpy_law (h : StringAt m src s) :
    (src < dest ∧ dest ≤ src + s.length → ∀ fuel, strcpy fuel m dest src = none) ∧
    (¬ (src < dest ∧ dest ≤ src + s.length) → ∀ fuel, s.length < fuel →
      ∃ m', strcpy fuel m dest src = some (m', dest) ∧ StringAt m' dest s ∧
        ∀ x, x < dest ∨ dest + s.length < x → m' x = m x) := by
  refine ⟨fun hover fuel => ?_, fun hapart fuel hfuel => ?_⟩
  · rw [strcpy, strcpyLoop_overlap h hover.1 hover.2]
    rfl
  · obtain ⟨m', hrun, hstring, hother⟩ := strcpyLoop_string h hapart hfuel
    exact ⟨m', by rw [strcpy, hrun]; rfl, hstring, hother⟩

/-- Two bytes and their end, copied onto the second byte. -/
theorem strcpy_law_onto : strcpy 100 (ofList [1, 2, 0]) 1 0 = none :=
  (strcpy_law (s := [1, 2]) (by decide)).1 (by decide) 100

/-- `strcat` appends, and leaves the bytes around both strings alone, unless it writes
over the end of what it appends. -/
theorem strcat_law {t : List Byte} (hs : StringAt m dest s) (ht : StringAt m src t) :
    (src < dest + s.length ∧ dest + s.length ≤ src + t.length →
      ∀ fuel, strcat fuel m dest src = none) ∧
    (¬ (src < dest + s.length ∧ dest + s.length ≤ src + t.length) →
      ∀ fuel, s.length < fuel → t.length < fuel →
        ∃ m', strcat fuel m dest src = some (m', dest) ∧ StringAt m' dest (s ++ t) ∧
          ∀ x, x < dest ∨ dest + (s ++ t).length < x → m' x = m x) := by
  refine ⟨fun hover fuel => ?_, fun hapart fuel hsfuel htfuel => ?_⟩
  · rw [strcat]
    cases hend : endLoop fuel m dest with
    | none => rfl
    | some ptr =>
      have hptr : ptr = dest + s.length := endLoop_unique hs hend
      rw [hptr]
      dsimp only [bind, Option.bind]
      rw [strcpyLoop_overlap ht hover.1 hover.2]
  · obtain ⟨m', hrun, hstring, hother⟩ := strcpyLoop_string ht hapart htfuel
    refine ⟨m', ?_, ⟨?_, fun i hi => ?_⟩, fun x hx => hother x ?_⟩
    · rw [strcat, endLoop_string hs hsfuel]
      dsimp only [bind, Option.bind]
      rw [hrun]
      rfl
    · rw [List.mem_append]
      exact not_or.mpr ⟨hs.1, ht.1⟩
    · rw [List.length_append] at hi
      by_cases hlow : i < s.length
      · rw [hother _ (by omega), hs.2 i (by omega)]
        simp [ofList, hlow, List.getElem?_append_left]
      · have hcell := hstring.2 (i - s.length) (by omega)
        rw [show dest + s.length + (i - s.length) = dest + i by omega] at hcell
        rw [hcell]
        simp [ofList, List.getElem?_append_right (by omega : s.length ≤ i)]
    · rw [List.length_append] at hx
      omega

/-- A string appended to itself. -/
theorem strcat_law_self : strcat 100 (ofList [1, 2, 0]) 0 0 = none :=
  (strcat_law (s := [1, 2]) (t := [1, 2]) (by decide) (by decide)).1 (by decide) 100

end

/-! ## Comparison -/

/-- Byte strings by their first difference, where a byte has a sign. -/
def charOrder (s t : List Byte) : Int :=
  if s.map BitVec.toInt < t.map BitVec.toInt then -1
  else if t.map BitVec.toInt < s.map BitVec.toInt then 1
  else 0

theorem charOrder_ne {a b : Byte} (s t : List Byte) (h : a ≠ b) :
    charOrder (a :: s) (b :: t) = Memcmp.compareChar a b := by
  have hint : a.toInt ≠ b.toInt := fun he => h (BitVec.eq_of_toInt_eq he)
  simp only [charOrder, Memcmp.compareChar, List.map_cons, List.cons_lt_cons_iff, hint, hint.symm,
    false_and, or_false]

theorem charOrder_cons (a : Byte) (s t : List Byte) :
    charOrder (a :: s) (a :: t) = charOrder s t := by
  simp only [charOrder, List.map_cons, List.cons_lt_cons_iff, lt_irrefl, true_and, false_or]

theorem charOrder_eq_zero (s t : List Byte) : charOrder s t = 0 ↔ s = t := by
  have hinj : Function.Injective (List.map (BitVec.toInt (n := 8))) :=
    List.map_injective_iff.mpr fun _ _ => BitVec.eq_of_toInt_eq
  rw [charOrder]
  rcases lt_trichotomy (s.map BitVec.toInt) (t.map BitVec.toInt) with h | h | h
  · rw [if_pos h]
    exact ⟨fun h0 => absurd h0 (by decide), fun he => absurd (he ▸ h) (lt_irrefl _)⟩
  · rw [hinj h, if_neg (lt_irrefl _)]
    simp
  · rw [if_neg h.asymm, if_pos h]
    exact ⟨fun h0 => absurd h0 (by decide), fun he => absurd (he ▸ h) (lt_irrefl _)⟩

theorem strcmp_string {m : Mem} {lhs rhs : Nat} {s t : List Byte} (hs : StringAt m lhs s)
    (ht : StringAt m rhs t) {fuel : Nat} (hfuel : s.length < fuel) :
    strcmp fuel m lhs rhs = some (charOrder (s ++ [0]) (t ++ [0])) := by
  induction fuel generalizing lhs rhs s t with
  | zero => omega
  | succ fuel ih =>
    have hstop (hne : ¬ (m lhs = m rhs ∧ m lhs ≠ 0 ∧ m rhs ≠ 0)) :
        strcmp (fuel + 1) m lhs rhs = some (Memcmp.compareChar (m lhs) (m rhs)) := by
      rw [strcmp, strcmpLoop, if_neg hne]
      rfl
    cases s with
    | nil =>
      have hl : m lhs = 0 := hs.nil
      rw [hstop fun h => h.2.1 hl, hl]
      cases t with
      | nil =>
        rw [ht.nil]
        rfl
      | cons d t =>
        rw [ht.head.1, List.nil_append, List.cons_append, charOrder_ne _ _ ht.head.2.symm]
    | cons c s =>
      obtain ⟨hl, hc⟩ := hs.head
      cases t with
      | nil =>
        have hr : m rhs = 0 := ht.nil
        rw [hstop fun h => h.2.2 hr, hl, hr, List.nil_append, List.cons_append,
          charOrder_ne _ _ hc]
      | cons d t =>
        obtain ⟨hr, hd⟩ := ht.head
        rw [List.cons_append, List.cons_append]
        by_cases heq : c = d
        · have hgo : m lhs = m rhs ∧ m lhs ≠ 0 ∧ m rhs ≠ 0 :=
            ⟨by rw [hl, hr, heq], hl ▸ hc, hr ▸ hd⟩
          rw [← heq, charOrder_cons, ← ih hs.tail ht.tail (Nat.lt_of_succ_lt_succ hfuel), strcmp,
            strcmpLoop, if_pos hgo]
          rfl
        · rw [hstop fun h => heq (hl ▸ hr ▸ h.1), hl, hr, charOrder_ne _ _ heq]

/-- The end of a string takes part as a byte: a string comes before its extension by a
byte below 0x80, and behind its extension by another. -/
theorem strcmp_law {m : Mem} {lhs rhs : Nat} {s t : List Byte} (hs : StringAt m lhs s)
    (ht : StringAt m rhs t) {fuel : Nat} (hfuel : s.length < fuel) :
    strcmp fuel m lhs rhs = some (charOrder (s ++ [0]) (t ++ [0])) ∧
      (strcmp fuel m lhs rhs = some 0 ↔ s = t) := by
  have hrun := strcmp_string hs ht hfuel
  refine ⟨hrun, ?_⟩
  rw [hrun, Option.some.injEq, charOrder_eq_zero, List.append_left_inj]

/-- `a` against `a` and a byte of 0x80, which comes first. -/
theorem strcmp_law_high :
    strcmp 2 (ofList [0x61, 0, 0x61, 0x80, 0]) 0 2 = some (charOrder [0x61, 0] [0x61, 0x80, 0]) ∧
      (strcmp 2 (ofList [0x61, 0, 0x61, 0x80, 0]) 0 2 = some 0 ↔
        [0x61] = ([0x61, 0x80] : List Byte)) :=
  strcmp_law (s := [0x61]) (t := [0x61, 0x80]) (by decide) (by decide) (by decide)

/-! ## The name of a task -/

theorem cString_of_not_mem {name : List Byte} (h : 0 ∉ name) :
    TaskCreate.cString name = name ++ [0] := by
  have hall : name.takeWhile (· ≠ 0) = name :=
    List.takeWhile_eq_self_iff.mpr fun c hc => decide_eq_true fun h0 => h (h0 ▸ hc)
  rw [TaskCreate.cString, hall]

theorem ofList_append_zero (s : List Byte) (i : Nat) : ofList (s ++ [0]) i = ofList s i := by
  rcases Nat.lt_trichotomy i s.length with h | rfl | h
  · simp [ofList, h, List.getElem?_append_left]
  · simp [ofList]
  · have hout : (s ++ [0])[i]? = none := by
      rw [List.getElem?_eq_none_iff, List.length_append, List.length_singleton]
      omega
    rw [ofList, ofList, List.getD_eq_getElem?_getD, List.getD_eq_getElem?_getD, hout,
      List.getElem?_eq_none_iff.mpr (Nat.le_of_lt h)]

/-- The bytes of a word. -/
theorem writeLE_readLE (n : Nat) (z m : Mem) (a b : Nat) {i : Nat} (hi : i < n) :
    writeLE n z b (readLE n m a) (b + i) = m (a + i) := by
  have hbyte : ∀ (n i a : Nat), i < n →
      BitVec.ofNat 8 (readLE n m a / 256 ^ i) = m (a + i) := by
    intro n i a hlt
    induction i generalizing n a with
    | zero =>
      obtain ⟨n, rfl⟩ : ∃ k, n = k + 1 := ⟨n - 1, by omega⟩
      apply BitVec.eq_of_toNat_eq
      have hb := (m a).isLt
      change _ = (m a).toNat
      rw [pow_zero, Nat.div_one, readLE, BitVec.toNat_ofNat]
      omega
    | succ i ih =>
      obtain ⟨n, rfl⟩ : ∃ k, n = k + 1 := ⟨n - 1, by omega⟩
      have hb := (m a).isLt
      have hdiv : ((m a).toNat + 256 * readLE n m (a + 1)) / 256 = readLE n m (a + 1) := by omega
      rw [readLE, pow_succ', ← Nat.div_div_eq_div_mul, hdiv, ih n (a + 1) (by omega), Nat.add_assoc,
        Nat.add_comm 1]
  rw [writeLE, if_pos (by omega), Nat.add_sub_cancel_left, hbyte n i a hi]

theorem readLE_eq_of {n : Nat} {m m' : Mem} {a b : Nat} (h : ∀ i < n, m (a + i) = m' (b + i)) :
    readLE n m a = readLE n m' b := by
  induction n generalizing a b with
  | zero => rfl
  | succ n ih =>
    have hlow : m a = m' b := h 0 (by omega)
    have hrest : readLE n m (a + 1) = readLE n m' (b + 1) := ih fun i hi => by
      rw [Nat.add_assoc, Nat.add_assoc, Nat.add_comm 1]
      exact h (i + 1) (by omega)
    rw [readLE, readLE, hlow, hrest]

/-- The word of `n` bytes behind a name that `strcpy` has left. -/
theorem readLE_name {m m' : Mem} {dest : Nat} {name : List Byte} (n off : Nat)
    (hname : StringAt m' dest name) (hother : ∀ x, x < dest ∨ dest + name.length < x → m' x = m x) :
    readLE n m' (dest + off) =
      readLE n (TaskCreate.overlay (TaskCreate.cString name)
        (writeLE n (fun _ => 0) off (readLE n m (dest + off)))) off := by
  refine readLE_eq_of fun i hi => ?_
  rw [TaskCreate.overlay, cString_of_not_mem hname.1, List.length_append, List.length_singleton,
    ofList_append_zero, Nat.add_assoc]
  by_cases hin : off + i < name.length + 1
  · rw [if_pos hin]
    exact hname.2 _ (by omega)
  · rw [if_neg hin, hother _ (by omega), writeLE_readLE n _ _ _ _ hi, Nat.add_assoc]

/-- What the copy of a name leaves in the fields behind the name, for both kernels. -/
theorem strcpy_task {m : Mem} {src task : Nat} {name : List Byte} (h : StringAt m src name)
    (hapart : ¬ (src < task ∧ task ≤ src + name.length)) {fuel : Nat} (hfuel : name.length < fuel)
    (off : Nat) :
    ∃ m', strcpy fuel m task src = some (m', task) ∧
      readLE 8 m' (task + off) = TaskCreate.strcpyOver name off (readLE 8 m (task + off)) ∧
      readLE 4 m' (task + off) = X86TaskExit.strcpyOver name off (readLE 4 m (task + off)) := by
  obtain ⟨m', hrun, hname, hother⟩ := strcpyLoop_string h hapart hfuel
  exact ⟨m', by rw [strcpy, hrun]; rfl, readLE_name 8 off hname hother,
    readLE_name 4 off hname hother⟩

/-- A name of two bytes, and a word it ends in. -/
theorem strcpy_task_short :
    ∃ m', strcpy 3 (ofList [1, 2]) 16 0 = some (m', 16) ∧
      readLE 8 m' (16 + 1) =
        TaskCreate.strcpyOver [1, 2] 1 (readLE 8 (ofList [1, 2]) (16 + 1)) ∧
      readLE 4 m' (16 + 1) =
        X86TaskExit.strcpyOver [1, 2] 1 (readLE 4 (ofList [1, 2]) (16 + 1)) :=
  strcpy_task (by decide) (by decide) (by decide) 1

end X64SmpOs.CString

import X64SmpOs.Lib.Memory

/-!
# Byte strings on the wire

* `toLE n v`: the low `n` bytes of `v`, lowest first;
* `ofList`: a byte string as a memory;
* `readLE_field`: a word laid out in a byte string is read back at its offset;
* `swap n`: the byte order of an `n`-byte word reversed, with `swap_swap`.
-/

namespace X64SmpOs.Memory

/-- The low `n` bytes of `v`, lowest first. -/
def toLE : Nat → Nat → List Byte
  | 0, _ => []
  | n + 1, v => BitVec.ofNat 8 v :: toLE n (v / 256)

/-- A byte string as a memory, zero behind its end. -/
def ofList (l : List Byte) : Mem := fun i => l.getD i 0

@[simp] theorem length_toLE (n v : Nat) : (toLE n v).length = n := by
  induction n generalizing v with
  | zero => rfl
  | succ n ih => simp [toLE, ih]

theorem ofList_append_right (pre l : List Byte) (i : Nat) :
    ofList (pre ++ l) (pre.length + i) = ofList l i := by
  simp [ofList, List.getElem?_append_right]

/-- A word behind a prefix. -/
theorem readLE_append_right (n : Nat) (pre l : List Byte) (i : Nat) :
    readLE n (ofList (pre ++ l)) (pre.length + i) = readLE n (ofList l) i := by
  induction n generalizing i with
  | zero => rfl
  | succ n ih => rw [readLE, readLE, ofList_append_right, Nat.add_assoc, ih]

theorem readLE_cons (n : Nat) (b : Byte) (l : List Byte) (i : Nat) :
    readLE n (ofList (b :: l)) (i + 1) = readLE n (ofList l) i := by
  have h := readLE_append_right n [b] l i
  rwa [List.length_singleton, Nat.add_comm] at h

theorem readLE_toLE (n v : Nat) (post : List Byte) :
    readLE n (ofList (toLE n v ++ post)) 0 = v % 256 ^ n := by
  induction n generalizing v with
  | zero => simp [readLE, Nat.mod_one]
  | succ n ih =>
    have hlow : (ofList (toLE (n + 1) v ++ post) 0).toNat = v % 256 := by simp [ofList, toLE]
    rw [readLE, hlow, toLE, List.cons_append, readLE_cons, ih, pow_succ', Nat.mod_mul]

/-- A word laid out in a byte string, read back at its offset. -/
theorem readLE_field {n v k : Nat} (pre post : List Byte) (hv : v < 256 ^ n)
    (hk : pre.length = k) : readLE n (ofList (pre ++ (toLE n v ++ post))) k = v := by
  have h := readLE_append_right n pre (toLE n v ++ post) 0
  rw [Nat.add_zero, hk, readLE_toLE, Nat.mod_eq_of_lt hv] at h
  exact h

/-- The bytes of the word a byte string stands for. -/
theorem toLE_readLE (l : List Byte) : toLE l.length (readLE l.length (ofList l) 0) = l := by
  induction l with
  | nil => rfl
  | cons b l ih =>
    have hb : (ofList (b :: l) 0).toNat = b.toNat := rfl
    have hlt := b.isLt
    rw [List.length_cons, readLE, hb, readLE_cons, toLE]
    congr 1
    · apply BitVec.eq_of_toNat_eq
      rw [BitVec.toNat_ofNat]
      omega
    · rw [show (b.toNat + 256 * readLE l.length (ofList l) 0) / 256 =
        readLE l.length (ofList l) 0 by omega]
      exact ih

/-! ## Byte order -/

/-- The bytes of an `n`-byte word in the other order. -/
def swap (n v : Nat) : Nat := readLE n (ofList (toLE n v).reverse) 0

theorem swap_lt (n v : Nat) : swap n v < 256 ^ n := readLE_lt ..

theorem toLE_swap (n v : Nat) : toLE n (swap n v) = (toLE n v).reverse := by
  have h := toLE_readLE (toLE n v).reverse
  rwa [List.length_reverse, length_toLE] at h

theorem swap_swap {n v : Nat} (hv : v < 256 ^ n) : swap n (swap n v) = v := by
  have h := readLE_toLE n v []
  rw [List.append_nil, Nat.mod_eq_of_lt hv] at h
  rw [swap, toLE_swap, List.reverse_reverse, h]

end X64SmpOs.Memory

import X64SmpOs.Lib.Bytes
import X64SmpOs.Lib.Words

/-!
# The name of a new task

`strcpy(task->name, name)` copies a name of any length into `name[64]`, and the fields
of the packed `task_t` lie right behind it.

* `strcpyOver`: what a field behind the name holds after the copy;
* `strcpyOver_short`: a name that ends in front of the field leaves it alone.
-/

namespace X64SmpOs.TaskCreate

open Words Memory

/-- What `strcpy` copies. -/
def cString (name : List Byte) : List Byte := name.takeWhile (· ≠ 0) ++ [0]

/-- The bytes of a list over those of a memory, from address 0 on. -/
def overlay (src : List Byte) (m : Mem) : Mem :=
  fun i => if i < src.length then ofList src i else m i

/-- After `strcpy(task->name, name)`, the quadword `off` bytes behind the begin of
`task->name`, which held `old`. The copy ends where `name` ends. -/
def strcpyOver (name : List Byte) (off old : Nat) : Nat :=
  readLE 8 (overlay (cString name) (writeLE 8 (fun _ => 0) off old)) off

theorem length_cString_le (name : List Byte) : (cString name).length ≤ name.length + 1 := by
  have h := (List.takeWhile_prefix (· ≠ 0) (l := name)).length_le
  simp only [cString, List.length_append, List.length_singleton]
  omega

/-- A name that ends before a field leaves it alone. -/
theorem readLE_overlay_short {name : List Byte} {w off old : Nat} (h : name.length < off)
    (hold : old < 256 ^ w) :
    readLE w (overlay (cString name) (writeLE w (fun _ => 0) off old)) off = old := by
  have hlen := length_cString_le name
  have hagree : AgreeOn (writeLE w (fun _ => 0) off old)
      (overlay (cString name) (writeLE w (fun _ => 0) off old)) off w := by
    intro x hx _
    exact if_neg (by omega)
  rw [readLE_congr hagree]
  exact readLE_writeLE_of_lt _ _ hold

theorem strcpyOver_short {name : List Byte} {off old : Nat} (h : name.length < off)
    (hold : old < 2 ^ 64) : strcpyOver name off old = old :=
  readLE_overlay_short h hold

theorem u64OfInt_lt (i : Int) : u64OfInt i < 2 ^ 64 := by
  unfold u64OfInt
  omega

end X64SmpOs.TaskCreate

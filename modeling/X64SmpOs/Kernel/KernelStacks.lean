import X64SmpOs.Kernel.TaskCreate

/-!
# Where kernel stacks begin

The stack pointers the x64 kernel installs in blocks of the heap: `kpcr->stack`, the
`rsp0` of a TSS, `esp0` and `esp3` of a task, and the one `lapic_timer_entry` chooses
when an interrupt comes from user code.

* `kpcrCreate`, `initTssCurrentCore`, `timerSkip`: the code;
* `Room`: a stack pointer in its block, with space below it for all but 400 bytes of the
  block;
* `room_iff`: that is a pointer near the top;
* `room_installed_iff`: which of the pointers have room.
-/

namespace X64SmpOs.KernelStacks

open Words Ledger TaskCreate

universe u
variable {σ : Type u}

def pageSize : Nat := 4096

/-! ## The code -/

structure KpcrT where
  cpuid : Nat
  esp0 : Nat
  esp3 : Nat
  stack : Nat
  task : Nat
  temp : Nat
  tssStack : Nat
  deriving DecidableEq, Repr

/-- `sizeof(kpcr_t)` and `sizeof(tss_t)`. -/
def kpcrSize : Nat := 56
def tssSize : Nat := 104

/-- `none` when there is no block for the `kpcr_t`; that for the stack is not checked. -/
def kpcrCreate (A : Allocator σ) (h : σ) (cpuid : Nat) : Option KpcrT :=
  let (kpcr, h) := A.alloc h kpcrSize
  if kpcr = 0 then none
  else some ⟨cpuid, 0, 0, (A.alloc h pageSize).1, 0, 0, 0⟩

/-- `kpcr_get_offset(24)`, which `x64_ap_main` moves to `rsp`. -/
def x64ApMainRsp (kpcr : KpcrT) : Nat := kpcr.stack

/-- The block of the stack, and `tss->rsp0`. -/
def initTssCurrentCore (A : Allocator σ) (h : σ) : Nat × Nat :=
  let (_, h) := A.alloc h tssSize
  let block := (A.alloc h pageSize).1
  (block, u64 (block + pageSize))

def getTaskEsp0Button (t : TaskT) : Nat := t.stack

/-- `.skip`: the context is copied to the task's kernel stack, and `rsp` set to it. -/
def timerSkip (t : TaskT) : Nat := u64 (getTaskEsp0Button t + 25 * 8)

/-! ## Room -/

/-- A block that `kzalloc` has returned, next to the other live blocks. -/
structure Sound (block : Block) (others : List Block) : Prop where
  pos : 0 < block.1
  lt : block.1 + block.2 < 2 ^ 64
  apart : ∀ o ∈ others, ∀ a, block.1 ≤ a → a < block.1 + block.2 → ¬ (o.1 ≤ a ∧ a < o.1 + o.2)

/-- Pushes of these sizes write the byte. -/
def Written (rsp : Nat) (pushes : List Nat) (a : Nat) : Prop := rsp ≤ a + pushes.sum ∧ a < rsp

/-- The pointer is in the block, and pushes that leave 400 bytes of it, two frames of 25
quadwords, stay in the block and off the others. -/
structure Room (block : Block) (others : List Block) (rsp : Nat) : Prop where
  lower : block.1 < rsp
  upper : rsp ≤ block.1 + block.2
  pushes : ∀ pushes : List Nat, pushes.sum + 400 ≤ block.2 → ∀ a, Written rsp pushes a →
    (block.1 ≤ a ∧ a < block.1 + block.2) ∧ ∀ o ∈ others, ¬ (o.1 ≤ a ∧ a < o.1 + o.2)

/-- So many bytes above the bottom of a block of `n` bytes, at most 400 below its end. -/
def NearTop (n d : Nat) : Prop := 0 < d ∧ d ≤ n ∧ n ≤ d + 400

instance (n d : Nat) : Decidable (NearTop n d) :=
  inferInstanceAs (Decidable (0 < d ∧ d ≤ n ∧ n ≤ d + 400))

/-- **Room is a matter of the distance to the top.** -/
theorem room_iff {block : Block} {others : List Block} (hs : Sound block others) (rsp : Nat) :
    Room block others rsp ↔ block.1 < rsp ∧ NearTop block.2 (rsp - block.1) := by
  unfold NearTop
  constructor
  · rintro ⟨hlow, hup, hpush⟩
    refine ⟨hlow, by omega, by omega, ?_⟩
    -- a larger push would write the byte below the block
    by_contra hfar
    have hpos := hs.pos
    have hbelow := (hpush [block.2 - 400] (by simp only [List.sum_singleton]; omega)
      (block.1 - 1) ⟨by simp only [List.sum_singleton]; omega, by omega⟩).1.1
    omega
  · rintro ⟨hlow, -, hle, htop⟩
    refine ⟨hlow, by omega, fun pushes hsum a ha => ?_⟩
    obtain ⟨h1, h2⟩ := ha
    have hin : block.1 ≤ a ∧ a < block.1 + block.2 := by omega
    exact ⟨hin, fun o ho => hs.apart o ho a hin.1 hin.2⟩

theorem room_add {block : Block} {others : List Block} (hs : Sound block others) (d : Nat) :
    Room block others (block.1 + d) ↔ NearTop block.2 d := by
  rw [room_iff hs, Nat.add_sub_cancel_left]
  exact and_iff_right_of_imp fun h => by
    have := h.1
    omega

/-! ## The pointers -/

/-- Who installs a stack pointer. -/
inductive Place
  | kpcrStack
  | rsp0
  | esp0
  | esp3
  /-- The cross-privilege path of `lapic_timer_entry`. -/
  | skip
  deriving DecidableEq, Repr

/-- What the processor and the task are created with. -/
structure Setup (σ : Type u) where
  alloc : Allocator σ
  heap : σ
  cpuid : Nat
  kernel : Kernel σ
  name : List Memory.Byte
  function : Nat
  stackSize : Nat
  priority : Int

namespace Setup

variable (x : Setup σ)

def created : Nat × Kernel σ :=
  ktaskCreate x.alloc x.kernel x.name x.function x.stackSize x.priority

/-- The descriptor, unless `ktask_create` returns `NULL`. -/
def descriptor : Option TaskT :=
  if x.created.1 = 0 then none else some (x.created.2.task x.created.1)

/-- The blocks of the task's stacks. -/
def stackBlock : Block := ((second x.alloc x.kernel.heap x.stackSize).1, x.stackSize)
def userStackBlock : Block := ((third x.alloc x.kernel.heap x.stackSize).1, x.stackSize)

/-- The block and the stack pointer installed in it. -/
def installed : Place → Option (Block × Nat)
  | .kpcrStack =>
    (kpcrCreate x.alloc x.heap x.cpuid).map fun kpcr => ((kpcr.stack, pageSize), x64ApMainRsp kpcr)
  | .rsp0 =>
    let r := initTssCurrentCore x.alloc x.heap
    some ((r.1, pageSize), r.2)
  | .esp0 => x.descriptor.map fun t => (x.stackBlock, t.esp0)
  | .esp3 => x.descriptor.map fun t => (x.userStackBlock, t.esp3)
  | .skip => x.descriptor.map fun t => (x.stackBlock, timerSkip t)

/-- The pointer is `d` bytes above what `strcpy` leaves in the field at `off`; a name that
ends before the field leaves the block in it. -/
def NameRoom (off d : Nat) (block : Block) : Prop :=
  if x.name.length < off then NearTop block.2 d
  else
    let rsp := u64 (strcpyOver x.name off block.1 + d)
    block.1 < rsp ∧ NearTop block.2 (rsp - block.1)

def HasRoom : Place → Prop
  | .kpcrStack => False
  | .rsp0 => True
  | .esp0 => x.NameRoom 120 x.stackSize x.stackBlock
  | .esp3 => x.NameRoom 136 x.stackSize x.userStackBlock
  | .skip => x.NameRoom 120 200 x.stackBlock

instance (off d : Nat) (block : Block) : Decidable (x.NameRoom off d block) :=
  inferInstanceAs (Decidable (if x.name.length < off then NearTop block.2 d else
    block.1 < u64 (strcpyOver x.name off block.1 + d) ∧
      NearTop block.2 (u64 (strcpyOver x.name off block.1 + d) - block.1)))

instance (place : Place) : Decidable (x.HasRoom place) :=
  match place with
  | .kpcrStack => inferInstanceAs (Decidable False)
  | .rsp0 => inferInstanceAs (Decidable True)
  | .esp0 => inferInstanceAs (Decidable (x.NameRoom _ _ _))
  | .esp3 => inferInstanceAs (Decidable (x.NameRoom _ _ _))
  | .skip => inferInstanceAs (Decidable (x.NameRoom _ _ _))

end Setup

section Pointers

variable {x : Setup σ} {others : List Block}

/-- The fields of a new descriptor. -/
theorem descriptor_eq {t : TaskT} (h : x.descriptor = some t) :
    t.stack = strcpyOver x.name 120 x.stackBlock.1 ∧
      t.esp0 = u64 (strcpyOver x.name 120 x.stackBlock.1 + x.stackSize) ∧
      t.esp3 = u64 (strcpyOver x.name 136 x.userStackBlock.1 + x.stackSize) := by
  unfold Setup.descriptor at h
  split at h
  · cases h
  · rename_i hne
    by_cases hf : AllocFails x.alloc x.kernel.heap x.stackSize
    · obtain ⟨k', heq, -⟩ := taskCreate_null hf x.name x.function x.priority
      exact absurd (congrArg Prod.fst heq) hne
    · obtain ⟨k', heq, htaken⟩ := taskCreate_some hf x.name x.function x.priority
      have heq : x.created = _ := heq
      rw [heq] at h
      obtain rfl := Option.some.inj h
      have hblank := htaken.task
      simp [fillTask, addTask, Kernel.setTask, TaskT.strcpyName, hblank, blank, Setup.stackBlock,
        Setup.userStackBlock]

/-- A pointer above the field at `off`. -/
theorem room_name {block : Block} (hs : Sound block others) (off : Nat) {d : Nat}
    (hd : d < 2 ^ 64) :
    Room block others (u64 (strcpyOver x.name off block.1 + d)) ↔ x.NameRoom off d block := by
  have hlt := hs.lt
  unfold Setup.NameRoom
  by_cases hname : x.name.length < off
  · rw [if_pos hname, strcpyOver_short hname (by omega)]
    by_cases hwrap : block.1 + d < 2 ^ 64
    · rw [u64_of_lt hwrap]
      exact room_add hs d
    · -- past the end of memory the pointer is below the block
      have hrsp : u64 (block.1 + d) = block.1 + d - 2 ^ 64 := by
        unfold u64
        omega
      rw [room_iff hs, hrsp]
      unfold NearTop
      omega
  · rw [if_neg hname]
    exact room_iff hs _

/-- **Which stack pointers have room.** That of `kpcr->stack` never has, as it is the
bottom of its block; `rsp0` always has. `esp0` and `esp3` have room in every stack that is
not empty, and the pointer 200 bytes above the bottom in stacks of 200 to 600 bytes, if
the name of the task ends before the pointers. -/
theorem room_installed_iff {place : Place} {block : Block} {rsp : Nat}
    (hi : x.installed place = some (block, rsp)) (hs : Sound block others) :
    Room block others rsp ↔ x.HasRoom place := by
  have hlt := hs.lt
  cases place with
  | kpcrStack =>
    obtain ⟨kpcr, -, heq⟩ := Option.map_eq_some_iff.mp hi
    obtain ⟨rfl, rfl⟩ := Prod.mk.inj heq
    exact ⟨fun h => absurd h.lower (Nat.lt_irrefl _), False.elim⟩
  | rsp0 =>
    obtain ⟨rfl, rfl⟩ := Prod.mk.inj (Option.some.inj hi)
    have hrsp : u64 ((initTssCurrentCore x.alloc x.heap).1 + pageSize) = _ := u64_of_lt hlt
    refine iff_of_true ?_ trivial
    rw [show (initTssCurrentCore x.alloc x.heap).2 = _ from hrsp, room_add hs]
    exact ⟨by decide, Nat.le_refl _, Nat.le_add_right _ _⟩
  | esp0 =>
    obtain ⟨t, ht, heq⟩ := Option.map_eq_some_iff.mp hi
    obtain ⟨rfl, rfl⟩ := Prod.mk.inj heq
    rw [(descriptor_eq ht).2.1]
    exact room_name hs 120 (Nat.lt_of_le_of_lt (Nat.le_add_left _ _) hlt)
  | esp3 =>
    obtain ⟨t, ht, heq⟩ := Option.map_eq_some_iff.mp hi
    obtain ⟨rfl, rfl⟩ := Prod.mk.inj heq
    rw [(descriptor_eq ht).2.2]
    exact room_name hs 136 (Nat.lt_of_le_of_lt (Nat.le_add_left _ _) hlt)
  | skip =>
    obtain ⟨t, ht, heq⟩ := Option.map_eq_some_iff.mp hi
    obtain ⟨rfl, rfl⟩ := Prod.mk.inj heq
    rw [timerSkip, getTaskEsp0Button, (descriptor_eq ht).1]
    exact room_name hs 120 (by decide)

end Pointers

section Sample

/-- A heap with blocks one behind the other, and a task with a stack of one page. -/
def sample : Setup Nat where
  alloc := bump
  heap := 0x200000
  cpuid := 1
  kernel := emptyTable
  name := [0x61]
  function := 0
  stackSize := 4096
  priority := 3

theorem sound_task : Sound (0x300175, 4096) [(0x300000, 373)] := by
  refine ⟨by decide, by decide, fun o ho a h1 _ => ?_⟩
  obtain rfl := List.mem_singleton.mp ho
  dsimp only at *
  omega

/-- `esp0` has room. -/
theorem room_sample_holds : Room (0x300175, 4096) [(0x300000, 373)] 0x301175 := by
  have hi : sample.installed .esp0 = some ((0x300175, 4096), 0x301175) := by decide +kernel
  exact (room_installed_iff hi sound_task).mpr (by decide +kernel)

/-- **`kpcr->stack` is the bottom of its block**, and the pointer of the path across
privilege levels too near to it. -/
theorem room_sample_fails :
    sample.installed .kpcrStack = some ((0x200038, 4096), 0x200038) ∧
    ¬ Room (0x200038, 4096) [(0x200000, 56)] 0x200038 ∧
    sample.installed .skip = some ((0x300175, 4096), 0x30023d) ∧
    ¬ Room (0x300175, 4096) [(0x300000, 373)] 0x30023d := by
  refine ⟨by decide +kernel, fun h => ?_, by decide +kernel, fun h => ?_⟩
  · exact absurd h.lower (by decide)
  · have hpush := (h.pushes [400] (by decide) 0x3000ad ⟨by decide, by decide⟩).1.1
    exact absurd hpush (by decide)

end Sample

end X64SmpOs.KernelStacks

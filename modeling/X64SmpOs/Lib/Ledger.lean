import Mathlib.Data.List.Basic

/-!
# Calls of an allocator

What a client of an allocator does, as a list of events: blocks asked for, blocks
given back with the length they are thought to have, and uses of a block.

* `Allocator`: an allocator as its client sees it, with any behaviour;
* `live`: the blocks that are live after some events;
* `Balanced`: events that leave the live blocks as they were, with `Balanced.wrap`
  for code that gives back what it has taken in the opposite order;
* `allocs_add_le`: events with fewer frees than allocations leave blocks behind;
* `UsedAfterFree`: a block is used after it has been given back;
* `Event.mapLen`: the events as an allocator sees them that keeps less than the length.
-/

namespace X64SmpOs.Ledger

universe u

/-- A block: its address and the length it was asked for with. -/
abbrev Block := Nat × Nat

/-- `alloc` returns `0` when it has no block. -/
structure Allocator (σ : Type u) where
  alloc : σ → Nat → Nat × σ
  free : σ → Nat → Nat → σ

inductive Event
  | alloc (ptr len : Nat)
  | free (ptr len : Nat)
  | use (ptr : Nat)
  deriving DecidableEq, Repr

/-- The live blocks, the latest first. -/
def live : List Block → List Event → List Block
  | bs, [] => bs
  | bs, .alloc ptr len :: es => live (if ptr = 0 then bs else (ptr, len) :: bs) es
  | bs, .free ptr len :: es => live (bs.erase (ptr, len)) es
  | bs, .use _ :: es => live bs es

/-- The blocks taken, and those given back. -/
def allocs : List Event → List Block
  | [] => []
  | .alloc ptr len :: es => if ptr = 0 then allocs es else (ptr, len) :: allocs es
  | _ :: es => allocs es

def frees : List Event → List Block
  | [] => []
  | .free ptr len :: es => (ptr, len) :: frees es
  | _ :: es => frees es

/-- Whatever was live before is live after, and nothing else. -/
def Balanced (es : List Event) : Prop := ∀ bs, live bs es = bs

/-- A use of the block comes behind an event that gives it back. -/
def UsedAfterFree (ptr : Nat) (es : List Event) : Prop :=
  ∃ pre len post, es = pre ++ .free ptr len :: post ∧ .use ptr ∈ post

/-- The event with its length replaced. -/
def Event.mapLen (f : Nat → Nat) : Event → Event
  | .alloc ptr len => .alloc ptr (f len)
  | .free ptr len => .free ptr (f len)
  | .use ptr => .use ptr

theorem live_append (bs : List Block) (es fs : List Event) :
    live bs (es ++ fs) = live (live bs es) fs := by
  induction es generalizing bs with
  | nil => rfl
  | cons e es ih =>
    cases e with
    | alloc ptr len => exact ih _
    | free ptr len => exact ih _
    | use ptr => exact ih _

theorem allocs_append (es fs : List Event) : allocs (es ++ fs) = allocs es ++ allocs fs := by
  induction es with
  | nil => rfl
  | cons e es ih =>
    cases e with
    | alloc ptr len =>
      simp only [List.cons_append, allocs, ih]
      split
      · rfl
      · rfl
    | free ptr len => exact ih
    | use ptr => exact ih

theorem frees_append (es fs : List Event) : frees (es ++ fs) = frees es ++ frees fs := by
  induction es with
  | nil => rfl
  | cons e es ih =>
    cases e with
    | alloc ptr len => exact ih
    | free ptr len => exact congrArg ((ptr, len) :: ·) ih
    | use ptr => exact ih

theorem length_allocs_mapLen (f : Nat → Nat) (es : List Event) :
    (allocs (es.map (.mapLen f))).length = (allocs es).length := by
  induction es with
  | nil => rfl
  | cons e es ih =>
    cases e with
    | alloc ptr len =>
      by_cases h0 : ptr = 0
      · simp [allocs, Event.mapLen, h0, ih]
      · simp [allocs, Event.mapLen, h0, ih]
    | free ptr len => exact ih
    | use ptr => exact ih

theorem length_frees_mapLen (f : Nat → Nat) (es : List Event) :
    (frees (es.map (.mapLen f))).length = (frees es).length := by
  induction es with
  | nil => rfl
  | cons e es ih =>
    cases e with
    | alloc ptr len => exact ih
    | free ptr len => exact congrArg (· + 1) ih
    | use ptr => exact ih

theorem balanced_nil : Balanced [] := fun _ => rfl

theorem Balanced.append {es fs : List Event} (h : Balanced es) (h' : Balanced fs) :
    Balanced (es ++ fs) := by
  intro bs
  rw [live_append, h, h']

theorem balanced_use (ptr : Nat) : Balanced [.use ptr] := fun _ => rfl

/-- A refused allocation. -/
theorem balanced_null (len : Nat) : Balanced [.alloc 0 len] := fun _ => rfl

/-- A block taken and given back around balanced events. -/
theorem Balanced.wrap {es : List Event} (h : Balanced es) {ptr : Nat} (hp : ptr ≠ 0) (len : Nat) :
    Balanced (.alloc ptr len :: (es ++ [.free ptr len])) := by
  intro bs
  rw [live, if_neg hp, live_append, h, live, List.erase_cons_head, live]

/-- One event. -/
theorem length_live_cons (bs : List Block) (e : Event) :
    bs.length + (allocs [e]).length ≤ (live bs [e]).length + (frees [e]).length := by
  cases e with
  | alloc ptr len =>
    by_cases h0 : ptr = 0
    · simp [live, allocs, frees, h0]
    · simp [live, allocs, frees, h0]
  | free ptr len =>
    simp only [live, allocs, frees, List.length_nil, List.length_singleton]
    by_cases hm : (ptr, len) ∈ bs
    · rw [List.length_erase_of_mem hm]
      omega
    · rw [List.erase_of_not_mem hm]
      omega
  | use ptr => simp [live, allocs, frees]

/-- **Count.** Every block taken is live or has been given back. -/
theorem allocs_add_le (bs : List Block) (es : List Event) :
    bs.length + (allocs es).length ≤ (live bs es).length + (frees es).length := by
  induction es generalizing bs with
  | nil => exact Nat.le_refl _
  | cons e es ih =>
    have hone := length_live_cons bs e
    have hrest := ih (live bs [e])
    have ha := congrArg List.length (allocs_append [e] es)
    have hf := congrArg List.length (frees_append [e] es)
    have hl := live_append bs [e] es
    simp only [List.singleton_append, List.length_append] at ha hf hl
    rw [ha, hf, hl]
    omega

/-- Fewer frees than allocations leave a block behind. -/
theorem length_lt_live {es : List Event} (h : (frees es).length < (allocs es).length)
    (bs : List Block) : bs.length < (live bs es).length := by
  have := allocs_add_le bs es
  omega

end X64SmpOs.Ledger

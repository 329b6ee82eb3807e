import Mathlib.Logic.Function.Basic

/-!
# Waiting and posting by name

`thread.cpp`: a thread that waits enters itself in the `wait_this` table of the
thread it waits for and sleeps until its `be_posted` is set; a post takes the
named thread out of the poster's own table and sets its flag, and does nothing
for a thread that is not in the table.

* `Threads.clear`, `Threads.enter`, `Threads.leave`: the steps of
  `nst_wait_by_name`; what is done under one hold of the mutex is one step;
* `Threads.post`: `nst_post_by_name`.
-/

namespace X64SmpOs.Net

variable {ι : Type} [DecidableEq ι]

/-- `waitThis w c`: thread `c` is in the table of thread `w`. -/
structure Threads (ι : Type) where
  bePosted : ι → Bool
  waitThis : ι → ι → Bool

namespace Threads

/-- `curthread->be_posted = false`, before the mutex is taken and on return. -/
def clear (s : Threads ι) (c : ι) : Threads ι :=
  { s with bePosted := Function.update s.bePosted c false }

/-- `c` enters the table of `w`; `pthread_cond_wait` gives the mutex back. -/
def enter (s : Threads ι) (c w : ι) : Threads ι :=
  { s with waitThis := Function.update s.waitThis w (Function.update (s.waitThis w) c true) }

/-- A thread that wakes returns if it has been posted, and else sleeps on. -/
def leave (s : Threads ι) (c : ι) : Option (Threads ι) :=
  if s.bePosted c then some (s.clear c) else none

/-- `w` posts `c`. -/
def post (s : Threads ι) (w c : ι) : Threads ι :=
  if s.waitThis w c then
    { bePosted := Function.update s.bePosted c true
      waitThis := Function.update s.waitThis w (Function.update (s.waitThis w) c false) }
  else s

@[simp] theorem clear_waitThis (s : Threads ι) (c : ι) : (s.clear c).waitThis = s.waitThis := rfl

@[simp] theorem enter_bePosted (s : Threads ι) (c w : ι) : (s.enter c w).bePosted = s.bePosted :=
  rfl

@[simp] theorem clear_bePosted_self (s : Threads ι) (c : ι) : (s.clear c).bePosted c = false :=
  Function.update_self ..

theorem clear_bePosted_ne (s : Threads ι) {c d : ι} (h : d ≠ c) :
    (s.clear c).bePosted d = s.bePosted d := Function.update_of_ne h ..

@[simp] theorem enter_waitThis_self (s : Threads ι) (c w : ι) :
    (s.enter c w).waitThis w c = true := by
  simp [enter]

theorem enter_waitThis_ne (s : Threads ι) {c d : ι} (w v : ι) (h : d ≠ c) :
    (s.enter c w).waitThis v d = s.waitThis v d := by
  by_cases hv : v = w
  · subst hv
    simp [enter, h]
  · simp [enter, hv]

theorem leave_eq_some {s t : Threads ι} {c : ι} :
    s.leave c = some t ↔ s.bePosted c = true ∧ t = s.clear c := by
  rw [leave]
  split
  · rename_i h
    simp [h, eq_comm]
  · rename_i h
    simp [h]

/-- A post finds its thread in the table, or changes nothing. -/
theorem post_of_not {s : Threads ι} {w c : ι} (h : s.waitThis w c = false) : s.post w c = s := by
  rw [post, h]
  rfl

theorem post_bePosted_self {s : Threads ι} {w c : ι} (h : s.waitThis w c = true) :
    (s.post w c).bePosted c = true := by
  simp [post, h]

theorem post_waitThis_self (s : Threads ι) (w c : ι) : (s.post w c).waitThis w c = false := by
  rw [post]
  split
  · simp
  · rename_i h
    simpa using h

theorem post_bePosted_ne (s : Threads ι) {c d : ι} (w : ι) (h : d ≠ c) :
    (s.post w c).bePosted d = s.bePosted d := by
  rw [post]
  split
  · exact Function.update_of_ne h ..
  · rfl

theorem post_waitThis_ne (s : Threads ι) {c d : ι} (w v : ι) (h : d ≠ c) :
    (s.post w c).waitThis v d = s.waitThis v d := by
  rw [post]
  split
  · by_cases hv : v = w
    · subst hv
      simp [h]
    · simp [hv]
  · rfl

end Threads

end X64SmpOs.Net

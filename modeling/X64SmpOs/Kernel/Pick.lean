import X64SmpOs.Lib.FirstMax
import X64SmpOs.Kernel.Sched

/-!
# What `get_next_ready_task` picks

The choice of `kernel/task64.c` in full: which task it returns and what it changes.

* `getNextReadyTaskChecked`: the code, with no result where it reads through `NULL`;
* `scanLoop_chosen`, `resetLoop_chosen`: each loop keeps the best task of the slots it
  has passed, and the second one has reset the waiting tasks of these slots;
* `getNextReadyTask_spec`: the ready task of highest priority in the lowest slot, or
  all waiting tasks are reset and the best of them taken, or nothing.
-/

namespace X64SmpOs.Pick

open Task64 FirstMax

/-! ## The code -/

/-- `g_task.tasks[0]->state`, read only when slot 0 is occupied. -/
def idleTaskChecked (g : TaskCtx) : Option (Option Nat) :=
  (g.tasks 0).map fun p => if (g.task p).state = .ready then some p else none

/-- The choice; no result where it needs an empty slot 0. -/
def scanTasksChecked (g : TaskCtx) : Option (Option Nat × TaskCtx) :=
  match scanLoop g (List.range taskMaxNums) none false with
  | (some p, _) => some (some p, g)
  | (none, true) => some (resetLoop g (List.range taskMaxNums) none)
  | (none, false) => (idleTaskChecked g).map (·, g)

def getNextReadyTaskChecked (g : TaskCtx) : Option (Option Nat × TaskCtx) :=
  match scanTasksChecked g with
  | none => none
  | some (none, g) => some (none, g)
  | some (some p, g) => some (some p, claimTask g p)

/-- With slot 0 occupied the check makes no difference. -/
theorem getNextReadyTaskChecked_of_slot {g : TaskCtx} (h0 : g.tasks 0 ≠ none) :
    getNextReadyTaskChecked g = some (getNextReadyTask g) := by
  obtain ⟨p0, hp0⟩ := Option.ne_none_iff_exists'.mp h0
  have hidle : idleTaskChecked g = some (idleTask g) := by simp [idleTaskChecked, idleTask, hp0]
  have hscan : scanTasksChecked g = some (scanTasks g) := by
    simp only [scanTasksChecked, scanTasks, hidle]
    generalize scanLoop g (List.range taskMaxNums) none false = r
    obtain ⟨high, w⟩ := r
    cases high with
    | some p => rfl
    | none =>
      cases w with
      | false => rfl
      | true => rfl
  simp only [getNextReadyTaskChecked, getNextReadyTask, hscan]
  obtain ⟨choice, g'⟩ := scanTasks g
  cases choice with
  | none => rfl
  | some p => rfl

/-! ## What it is for -/

/-- The task of slot `i` is in the state; no slot has one of higher priority in that
state, no lower slot one of the same. -/
structure Best (g : TaskCtx) (st : TaskState) (i p : Nat) : Prop where
  lt : i < taskMaxNums
  slot : g.tasks i = some p
  state : g.state p = st
  best : ∀ j < taskMaxNums, ∀ q, g.tasks j = some q → g.state q = st →
    (g.task q).priority < (g.task p).priority ∨
      ((g.task q).priority = (g.task p).priority ∧ i ≤ j)

/-- Some slot holds a task in the state. -/
def HasTask (g : TaskCtx) (st : TaskState) : Prop := ∃ p, g.Holds p ∧ g.state p = st

/-- A waiting task with a new slice. -/
def renew (t : Task) : Task := { t with counter := t.priority, state := .ready }

/-- The waiting tasks of the slots get a new slice. -/
def resetSlots (g : TaskCtx) (is : List Nat) : TaskCtx where
  tasks := g.tasks
  task p :=
    if (∃ i ∈ is, g.tasks i = some p) ∧ (g.task p).state = .waiting then renew (g.task p)
    else g.task p

def resetWaiting (g : TaskCtx) : TaskCtx := resetSlots g (List.range taskMaxNums)

/-! ## The loops -/

section Loops

variable (g : TaskCtx)

/-- The task of a slot, if it is in the state. -/
def candidate (st : TaskState) (i : Nat) : Option Nat :=
  (g.tasks i).filter fun p => g.state p = st

def priority (p : Nat) : Nat := (g.task p).priority

variable {g}

theorem candidate_empty {st : TaskState} {i : Nat} (h : g.tasks i = none) :
    candidate g st i = none := by
  rw [candidate, h, Option.filter_none]

theorem candidate_some {st : TaskState} {i p : Nat} (h : g.tasks i = some p)
    (hp : g.state p = st) : candidate g st i = some p := by
  simp [candidate, h, hp]

theorem candidate_other {st : TaskState} {i p : Nat} (h : g.tasks i = some p)
    (hp : g.state p ≠ st) : candidate g st i = none := by
  simp [candidate, h, hp]

theorem candidate_eq_some {st : TaskState} {i p : Nat} :
    candidate g st i = some p ↔ g.tasks i = some p ∧ g.state p = st := by
  simp [candidate]

/-- **First loop.** The candidate is the best ready task of the slots passed. -/
theorem scanLoop_chosen {pre is : List Nat} {high : Option Nat} {w : Bool}
    (h : Chosen (candidate g .ready) (priority g) pre high) :
    Chosen (candidate g .ready) (priority g) (pre ++ is) (scanLoop g is high w).1 := by
  induction is generalizing pre high w with
  | nil => simpa [scanLoop] using h
  | cons i is ih =>
    rw [List.append_cons]
    cases hi : g.tasks i with
    | none =>
      simp only [scanLoop, hi]
      exact ih (h.skip (candidate_empty hi))
    | some p =>
      by_cases hw : (g.task p).state = .waiting
      · have hne : g.state p ≠ .ready := by
          intro hr
          rw [TaskCtx.state, hw] at hr
          cases hr
        simp only [scanLoop, hi, hw, ↓reduceIte]
        exact ih (h.skip (candidate_other hi hne))
      · by_cases hr : (g.task p).state = .ready
        · have hp := candidate_some hi hr
          cases high with
          | none =>
            simp only [scanLoop, hi, hr, reduceCtorEq, ↓reduceIte]
            exact ih (h.start hp)
          | some q =>
            simp only [scanLoop, hi, hr, reduceCtorEq, ↓reduceIte]
            split
            · exact ih (h.replace hp ‹_›)
            · exact ih (h.keep hp ‹_›)
        · simp only [scanLoop, hi, hw, hr, ↓reduceIte]
          exact ih (h.skip (candidate_other hi hr))

/-- A waiting task is noticed when there is one. -/
theorem scanLoop_wait {is : List Nat} {high : Option Nat} {w : Bool}
    (h : (scanLoop g is high w).2 = true) :
    w = true ∨ ∃ i ∈ is, ∃ p, g.tasks i = some p ∧ g.state p = .waiting := by
  induction is generalizing high w with
  | nil => exact Or.inl h
  | cons i is ih =>
    have hmore : ∀ {high'}, (scanLoop g is high' w).2 = true →
        w = true ∨ ∃ j ∈ i :: is, ∃ p, g.tasks j = some p ∧ g.state p = .waiting := by
      intro high' h'
      rcases ih h' with hw | ⟨j, hj, hp⟩
      · exact Or.inl hw
      · exact Or.inr ⟨j, List.mem_cons_of_mem _ hj, hp⟩
    unfold scanLoop at h
    split at h
    · exact hmore h
    · rename_i p hp
      split at h
      · exact Or.inr ⟨i, List.mem_cons_self, p, hp, ‹_›⟩
      · split at h
        · split at h
          · exact hmore h
          · split at h
            · exact hmore h
            · exact hmore h
        · exact hmore h

theorem resetSlots_nil : resetSlots g [] = g := by simp [resetSlots]

theorem resetSlots_priority (is : List Nat) (p : Nat) :
    ((resetSlots g is).task p).priority = (g.task p).priority := by
  unfold resetSlots
  dsimp only
  split
  · rfl
  · rfl

theorem waiting_of_resetSlots {is : List Nat} {p : Nat}
    (h : (resetSlots g is).state p = .waiting) : g.state p = .waiting := by
  unfold resetSlots TaskCtx.state at h
  dsimp only at h
  split at h
  · cases h
  · exact h

theorem mem_of_resetSlots {is : List Nat} {p : Nat} (hg : g.state p = .waiting)
    (h : (resetSlots g is).state p ≠ .waiting) : ∃ i ∈ is, g.tasks i = some p := by
  by_contra hno
  refine h ?_
  simp only [resetSlots, TaskCtx.state]
  rw [if_neg fun h => hno h.1]
  exact hg

/-- A slot without a task that is still waiting. -/
theorem resetSlots_skip {pre : List Nat} {i : Nat}
    (hi : ∀ p, g.tasks i = some p → (resetSlots g pre).state p ≠ .waiting) :
    resetSlots g (pre ++ [i]) = resetSlots g pre := by
  refine congrArg (TaskCtx.mk g.tasks) (funext fun p => ?_)
  by_cases hp : (∃ j ∈ pre, g.tasks j = some p) ∧ (g.task p).state = .waiting
  · obtain ⟨⟨j, hj, hjp⟩, hw⟩ := hp
    rw [if_pos ⟨⟨j, List.mem_append_left _ hj, hjp⟩, hw⟩, if_pos ⟨⟨j, hj, hjp⟩, hw⟩]
  · rw [if_neg hp, if_neg]
    rintro ⟨⟨j, hj, hjp⟩, hw⟩
    rcases List.mem_append.mp hj with hj | hj
    · exact hp ⟨⟨j, hj, hjp⟩, hw⟩
    · obtain rfl := List.mem_singleton.mp hj
      refine hi p hjp ?_
      simp only [resetSlots, TaskCtx.state, if_neg hp]
      exact hw

/-- A slot whose task is still waiting. -/
theorem resetSlots_snoc {pre : List Nat} {i p : Nat} (hi : g.tasks i = some p)
    (hp : (resetSlots g pre).state p = .waiting) :
    (resetSlots g pre).setTask p { (resetSlots g pre).task p with
      counter := ((resetSlots g pre).task p).priority, state := .ready } =
        resetSlots g (pre ++ [i]) := by
  have hnew : ¬ ((∃ j ∈ pre, g.tasks j = some p) ∧ (g.task p).state = .waiting) := by
    intro h
    simp only [resetSlots, TaskCtx.state, if_pos h] at hp
    cases hp
  have hself : (resetSlots g pre).task p = g.task p := if_neg hnew
  have hw : (g.task p).state = .waiting := by
    rw [← hself]
    exact hp
  refine congrArg (TaskCtx.mk g.tasks) (funext fun q => ?_)
  by_cases hq : q = p
  · subst hq
    rw [Function.update_self, hself]
    exact (if_pos ⟨⟨i, List.mem_append_right _ (List.mem_singleton_self i), hi⟩, hw⟩).symm
  · rw [Function.update_of_ne hq]
    refine if_congr (and_congr_left fun _ => ?_) rfl rfl
    simp only [List.mem_append, List.mem_singleton, or_and_right, exists_or, exists_eq_left]
    refine ⟨Or.inl, fun h => h.resolve_right fun he => hq ?_⟩
    exact Option.some.inj (he.symm.trans hi)

/-- **Second loop.** It has reset the waiting tasks of the slots passed, and the
candidate is the best of them. -/
theorem resetLoop_chosen {pre is : List Nat} {high : Option Nat}
    (h : Chosen (candidate g .waiting) (priority g) pre high) :
    (resetLoop (resetSlots g pre) is high).2 = resetSlots g (pre ++ is) ∧
      Chosen (candidate g .waiting) (priority g) (pre ++ is)
        (resetLoop (resetSlots g pre) is high).1 := by
  induction is generalizing pre high with
  | nil => simpa [resetLoop] using h
  | cons i is ih =>
    rw [List.append_cons]
    cases hi : g.tasks i with
    | none =>
      have hskip : resetSlots g (pre ++ [i]) = resetSlots g pre :=
        resetSlots_skip fun p hp => by
          rw [hi] at hp
          cases hp
      have := ih (h.skip (candidate_empty hi))
      simpa only [resetLoop, show (resetSlots g pre).tasks i = none from hi, hskip] using this
    | some p =>
      have hi' : (resetSlots g pre).tasks i = some p := hi
      by_cases hw : ((resetSlots g pre).task p).state = .waiting
      · have hsnoc := resetSlots_snoc hi hw
        have hp := candidate_some hi (waiting_of_resetSlots hw)
        simp only [resetLoop, hi', hw, ne_eq, not_true_eq_false, ↓reduceIte]
        rw [hsnoc]
        cases high with
        | none => exact ih (h.start hp)
        | some q =>
          simp only [resetSlots_priority]
          split
          · exact ih (h.replace hp ‹_›)
          · exact ih (h.keep hp ‹_›)
      · have hskip : resetSlots g (pre ++ [i]) = resetSlots g pre :=
          resetSlots_skip fun q hq => by
            obtain rfl := Option.some.inj (hi.symm.trans hq)
            exact hw
        have hchosen : Chosen (candidate g .waiting) (priority g) (pre ++ [i]) high := by
          by_cases hg : g.state p = .waiting
          · -- the task is in an earlier slot, too
            obtain ⟨j, hj, hjp⟩ := mem_of_resetSlots hg hw
            have hcand := candidate_some hjp hg
            obtain ⟨b, rfl, hb⟩ := h.exists_first hj hcand
            exact h.keep (candidate_some hi hg) (not_lt.mpr (hb.le hj hcand))
          · exact h.skip (candidate_other hi hg)
        have := ih hchosen
        simpa only [resetLoop, hi', hw, ne_eq, not_false_eq_true, ↓reduceIte, hskip] using this

end Loops

/-! ## The choice -/

/-- The best candidate of all slots. -/
theorem best_of_first {g : TaskCtx} {st : TaskState} {p : Nat}
    (h : First (candidate g st) (priority g) (List.range taskMaxNums) p) : ∃ i, Best g st i p := by
  obtain ⟨i, hi, hip, hbest⟩ := h.sorted List.pairwise_lt_range
  obtain ⟨hslot, hstate⟩ := candidate_eq_some.mp hip
  refine ⟨i, List.mem_range.mp hi, hslot, hstate, fun j hj q hq hqs => ?_⟩
  exact hbest j (List.mem_range.mpr hj) q (candidate_some hq hqs)

section Choice

variable {g : TaskCtx}

theorem exists_best {st : TaskState} {high : Option Nat} (h : HasTask g st)
    (hc : Chosen (candidate g st) (priority g) (List.range taskMaxNums) high) :
    ∃ i p, high = some p ∧ Best g st i p := by
  obtain ⟨p, ⟨i, hi, hip⟩, hp⟩ := h
  obtain ⟨q, rfl, hq⟩ := hc.exists_first (List.mem_range.mpr hi) (candidate_some hip hp)
  obtain ⟨j, hj⟩ := best_of_first hq
  exact ⟨j, q, rfl, hj⟩

theorem no_chosen {st : TaskState} {high : Option Nat} (h : ¬ HasTask g st)
    (hc : Chosen (candidate g st) (priority g) (List.range taskMaxNums) high) : high = none := by
  cases high with
  | none => rfl
  | some p =>
    obtain ⟨i, hi⟩ := best_of_first hc
    exact absurd ⟨p, ⟨i, hi.lt, hi.slot⟩, hi.state⟩ h

theorem scanLoop_first : Chosen (candidate g .ready) (priority g) (List.range taskMaxNums)
    (scanLoop g (List.range taskMaxNums) none false).1 :=
  List.nil_append (List.range taskMaxNums) ▸ scanLoop_chosen chosen_nil

/-- Some task is ready. -/
theorem scanTasks_ready (h : HasTask g .ready) :
    ∃ i p, Best g .ready i p ∧ scanTasks g = (some p, g) := by
  obtain ⟨i, p, hp, hbest⟩ := exists_best h scanLoop_first
  refine ⟨i, p, hbest, ?_⟩
  unfold scanTasks
  generalize scanLoop g (List.range taskMaxNums) none false = r at hp
  obtain ⟨high, w⟩ := r
  obtain rfl : high = some p := hp
  rfl

/-- No task is ready: the scan sees whether one waits. -/
theorem scanLoop_idle (h : ¬ HasTask g .ready) :
    (scanLoop g (List.range taskMaxNums) none false).1 = none ∧
      ((scanLoop g (List.range taskMaxNums) none false).2 = true ↔ HasTask g .waiting) := by
  have hnone := no_chosen h scanLoop_first
  refine ⟨hnone, fun hw => ?_, ?_⟩
  · rcases scanLoop_wait hw with hw | ⟨i, hi, p, hip, hp⟩
    · cases hw
    · exact ⟨p, ⟨i, List.mem_range.mp hi, hip⟩, hp⟩
  · rintro ⟨p, ⟨i, hi, hip⟩, hp⟩
    exact ((scanLoop_none hnone).2 i (List.mem_range.mpr hi) p hip).2 hp

/-- None is ready and some wait. -/
theorem scanTasks_waiting (h : ¬ HasTask g .ready) (hw : HasTask g .waiting) :
    ∃ i p, Best g .waiting i p ∧ scanTasks g = (some p, resetWaiting g) := by
  have hnil : Chosen (candidate g .waiting) (priority g) [] none := chosen_nil
  obtain ⟨hreset, hchosen⟩ := @resetLoop_chosen _ [] (List.range taskMaxNums) none hnil
  rw [resetSlots_nil, List.nil_append] at hreset hchosen
  obtain ⟨i, p, hp, hbest⟩ := exists_best hw hchosen
  obtain ⟨hnone, hwait⟩ := scanLoop_idle h
  have htrue := hwait.mpr hw
  refine ⟨i, p, hbest, ?_⟩
  unfold scanTasks
  generalize scanLoop g (List.range taskMaxNums) none false = r at hnone htrue
  obtain ⟨high, w⟩ := r
  obtain rfl : high = none := hnone
  obtain rfl : w = true := htrue
  exact Prod.ext hp hreset

/-- None is ready and none waits. -/
theorem scanTasks_idle (h : ¬ HasTask g .ready) (hw : ¬ HasTask g .waiting) :
    scanTasks g = (none, g) := by
  obtain ⟨hnone, hwait⟩ := scanLoop_idle h
  have hfalse := fun htrue => hw (hwait.mp htrue)
  have hidle : idleTask g = none := by
    unfold idleTask
    split
    · rfl
    · rename_i p hp
      exact if_neg fun hr => h ⟨p, ⟨0, by decide, hp⟩, hr⟩
  unfold scanTasks
  generalize scanLoop g (List.range taskMaxNums) none false = r at hnone hfalse
  obtain ⟨high, w⟩ := r
  obtain rfl : high = none := hnone
  cases w with
  | true => exact absurd rfl hfalse
  | false => exact Prod.ext hidle rfl

/-- Each task is as it was, or has been renewed. -/
theorem scanTasks_task (g : TaskCtx) (p : Nat) :
    (scanTasks g).2.task p = g.task p ∨
      (g.state p = .waiting ∧ (scanTasks g).2.task p = renew (g.task p)) := by
  by_cases hr : HasTask g .ready
  · obtain ⟨i, q, -, hscan⟩ := scanTasks_ready hr
    exact Or.inl (by rw [hscan])
  · by_cases hw : HasTask g .waiting
    · obtain ⟨i, q, -, hscan⟩ := scanTasks_waiting hr hw
      rw [hscan]
      by_cases hp : (∃ i ∈ List.range taskMaxNums, g.tasks i = some p) ∧
          (g.task p).state = .waiting
      · exact Or.inr ⟨hp.2, if_pos hp⟩
      · exact Or.inl (if_neg hp)
    · exact Or.inl (by rw [scanTasks_idle hr hw])

end Choice

/-- **`get_next_ready_task`**, with slot 0 occupied. -/
theorem getNextReadyTask_spec (g : TaskCtx) (h0 : g.tasks 0 ≠ none) :
    (HasTask g .ready → ∃ i p, Best g .ready i p ∧
      getNextReadyTaskChecked g = some (some p, setTaskRunning g p)) ∧
    (¬ HasTask g .ready → HasTask g .waiting → ∃ i p, Best g .waiting i p ∧
      getNextReadyTaskChecked g = some (some p, setTaskRunning (resetWaiting g) p)) ∧
    (¬ HasTask g .ready → ¬ HasTask g .waiting →
      getNextReadyTaskChecked g = some (none, g)) := by
  rw [getNextReadyTaskChecked_of_slot h0]
  unfold getNextReadyTask
  refine ⟨fun h => ?_, fun h hw => ?_, fun h hw => ?_⟩
  · obtain ⟨i, p, hbest, hscan⟩ := scanTasks_ready h
    exact ⟨i, p, hbest, by rw [hscan]; rfl⟩
  · obtain ⟨i, p, hbest, hscan⟩ := scanTasks_waiting h hw
    exact ⟨i, p, hbest, by rw [hscan]; rfl⟩
  · rw [scanTasks_idle h hw]

/-- Two ready tasks of one priority and a waiting one of a higher. -/
def mixed : TaskCtx where
  tasks i := if i < 4 then some (0x1000 + i) else none
  task p :=
    { pid := p - 0x1000
      counter := 1
      priority := if p = 0x1001 then 5 else 3
      state := if p = 0x1000 then .running else if p = 0x1001 then .waiting else .ready }

theorem getNextReadyTask_spec_sample :
    (HasTask mixed .ready → ∃ i p, Best mixed .ready i p ∧
      getNextReadyTaskChecked mixed = some (some p, setTaskRunning mixed p)) ∧
    (getNextReadyTaskChecked mixed).map Prod.fst = some (some 0x1002) :=
  ⟨(getNextReadyTask_spec mixed (by decide)).1, by decide +kernel⟩

end X64SmpOs.Pick

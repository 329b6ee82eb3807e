import Mathlib.Data.List.Range
import X64SmpOs.Lib.Words

/-!
# The task table of `kernel/task64.c`

`g_task.tasks` maps the slots `0 .. 99` to tasks; a task is known by its
address, so two slots or two processors can name one task.

* `scanTasks`: `get_next_ready_task` up to its choice, `claimTask` its last
  assignment, `getNextReadyTask` both;
* `scanTasks_spec`: the chosen task was ready or waiting and is ready now, no
  running task changes, and with none chosen no slot holds a task that could run.
-/

namespace X64SmpOs.Task64

open Words

inductive TaskState
  | init
  | running
  | ready
  | blocked
  | sleeping
  | waiting
  | died
  deriving DecidableEq, Repr

/-- The scheduling fields of `task_t`; counters are `uint64_t`. -/
structure Task where
  pid : Nat
  counter : Nat
  priority : Nat
  state : TaskState
  deriving DecidableEq, Repr

def taskMaxNums : Nat := 100

/-- `tasks i` is the address in slot `i`, `task p` the descriptor at `p`. A freed
descriptor stays in memory as it was. -/
structure TaskCtx where
  tasks : Nat → Option Nat
  task : Nat → Task

namespace TaskCtx

def setTask (g : TaskCtx) (p : Nat) (t : Task) : TaskCtx :=
  { g with task := Function.update g.task p t }

@[simp] theorem setTask_tasks (g : TaskCtx) (p : Nat) (t : Task) :
    (g.setTask p t).tasks = g.tasks :=
  rfl

@[simp] theorem setTask_self (g : TaskCtx) (p : Nat) (t : Task) : (g.setTask p t).task p = t :=
  Function.update_self ..

theorem setTask_ne (g : TaskCtx) {p q : Nat} (t : Task) (h : q ≠ p) :
    (g.setTask p t).task q = g.task q := Function.update_of_ne h ..

def state (g : TaskCtx) (p : Nat) : TaskState := (g.task p).state

/-- A slot of the table holds the task. -/
def Holds (g : TaskCtx) (p : Nat) : Prop := ∃ i < taskMaxNums, g.tasks i = some p

end TaskCtx

/-! ## The code -/

def setTaskRunning (g : TaskCtx) (p : Nat) : TaskCtx :=
  g.setTask p { g.task p with state := .running }

def setTaskWaiting (g : TaskCtx) (p : Nat) : TaskCtx :=
  g.setTask p { g.task p with state := .waiting }

/-- The decremented counter, and the table with it. -/
def decreaseTaskCounter (g : TaskCtx) (p : Nat) : Nat × TaskCtx :=
  let counter := sub64 (g.task p).counter 1
  (counter, g.setTask p { g.task p with counter := counter })

/-- `task_clean` on the table: the task dies and its slot is emptied. -/
def taskClean (g : TaskCtx) (p : Nat) : TaskCtx :=
  let g := g.setTask p { g.task p with state := .died }
  { g with tasks := Function.update g.tasks (g.task p).pid none }

/-- The first loop of `get_next_ready_task`, over the slots of a list. -/
def scanLoop (g : TaskCtx) : List Nat → Option Nat → Bool → Option Nat × Bool
  | [], highPrioTask, hasWaitTask => (highPrioTask, hasWaitTask)
  | i :: is, highPrioTask, hasWaitTask =>
    match g.tasks i with
    | none => scanLoop g is highPrioTask hasWaitTask
    | some p =>
      if (g.task p).state = .waiting then scanLoop g is highPrioTask true
      else if (g.task p).state = .ready then
        match highPrioTask with
        | none => scanLoop g is (some p) hasWaitTask
        | some q =>
          if (g.task p).priority > (g.task q).priority then scanLoop g is (some p) hasWaitTask
          else scanLoop g is (some q) hasWaitTask
      else scanLoop g is highPrioTask hasWaitTask

/-- The second loop, which makes the waiting tasks ready again. -/
def resetLoop (g : TaskCtx) : List Nat → Option Nat → Option Nat × TaskCtx
  | [], highPrioTask => (highPrioTask, g)
  | i :: is, highPrioTask =>
    match g.tasks i with
    | none => resetLoop g is highPrioTask
    | some p =>
      if (g.task p).state ≠ .waiting then resetLoop g is highPrioTask
      else
        let g := g.setTask p { g.task p with counter := (g.task p).priority, state := .ready }
        match highPrioTask with
        | none => resetLoop g is (some p)
        | some q =>
          if (g.task p).priority > (g.task q).priority then resetLoop g is (some p)
          else resetLoop g is (some q)

/-- With no ready and no waiting task the code looks at slot `0`. If the slot is
empty it reads through `NULL`; either way it then has `NULL`. -/
def idleTask (g : TaskCtx) : Option Nat :=
  match g.tasks 0 with
  | none => none
  | some p => if (g.task p).state = .ready then some p else none

/-- `get_next_ready_task` up to its choice. -/
def scanTasks (g : TaskCtx) : Option Nat × TaskCtx :=
  match scanLoop g (List.range taskMaxNums) none false with
  | (some p, _) => (some p, g)
  | (none, true) => resetLoop g (List.range taskMaxNums) none
  | (none, false) => (idleTask g, g)

/-- `highPrioTask->state = TASK_RUNNING`. -/
def claimTask (g : TaskCtx) (p : Nat) : TaskCtx :=
  g.setTask p { g.task p with state := .running }

def getNextReadyTask (g : TaskCtx) : Option Nat × TaskCtx :=
  match scanTasks g with
  | (none, g) => (none, g)
  | (some p, g) => (some p, claimTask g p)

/-! ## What a scan chooses and changes -/

/-- Ready or waiting: what a scan may choose. -/
def TaskState.Idle (s : TaskState) : Prop := s = .ready ∨ s = .waiting

theorem scanLoop_some {g : TaskCtx} {is : List Nat} {high : Option Nat} {w : Bool} {p : Nat}
    (h : (scanLoop g is high w).1 = some p) :
    high = some p ∨ ∃ i ∈ is, g.tasks i = some p ∧ g.state p = .ready := by
  induction is generalizing high w with
  | nil => exact Or.inl h
  | cons i is ih =>
    have hmore : ∀ {high' w'}, (scanLoop g is high' w').1 = some p →
        high' = high ∨ (high' = g.tasks i ∧ ∃ q, g.tasks i = some q ∧ g.state q = .ready) →
        high = some p ∨ ∃ j ∈ i :: is, g.tasks j = some p ∧ g.state p = .ready := by
      intro high' w' h' hhigh
      rcases ih h' with hp | ⟨j, hj, h1, h2⟩
      · rcases hhigh with rfl | ⟨rfl, q, hq, hr⟩
        · exact Or.inl hp
        · obtain rfl := Option.some.inj (hq.symm.trans hp)
          exact Or.inr ⟨i, List.mem_cons_self, hq, hr⟩
      · exact Or.inr ⟨j, List.mem_cons_of_mem _ hj, h1, h2⟩
    unfold scanLoop at h
    split at h
    · exact hmore h (Or.inl rfl)
    · rename_i q hq
      split at h
      · exact hmore h (Or.inl rfl)
      · split at h
        · rename_i hready
          split at h
          · exact hmore h (Or.inr ⟨hq.symm, q, hq, hready⟩)
          · split at h
            · exact hmore h (Or.inr ⟨hq.symm, q, hq, hready⟩)
            · exact hmore h (Or.inl rfl)
        · exact hmore h (Or.inl rfl)

/-- Without a choice the slots hold no ready task, and a waiting one is noticed. -/
theorem scanLoop_none {g : TaskCtx} {is : List Nat} {high : Option Nat} {w : Bool}
    (h : (scanLoop g is high w).1 = none) :
    high = none ∧ ∀ i ∈ is, ∀ p, g.tasks i = some p →
      g.state p ≠ .ready ∧ (g.state p = .waiting → (scanLoop g is high w).2 = true) := by
  have hkeep : ∀ (js : List Nat) (high' : Option Nat), (scanLoop g js high' true).2 = true := by
    intro js
    induction js with
    | nil => intro _; rfl
    | cons j js ih =>
      intro high'
      unfold scanLoop
      repeat' split
      all_goals exact ih _
  induction is generalizing high w with
  | nil => exact ⟨h, by simp⟩
  | cons i is ih =>
    cases hi : g.tasks i with
    | none =>
      simp only [scanLoop, hi] at h ⊢
      obtain ⟨h1, h2⟩ := ih h
      exact ⟨h1, by simpa [hi] using h2⟩
    | some p =>
      by_cases hw : (g.task p).state = .waiting
      · simp only [scanLoop, hi, hw, ↓reduceIte] at h ⊢
        obtain ⟨h1, h2⟩ := ih h
        refine ⟨h1, fun j hj q hq => ?_⟩
        rcases List.mem_cons.mp hj with rfl | hj
        · obtain rfl := Option.some.inj (hi.symm.trans hq)
          refine ⟨fun hr => ?_, fun _ => hkeep is high⟩
          simp only [TaskCtx.state, hw] at hr
          cases hr
        · exact h2 j hj q hq
      · by_cases hr : (g.task p).state = .ready
        · cases high with
          | none =>
            simp only [scanLoop, hi, hr, reduceCtorEq, ↓reduceIte] at h
            exact absurd (ih h).1 (by simp)
          | some q =>
            simp only [scanLoop, hi, hr, reduceCtorEq, ↓reduceIte] at h
            split at h
            · exact absurd (ih h).1 (by simp)
            · exact absurd (ih h).1 (by simp)
        · simp only [scanLoop, hi, hw, hr, ↓reduceIte] at h ⊢
          obtain ⟨h1, h2⟩ := ih h
          refine ⟨h1, fun j hj q hq => ?_⟩
          rcases List.mem_cons.mp hj with rfl | hj
          · obtain rfl := Option.some.inj (hi.symm.trans hq)
            exact ⟨hr, fun hw' => absurd hw' hw⟩
          · exact h2 j hj q hq

/-- What a scan does to the descriptors: some waiting ones become ready. -/
structure Woken (g g' : TaskCtx) : Prop where
  tasks : g'.tasks = g.tasks
  pid : ∀ p, (g'.task p).pid = (g.task p).pid
  priority : ∀ p, (g'.task p).priority = (g.task p).priority
  state : ∀ p, g'.state p = g.state p ∨ (g.state p = .waiting ∧ g'.state p = .ready)

theorem Woken.refl (g : TaskCtx) : Woken g g :=
  ⟨rfl, fun _ => rfl, fun _ => rfl, fun _ => Or.inl rfl⟩

theorem Woken.trans {g g' g'' : TaskCtx} (h : Woken g g') (h' : Woken g' g'') : Woken g g'' where
  tasks := h'.tasks.trans h.tasks
  pid p := (h'.pid p).trans (h.pid p)
  priority p := (h'.priority p).trans (h.priority p)
  state p := by
    rcases h.state p with h1 | ⟨h1, h2⟩ <;> rcases h'.state p with h3 | ⟨h3, h4⟩
    · exact Or.inl (h3.trans h1)
    · exact Or.inr ⟨h1 ▸ h3, h4⟩
    · exact Or.inr ⟨h1, h3.trans h2⟩
    · rw [h2] at h3
      cases h3

theorem woken_reset (g : TaskCtx) {p : Nat} (h : (g.task p).state = .waiting) :
    Woken g (g.setTask p { g.task p with counter := (g.task p).priority, state := .ready }) := by
  refine ⟨rfl, fun q => ?_, fun q => ?_, fun q => ?_⟩ <;> by_cases hq : q = p
  · subst hq
    simp
  · rw [TaskCtx.setTask_ne _ _ hq]
  · subst hq
    simp
  · rw [TaskCtx.setTask_ne _ _ hq]
  · subst hq
    exact Or.inr ⟨h, by simp [TaskCtx.state]⟩
  · exact Or.inl (by simp [TaskCtx.state, TaskCtx.setTask_ne _ _ hq])

/-- The second loop wakes waiting tasks and chooses one it has woken. -/
theorem resetLoop_spec (g : TaskCtx) (is : List Nat) (high : Option Nat) :
    Woken g (resetLoop g is high).2 ∧
      ∀ p, (resetLoop g is high).1 = some p →
        high = some p ∨ ((∃ i ∈ is, g.tasks i = some p) ∧ g.state p = .waiting ∧
          (resetLoop g is high).2.state p = .ready) := by
  induction is generalizing g high with
  | nil => exact ⟨Woken.refl g, fun p hp => Or.inl hp⟩
  | cons i is ih =>
    have hskip : Woken g (resetLoop g is high).2 ∧
        ∀ p, (resetLoop g is high).1 = some p →
          high = some p ∨ ((∃ j ∈ i :: is, g.tasks j = some p) ∧ g.state p = .waiting ∧
            (resetLoop g is high).2.state p = .ready) := by
      obtain ⟨hwoken, hchosen⟩ := ih g high
      refine ⟨hwoken, fun p hp => (hchosen p hp).imp_right ?_⟩
      rintro ⟨⟨j, hj, h1⟩, h2⟩
      exact ⟨⟨j, List.mem_cons_of_mem _ hj, h1⟩, h2⟩
    unfold resetLoop
    cases hi : g.tasks i with
    | none => exact hskip
    | some q =>
      by_cases hw : (g.task q).state = .waiting
      · simp only [hw, ne_eq, not_true_eq_false, ↓reduceIte]
        have hwake := woken_reset g hw
        generalize hg : g.setTask q { g.task q with
          counter := (g.task q).priority, state := .ready } = g1 at hwake
        have hq1 : g1.state q = .ready := by simp [← hg, TaskCtx.state]
        -- either the old candidate goes on, or the woken task
        have hgo : ∀ high', high' = high ∨ high' = some q →
            Woken g (resetLoop g1 is high').2 ∧
              ∀ p, (resetLoop g1 is high').1 = some p →
                high = some p ∨ ((∃ j ∈ i :: is, g.tasks j = some p) ∧ g.state p = .waiting ∧
                  (resetLoop g1 is high').2.state p = .ready) := by
          intro high' hhigh
          obtain ⟨hw1, hw2⟩ := ih g1 high'
          refine ⟨hwake.trans hw1, fun p hp => ?_⟩
          rcases hw2 p hp with h1 | ⟨⟨j, hj, h1⟩, h2, h3⟩
          · rcases hhigh with rfl | rfl
            · exact Or.inl h1
            · obtain rfl := Option.some.inj h1
              refine Or.inr ⟨⟨i, List.mem_cons_self, hi⟩, hw, ?_⟩
              rcases hw1.state q with h4 | ⟨-, h4⟩
              · exact h4.trans hq1
              · exact h4
          · have hpw : g.state p = .waiting := by
              rcases hwake.state p with h4 | ⟨h4, h5⟩
              · exact h4 ▸ h2
              · exact h4
            rw [hwake.tasks] at h1
            exact Or.inr ⟨⟨j, List.mem_cons_of_mem _ hj, h1⟩, hpw, h3⟩
        cases high with
        | none => exact hgo _ (Or.inr rfl)
        | some r =>
          simp only
          split
          · exact hgo _ (Or.inr rfl)
          · exact hgo _ (Or.inl rfl)
      · simp only [hw, ne_eq, not_false_eq_true, ↓reduceIte]
        exact hskip

/-- A waiting task in the table makes the second loop choose. -/
theorem resetLoop_some {g : TaskCtx} {is : List Nat} {high : Option Nat}
    (h : high ≠ none ∨ ∃ i ∈ is, ∃ p, g.tasks i = some p ∧ g.state p = .waiting) :
    (resetLoop g is high).1 ≠ none := by
  induction is generalizing g high with
  | nil => simpa [resetLoop] using h
  | cons i is ih =>
    unfold resetLoop
    cases hi : g.tasks i with
    | none =>
      refine ih (h.imp_right ?_)
      rintro ⟨j, hj, p, hp, hw⟩
      rcases List.mem_cons.mp hj with rfl | hj
      · rw [hi] at hp
        cases hp
      · exact ⟨j, hj, p, hp, hw⟩
    | some q =>
      by_cases hw : (g.task q).state = .waiting
      · simp only [hw, ne_eq, not_true_eq_false, ↓reduceIte]
        cases high with
        | none => exact ih (Or.inl (by simp))
        | some r =>
          simp only
          split
          · exact ih (Or.inl (by simp))
          · exact ih (Or.inl (by simp))
      · simp only [hw, ne_eq, not_false_eq_true, ↓reduceIte]
        refine ih (h.imp_right ?_)
        rintro ⟨j, hj, p, hp, hpw⟩
        rcases List.mem_cons.mp hj with rfl | hj
        · obtain rfl := Option.some.inj (hi.symm.trans hp)
          exact absurd hpw hw
        · exact ⟨j, hj, p, hp, hpw⟩

/-- **A scan.** It wakes waiting tasks at most; its choice is a task of the table
that was ready or waiting and is ready now. -/
theorem scanTasks_spec (g : TaskCtx) :
    Woken g (scanTasks g).2 ∧
      ∀ p, (scanTasks g).1 = some p →
        g.Holds p ∧ (g.state p).Idle ∧ (scanTasks g).2.state p = .ready := by
  unfold scanTasks
  split
  · rename_i p w hs
    refine ⟨Woken.refl g, fun q hq => ?_⟩
    obtain rfl := Option.some.inj hq
    have hs' : (scanLoop g (List.range taskMaxNums) none false).1 = some p := by rw [hs]
    rcases scanLoop_some hs' with h | ⟨i, hi, h1, h2⟩
    · cases h
    · exact ⟨⟨i, List.mem_range.mp hi, h1⟩, Or.inl h2, h2⟩
  · obtain ⟨h1, h2⟩ := resetLoop_spec g (List.range taskMaxNums) none
    refine ⟨h1, fun p hp => ?_⟩
    rcases h2 p hp with h | ⟨⟨i, hi, h3⟩, h4, h5⟩
    · cases h
    · exact ⟨⟨i, List.mem_range.mp hi, h3⟩, Or.inr h4, h5⟩
  · refine ⟨Woken.refl g, fun p hp => ?_⟩
    unfold idleTask at hp
    split at hp
    · cases hp
    · rename_i q hq
      split at hp
      · rename_i hr
        obtain rfl := Option.some.inj hp
        exact ⟨⟨0, by decide, hq⟩, Or.inl hr, hr⟩
      · cases hp

/-- A scan of a table with a ready or waiting task chooses one. -/
theorem scanTasks_some {g : TaskCtx} {p : Nat} (hp : g.Holds p) (hidle : (g.state p).Idle) :
    (scanTasks g).1 ≠ none := by
  obtain ⟨i, hi, hip⟩ := hp
  have hi' : i ∈ List.range taskMaxNums := List.mem_range.mpr hi
  unfold scanTasks
  split
  · simp
  · refine resetLoop_some (Or.inr ?_)
    rename_i hs
    have hs' : (scanLoop g (List.range taskMaxNums) none false).1 = none := by rw [hs]
    have hnot := ((scanLoop_none hs').2 i hi' p hip).1
    exact ⟨i, hi', p, hip, hidle.resolve_left hnot⟩
  · rename_i hs
    have hs' : (scanLoop g (List.range taskMaxNums) none false).1 = none := by rw [hs]
    obtain ⟨hnot, hwait⟩ := (scanLoop_none hs').2 i hi' p hip
    have := hwait (hidle.resolve_left hnot)
    rw [hs] at this
    cases this

end X64SmpOs.Task64

import X64SmpOs.Kernel.X86Sched
import X64SmpOs.Lib.Runs

/-!
# Sleeping tasks of the x86 kernel

`task_sleep` stores the tick at which the task is due in its slice counter, and
every clock interrupt looks for tasks that are due before it does anything else.
The tick counter moves only when an interrupt finds a slice used up.

* `taskSleep`, `taskExit`, `schedBySleep`: the code, `SleepAct` what happens to
  the scheduler after a task has gone to sleep;
* `WokenAt`: the interrupt that makes the task READY;
* `madeReady_at`: the task is woken when as many slices have been used up as it
  was to sleep interrupts;
* `wokenAt_iff`: when that is the interrupt asked for.
-/

namespace X64SmpOs.X86

open Words Runs

/-! ## The code -/

/-- Milliseconds between two interrupts. -/
def jiffy : Int := 10

/-- `sched_by_sleep` up to its call of `sched_task`; with no task to run, not even
the idle one, it writes through a NULL `CURRENT`. -/
def schedBySleep (s : Sched) : Option Sched :=
  let (next, g, _) := getNextReadyTask s.tasks
  next.map fun c =>
    { s with
      tasks := setState g c .running
      current := some c }

/-- `task_sleep`, without an effect outside a task. -/
def taskSleep (s : Sched) (ms : Int) : Option Sched :=
  match s.current with
  | none => some s
  | some c =>
    match s.tasks c with
    | none => none
    | some t =>
      schedBySleep { s with
        tasks := setTask s.tasks c { t with
          counter := u32OfInt (s.cpuTickes + ms.tdiv jiffy)
          state := .sleeping } }

/-- `task_exit` of the running task. -/
def taskExit (s : Sched) : Option Sched :=
  match s.current with
  | none => none
  | some c => schedBySleep { s with tasks := Function.update s.tasks c none }

/-- An interrupt, or a call of the running task. -/
inductive SleepAct
  | clock
  | sleep (ms : Int)
  | exit
  deriving DecidableEq, Repr

def Sched.next (s : Sched) : SleepAct → Option Sched
  | .clock => some (clockInterrupt s).1
  | .sleep ms => taskSleep s ms
  | .exit => taskExit s

def sleepStep : Sched → SleepAct → Sched → Prop := stepOf Sched.next

/-! ## The sleep law -/

/-- An interrupt that comes now makes the sleeping task READY. -/
def madeReady (p : Nat) (s : Sched) : Bool :=
  s.current.isSome && (s.tasks p).any (·.state = .sleeping) &&
    ((taskWakeup s).tasks p).any (·.state = .ready)

/-- An interrupt that comes now finds the slice of the running task used up. -/
def sliceUsed (s : Sched) : Bool := (s.current.bind s.tasks).any (·.counter = 0)

/-- What the interrupts of a run find, each in the state in which it comes. -/
def interrupts (f : Sched → Bool) : Sched → List SleepAct → List Bool
  | _, [] => []
  | s, a :: as =>
    let rest := match s.next a with
      | none => []
      | some t => interrupts f t as
    if a = .clock then f s :: rest else rest

/-- The `n`-th interrupt of a run is the first that makes the task READY. -/
def WokenAt (p : Nat) (s : Sched) (as : List SleepAct) (n : Nat) : Prop :=
  ∀ k b, k < n → (interrupts (madeReady p) s as)[k]? = some b → (b = true ↔ k + 1 = n)

/-- The running task `p` calls `task_sleep(ms)`, and the kernel goes on in `t`. -/
structure SleepCall (s : Sched) (p : Nat) (ms : Int) (t : Sched) : Prop where
  current : s.current = some p
  task : (s.tasks p).isSome = true
  tickes : s.cpuTickes < 2 ^ 32
  nonneg : 0 ≤ ms
  int : ms < 2 ^ 31
  call : taskSleep s ms = some t

section Interrupts

variable {f : Sched → Bool} {s t : Sched} {as : List SleepAct}

theorem interrupts_clock (h : s.next .clock = some t) :
    interrupts f s (.clock :: as) = f s :: interrupts f t as := by
  rw [interrupts, h]
  rfl

theorem interrupts_call {a : SleepAct} (ha : a ≠ .clock) (h : s.next a = some t) :
    interrupts f s (a :: as) = interrupts f t as := by
  rw [interrupts, h]
  exact if_neg ha

theorem mem_interrupts {b : Bool} (h : b ∈ interrupts f s as) : ∃ u, b = f u := by
  induction as generalizing s with
  | nil => cases h
  | cons a as ih =>
    cases hnext : s.next a with
    | none =>
      simp only [interrupts, hnext] at h
      split at h
      · exact ⟨s, List.mem_singleton.mp h⟩
      · cases h
    | some t =>
      by_cases ha : a = .clock
      · subst ha
        rw [interrupts_clock hnext] at h
        rcases List.mem_cons.mp h with h | h
        · exact ⟨s, h⟩
        · exact ih h
      · rw [interrupts_call ha hnext] at h
        exact ih h

theorem length_interrupts (h : Run sleepStep s as t) :
    (interrupts f s as).length = as.count .clock := by
  induction as generalizing s with
  | nil => rfl
  | cons a as ih =>
    obtain ⟨u, hu, hr⟩ := h
    by_cases ha : a = .clock
    · subst ha
      rw [interrupts_clock hu, List.length_cons, ih hr, List.count_cons_self]
    · rw [interrupts_call ha hu, ih hr, List.count_cons_of_ne ha]

end Interrupts

/-! ## What `get_next_ready_task` keeps -/

/-- The tables that differ in the slices of waiting tasks only. -/
def ResetOnly (g g' : Table) : Prop :=
  ∀ i, (g' i).map Task.state = (g i).map Task.state ∧
    ∀ t, g i = some t → t.state ≠ .waiting → g' i = some t

theorem ResetOnly.refl (g : Table) : ResetOnly g g := fun _ => ⟨rfl, fun _ h _ => h⟩

theorem ResetOnly.trans {g g' g'' : Table} (h : ResetOnly g g') (h' : ResetOnly g' g'') :
    ResetOnly g g'' := by
  intro i
  obtain ⟨h1, h2⟩ := h i
  obtain ⟨h3, h4⟩ := h' i
  exact ⟨h3.trans h1, fun t ht hw => h4 t (h2 t ht hw) hw⟩

theorem ResetOnly.isSome {g g' : Table} (h : ResetOnly g g') (i : Nat) :
    (g' i).isSome = (g i).isSome := by
  simpa using congrArg Option.isSome (h i).1

theorem resetOnly_setTask {g : Table} {i : Nat} {t : Task} (h : g i = some t)
    (hw : t.state = .waiting) (counter : Nat) : ResetOnly g (setTask g i { t with counter }) := by
  intro j
  by_cases hj : j = i
  · subst hj
    refine ⟨by simp [setTask, h], fun u hu hne => ?_⟩
    obtain rfl := Option.some.inj (h.symm.trans hu)
    exact absurd hw hne
  · exact ⟨by simp [setTask, hj], fun u hu _ => by simp [setTask, hj, hu]⟩

/-- The second loop chooses a waiting task. -/
theorem resetLoop_spec (g : Table) (is : List Nat) (high : Option Nat) :
    ResetOnly g (resetLoop g is high).2 ∧
      ((resetLoop g is high).1 = high ∨
        ∃ i, (resetLoop g is high).1 = some i ∧ (g i).map Task.state = some .waiting) := by
  induction is generalizing g high with
  | nil => exact ⟨ResetOnly.refl g, Or.inl rfl⟩
  | cons i is ih =>
    unfold resetLoop
    cases hi : g i with
    | none => exact ih g high
    | some t =>
      by_cases hw : t.state = .waiting
      · have hset := resetOnly_setTask hi hw t.priority
        have hno : ¬ t.state ≠ .waiting := not_not.mpr hw
        simp only [hno, if_false]
        generalize setTask g i { t with counter := t.priority } = g' at hset
        -- whichever task is kept, the loop goes on from it
        have hrest : ∀ high', high' = high ∨ high' = some i →
            ResetOnly g (resetLoop g' is high').2 ∧ ((resetLoop g' is high').1 = high ∨
              ∃ j, (resetLoop g' is high').1 = some j ∧
                (g j).map Task.state = some .waiting) := by
          intro high' hhigh
          obtain ⟨h1, h2⟩ := ih g' high'
          refine ⟨hset.trans h1, ?_⟩
          rcases h2 with h2 | ⟨j, h2, h3⟩
          · rcases hhigh with rfl | rfl
            · exact Or.inl h2
            · exact Or.inr ⟨i, h2, by rw [hi, Option.map_some, hw]⟩
          · exact Or.inr ⟨j, h2, (hset j).1.symm.trans h3⟩
        cases high with
        | none => exact hrest _ (Or.inr rfl)
        | some j =>
          dsimp only
          split
          · exact hrest _ (Or.inr rfl)
          · exact hrest _ (Or.inl rfl)
      · simp only [ne_eq, hw, not_false_eq_true, if_true]
        exact ih g high

/-- **Choice.** A READY or waiting task is chosen, or the idle task. -/
theorem getNextReadyTask_choice (g : Table) :
    ResetOnly g (getNextReadyTask g).2.1 ∧
      ∀ i, (getNextReadyTask g).1 = some i →
        ∃ t, g i = some t ∧ (i = 0 ∨ t.state ≠ .sleeping) := by
  have hscan := scanLoop_eq g slots none false
  rw [← List.argmax] at hscan
  unfold getNextReadyTask
  rw [hscan]
  cases hmax : (readySlots g slots).argmax (priority g) with
  | some i =>
    refine ⟨ResetOnly.refl g, ?_⟩
    rintro _ ⟨⟩
    have hready := (List.mem_filter.mp (List.argmax_mem hmax)).2
    obtain ⟨t, hi, hstate⟩ := (Option.any_eq_true _ _).mp hready
    have hstate : t.state = .ready := of_decide_eq_true hstate
    exact ⟨t, hi, Or.inr (by rw [hstate]; nofun)⟩
  | none =>
    cases hw : anyWaiting g slots with
    | false =>
      refine ⟨ResetOnly.refl g, fun i hi => ?_⟩
      obtain ⟨t, ht, rfl⟩ := Option.map_eq_some_iff.mp hi
      exact ⟨t, ht, Or.inl rfl⟩
    | true =>
      obtain ⟨h1, h2⟩ := resetLoop_spec g slots none
      refine ⟨h1, fun i hi => ?_⟩
      rcases h2 with h2 | ⟨j, h2, h3⟩
      · cases h2.symm.trans hi
      · obtain rfl := Option.some.inj (h2.symm.trans hi)
        obtain ⟨t, ht, hstate⟩ := Option.map_eq_some_iff.mp h3
        exact ⟨t, ht, Or.inr (by rw [hstate]; nofun)⟩

/-- A task that sleeps is not chosen. -/
theorem chosen_ne {g : Table} {p i : Nat} {u : Task} (hp : p ∈ slots) (hu : g p = some u)
    (hstate : u.state = .sleeping) (hi : (getNextReadyTask g).1 = some i) : i ≠ p := by
  rintro rfl
  obtain ⟨t, ht, h⟩ := (getNextReadyTask_choice g).2 i hi
  obtain rfl := Option.some.inj (hu.symm.trans ht)
  rcases h with rfl | h
  · exact absurd hp (by decide)
  · exact h hstate

/-! ## A sleeping task -/

/-- The task in slot `p` sleeps until the tick `due`, while another one runs. -/
structure Asleep (p due : Nat) (s : Sched) : Prop where
  sleeping : ∃ t, s.tasks p = some t ∧ t.state = .sleeping ∧ t.counter = due
  running : ∃ c t, s.current = some c ∧ s.tasks c = some t ∧ t.state = .running

section Keeps

variable {p due : Nat} {s t : Sched}

theorem taskWakeup_of_not_due {i : Nat} {u : Task} (hi : s.tasks i = some u)
    (hno : ¬ (u.state = .sleeping ∧ u.counter ≤ s.cpuTickes)) :
    (taskWakeup s).tasks i = some u := by
  simp only [taskWakeup, hi, Option.map_some, hno, if_false, ite_self]

theorem ne_of_state {g : Table} {i j : Nat} {u v : Task} (hu : g i = some u) (hv : g j = some v)
    (h : u.state ≠ v.state) : i ≠ j := by
  rintro rfl
  obtain rfl := Option.some.inj (hu.symm.trans hv)
  exact h rfl

/-- The interrupt that finds the task due wakes it, and no earlier one does. -/
theorem Asleep.madeReady (h : Asleep p due s) (hp : p ∈ slots) :
    X86.madeReady p s = decide (due ≤ s.cpuTickes) := by
  obtain ⟨u, hu, hstate, rfl⟩ := h.sleeping
  obtain ⟨c, v, hc, -⟩ := h.running
  by_cases hdue : u.counter ≤ s.cpuTickes
  · simp [X86.madeReady, taskWakeup, hc, hu, hp, hstate, hdue]
  · have hwake := taskWakeup_of_not_due hu fun h => hdue h.2
    simp [X86.madeReady, hc, hu, hwake, hstate, hdue]

/-- Nothing else is made READY by `task_wakeup`: not the idle task. -/
theorem madeReady_of_not_mem (hp : p ∉ slots) : madeReady p s = false := by
  have hwake : (taskWakeup s).tasks p = s.tasks p := if_neg hp
  rw [madeReady, hwake]
  cases s.tasks p with
  | none => simp
  | some u => cases hu : u.state <;> simp [hu]

theorem Asleep.of_switch {g : Table} {u : Task} {c : Nat} (hu : g p = some u)
    (hstate : u.state = .sleeping) (hcounter : u.counter = due) (hc : (g c).isSome = true)
    (hne : c ≠ p) (htasks : t.tasks = setState g c .running) (hcurrent : t.current = some c) :
    Asleep p due t := by
  obtain ⟨v, hv⟩ := Option.isSome_iff_exists.mp hc
  refine ⟨⟨u, ?_, hstate, hcounter⟩, c, { v with state := .running }, hcurrent, ?_, rfl⟩
  · rw [htasks, setState_of_ne g _ (Ne.symm hne), hu]
  · rw [htasks, setState_eq hv, setTask, Function.update_self]

theorem Asleep.of_schedBySleep {u : Task} (h : schedBySleep s = some t) (hp : p ∈ slots)
    (hu : s.tasks p = some u) (hstate : u.state = .sleeping) (hcounter : u.counter = due) :
    Asleep p due t ∧ t.cpuTickes = s.cpuTickes := by
  obtain ⟨hreset, hchoice⟩ := getNextReadyTask_choice s.tasks
  obtain ⟨i, hi, rfl⟩ := Option.map_eq_some_iff.mp h
  have hkeep := (hreset p).2 u hu (by rw [hstate]; nofun)
  obtain ⟨v, hv, -⟩ := hchoice i hi
  have hi' : ((getNextReadyTask s.tasks).2.1 i).isSome = true := by
    rw [hreset.isSome, hv]
    rfl
  exact ⟨.of_switch hkeep hstate hcounter hi' (chosen_ne hp hu hstate hi) rfl rfl, rfl⟩

/-- The switch to another task at the end of a slice. -/
theorem Asleep.of_sched {u v : Task} {c : Nat} (hp : p ∈ slots) (hu : s.tasks p = some u)
    (hstate : u.state = .sleeping) (hcounter : u.counter = due) (hc : s.current = some c)
    (hv : s.tasks c = some v) (hne : c ≠ p) :
    Asleep p due (sched s).1 ∧ (sched s).1.cpuTickes = s.cpuTickes := by
  obtain ⟨hreset, hchoice⟩ := getNextReadyTask_choice s.tasks
  have hchosen := fun i => chosen_ne (i := i) hp hu hstate
  unfold sched
  rcases hg : getNextReadyTask s.tasks with ⟨next, g, reset⟩
  rw [hg] at hreset hchoice hchosen
  have hkeep : setState g c .ready p = some u := by
    rw [setState_of_ne g _ (Ne.symm hne)]
    exact (hreset p).2 u hu (by rw [hstate]; nofun)
  have hsome : ∀ i, (s.tasks i).isSome = true → (setState g c .ready i).isSome = true := by
    intro i hi
    rw [setState_isSome, hreset.isSome, hi]
  cases next with
  | none =>
    simp only [hc, Option.none_or]
    exact ⟨.of_switch hkeep hstate hcounter (hsome c (by rw [hv]; rfl)) hne rfl rfl, trivial⟩
  | some i =>
    obtain ⟨w, hw, -⟩ := hchoice i rfl
    simp only [hc, Option.some_or]
    exact ⟨.of_switch hkeep hstate hcounter (hsome i (by rw [hw]; rfl)) (hchosen i rfl) rfl rfl,
      trivial⟩

/-- `clock_handle` on a task that runs. -/
theorem clockInterrupt_running {c : Nat} {v : Task} (hc : s.current = some c)
    (hv : s.tasks c = some v) (hrun : v.state = .running) :
    (clockInterrupt s).1 =
      if v.counter = 0 then
        (sched (clockHander { taskWakeup s with
          tasks := setTask (taskWakeup s).tasks c { v with state := .waiting } })).1
      else
        { taskWakeup s with
          tasks := setTask (taskWakeup s).tasks c { v with counter := v.counter - 1 } } := by
  have hwake := taskWakeup_of_not_due (s := s) hv fun h => absurd (hrun.symm.trans h.1) nofun
  unfold clockInterrupt subTaskCounter
  simp only [hc, hwake]
  by_cases hzero : v.counter = 0
  · simp [Task.subCounter, hzero]
  · simp [Task.subCounter, hzero]

/-- **Interrupt lemma.** A task that is not due sleeps on, and the tick is counted
when the running task's slice is used up. -/
theorem Asleep.clock (h : Asleep p due s) (hp : p ∈ slots) (hno : s.cpuTickes < due) :
    Asleep p due (clockInterrupt s).1 ∧
      (clockInterrupt s).1.cpuTickes =
        if sliceUsed s then u32 (s.cpuTickes + 1) else s.cpuTickes := by
  obtain ⟨u, hu, hstate, rfl⟩ := h.sleeping
  obtain ⟨c, v, hc, hv, hrun⟩ := h.running
  have hne : c ≠ p := ne_of_state hv hu (by rw [hrun, hstate]; nofun)
  have hkeep : ∀ v', setTask (taskWakeup s).tasks c v' p = some u := by
    intro v'
    rw [setTask, Function.update_of_ne (Ne.symm hne)]
    exact taskWakeup_of_not_due hu fun h => absurd h.2 (by omega)
  have hself : ∀ v', setTask (taskWakeup s).tasks c v' c = some v' :=
    fun v' => Function.update_self ..
  have hused : sliceUsed s = decide (v.counter = 0) := by simp [sliceUsed, hc, hv]
  rw [clockInterrupt_running hc hv hrun, hused]
  by_cases hzero : v.counter = 0
  · simp only [hzero, if_true, decide_true]
    exact Asleep.of_sched hp (hkeep _) hstate rfl hc (hself _) hne
  · simp only [hzero, if_false, decide_false, Bool.false_eq_true]
    exact ⟨⟨⟨u, hkeep _, hstate, rfl⟩, c, _, hc, hself _, hrun⟩, rfl⟩

/-- What the running task calls leaves the sleeping one alone. -/
theorem Asleep.call {a : SleepAct} (h : Asleep p due s) (hp : p ∈ slots) (ha : a ≠ .clock)
    (hnext : s.next a = some t) : Asleep p due t ∧ t.cpuTickes = s.cpuTickes := by
  obtain ⟨u, hu, hstate, rfl⟩ := h.sleeping
  obtain ⟨c, v, hc, hv, hrun⟩ := h.running
  have hne : p ≠ c := ne_of_state hu hv (by rw [hrun, hstate]; nofun)
  cases a with
  | clock => exact absurd rfl ha
  | sleep ms =>
    simp only [Sched.next, taskSleep, hc, hv] at hnext
    have hsched := Asleep.of_schedBySleep hnext hp ((Function.update_of_ne hne ..).trans hu)
      hstate rfl
    exact hsched
  | exit =>
    simp only [Sched.next, taskExit, hc] at hnext
    have hsched := Asleep.of_schedBySleep hnext hp ((Function.update_of_ne hne ..).trans hu)
      hstate rfl
    exact hsched

/-- The call puts the task to sleep. -/
theorem SleepCall.asleep {ms : Int} (h : SleepCall s p ms t) (hp : p ∈ slots) :
    Asleep p (u32 (s.cpuTickes + (ms / jiffy).toNat)) t ∧ t.cpuTickes = s.cpuTickes := by
  obtain ⟨u, hu⟩ := Option.isSome_iff_exists.mp h.task
  have hcall := h.call
  simp only [taskSleep, h.current, hu] at hcall
  have hdue : u32OfInt (s.cpuTickes + ms.tdiv jiffy) = u32 (s.cpuTickes + (ms / jiffy).toNat) := by
    rw [Int.tdiv_eq_ediv_of_nonneg h.nonneg]
    have := h.nonneg
    simp only [u32OfInt, u32, jiffy]
    omega
  have hsched := Asleep.of_schedBySleep hcall hp (Function.update_self ..) rfl hdue
  exact hsched

end Keeps

/-! ## When it wakes -/

/-- The ticks counted before the `k`-th interrupt, from 0. -/
def ticksBefore (s : Sched) (as : List SleepAct) (k : Nat) : Nat :=
  s.cpuTickes + ((interrupts sliceUsed s as).take k).count true

section Wake

variable {p due : Nat} {s t u : Sched} {as : List SleepAct}

@[simp] theorem ticksBefore_zero : ticksBefore s as 0 = s.cpuTickes := by
  simp [ticksBefore]

/-- **Waking.** Up to the interrupt that wakes it, an interrupt makes the task READY
exactly if the counted ticks have come to the tick at which it is due. -/
theorem madeReady_at (h : Asleep p due s) (hp : p ∈ slots) (hdue : due < 2 ^ 32)
    (hr : Run sleepStep s as u) {k : Nat} (hk : k < as.count .clock)
    (hlate : ∀ j < k, ticksBefore s as j < due) :
    (interrupts (madeReady p) s as)[k]? = some (decide (due ≤ ticksBefore s as k)) := by
  induction as generalizing s k with
  | nil => exact absurd hk (Nat.not_lt_zero k)
  | cons a as ih =>
    obtain ⟨v, hv, hr⟩ := hr
    by_cases ha : a = .clock
    · subst ha
      cases k with
      | zero => rw [interrupts_clock hv, ticksBefore_zero, List.getElem?_cons_zero, h.madeReady hp]
      | succ k =>
        have hno : s.cpuTickes < due := by simpa using hlate 0 (by omega)
        obtain ⟨hasleep, htickes⟩ := h.clock hp hno
        obtain rfl : (clockInterrupt s).1 = v := Option.some.inj hv
        have hbefore : ∀ j, ticksBefore s (.clock :: as) (j + 1) =
            ticksBefore (clockInterrupt s).1 as j := by
          intro j
          have hsmall := u32_of_lt (n := s.cpuTickes + 1) (by omega)
          rw [ticksBefore, ticksBefore, interrupts_clock hv, htickes, hsmall, List.take_succ_cons]
          cases sliceUsed s with
          | false => simp
          | true => simp; omega
        rw [interrupts_clock hv, List.getElem?_cons_succ, hbefore]
        rw [List.count_cons_self] at hk
        exact ih hasleep hr (by omega) fun j hj => hbefore j ▸ hlate (j + 1) (by omega)
    · obtain ⟨hasleep, htickes⟩ := h.call hp ha hv
      have hbefore : ∀ j, ticksBefore s (a :: as) j = ticksBefore v as j := by
        intro j
        rw [ticksBefore, ticksBefore, interrupts_call ha hv, htickes]
      rw [interrupts_call ha hv, hbefore]
      rw [List.count_cons_of_ne ha] at hk
      exact ih hasleep hr hk fun j hj => hbefore j ▸ hlate j hj

theorem ticksBefore_le (s : Sched) (as : List SleepAct) (k : Nat) :
    ticksBefore s as k ≤ s.cpuTickes + k :=
  Nat.add_le_add_left (List.count_le_length.trans (List.length_take_le ..)) _

/-- All ticks are counted if every interrupt finds a slice used up. -/
theorem ticksBefore_eq_iff {n : Nat} (hn : n ≤ (interrupts sliceUsed s as).length) :
    ticksBefore s as n = s.cpuTickes + n ↔
      ∀ k < n, (interrupts sliceUsed s as)[k]? = some true := by
  have hlen : ((interrupts sliceUsed s as).take n).length = n := List.length_take_of_le hn
  have hall : ((interrupts sliceUsed s as).take n).count true = n ↔
      ∀ b ∈ (interrupts sliceUsed s as).take n, true = b := by
    rw [← List.count_eq_length, hlen]
  rw [ticksBefore, Nat.add_left_cancel_iff, hall]
  constructor
  · intro h k hk
    have hk' : k < ((interrupts sliceUsed s as).take n).length := by omega
    rw [← List.getElem?_take_of_lt hk, List.getElem?_eq_getElem hk',
      ← h _ (List.getElem_mem hk')]
  · intro h b hb
    obtain ⟨k, hk, rfl⟩ := List.getElem_of_mem hb
    have hkn : k < n := by omega
    have hget := h k hkn
    rw [← List.getElem?_take_of_lt hkn, List.getElem?_eq_getElem hk] at hget
    exact (Option.some.inj hget).symm

/-- No interrupt wakes a task that `task_wakeup` does not look at. -/
theorem not_wokenAt {n : Nat} (hp : p ∉ slots) (hr : Run sleepStep s as u) (h1 : 1 ≤ n)
    (hn : n ≤ as.count .clock) : ¬ WokenAt p s as n := by
  intro h
  have hk : n - 1 < (interrupts (madeReady p) s as).length := by
    rw [length_interrupts hr]
    omega
  obtain ⟨v, hv⟩ := mem_interrupts (List.getElem_mem hk)
  have hwoken := (h (n - 1) _ (by omega) (List.getElem?_eq_getElem hk)).mpr (by omega)
  rw [hv, madeReady_of_not_mem hp] at hwoken
  cases hwoken

theorem wokenAt_iff_of_getElem {n : Nat} {g : Nat → Prop} [DecidablePred g]
    (h : ∀ k < n, (interrupts (madeReady p) s as)[k]? = some (decide (g k))) :
    WokenAt p s as n ↔ ∀ k < n, (g k ↔ k + 1 = n) := by
  constructor
  · intro hw k hk
    rw [← hw k _ hk (h k hk), decide_eq_true_iff]
  · intro hg k b hk hb
    obtain rfl := Option.some.inj ((h k hk).symm.trans hb)
    rw [decide_eq_true_iff]
    exact hg k hk

section NoWrap

variable {n : Nat} (h : Asleep p (s.cpuTickes + n) s) (hp : p ∈ slots)
  (hwrap : s.cpuTickes + n < 2 ^ 32) (hr : Run sleepStep s as u)

include h hp hwrap hr

/-- Without a wrap the interrupts before the `n`-th come too early. -/
theorem madeReady_unwrapped {k : Nat} (hk : k ≤ n) (hlong : k < as.count .clock) :
    (interrupts (madeReady p) s as)[k]? = some (decide (s.cpuTickes + n ≤ ticksBefore s as k)) := by
  refine madeReady_at h hp hwrap hr hlong fun j hj => ?_
  have hle := ticksBefore_le s as j
  omega

theorem not_wokenAt_self (hlong : n < as.count .clock) (hn : 1 ≤ n) : ¬ WokenAt p s as n := by
  intro hw
  have hlast := hw (n - 1) _ (by omega) (madeReady_unwrapped h hp hwrap hr (by omega) (by omega))
  rw [decide_eq_true_iff] at hlast
  have hle := ticksBefore_le s as (n - 1)
  omega

/-- In every run, also one that ends before. -/
theorem wokenAt_next (hused : ∀ k < n, (interrupts sliceUsed s as)[k]? ≠ some false) :
    WokenAt p s as (n + 1) := by
  intro k b hk hb
  have hlt : k < as.count .clock := by
    rw [← length_interrupts (f := madeReady p) hr]
    exact (List.getElem?_eq_some_iff.mp hb).1
  rw [madeReady_unwrapped h hp hwrap hr (by omega) hlt] at hb
  obtain rfl := Option.some.inj hb
  rw [decide_eq_true_iff]
  have hle := ticksBefore_le s as k
  constructor
  · omega
  · intro hkn
    obtain rfl : k = n := by omega
    have hlen : k < (interrupts sliceUsed s as).length := by rwa [length_interrupts hr]
    refine ((ticksBefore_eq_iff hlen.le).mpr fun j hj => ?_).ge
    have hj' : j < (interrupts sliceUsed s as).length := by omega
    have hne := hused j hj
    rw [List.getElem?_eq_getElem hj'] at hne ⊢
    simpa using hne

theorem used_of_wokenAt (hlong : n < as.count .clock) (hw : WokenAt p s as (n + 1)) :
    ∀ k < n, (interrupts sliceUsed s as)[k]? = some true := by
  have hlast := (hw n _ (by omega) (madeReady_unwrapped h hp hwrap hr le_rfl hlong)).mpr rfl
  rw [decide_eq_true_iff] at hlast
  refine (ticksBefore_eq_iff ?_).mp (le_antisymm (ticksBefore_le s as n) hlast)
  rw [length_interrupts hr]
  exact hlong.le

end NoWrap

/-- A task that is due at once is woken by the first interrupt. -/
theorem wokenAt_due_iff {n : Nat} (h : Asleep p due s) (hp : p ∈ slots) (hdue : due < 2 ^ 32)
    (hr : Run sleepStep s as u) (hlong : 0 < as.count .clock) (hle : due ≤ s.cpuTickes)
    (hn : 1 ≤ n) : WokenAt p s as n ↔ n = 1 := by
  have hfirst := madeReady_at h hp hdue hr hlong fun j hj => absurd hj (Nat.not_lt_zero j)
  rw [ticksBefore_zero, decide_eq_true hle] at hfirst
  constructor
  · intro hw
    exact ((hw 0 true (by omega) hfirst).mp rfl).symm
  · rintro rfl k b hk hb
    obtain rfl : k = 0 := by omega
    obtain rfl := Option.some.inj (hfirst.symm.trans hb)
    simp

/-- **Sleep law.** The `n`-th interrupt after a call to sleep `n` interrupts is asked
to wake the task if it counts itself, the next one if it counts those before it.
The first wakes it only when `n` is zero, or one at the wrap of the counter; the
other exactly when the counter does not wrap and every interrupt before it finds
the slice of the running task used up. In a run that ends before, no interrupt
wakes the task then. -/
theorem wokenAt_iff {ms : Int} {n : Nat} (h : SleepCall s p ms t) (hr : Run sleepStep t as u)
    (hn : n = (ms / jiffy).toNat) :
    (n < as.count .clock →
      (WokenAt p t as (max n 1) ↔ p ∈ slots ∧ (n = 0 ∨ n = 1 ∧ s.cpuTickes = 2 ^ 32 - 1)) ∧
      (WokenAt p t as (n + 1) ↔ p ∈ slots ∧ s.cpuTickes + n < 2 ^ 32 ∧
        ∀ k < n, (interrupts sliceUsed t as)[k]? = some true)) ∧
    (p ∈ slots → s.cpuTickes + n < 2 ^ 32 →
      (∀ k < n, (interrupts sliceUsed t as)[k]? ≠ some false) → WokenAt p t as (n + 1)) := by
  by_cases hp : p ∈ slots
  · obtain ⟨hasleep, htickes⟩ := h.asleep hp
    have hint := h.int
    have hc := h.tickes
    rw [← hn, ← htickes] at hasleep
    rw [← htickes] at hc ⊢
    by_cases hwrap : t.cpuTickes + n < 2 ^ 32
    · rw [u32_of_lt hwrap] at hasleep
      have hnext := wokenAt_next hasleep hp hwrap hr
      refine ⟨fun hlong => ⟨?_, fun hw => ?_, fun ⟨_, _, hused⟩ => ?_⟩, fun _ _ => hnext⟩
      · by_cases hzero : n = 0
        · subst hzero
          exact iff_of_true (hnext fun k hk => absurd hk (Nat.not_lt_zero k)) ⟨hp, Or.inl rfl⟩
        · rw [max_eq_left (by omega)]
          exact iff_of_false (not_wokenAt_self hasleep hp hwrap hr hlong (by omega)) (by omega)
      · exact ⟨hp, hwrap, used_of_wokenAt hasleep hp hwrap hr hlong hw⟩
      · refine hnext fun k hk => ?_
        rw [hused k hk]
        exact fun he => Bool.false_ne_true (Option.some.inj he).symm
    · -- the stored tick has wrapped, and the counter is past it
      refine ⟨fun hlong => ?_, fun _ hw => absurd hw hwrap⟩
      have hsmall : n < 2 ^ 31 := by
        simp only [jiffy] at hn
        omega
      have hle : u32 (t.cpuTickes + n) < t.cpuTickes := by
        simp only [u32]
        omega
      have hdue := fun m => wokenAt_due_iff (n := m) hasleep hp (by omega) hr (by omega) hle.le
      rw [hdue _ (by omega), hdue _ (by omega)]
      simp only [hp, true_and]
      constructor
      · omega
      · omega
  · refine ⟨fun hlong => ?_, fun h => absurd h hp⟩
    simp only [hp, false_and, iff_false]
    exact ⟨not_wokenAt hp hr (by omega) (by omega), not_wokenAt hp hr (by omega) (by omega)⟩

end Wake

/-! ## A sleep of some milliseconds -/

theorem run_clocks (s : Sched) (n : Nat) : ∃ t, Run sleepStep s (List.replicate n .clock) t := by
  induction n generalizing s with
  | zero => exact ⟨s, rfl⟩
  | succ n ih =>
    obtain ⟨t, ht⟩ := ih (clockInterrupt s).1
    exact ⟨t, _, rfl, ht⟩

/-- The tasks of `create_idle`, the one in slot 1 running, `n` ticks counted. -/
def sampleInit (n : Nat) : Sched where
  tasks i := if i = 0 then some ⟨.ready, 1, 1⟩ else if i = 1 then some ⟨.running, 3, 3⟩
    else if i = 2 then some ⟨.ready, 2, 2⟩ else none
  current := some 1
  cpuTickes := n

/-- After the first interrupt a sleep of one interrupt lasts four, since the other
task has a slice of two; at the end of the counter one of three lasts one. -/
theorem wokenAt_sample_fails :
    (∃ t, SleepCall (sampleInit 1) 1 10 t ∧ ¬ WokenAt 1 t (List.replicate 4 .clock) 1 ∧
      ¬ WokenAt 1 t (List.replicate 4 .clock) 2 ∧ WokenAt 1 t (List.replicate 4 .clock) 4) ∧
    ∃ t, SleepCall (sampleInit (2 ^ 32 - 1)) 1 30 t ∧ ¬ WokenAt 1 t (List.replicate 4 .clock) 3 ∧
      ¬ WokenAt 1 t (List.replicate 4 .clock) 4 ∧ WokenAt 1 t (List.replicate 4 .clock) 1 := by
  have hlate : (taskSleep (sampleInit 1) 10).map
      (fun t => interrupts (madeReady 1) t (List.replicate 4 .clock)) =
        some [false, false, false, true] := by decide +kernel
  have hearly : (taskSleep (sampleInit (2 ^ 32 - 1)) 30).map
      (fun t => (interrupts (madeReady 1) t (List.replicate 4 .clock))[0]?) =
        some (some true) := by decide +kernel
  constructor
  · obtain ⟨t, ht, hlist⟩ := Option.map_eq_some_iff.mp hlate
    refine ⟨t, ⟨rfl, rfl, by decide, by decide, by decide, ht⟩, fun hw => ?_, fun hw => ?_, ?_⟩
    · exact absurd ((hw 0 false (by decide) (by rw [hlist]; rfl)).mpr rfl) nofun
    · exact absurd ((hw 1 false (by decide) (by rw [hlist]; rfl)).mpr rfl) nofun
    · rw [wokenAt_iff_of_getElem (g := fun k => k = 3) (by rw [hlist]; decide)]
      decide
  · obtain ⟨t, ht, hfirst⟩ := Option.map_eq_some_iff.mp hearly
    refine ⟨t, ⟨rfl, rfl, by decide, by decide, by decide, ht⟩, fun hw => ?_, fun hw => ?_, ?_⟩
    · exact absurd ((hw 0 true (by decide) hfirst).mp rfl) (by decide)
    · exact absurd ((hw 0 true (by decide) hfirst).mp rfl) (by decide)
    · intro k b hk hb
      obtain rfl : k = 0 := by omega
      obtain rfl := Option.some.inj (hfirst.symm.trans hb)
      decide

/-- The idle task alone, its slice used up, besides the task in slot 1. -/
def sampleLone : Sched where
  tasks i := if i = 0 then some ⟨.ready, 1, 0⟩ else if i = 1 then some ⟨.running, 3, 3⟩ else none
  current := some 1
  cpuTickes := 7

/-- Thirty milliseconds, counted tick by tick. -/
theorem wokenAt_sample_holds : ∃ t, SleepCall sampleLone 1 30 t ∧
    WokenAt 1 t (List.replicate 4 .clock) 4 := by
  have hused : (taskSleep sampleLone 30).map
      (fun t => interrupts sliceUsed t (List.replicate 4 .clock)) =
        some [true, true, true, true] := by decide +kernel
  obtain ⟨t, ht, hused⟩ := Option.map_eq_some_iff.mp hused
  have hcall : SleepCall sampleLone 1 30 t := ⟨rfl, rfl, by decide, by decide, by decide, ht⟩
  obtain ⟨u, hu⟩ := run_clocks t 4
  refine ⟨t, hcall,
    ((wokenAt_iff hcall hu (n := 3) rfl).1 (by decide)).2.mpr ⟨by decide, by decide, ?_⟩⟩
  rw [hused]
  decide

end X64SmpOs.X86

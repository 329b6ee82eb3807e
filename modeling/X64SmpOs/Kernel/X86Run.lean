import X64SmpOs.Kernel.X86Sleep

/-!
# Runs of the x86 scheduler

Interrupts, sleeps, exits and creations, in any order.

* `RunAct`, `runStep`: what happens to the scheduler;
* `OneRunning`, `one_running`: one task is RUNNING, no other is in between;
* `Later`, `step_later`: what a step does to the tasks while two of them stay awake;
* `never_reset`, `outranked`: then no slice is ever reset, and a task of lower priority
  than both is never chosen.
-/

namespace X64SmpOs.X86

open Runs
open Task64 (TaskState)

/-! ## The code -/

inductive RunAct
  | sched (a : SleepAct)
  | create (priority : Nat)
  deriving DecidableEq, Repr

/-- `ktask_create` and `utask_create` on the table. -/
def taskCreate (s : Sched) (priority : Nat) : Sched :=
  match (List.range taskMaxNums).find? fun i => (s.tasks i).isNone with
  | none => s
  | some pid => { s with tasks := setTask s.tasks pid ⟨.ready, priority, priority⟩ }

def Sched.nextRun (s : Sched) : RunAct → Option Sched
  | .sched a => s.next a
  | .create priority => some (taskCreate s priority)

def runStep : Sched → RunAct → Sched → Prop := stepOf Sched.nextRun

/-! ## One task runs -/

/-- READY or asleep. -/
def AtRest (t : Task) : Prop := t.state = .ready ∨ t.state = .sleeping

structure OneRunning (s : Sched) : Prop where
  current : ∀ c, s.current = some c → ∃ t, s.tasks c = some t ∧ t.state = .running
  others : ∀ i t, s.tasks i = some t → s.current ≠ some i → AtRest t

theorem setTask_some {g : Table} {i k : Nat} {t u : Task} (h : setTask g i t k = some u) :
    (k = i ∧ u = t) ∨ (k ≠ i ∧ g k = some u) := by
  by_cases hk : k = i
  · rw [setTask, hk, Function.update_self] at h
    exact .inl ⟨hk, (Option.some.inj h).symm⟩
  · rw [setTask, Function.update_of_ne hk] at h
    exact .inr ⟨hk, h⟩

theorem removed_some {g : Table} {i k : Nat} {u : Task} (h : Function.update g i none k = some u) :
    k ≠ i ∧ g k = some u := by
  by_cases hk : k = i
  · rw [hk, Function.update_self] at h
    cases h
  · rw [Function.update_of_ne hk] at h
    exact ⟨hk, h⟩

theorem setState_apply (g : Table) (i : Nat) (state : TaskState) (k : Nat) :
    setState g i state k = (g k).map fun t => if k = i then { t with state } else t := by
  by_cases hk : k = i
  · subst hk
    rw [setState]
    cases hg : g k with
    | none => exact hg
    | some t => simp [setTask]
  · rw [setState_of_ne g state hk]
    cases g k with
    | none => rfl
    | some t => simp [hk]

theorem atRest_of_resetOnly {g g' : Table} (h : ResetOnly g g') {i : Nat} {t t' : Task}
    (ht : g i = some t) (ht' : g' i = some t') (hrest : AtRest t) : AtRest t' := by
  have hne : t.state ≠ .waiting := by
    rcases hrest with h | h <;> rw [h] <;> nofun
  obtain rfl := Option.some.inj (((h i).2 t ht hne).symm.trans ht')
  exact hrest

section
variable {s t : Sched}

/-- The switch to a task that the table has. -/
theorem oneRunning_switch {g : Table} {n : Nat} (hg : ∀ i t, g i = some t → i ≠ n → AtRest t)
    (hn : (g n).isSome = true) (htasks : t.tasks = setState g n .running)
    (hcurrent : t.current = some n) : OneRunning t where
  current c hc := by
    obtain rfl : n = c := Option.some.inj (hcurrent.symm.trans hc)
    obtain ⟨u, hu⟩ := Option.isSome_iff_exists.mp hn
    exact ⟨{ u with state := .running }, by rw [htasks, setState_apply, hu]; simp, rfl⟩
  others i u hu hi := by
    have hne : i ≠ n := fun he => hi (he ▸ hcurrent)
    rw [htasks, setState_of_ne g _ hne] at hu
    exact hg i u hu hne

theorem oneRunning_sched (hrest : ∀ i t, s.tasks i = some t → s.current ≠ some i → AtRest t)
    (hcur : ∀ c, s.current = some c → (s.tasks c).isSome = true) : OneRunning (sched s).1 := by
  obtain ⟨hreset, hchoice⟩ := getNextReadyTask_choice s.tasks
  unfold sched
  generalize hg : getNextReadyTask s.tasks = r at hreset hchoice
  obtain ⟨next, g, reset⟩ := r
  dsimp only at hreset hchoice ⊢
  have hback : ∀ i u, g i = some u → s.current ≠ some i → AtRest u := by
    intro i u hu hi
    obtain ⟨w, hw⟩ := Option.isSome_iff_exists.mp
      ((hreset.isSome i).symm.trans (by rw [hu]; rfl))
    exact atRest_of_resetOnly hreset hw hu (hrest i w hw hi)
  have hnext : ∀ n, next = some n → (g n).isSome = true := fun n hn => by
    obtain ⟨w, hw, -⟩ := hchoice n hn
    rw [hreset.isSome, hw]
    rfl
  cases hc : s.current with
  | none =>
    cases next with
    | none =>
      exact ⟨fun c hcur => absurd (show none = some c from hcur) nofun,
        fun i u hu _ => hback i u hu (by rw [hc]; nofun)⟩
    | some n =>
      exact oneRunning_switch (fun i u hu _ => hback i u hu (by rw [hc]; nofun))
        (hnext n rfl) rfl rfl
  | some c =>
    -- the task that ran is READY again
    have hready : ∀ i u, setState g c .ready i = some u → AtRest u := by
      intro i u hu
      rw [setState_apply] at hu
      obtain ⟨w, hw, rfl⟩ := Option.map_eq_some_iff.mp hu
      by_cases hi : i = c
      · rw [if_pos hi]
        exact .inl rfl
      · rw [if_neg hi]
        exact hback i w hw fun he => hi (Option.some.inj (hc.symm.trans he)).symm
    have hsome : ∀ n, (g n).isSome = true → (setState g c .ready n).isSome = true :=
      fun n hn => (setState_isSome g c n .ready).trans hn
    cases next with
    | none =>
      exact oneRunning_switch (fun i u hu _ => hready i u hu)
        (hsome c ((hreset.isSome c).trans (hcur c hc))) rfl rfl
    | some n =>
      exact oneRunning_switch (fun i u hu _ => hready i u hu) (hsome n (hnext n rfl)) rfl rfl

theorem oneRunning_schedBySleep (hrest : ∀ i t, s.tasks i = some t → AtRest t)
    (h : schedBySleep s = some t) : OneRunning t := by
  obtain ⟨hreset, hchoice⟩ := getNextReadyTask_choice s.tasks
  obtain ⟨n, hn, rfl⟩ := Option.map_eq_some_iff.mp h
  obtain ⟨w, hw, -⟩ := hchoice n hn
  refine oneRunning_switch (fun i u hu _ => ?_) ((hreset.isSome n).trans (by rw [hw]; rfl)) rfl rfl
  obtain ⟨v, hv⟩ := Option.isSome_iff_exists.mp ((hreset.isSome i).symm.trans (by rw [hu]; rfl))
  exact atRest_of_resetOnly hreset hv hu (hrest i v hv)

theorem taskWakeup_some {i : Nat} {u : Task} (h : (taskWakeup s).tasks i = some u) :
    s.tasks i = some u ∨ u.state = .ready := by
  simp only [taskWakeup] at h
  split at h
  · obtain ⟨w, hw, rfl⟩ := Option.map_eq_some_iff.mp h
    split
    · exact .inr rfl
    · exact .inl hw
  · exact .inl h

theorem oneRunning_step {a : RunAct} (h : OneRunning s) (hstep : runStep s a t) : OneRunning t := by
  change s.nextRun a = some t at hstep
  cases a with
  | create priority =>
    obtain rfl := Option.some.inj hstep
    unfold taskCreate
    split
    · exact h
    · next pid hpid =>
      have hfree : s.tasks pid = none := by
        simpa using List.find?_some hpid
      refine ⟨fun c hc => ?_, fun i u hu hi => ?_⟩
      · obtain ⟨u, hu, hrun⟩ := h.current c hc
        have hne : c ≠ pid := by
          rintro rfl
          cases hfree.symm.trans hu
        exact ⟨u, (Function.update_of_ne hne ..).trans hu, hrun⟩
      · rcases setTask_some hu with ⟨-, rfl⟩ | ⟨-, hu⟩
        · exact .inl rfl
        · exact h.others i u hu hi
  | sched a =>
    cases a with
    | clock =>
      obtain rfl := Option.some.inj hstep
      cases hc : s.current with
      | none =>
        rw [clockInterrupt, hc]
        exact oneRunning_sched (fun i u hu hi => h.others i u hu hi)
          fun c hcur => absurd (hcur.symm.trans hc) (Option.some_ne_none c)
      | some c =>
        obtain ⟨v, hv, hrun⟩ := h.current c hc
        have hother : ∀ v' i u, setTask (taskWakeup s).tasks c v' i = some u →
            s.current ≠ some i → AtRest u := by
          intro v' i u hu hi
          rcases setTask_some hu with ⟨rfl, -⟩ | ⟨-, hu⟩
          · exact absurd hc hi
          · rcases taskWakeup_some hu with hu | hu
            · exact h.others i u hu hi
            · exact .inl hu
        rw [clockInterrupt_running hc hv hrun]
        split
        · refine oneRunning_sched (fun i u hu hi => hother _ i u hu hi) fun c' hc' => ?_
          obtain rfl : c = c' := Option.some.inj (hc.symm.trans hc')
          exact congrArg Option.isSome (Function.update_self c _ (taskWakeup s).tasks)
        · refine ⟨fun c' hc' => ?_, fun i u hu hi => hother _ i u hu hi⟩
          obtain rfl : c = c' := Option.some.inj (hc.symm.trans hc')
          exact ⟨_, Function.update_self .., hrun⟩
    | sleep ms =>
      simp only [Sched.nextRun, Sched.next, taskSleep] at hstep
      cases hc : s.current with
      | none =>
        rw [hc] at hstep
        exact Option.some.inj hstep ▸ h
      | some c =>
        obtain ⟨v, hv, -⟩ := h.current c hc
        simp only [hc, hv] at hstep
        refine oneRunning_schedBySleep (fun i u hu => ?_) hstep
        rcases setTask_some hu with ⟨-, rfl⟩ | ⟨hi, hu⟩
        · exact .inr rfl
        · exact h.others i u hu fun he => hi (Option.some.inj (hc.symm.trans he)).symm
    | exit =>
      simp only [Sched.nextRun, Sched.next, taskExit] at hstep
      cases hc : s.current with
      | none =>
        rw [hc] at hstep
        cases hstep
      | some c =>
        rw [hc] at hstep
        refine oneRunning_schedBySleep (fun i u hu => ?_) hstep
        obtain ⟨hi, hu⟩ := removed_some hu
        exact h.others i u hu fun he => hi (Option.some.inj (hc.symm.trans he)).symm

theorem oneRunning_run {as : List RunAct} (h : OneRunning s) (hr : Run runStep s as t) :
    OneRunning t :=
  run_inv' (I := OneRunning) (fun _ _ _ hs hstep => oneRunning_step hs hstep) h hr

end

/-- The tasks have been created, and no interrupt has come. -/
def Created (s : Sched) : Prop :=
  s.current = none ∧ ∀ i t, s.tasks i = some t → t.state = .ready

theorem Created.oneRunning {s : Sched} (h : Created s) : OneRunning s :=
  ⟨fun _ hc => absurd (h.1.symm.trans hc) nofun, fun i t ht _ => .inl (h.2 i t ht)⟩

/-- **One task runs.** In every run the current task is in the table and is the only one
that is RUNNING, and every other is READY or asleep: a task is WAITING only within a call
of the scheduler. -/
theorem one_running {s t : Sched} {as : List RunAct} (hs : Created s) (hr : Run runStep s as t) :
    (∀ c, t.current = some c → (t.tasks c).isSome = true) ∧
      ∀ i u, t.tasks i = some u → (u.state = .running ↔ t.current = some i) ∧
        (u.state = .running ∨ u.state = .ready ∨ u.state = .sleeping) := by
  have h := oneRunning_run hs.oneRunning hr
  refine ⟨fun c hc => ?_, fun i u hu => ?_⟩
  · obtain ⟨u, hu, -⟩ := h.current c hc
    rw [hu]
    rfl
  · by_cases hi : t.current = some i
    · obtain ⟨v, hv, hrun⟩ := h.current i hi
      obtain rfl := Option.some.inj (hu.symm.trans hv)
      exact ⟨iff_of_true hrun hi, .inl hrun⟩
    · have hrest := h.others i u hu hi
      refine ⟨iff_of_false (fun hrun => ?_) hi, .inr hrest⟩
      rcases hrest with h | h <;> exact absurd (hrun.symm.trans h) nofun

/-- The tasks of `create_idle` before the first interrupt. -/
def sampleCreated : Sched where
  tasks i := if i = 0 then some ⟨.ready, 1, 1⟩ else if i = 1 then some ⟨.ready, 3, 3⟩
    else if i = 2 then some ⟨.ready, 2, 2⟩ else none
  current := none
  cpuTickes := 0

theorem sample_created : Created sampleCreated := by
  refine ⟨rfl, fun i t ht => ?_⟩
  simp only [sampleCreated] at ht
  split_ifs at ht <;> exact Option.some.inj ht ▸ rfl

theorem one_running_sample :
    ∃ t, Run runStep sampleCreated [.sched .clock, .sched (.sleep 20), .create 4, .sched .clock] t ∧
      ∀ c, t.current = some c → (t.tasks c).isSome = true := by
  obtain ⟨t, ht⟩ := Option.isSome_iff_exists.mp (show (exec Sched.nextRun sampleCreated
    [.sched .clock, .sched (.sleep 20), .create 4, .sched .clock]).isSome = true by decide +kernel)
  exact ⟨t, run_of_exec ht, (one_running sample_created (run_of_exec ht)).1⟩

/-! ## Two tasks that stay awake -/

/-- A READY task is in the table: one such is chosen, none of lower priority, and no slice
is reset. -/
theorem choice_of_ready {g : Table} {i : Nat} {t : Task} (hi : i ∈ slots) (ht : g i = some t)
    (hready : t.state = .ready) :
    ∃ n, getNextReadyTask g = (some n, g, false) ∧ t.priority ≤ priority g n := by
  have hmem : i ∈ readySlots g slots := List.mem_filter.mpr ⟨hi, by simp [ht, hready]⟩
  have hsome : (readySlots g slots).argmax (priority g) ≠ none := fun hnone =>
    List.ne_nil_of_mem hmem (List.argmax_eq_none.mp hnone)
  obtain ⟨n, hn⟩ := Option.ne_none_iff_exists'.mp hsome
  have hle := List.le_of_mem_argmax hmem hn
  rw [priority, ht] at hle
  exact ⟨n, getNextReadyTask_ready hn, hle⟩

/-- What becomes of the tasks of a table: none is gone, no priority has changed, and one
that was awake still is, with no more left of its slice. -/
def Later (g g' : Table) (k : Nat) : Prop :=
  ∀ u, g k = some u → ∃ u', g' k = some u' ∧ u'.priority = u.priority ∧
    (u.state ≠ .sleeping → u'.state ≠ .sleeping ∧ u'.counter ≤ u.counter)

theorem Later.refl (g : Table) (k : Nat) : Later g g k :=
  fun u hu => ⟨u, hu, rfl, fun h => ⟨h, Nat.le_refl _⟩⟩

theorem Later.trans {g g' g'' : Table} {k : Nat} (h : Later g g' k) (h' : Later g' g'' k) :
    Later g g'' k := by
  intro u hu
  obtain ⟨v, hv, hpv, hav⟩ := h u hu
  obtain ⟨w, hw, hpw, haw⟩ := h' v hv
  refine ⟨w, hw, hpw.trans hpv, fun hstate => ?_⟩
  obtain ⟨hv', hcv⟩ := hav hstate
  obtain ⟨hw', hcw⟩ := haw hv'
  exact ⟨hw', hcw.trans hcv⟩

theorem later_setState (g : Table) (i : Nat) {state : TaskState} (hs : state ≠ .sleeping)
    (k : Nat) : Later g (setState g i state) k := by
  intro u hu
  rw [setState_apply, hu]
  refine ⟨_, rfl, ?_, fun h => ?_⟩
  · split <;> rfl
  · split
    · exact ⟨hs, Nat.le_refl _⟩
    · exact ⟨h, Nat.le_refl _⟩

theorem later_running (g : Table) (i k : Nat) : Later g (setState g i .running) k :=
  later_setState g i (by decide) k

theorem later_ready (g : Table) (i k : Nat) : Later g (setState g i .ready) k :=
  later_setState g i (by decide) k

theorem later_setTask {g : Table} {i : Nat} {t : Task} (ht : g i = some t) (t' : Task)
    (hp : t'.priority = t.priority) (hs : t'.state ≠ .sleeping) (hc : t'.counter ≤ t.counter)
    (k : Nat) : Later g (setTask g i t') k := by
  intro u hu
  by_cases hk : k = i
  · subst hk
    obtain rfl := Option.some.inj (ht.symm.trans hu)
    exact ⟨t', Function.update_self .., hp, fun _ => ⟨hs, hc⟩⟩
  · exact ⟨u, (Function.update_of_ne hk ..).trans hu, rfl, fun h => ⟨h, Nat.le_refl _⟩⟩

theorem later_of_eq {g g' : Table} {k : Nat} (h : g' k = g k) : Later g g' k :=
  fun u hu => ⟨u, h.trans hu, rfl, fun hs => ⟨hs, Nat.le_refl _⟩⟩

theorem later_taskWakeup (s : Sched) (k : Nat) : Later s.tasks (taskWakeup s).tasks k := by
  intro u hu
  by_cases hs : u.state = .sleeping
  · simp only [taskWakeup, hu, Option.map_some]
    split
    · refine ⟨_, rfl, ?_, fun h => absurd hs h⟩
      split <;> rfl
    · exact ⟨u, rfl, rfl, fun h => absurd hs h⟩
  · exact ⟨u, taskWakeup_of_not_due hu fun h => hs h.1, rfl, fun h => ⟨h, Nat.le_refl _⟩⟩

/-- The current task is none of those of the table whose priority is below `m`. -/
def ChosenAbove (m : Nat) (g : Table) (t : Sched) : Prop :=
  ∀ p u, g p = some u → u.priority < m → t.current ≠ some p

theorem chosenAbove_of_chosen {g g' : Table} {t : Sched} {m n : Nat} (hg : ∀ k, Later g g' k)
    (hcurrent : t.current = some n) (hle : m ≤ priority g' n) : ChosenAbove m g t := by
  intro p u hu hlt hp
  obtain rfl := Option.some.inj (hcurrent.symm.trans hp)
  obtain ⟨u', hu', hpriority, -⟩ := hg n u hu
  rw [priority, hu'] at hle
  change m ≤ u'.priority at hle
  omega

section
variable {s t : Sched} {q : Nat} {tq : Task}

theorem sched_ready (hq : q ∈ slots) (htq : s.tasks q = some tq) (hready : tq.state = .ready) :
    ChosenAbove tq.priority s.tasks (sched s).1 ∧ ∀ k, Later s.tasks (sched s).1.tasks k := by
  obtain ⟨n, hchoice, hle⟩ := choice_of_ready hq htq hready
  unfold sched
  rw [hchoice]
  cases s.current with
  | none =>
    exact ⟨chosenAbove_of_chosen (Later.refl s.tasks) rfl hle, later_running s.tasks n⟩
  | some c =>
    exact ⟨chosenAbove_of_chosen (Later.refl s.tasks) rfl hle,
      fun k => (later_ready s.tasks c k).trans (later_running _ n k)⟩

theorem schedBySleep_ready (hq : q ∈ slots) (htq : s.tasks q = some tq)
    (hready : tq.state = .ready) (h : schedBySleep s = some t) :
    ChosenAbove tq.priority s.tasks t ∧ ∀ k, Later s.tasks t.tasks k := by
  obtain ⟨n, hchoice, hle⟩ := choice_of_ready hq htq hready
  rw [schedBySleep, hchoice] at h
  obtain rfl := Option.some.inj h
  exact ⟨chosenAbove_of_chosen (Later.refl s.tasks) rfl hle, later_running s.tasks n⟩

end

/-- The task in slot `k` neither goes to sleep nor ends in this step. -/
def Stays (k : Nat) (s : Sched) (a : RunAct) (_ : Sched) : Prop :=
  s.current = some k → ∀ b, a = .sched b → b = .clock

/-- The task in slot `k` is not asleep, has at least the priority `m`, and at most `n` ticks
left. -/
def Awake (k m n : Nat) (s : Sched) : Prop :=
  ∃ t, s.tasks k = some t ∧ t.state ≠ .sleeping ∧ m ≤ t.priority ∧ t.counter ≤ n

theorem Awake.later {k m n : Nat} {s t : Sched} (h : Awake k m n s)
    (hlater : Later s.tasks t.tasks k) : Awake k m n t := by
  obtain ⟨u, hu, hs, hm, hn⟩ := h
  obtain ⟨u', hu', hp, ha⟩ := hlater u hu
  obtain ⟨hs', hc⟩ := ha hs
  exact ⟨u', hu', hs', by omega, by omega⟩

theorem Awake.ready {k m n : Nat} {s : Sched} (h : Awake k m n s) (hone : OneRunning s)
    (hk : s.current ≠ some k) :
    ∃ t, s.tasks k = some t ∧ t.state = .ready ∧ m ≤ t.priority := by
  obtain ⟨u, hu, hs, hm, -⟩ := h
  rcases hone.others k u hu hk with hready | hsleep
  · exact ⟨u, hu, hready, hm⟩
  · exact absurd hsleep hs

theorem ChosenAbove.mono {m m' : Nat} {g : Table} {t : Sched} (h : ChosenAbove m' g t)
    (hm : m ≤ m') : ChosenAbove m g t := fun p u hu hlt => h p u hu (by omega)

/-- No task of a priority below `m` has become the current one. -/
def NoneBelow (m : Nat) (s t : Sched) : Prop :=
  ∀ p u, s.tasks p = some u → u.priority < m → s.current ≠ some p → t.current ≠ some p

theorem ChosenAbove.noneBelow {m : Nat} {g : Table} {s t : Sched} (h : ChosenAbove m g t)
    (hg : ∀ k, s.current ≠ some k → Later s.tasks g k) : NoneBelow m s t := by
  intro p u hu hlt hp
  obtain ⟨u', hu', hpriority, -⟩ := hg p hp u hu
  exact h p u' hu' (by omega)

theorem noneBelow_of_same {m : Nat} {s t : Sched} (h : t.current = s.current) :
    NoneBelow m s t := fun _ _ _ _ hp => h ▸ hp

/-- A tick, two awake tasks standing by. -/
theorem clock_later {s : Sched} {i j m : Nat} {ni nj : Nat} (hone : OneRunning s) (hij : i ≠ j)
    (hi : i ∈ slots) (hj : j ∈ slots) (hai : Awake i m ni s) (haj : Awake j m nj s) :
    NoneBelow m s (clockInterrupt s).1 ∧
      ∀ k, Later s.tasks (clockInterrupt s).1.tasks k := by
  cases hc : s.current with
  | none =>
    obtain ⟨t, ht, hready, hm⟩ := hai.ready hone (hc ▸ (Option.some_ne_none i).symm)
    obtain ⟨hnone, hlater⟩ := sched_ready (s := clockHander s) hi ht hready
    rw [clockInterrupt, hc]
    exact ⟨(hnone.mono hm).noneBelow fun k _ => Later.refl _ k, hlater⟩
  | some c =>
    obtain ⟨v, hv, hrun⟩ := hone.current c hc
    have hvs : v.state ≠ .sleeping := hrun ▸ (by decide : TaskState.running ≠ .sleeping)
    have hwake : (taskWakeup s).tasks c = some v :=
      taskWakeup_of_not_due hv fun h => hvs h.1
    rw [clockInterrupt_running hc hv hrun]
    split
    · next hzero =>
      have hlater : ∀ k, Later s.tasks
          (setTask (taskWakeup s).tasks c { v with state := .waiting }) k := fun k =>
        (later_taskWakeup s k).trans (later_setTask hwake { v with state := .waiting } rfl
          (by decide : TaskState.waiting ≠ .sleeping) (Nat.le_refl _) k)
      -- one of the two is not the current task, and READY
      have hother : ∃ q t, q ∈ slots ∧ q ≠ c ∧ s.tasks q = some t ∧ t.state = .ready ∧
          m ≤ t.priority := by
        by_cases hic : c = i
        · have hjc : s.current ≠ some j := fun h =>
            hij (hic ▸ Option.some.inj (hc.symm.trans h))
          obtain ⟨t, ht, hready, hm⟩ := haj.ready hone hjc
          exact ⟨j, t, hj, fun h => hij (hic ▸ h.symm), ht, hready, hm⟩
        · obtain ⟨t, ht, hready, hm⟩ := hai.ready hone fun h =>
            hic (Option.some.inj (hc.symm.trans h))
          exact ⟨i, t, hi, fun h => hic h.symm, ht, hready, hm⟩
      obtain ⟨q, t, hq, hqc, ht, hready, hm⟩ := hother
      have hts : t.state ≠ .sleeping := hready ▸ (by decide : TaskState.ready ≠ .sleeping)
      have htask : setTask (taskWakeup s).tasks c { v with state := .waiting } q = some t :=
        (Function.update_of_ne hqc ..).trans (taskWakeup_of_not_due ht fun h => hts h.1)
      obtain ⟨hnone, hsched⟩ := sched_ready (s := clockHander { taskWakeup s with
        tasks := setTask (taskWakeup s).tasks c { v with state := .waiting } }) hq htask hready
      exact ⟨(hnone.mono hm).noneBelow fun k _ => hlater k,
        fun k => (hlater k).trans (hsched k)⟩
    · exact ⟨noneBelow_of_same rfl, fun k =>
        (later_taskWakeup s k).trans
          (later_setTask hwake { v with counter := v.counter - 1 } rfl hvs (Nat.sub_le _ _) k)⟩

/-- **Step.** Two awake tasks stand by and stay. -/
theorem step_later {s t : Sched} {a : RunAct} {i j m : Nat} {ni nj : Nat} (hone : OneRunning s)
    (hij : i ≠ j) (hi : i ∈ slots) (hj : j ∈ slots) (hai : Awake i m ni s) (haj : Awake j m nj s)
    (hsi : Stays i s a t) (hsj : Stays j s a t) (hstep : runStep s a t) :
    NoneBelow m s t ∧ ∀ k, Stays k s a t → Later s.tasks t.tasks k := by
  change s.nextRun a = some t at hstep
  cases a with
  | create priority =>
    obtain rfl := Option.some.inj hstep
    unfold taskCreate
    split
    · exact ⟨noneBelow_of_same rfl, fun k _ => Later.refl _ k⟩
    · next pid hpid =>
      have hfree : s.tasks pid = none := by
        simpa using List.find?_some hpid
      refine ⟨noneBelow_of_same rfl, fun k _ u hu => ?_⟩
      have hne : k ≠ pid := by
        rintro rfl
        cases hfree.symm.trans hu
      exact later_of_eq (Function.update_of_ne hne ..) u hu
  | sched a =>
    by_cases hclock : a = .clock
    · subst hclock
      obtain rfl := Option.some.inj hstep
      obtain ⟨h1, h2⟩ := clock_later hone hij hi hj hai haj
      exact ⟨h1, fun k _ => h2 k⟩
    · -- the current task is neither of the two
      have hci : s.current ≠ some i := fun h => hclock (hsi h a rfl)
      obtain ⟨ti, hti, hready, hm⟩ := hai.ready hone hci
      cases hc : s.current with
      | none =>
        cases a with
        | clock => exact absurd rfl hclock
        | sleep ms =>
          simp only [Sched.nextRun, Sched.next, taskSleep, hc] at hstep
          obtain rfl := Option.some.inj hstep
          exact ⟨noneBelow_of_same rfl, fun k _ => Later.refl _ k⟩
        | exit =>
          simp only [Sched.nextRun, Sched.next, taskExit, hc] at hstep
          cases hstep
      | some c =>
        have hne : i ≠ c := fun h => hci (h ▸ hc)
        obtain ⟨v, hv, hrun⟩ := hone.current c hc
        -- only the slot of the current task is written before the choice
        have hswitch : ∀ g : Table, (∀ k, k ≠ c → g k = s.tasks k) →
            schedBySleep { s with tasks := g } = some t →
            NoneBelow m s t ∧ ∀ k, Stays k s (.sched a) t → Later s.tasks t.tasks k := by
          intro g hg hsched
          have hother : ∀ k, s.current ≠ some k → Later s.tasks g k := fun k hk =>
            later_of_eq (hg k fun h => hk (h ▸ hc))
          obtain ⟨habove, hlater⟩ := schedBySleep_ready (s := { s with tasks := g }) hi
            ((hg i hne).trans hti) hready hsched
          exact ⟨(habove.mono hm).noneBelow hother, fun k hk =>
            (hother k fun h => hclock (hk h a rfl)).trans (hlater k)⟩
        cases a with
        | clock => exact absurd rfl hclock
        | sleep ms =>
          simp only [Sched.nextRun, Sched.next, taskSleep, hc, hv] at hstep
          exact hswitch _ (fun k hk => Function.update_of_ne hk ..) (by simpa [hc] using hstep)
        | exit =>
          simp only [Sched.nextRun, Sched.next, taskExit, hc] at hstep
          exact hswitch _ (fun k hk => Function.update_of_ne hk ..) (by simpa [hc] using hstep)

/-- Two tasks besides the idle one that are awake, the first with at most `n` ticks left. -/
structure Pair (i j m n : Nat) (s : Sched) : Prop where
  one : OneRunning s
  ne : i ≠ j
  left_slot : i ∈ slots
  right_slot : j ∈ slots
  left : Awake i m n s
  right : ∃ k, Awake j m k s

/-- Neither goes to sleep or ends. -/
def BothStay (i j : Nat) (s : Sched) (a : RunAct) (t : Sched) : Prop :=
  Stays i s a t ∧ Stays j s a t

theorem pair_step {i j m n : Nat} {s t : Sched} {a : RunAct} (h : Pair i j m n s)
    (hstay : BothStay i j s a t) (hstep : runStep s a t) :
    Pair i j m n t ∧ NoneBelow m s t ∧ ∀ k, s.current ≠ some k → Later s.tasks t.tasks k := by
  obtain ⟨k, hright⟩ := h.right
  obtain ⟨hnone, hlater⟩ := step_later h.one h.ne h.left_slot h.right_slot h.left hright
    hstay.1 hstay.2 hstep
  refine ⟨⟨oneRunning_step h.one hstep, h.ne, h.left_slot, h.right_slot,
    h.left.later (hlater i hstay.1), k, hright.later (hlater j hstay.2)⟩, hnone, fun k hk => ?_⟩
  exact hlater k fun hc => absurd hc hk

/-- Two tasks of priorities 3 and 2 besides one of priority 1, after the first has used up
its slice. -/
def sampleThree : Sched where
  tasks i := if i = 0 then some ⟨.ready, 1, 1⟩ else if i = 1 then some ⟨.ready, 3, 0⟩
    else if i = 2 then some ⟨.running, 2, 2⟩ else if i = 3 then some ⟨.ready, 1, 1⟩ else none
  current := some 2
  cpuTickes := 4

theorem sample_pair : Pair 1 2 2 0 sampleThree where
  one := by
    refine ⟨fun c hc => ?_, fun i t ht hi => ?_⟩
    · obtain rfl : 2 = c := Option.some.inj hc
      exact ⟨_, rfl, rfl⟩
    · simp only [sampleThree] at ht hi
      split_ifs at ht with h0 h1 h2 h3
      · exact .inl (Option.some.inj ht ▸ rfl)
      · exact .inl (Option.some.inj ht ▸ rfl)
      · exact absurd (h2 ▸ rfl) hi
      · exact .inl (Option.some.inj ht ▸ rfl)
  ne := by decide
  left_slot := by decide
  right_slot := by decide
  left := ⟨_, rfl, by decide, by decide, Nat.le_refl _⟩
  right := ⟨2, _, rfl, by decide, by decide, Nat.le_refl _⟩

theorem every_clocks (i j n : Nat) (s : Sched) :
    Every runStep (BothStay i j) s (List.replicate n (.sched .clock)) := by
  have hclock : ∀ k (s t : Sched), Stays k s (.sched .clock) t := fun _ _ _ _ b hb =>
    (RunAct.sched.inj hb).symm
  induction n generalizing s with
  | zero => trivial
  | succ n ih => exact fun t _ => ⟨⟨hclock i s t, hclock j s t⟩, ih t⟩

/-- **No slice is reset.** While two tasks neither sleep nor end, what is left of their
slices only shrinks, whatever the others do: a slice used up stays used up. -/
theorem never_reset {i j m n : Nat} {s t : Sched} {as : List RunAct} (h : Pair i j m n s)
    (hstay : Every runStep (BothStay i j) s as) (hr : Run runStep s as t) :
    ∃ u, t.tasks i = some u ∧ (u.state = .ready ∨ u.state = .running) ∧ u.counter ≤ n := by
  have ht : Pair i j m n t :=
    run_inv (I := Pair i j m n) (fun _ _ _ hs hc hstep => (pair_step hs hc hstep).1) h hstay hr
  obtain ⟨u, hu, hs, -, hn⟩ := ht.left
  refine ⟨u, hu, ?_, hn⟩
  by_cases hc : t.current = some i
  · obtain ⟨v, hv, hrun⟩ := ht.one.current i hc
    obtain rfl := Option.some.inj (hu.symm.trans hv)
    exact .inr hrun
  · exact .inl ((ht.one.others i u hu hc).resolve_right hs)

theorem never_reset_sample :
    ∃ t, Run runStep sampleThree (List.replicate 9 (.sched .clock)) t ∧
      ∃ u, t.tasks 1 = some u ∧ (u.state = .ready ∨ u.state = .running) ∧ u.counter ≤ 0 := by
  obtain ⟨t, ht⟩ := Option.isSome_iff_exists.mp (show (exec Sched.nextRun sampleThree
    (List.replicate 9 (.sched .clock))).isSome = true by decide +kernel)
  exact ⟨t, run_of_exec ht, never_reset sample_pair (every_clocks 1 2 9 _) (run_of_exec ht)⟩

/-- **Starvation.** While two tasks neither sleep nor end, no task of a lower priority than
both ever runs, if it does not already. -/
theorem outranked {i j m n p : Nat} {s t : Sched} {u : Task} {as : List RunAct}
    (h : Pair i j m n s) (hp : s.tasks p = some u) (hlt : u.priority < m)
    (hcur : s.current ≠ some p) (hstay : Every runStep (BothStay i j) s as)
    (hr : Run runStep s as t) : t.current ≠ some p := by
  have ht := run_inv (I := fun s => Pair i j m n s ∧ s.current ≠ some p ∧
      ∃ u, s.tasks p = some u ∧ u.priority < m)
    (fun s a t hs hc hstep => by
      obtain ⟨hpair, hcur, u, hu, hlt⟩ := hs
      obtain ⟨hpair, hnone, hlater⟩ := pair_step hpair hc hstep
      obtain ⟨u', hu', hpriority, -⟩ := hlater p hcur u hu
      exact ⟨hpair, hnone p u hu hlt hcur, u', hu', by omega⟩)
    ⟨h, hcur, u, hp, hlt⟩ hstay hr
  exact ht.2.1

theorem outranked_sample :
    ∃ t, Run runStep sampleThree (List.replicate 9 (.sched .clock)) t ∧ t.current ≠ some 3 := by
  obtain ⟨t, ht⟩ := Option.isSome_iff_exists.mp (show (exec Sched.nextRun sampleThree
    (List.replicate 9 (.sched .clock))).isSome = true by decide +kernel)
  exact ⟨t, run_of_exec ht, outranked sample_pair (p := 3) rfl (by decide) (by decide)
    (every_clocks 1 2 9 _) (run_of_exec ht)⟩

end X64SmpOs.X86

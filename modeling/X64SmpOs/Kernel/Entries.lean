import X64SmpOs.Kernel.Sched
import X64SmpOs.Kernel.Smp

/-!
# Whole entries as runs of the machine

A processor that runs an entry with the lock free and no other in between goes
through the steps of `Machine.next` and ends where `Cpus.next` puts it in one step.

* `goes_select`: from the scan on;
* `entry_run`: the three entries;
* `entries_run`: every run of whole entries is a run of the machine.
-/

namespace X64SmpOs.Smp

open Task64 Runs Sched

variable {ι : Type} [DecidableEq ι]

/-- Processor `c` alone comes from `m` to `m'`. -/
def Goes (c : ι) (m m' : Machine ι) : Prop := ∃ k, Run smpStep m (List.replicate k (.step c)) m'

theorem Goes.refl (c : ι) (m : Machine ι) : Goes c m m := ⟨0, rfl⟩

theorem Goes.step {c : ι} {m m'' : Machine ι} (m' : Machine ι) (h : m.advance c = some m')
    (hg : Goes c m' m'') : Goes c m m'' := by
  obtain ⟨k, hk⟩ := hg
  exact ⟨k + 1, m', h, hk⟩

/-- Processor `c` is at `pc`, with the table, the lock and the current tasks as given. -/
def Machine.put (m : Machine ι) (c : ι) (pc : Pc) (lock : Bool) (ctx : TaskCtx)
    (cur : ι → Option Nat) :
    Machine ι := ⟨ctx, lock, cur, Function.update m.pc c pc⟩

variable {m : Machine ι} {c : ι} {ctx : TaskCtx} {cur : ι → Option Nat}

/-- Back in the task. -/
theorem put_run {lock : Bool} (hpc : m.pc c = .run) (hlock : m.lock = lock) :
    m.put c .run lock ctx cur = { m with ctx := ctx, cur := cur } := by
  simp [Machine.put, ← hpc, hlock]

/-- The selection under the lock is `switchTask`. -/
theorem goes_select (picks : List Nat) :
    let s := Cpus.switchTask ⟨ctx, cur, picks⟩ c
    Goes c (m.put c (.scan true) true ctx cur) (m.put c .run false s.ctx s.cur) := by
  cases hscan : scanTasks ctx with
  | mk pick g =>
    cases pick with
    | none =>
      have hs : Cpus.switchTask ⟨ctx, cur, picks⟩ c = ⟨g, cur, picks⟩ := by
        simp [Cpus.switchTask, getNextReadyTask, hscan]
      rw [hs]
      refine Goes.step (m.put c .unlock true g cur) ?_ (Goes.step _ ?_ (Goes.refl _ _))
      · simp [Machine.advance, Machine.put, hscan, Machine.goto]
      · simp [Machine.advance, Machine.put, Machine.goto]
    | some p =>
      have hs : Cpus.switchTask ⟨ctx, cur, picks⟩ c =
          ⟨setTaskRunning (claimTask g p) p, Function.update cur c (some p), picks ++ [p]⟩ := by
        simp [Cpus.switchTask, getNextReadyTask, hscan]
      rw [hs]
      refine Goes.step (m.put c (.claim true p) true g cur) ?_
        (Goes.step (m.put c (.store true p) true (claimTask g p) cur) ?_
          (Goes.step (m.put c (.setRunning p) true (claimTask g p)
              (Function.update cur c (some p))) ?_
            (Goes.step (m.put c .unlock true (setTaskRunning (claimTask g p) p)
              (Function.update cur c (some p))) ?_ (Goes.step _ ?_ (Goes.refl _ _)))))
      · simp [Machine.advance, Machine.put, hscan, Machine.goto]
      all_goals simp [Machine.advance, Machine.put, Machine.goto, Machine.setCur]

theorem goes_timer (picks : List Nat) :
    let s := Cpus.timerTick ⟨ctx, cur, picks⟩ c
    Goes c (m.put c .timerLock false ctx cur) (m.put c .run false s.ctx s.cur) := by
  refine Goes.step (m.put c .timerCheck true ctx cur) ?_ ?_
  · simp [Machine.advance, Machine.put, Machine.goto]
  cases hcur : cur c with
  | none =>
    have hs : Cpus.timerTick ⟨ctx, cur, picks⟩ c = Cpus.switchTask ⟨ctx, cur, picks⟩ c := by
      simp [Cpus.timerTick, hcur]
    rw [hs]
    refine Goes.step _ ?_ (goes_select picks)
    simp [Machine.advance, Machine.put, hcur, Machine.goto]
  | some p =>
    by_cases hzero : (decreaseTaskCounter ctx p).1 = 0
    · -- the slice is used up
      have hs : Cpus.timerTick ⟨ctx, cur, picks⟩ c =
          Cpus.switchTask ⟨setTaskWaiting (decreaseTaskCounter ctx p).2 p, cur, picks⟩ c := by
        simp [Cpus.timerTick, hcur, hzero]
      rw [hs]
      refine Goes.step (m.put c .timerMark true (decreaseTaskCounter ctx p).2 cur) ?_
        (Goes.step _ ?_ (goes_select picks))
      · simp [Machine.advance, Machine.put, hcur, hzero, Machine.goto]
      · simp [Machine.advance, Machine.put, hcur, Machine.goto]
    · have hs : Cpus.timerTick ⟨ctx, cur, picks⟩ c =
        ⟨(decreaseTaskCounter ctx p).2, cur, picks⟩ := by
        simp [Cpus.timerTick, hcur, hzero]
      rw [hs]
      refine Goes.step (m.put c .unlock true (decreaseTaskCounter ctx p).2 cur) ?_
        (Goes.step _ ?_ (Goes.refl _ _))
      · simp [Machine.advance, Machine.put, hcur, hzero, Machine.goto]
      · simp [Machine.advance, Machine.put, Machine.goto]

theorem goes_broadcast (hcur : cur c = none) (picks : List Nat) :
    let s := Cpus.schedBroadcast ⟨ctx, cur, picks⟩ c
    Goes c (m.put c .broadcastLock false ctx cur) (m.put c .run false s.ctx s.cur) := by
  have hs : Cpus.schedBroadcast ⟨ctx, cur, picks⟩ c = Cpus.switchTask ⟨ctx, cur, picks⟩ c := by
    simp [Cpus.schedBroadcast, hcur]
  rw [hs]
  refine Goes.step _ ?_ (goes_select picks)
  simp [Machine.advance, Machine.put, Machine.goto]

/-- `task_exit` leaves the lock as it is. -/
theorem goes_exit {p : Nat} {lock : Bool} (hcur : cur c = some p) (picks : List Nat) :
    let s := Cpus.taskExit ⟨ctx, cur, picks⟩ c p
    Goes c (m.put c .exitClean lock ctx cur) (m.put c .run lock s.ctx s.cur) := by
  refine Goes.step (m.put c .exitClear lock (taskClean ctx p) cur) ?_
    (Goes.step (m.put c (.scan false) lock (taskClean ctx p) (Function.update cur c none)) ?_ ?_)
  · simp [Machine.advance, Machine.put, hcur, Machine.goto]
  · simp [Machine.advance, Machine.put, Machine.goto, Machine.setCur]
  cases hscan : scanTasks (taskClean ctx p) with
  | mk pick g =>
    cases pick with
    | none =>
      have hs : Cpus.taskExit ⟨ctx, cur, picks⟩ c p = ⟨g, Function.update cur c none, picks⟩ := by
        simp [Cpus.taskExit, getNextReadyTask, hscan]
      rw [hs]
      refine Goes.step _ ?_ (Goes.refl _ _)
      simp [Machine.advance, Machine.put, hscan, Machine.goto]
    | some q =>
      have hs : Cpus.taskExit ⟨ctx, cur, picks⟩ c p =
          ⟨claimTask g q, Function.update cur c (some q), picks ++ [q]⟩ := by
        simp [Cpus.taskExit, getNextReadyTask, hscan]
      rw [hs]
      refine Goes.step (m.put c (.claim false q) lock g (Function.update cur c none)) ?_
        (Goes.step (m.put c (.store false q) lock (claimTask g q) (Function.update cur c none)) ?_
          (Goes.step _ ?_ (Goes.refl _ _)))
      · simp [Machine.advance, Machine.put, hscan, Machine.goto]
      all_goals simp [Machine.advance, Machine.put, Machine.goto, Machine.setCur]

/-! ## Runs -/

/-- An interrupt or the end of a task. -/
def IsEntry : SchedAct ι → Prop
  | .create _ _ _ => False
  | _ => True

/-- No processor is in an entry. -/
structure Quiet (m : Machine ι) : Prop where
  pc : ∀ c, m.pc c = .run
  lock : m.lock = false

/-- An action that starts an entry, and the steps of the entry. -/
theorem Quiet.run (hm : Quiet m) {a : SmpAct ι} {pc : Pc} (ha : m.next a = some (m.goto c pc))
    {s : Cpus ι} (hg : Goes c (m.put c pc false m.ctx m.cur) (m.put c .run false s.ctx s.cur)) :
    ∃ as, Run smpStep m as { m with ctx := s.ctx, cur := s.cur } := by
  rw [put_run (hm.pc c) hm.lock, ← hm.lock] at hg
  obtain ⟨k, hk⟩ := hg
  exact ⟨a :: List.replicate k (.step c), m.goto c pc, ha, hk⟩

/-- **Entry.** A whole entry from a quiet state is a run of the machine. -/
theorem entry_run (hm : Quiet m) {a : SchedAct ι} (ha : IsEntry a) {picks : List Nat} {s : Cpus ι}
    (hs : schedStep ⟨m.ctx, m.cur, picks⟩ a s) :
    ∃ as, Run smpStep m as { m with ctx := s.ctx, cur := s.cur } := by
  cases a with
  | timer c =>
    obtain rfl := Option.some.inj hs
    exact hm.run (a := .timer c) (if_pos (hm.pc c)) (goes_timer picks)
  | broadcast c =>
    obtain rfl := Option.some.inj hs
    cases hcur : m.cur c with
    | none =>
      refine hm.run (a := .broadcast c) ?_ (goes_broadcast hcur picks)
      simp only [Machine.next, hm.pc c, hcur, ↓reduceIte]
    | some p =>
      have hkeep : Cpus.schedBroadcast ⟨m.ctx, m.cur, picks⟩ c = ⟨m.ctx, m.cur, picks⟩ := by
        simp [Cpus.schedBroadcast, hcur]
      rw [hkeep]
      exact ⟨[], rfl⟩
  | exit c =>
    obtain ⟨p, hp, rfl⟩ := Option.map_eq_some_iff.mp hs
    exact hm.run (a := .exit c) (if_pos ⟨hm.pc c, Option.ne_none_iff_exists'.mpr ⟨p, hp⟩⟩)
      (goes_exit hp picks)
  | create task name priority => exact ha.elim

/-- **Refinement.** A run of whole entries, one after the other, is a run of the machine. -/
theorem entries_run (hm : Quiet m) {as : List (SchedAct ι)} (ha : ∀ a ∈ as, IsEntry a)
    {picks : List Nat} {t : Cpus ι} (hr : Run schedStep ⟨m.ctx, m.cur, picks⟩ as t) :
    ∃ bs, Run smpStep m bs { m with ctx := t.ctx, cur := t.cur } := by
  induction as generalizing m picks with
  | nil =>
    obtain rfl := hr
    exact ⟨[], rfl⟩
  | cons a as ih =>
    obtain ⟨s, hs, hr⟩ := hr
    obtain ⟨bs, hbs⟩ := entry_run hm (ha a List.mem_cons_self) hs
    obtain ⟨bs', hbs'⟩ := ih (m := { m with ctx := s.ctx, cur := s.cur }) ⟨hm.pc, hm.lock⟩
      (fun b hb => ha b (List.mem_cons_of_mem _ hb)) hr
    exact ⟨bs ++ bs', (run_append m bs bs' _).mpr ⟨_, hbs, hbs'⟩⟩

/-- The first processor's slice ends, then the second's task. -/
theorem entries_run_sample :
    ∃ t, Run schedStep ⟨sample.ctx, sample.cur, []⟩ [.timer 0, .exit 1] t ∧
      ∃ bs, Run smpStep sample bs { sample with ctx := t.ctx, cur := t.cur } := by
  have hexec : ∃ t, exec Cpus.next ⟨sample.ctx, sample.cur, []⟩ [.timer 0, .exit 1] = some t :=
    Option.isSome_iff_exists.mp (by decide +kernel)
  obtain ⟨t, ht⟩ := hexec
  have hr := run_of_exec ht
  have hentries : ∀ a ∈ ([.timer 0, .exit 1] : List (SchedAct (Fin 2))), IsEntry a :=
    List.forall_mem_cons.mpr ⟨trivial, List.forall_mem_cons.mpr ⟨trivial, nofun⟩⟩
  exact ⟨t, hr, entries_run ⟨fun _ => rfl, rfl⟩ hentries hr⟩

end X64SmpOs.Smp

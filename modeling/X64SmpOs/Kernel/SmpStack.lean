import X64SmpOs.Kernel.Smp

/-!
# Kernel stacks during a switch

`rsp` next to the machine of the three entries. `lapic_timer_entry` saves `rsp` as
the `esp0` of the task it leaves, and a processor comes to the stack of the task it
has picked only after the lock is released, in `sched_task` or by the `iretq` of
`first_sched_task`.

* `Stacks.next`: one step of one processor, with its stack;
* `StackInv`: a task's kernel stack belongs to the processor that is on it;
* `oneStack_of_apart`: in a run in which no processor scans the table while it may
  find a task whose stack another one has still to leave, no two processors are on
  the kernel stack of one task.
-/

namespace X64SmpOs.Smp

open Task64 Runs

variable {ι : Type} [DecidableEq ι]

/-- What follows a step of the entry. The picked task comes with the instructions
that load its stack. -/
inductive Phase
  | entry
  | setTaskEsp0
  | spinUnlock (first : Bool) (p : Nat)
  | firstSchedTask (p : Nat)
  | schedTask (p : Nat)
  | restoreContext (p : Nat)
  deriving DecidableEq, Repr

/-- `rsp c` is the task whose kernel stack `rsp` lies in, `none` for a user stack
and the processor's own stacks; `esp0 p` the same for the saved `esp0`. `user` is the
privilege of the code that runs or is interrupted, `cross p` the mark
`store_context_to_stack` left on the saved stack. -/
structure Stacks (ι : Type) where
  m : Machine ι
  phase : ι → Phase
  user : ι → Bool
  rsp : ι → Option Nat
  esp0 : Nat → Option Nat
  cross : Nat → Bool
  first : Nat → Bool

/-- The actions of the machine, and a running task that goes to ring 3 and back. -/
inductive StackAct (ι : Type)
  | timer (c : ι)
  | broadcast (c : ι)
  | exit (c : ι)
  | syscall (c : ι)
  | userState (c : ι)
  | step (c : ι)
  deriving DecidableEq, Repr

namespace Stacks

/-- The machine has taken its step, and the processor comes to a phase. -/
def goto (s : Stacks ι) (m : Machine ι) (c : ι) (ph : Phase) : Stacks ι :=
  { s with m := m, phase := Function.update s.phase c ph }

def setRsp (s : Stacks ι) (c : ι) (p : Option Nat) : Stacks ι :=
  { s with rsp := Function.update s.rsp c p }

def setUser (s : Stacks ι) (c : ι) (b : Bool) : Stacks ι :=
  { s with user := Function.update s.user c b }

/-- `get_first_sched_flag`, and the way that follows it; the broadcast entry reads the
flag after the unlock. -/
def resetFirst (s : Stacks ι) (p : Nat) : Stacks ι :=
  { s with first := Function.update s.first p false }

def loadPhase (first : Bool) (p : Nat) : Phase := if first then .firstSchedTask p else .schedTask p

def advance (s : Stacks ι) (c : ι) : Option (Stacks ι) :=
  match s.phase c with
  | .setTaskEsp0 =>
    match s.m.cur c with
    | none => none
    | some p =>
      some ({ s with
        esp0 := Function.update s.esp0 p (s.rsp c)
        cross := Function.update s.cross p (s.user c) }.goto s.m c .entry)
  | .spinUnlock first p => (s.m.advance c).map fun m => s.goto m c (loadPhase first p)
  -- the frame is built on the old stack; `iretq` pops `esp0 - 8`
  | .firstSchedTask p => some (((s.setUser c false).setRsp c (s.esp0 p)).goto s.m c .entry)
  | .schedTask p => some ((s.setRsp c (s.esp0 p)).goto s.m c (.restoreContext p))
  | .restoreContext p =>
    if s.cross p then some (((s.setUser c true).setRsp c none).goto s.m c .entry)
    else some ((s.setUser c false).goto s.m c .entry)
  | .entry =>
    match s.m.pc c with
    | .timerMark =>
      -- `.skip`: the context goes from the stack of the TSS to that of the task
      if s.user c ∧ s.rsp c = none then some (s.setRsp c (s.m.cur c))
      else (s.m.advance c).map fun m => s.goto m c .setTaskEsp0
    -- `mov rsp, [gs:24]`
    | .exitClean => (s.m.advance c).map fun m => (s.setRsp c none).goto m c .entry
    | .setRunning p =>
      (s.m.advance c).map fun m => (s.resetFirst p).goto m c (.spinUnlock (s.first p) p)
    | .store false p =>
      (s.m.advance c).map fun m => (s.resetFirst p).goto m c (loadPhase (s.first p) p)
    | _ => (s.m.advance c).map fun m => s.goto m c .entry

/-- An interrupt or the end of a task, between two entries. -/
def begin (s : Stacks ι) (c : ι) (a : SmpAct ι) : Option (Stacks ι) :=
  if s.phase c = .entry then (s.m.next a).map fun m => s.goto m c .entry else none

def next (s : Stacks ι) : StackAct ι → Option (Stacks ι)
  | .timer c => s.begin c (.timer c)
  | .broadcast c => s.begin c (.broadcast c)
  | .exit c => if s.user c then none else s.begin c (.exit c)
  | .syscall c =>
    if s.phase c = .entry ∧ s.m.pc c = .run ∧ s.user c then some (s.setUser c false) else none
  | .userState c =>
    if s.phase c = .entry ∧ s.m.pc c = .run ∧ s.m.cur c ≠ none then
      some ((s.setUser c true).setRsp c none)
    else none
  | .step c => s.advance c

end Stacks

def stackStep : Stacks ι → StackAct ι → Stacks ι → Prop := stepOf Stacks.next

/-- No two processors are on the kernel stack of one task. -/
def OneStack (s : Stacks ι) : Prop := ∀ c d p, s.rsp c = some p → s.rsp d = some p → c = d

/-- What a scan can choose: a ready task, or a waiting one when none is ready. -/
def Candidate (g : TaskCtx) (p : Nat) : Prop :=
  g.state p = .ready ∨ (g.state p = .waiting ∧ ∀ q, g.Holds q → g.state q ≠ .ready)

/-- The processor has a new current task and is still on the stack of the last one. -/
def Stacks.On (s : Stacks ι) (d : ι) (q : Nat) : Prop := s.rsp d = some q ∧ s.m.cur d ≠ some q

/-- A processor scans the table only while no other is switching, and the tasks whose
stacks the others are about to leave are no candidates. -/
def Apart (s : Stacks ι) (a : StackAct ι) (_ : Stacks ι) : Prop :=
  ∀ c b, a = .step c → s.phase c = .entry → s.m.pc c = .scan b → ∀ d, d ≠ c →
    ¬ Switching s.m d ∧ ∀ q, s.On d q → ¬ Candidate s.m.ctx q

/-! ## What a step of the machine does -/

/-- From `task_exit`'s change of stack to its store. -/
def Pc.Exiting : Pc → Prop
  | .exitClear | .scan false | .claim false _ | .store false _ => True
  | _ => False

section Machine

variable {m m' : Machine ι} {c d : ι}

/-- What a step of processor `c` to `pc` does to the current tasks. -/
inductive Moved (m : Machine ι) (c : ι) (pc : Pc) (cur : ι → Option Nat) : Prop
  | plain (hcur : cur = m.cur) (hpick : pc.pick = none) (hexit : pc.Exiting → m.pc c = .exitClean)
  | scan (b : Bool) (p : Nat) (hpc : m.pc c = .scan b) (hp : (scanTasks m.ctx).1 = some p)
      (hto : pc = .claim b p) (hcur : cur = m.cur)
  | claim (b : Bool) (p : Nat) (hpc : m.pc c = .claim b p) (hto : pc = .store b p)
      (hcur : cur = m.cur)
  | clear (hpc : m.pc c = .exitClear) (hto : pc = .scan false)
      (hcur : cur = Function.update m.cur c none)
  | store (b : Bool) (p : Nat) (hpc : m.pc c = .store b p)
      (hto : pc = if b then .setRunning p else .run) (hcur : cur = Function.update m.cur c (some p))

theorem advance_moved (h : m.advance c = some m') :
    ∃ pc, m'.pc = Function.update m.pc c pc ∧ Moved m c pc m'.cur := by
  cases hpc : m.pc c with
  | run => simp [Machine.advance, hpc] at h
  | timerLock =>
    simp only [Machine.advance, hpc, Option.ite_none_left_eq_some] at h
    obtain ⟨-, h⟩ := h
    cases h
    exact ⟨_, rfl, .plain rfl rfl False.elim⟩
  | broadcastLock =>
    simp only [Machine.advance, hpc, Option.ite_none_left_eq_some] at h
    obtain ⟨-, h⟩ := h
    cases h
    exact ⟨_, rfl, .plain rfl rfl False.elim⟩
  | timerCheck =>
    cases hcur : m.cur c with
    | none =>
      simp only [Machine.advance, hpc, hcur, Option.some.injEq] at h
      subst h
      exact ⟨_, rfl, .plain rfl rfl False.elim⟩
    | some p =>
      simp only [Machine.advance, hpc, hcur, Option.some.injEq] at h
      subst h
      refine ⟨_, rfl, .plain rfl ?_ ?_⟩
      · split <;> rfl
      · split <;> exact False.elim
  | timerMark =>
    cases hcur : m.cur c with
    | none => simp [Machine.advance, hpc, hcur] at h
    | some p =>
      simp only [Machine.advance, hpc, hcur, Option.some.injEq] at h
      subst h
      exact ⟨_, rfl, .plain rfl rfl False.elim⟩
  | exitClean =>
    cases hcur : m.cur c with
    | none => simp [Machine.advance, hpc, hcur] at h
    | some p =>
      simp only [Machine.advance, hpc, hcur, Option.some.injEq] at h
      subst h
      exact ⟨_, rfl, .plain rfl rfl fun _ => hpc⟩
  | exitClear =>
    simp only [Machine.advance, hpc, Option.some.injEq] at h
    subst h
    exact ⟨_, rfl, .clear hpc rfl rfl⟩
  | scan b =>
    cases hr : (scanTasks m.ctx).1 with
    | none =>
      simp only [Machine.advance, hpc, hr, Option.some.injEq] at h
      subst h
      refine ⟨_, rfl, .plain rfl ?_ fun he => ?_⟩
      · cases b <;> rfl
      · cases b <;> exact he.elim
    | some p =>
      simp only [Machine.advance, hpc, hr, Option.some.injEq] at h
      subst h
      exact ⟨_, rfl, .scan b p hpc hr rfl rfl⟩
  | claim b p =>
    simp only [Machine.advance, hpc, Option.some.injEq] at h
    subst h
    exact ⟨_, rfl, .claim b p hpc rfl rfl⟩
  | store b p =>
    simp only [Machine.advance, hpc, Option.some.injEq] at h
    subst h
    exact ⟨_, rfl, .store b p hpc rfl rfl⟩
  | setRunning p =>
    simp only [Machine.advance, hpc, Option.some.injEq] at h
    subst h
    exact ⟨_, rfl, .plain rfl rfl False.elim⟩
  | unlock =>
    simp only [Machine.advance, hpc, Option.some.injEq] at h
    subst h
    exact ⟨_, rfl, .plain rfl rfl False.elim⟩

/-- A step of one processor leaves the others where they are. -/
theorem advance_ne (h : m.advance c = some m') (hd : d ≠ c) :
    m'.pc d = m.pc d ∧ m'.cur d = m.cur d := by
  obtain ⟨pc, hpc, hmoved⟩ := advance_moved h
  refine ⟨by rw [hpc, Function.update_of_ne hd], ?_⟩
  cases hmoved with
  | clear _ _ hcur => rw [hcur, Function.update_of_ne hd]
  | store _ _ _ _ hcur => rw [hcur, Function.update_of_ne hd]
  | _ => simp [*]

/-- Only a scan gives a processor a task. -/
theorem mine_advance (h : m.advance c = some m') {q : Nat} (hq : Mine m' c q) :
    Mine m c q ∨ ∃ b, m.pc c = .scan b ∧ (scanTasks m.ctx).1 = some q := by
  obtain ⟨pc, hpc, hmoved⟩ := advance_moved h
  unfold Mine at hq ⊢
  rw [hpc, Function.update_self] at hq
  cases hmoved with
  | plain hcur hpick _ =>
    rw [hcur, hpick] at hq
    exact Or.inl (Or.inl (hq.resolve_right nofun))
  | scan b p hfrom hp hto hcur =>
    rw [hcur, hto] at hq
    exact hq.elim (fun hq => Or.inl (Or.inl hq)) fun hq => Or.inr ⟨b, hfrom, hp.trans hq⟩
  | claim b p hfrom hto hcur =>
    rw [hcur, hto] at hq
    rw [hfrom]
    exact Or.inl hq
  | clear hfrom hto hcur =>
    rw [hcur, Function.update_self, hto] at hq
    rcases hq with hq | hq <;> cases hq
  | store b p hfrom hto hcur =>
    rw [hcur, Function.update_self, hto] at hq
    have hp : p = q := by
      rcases hq with hq | hq
      · exact Option.some.inj hq
      · cases b <;> cases hq
    exact Or.inl (Or.inr (by rw [hfrom, hp]; rfl))

end Machine

theorem scanTasks_candidate {g : TaskCtx} {p : Nat} (h : (scanTasks g).1 = some p) :
    Candidate g p := by
  unfold scanTasks at h
  split at h
  · rename_i q w hs
    obtain rfl := Option.some.inj h
    have hs' : (scanLoop g (List.range taskMaxNums) none false).1 = some q := by rw [hs]
    rcases scanLoop_some hs' with h | ⟨i, -, -, h2⟩
    · cases h
    · exact Or.inl h2
  · rename_i hs
    have hs' : (scanLoop g (List.range taskMaxNums) none false).1 = none := by rw [hs]
    rcases (resetLoop_spec g (List.range taskMaxNums) none).2 p h with h | ⟨-, hw, -⟩
    · cases h
    · refine Or.inr ⟨hw, ?_⟩
      rintro q ⟨i, hi, hq⟩
      exact ((scanLoop_none hs').2 i (List.mem_range.mpr hi) q hq).1
  · unfold idleTask at h
    split at h
    · cases h
    · split at h
      · rename_i hr
        obtain rfl := Option.some.inj h
        exact Or.inl hr
      · cases h

/-! ## The invariant -/

/-- The next task is current, its stack is not loaded. -/
def Phase.Late : Phase → Prop
  | .spinUnlock _ _ | .firstSchedTask _ | .schedTask _ => True
  | _ => False

/-- Where the machine is in a phase, and on which task. -/
def Phase.At (pc : Pc) (cur : Option Nat) : Phase → Prop
  | .entry => True
  | .setTaskEsp0 => pc = .scan true
  | .spinUnlock _ p => pc = .unlock ∧ cur = some p
  | .firstSchedTask p | .schedTask p | .restoreContext p => pc = .run ∧ cur = some p

def Stacks.Late (s : Stacks ι) (c : ι) : Prop := (s.phase c).Late ∨ ∃ p, s.m.pc c = .setRunning p

structure Placed (s : Stacks ι) (c : ι) : Prop where
  own : ∀ q, s.rsp c = some q → s.m.cur c = some q ∨ s.Late c
  exiting : (s.m.pc c).Exiting → s.rsp c = none
  phase : (s.phase c).At (s.m.pc c) (s.m.cur c)

/-- A kernel stack somebody is on belongs to a task nobody else has. -/
structure StackInv (s : Stacks ι) : Prop where
  smp : SmpInv s.m
  esp0 : ∀ p q, s.esp0 p = some q → q = p
  placed : ∀ c, Placed s c
  owner : ∀ c q, s.rsp c = some q → ∀ d, d ≠ c → ¬ Mine s.m d q
  one : OneStack s

section Invariant

variable {s t : Stacks ι} {c : ι}

/-- **Step rule.** A step of processor `c` that takes it to no stack but that of its
current task, and gives it no task whose stack another one is on. -/
theorem StackInv.of_step (hs : StackInv s) (hsmp : SmpInv t.m)
    (hother : ∀ d, d ≠ c → t.rsp d = s.rsp d ∧ t.phase d = s.phase d ∧
      t.m.pc d = s.m.pc d ∧ t.m.cur d = s.m.cur d)
    (hesp0 : ∀ p q, t.esp0 p = some q → q = p) (hplaced : Placed t c)
    (hrsp : ∀ q, t.rsp c = some q → s.rsp c = some q ∨ t.m.cur c = some q)
    (hmine : ∀ q, Mine t.m c q → Mine s.m c q ∨ ∀ d, d ≠ c → s.rsp d ≠ some q) : StackInv t := by
  have hsame : ∀ d, d ≠ c → ∀ q, Mine t.m d q ↔ Mine s.m d q := by
    intro d hd q
    obtain ⟨-, -, h1, h2⟩ := hother d hd
    rw [Mine, Mine, h1, h2]
  have howner : ∀ e q, t.rsp e = some q → ∀ d, d ≠ e → ¬ Mine t.m d q := by
    intro e q he d hd hq
    by_cases hec : e = c
    · subst hec
      rcases hrsp q he with h | h
      · exact hs.owner e q h d hd ((hsame d hd q).mp hq)
      · exact hsmp.not_mine hd hq (Or.inl h)
    · rw [(hother e hec).1] at he
      by_cases hdc : d = c
      · subst hdc
        rcases hmine q hq with h | h
        · exact hs.owner e q he d hd h
        · exact h e hec he
      · exact hs.owner e q he d hd ((hsame d hdc q).mp hq)
  refine ⟨hsmp, hesp0, fun d => ?_, howner, fun d e q hd he => ?_⟩
  · by_cases hd : d = c
    · exact hd ▸ hplaced
    · obtain ⟨h1, h2, h3, h4⟩ := hother d hd
      obtain ⟨h5, h6, h7⟩ := hs.placed d
      refine ⟨fun q hq => ?_, fun he => ?_, ?_⟩
      · rw [Stacks.Late, h2, h3, h4]
        exact h5 q (h1 ▸ hq)
      · rw [h1]
        exact h6 (h3 ▸ he)
      · rw [h2, h3, h4]
        exact h7
  · refine unique_of_step (fun d e => hs.one d e q) (fun d hd h => (hother d hd).1.symm.trans h)
      (fun h d hd hq => ?_) d e hd he
    -- who has just come to a stack is on that of its own task
    rcases hrsp q h with h | h
    · exact hd (hs.one d c q hq h)
    · exact howner d q ((hother d hd).1.trans hq) c hd.symm (Or.inl h)

/-- Nobody is on the stack of the task a step gives to the processor. -/
theorem mine_free {m : Machine ι} (hm : s.m.advance c = some m)
    (hsmp : SmpInv m)
    (hno : ∀ b, s.m.pc c = .scan b → ∀ d, d ≠ c → ∀ q, s.On d q → ¬ Candidate s.m.ctx q)
    {q : Nat} (hq : Mine m c q) : Mine s.m c q ∨ ∀ d, d ≠ c → s.rsp d ≠ some q := by
  refine (mine_advance hm hq).imp_right ?_
  rintro ⟨b, hb, hscan⟩ d hd hrsp
  refine hno b hb d hd q ⟨hrsp, fun hcur => ?_⟩ (scanTasks_candidate hscan)
  rw [← (advance_ne hm hd).2] at hcur
  exact hsmp.not_mine hd (Or.inl hcur) hq

/-- A step of the machine, with what it does to the processor's stack and phase. -/
theorem StackInv.machine (hs : StackInv s) {m : Machine ι} (hm : s.m.advance c = some m)
    (hno : ∀ b, s.m.pc c = .scan b → ∀ d, d ≠ c →
      ¬ Switching s.m d ∧ ∀ q, s.On d q → ¬ Candidate s.m.ctx q)
    (htm : t.m = m) (hother : ∀ d, d ≠ c → t.rsp d = s.rsp d ∧ t.phase d = s.phase d)
    (hesp0 : t.esp0 = s.esp0) (hrsp : t.rsp c = s.rsp c ∨ t.rsp c = none)
    (hplaced : Placed t c) : StackInv t := by
  have hsmp : SmpInv m := advance_inv hs.smp (fun b hb d hd => (hno b hb d hd).1) hm
  refine hs.of_step (htm ▸ hsmp) (fun d hd => ?_) (hesp0 ▸ hs.esp0) hplaced (fun q hq => ?_)
    (fun q hq => ?_)
  · obtain ⟨h1, h2⟩ := hother d hd
    rw [htm]
    exact ⟨h1, h2, advance_ne hm hd⟩
  · rcases hrsp with h | h
    · exact Or.inl (h ▸ hq)
    · rw [h] at hq
      cases hq
  · exact mine_free hm hsmp (fun b hb d hd => (hno b hb d hd).2) (htm ▸ hq)

/-- A step of the processor that the machine takes no part in. -/
theorem StackInv.local (hs : StackInv s) (htm : t.m = s.m)
    (hother : ∀ d, d ≠ c → t.rsp d = s.rsp d ∧ t.phase d = s.phase d)
    (hesp0 : ∀ p q, t.esp0 p = some q → q = p)
    (hrsp : ∀ q, t.rsp c = some q → s.rsp c = some q ∨ s.m.cur c = some q)
    (hplaced : Placed t c) : StackInv t := by
  refine hs.of_step (htm ▸ hs.smp) (fun d hd => ?_) hesp0 hplaced (fun q hq => ?_)
    (fun q hq => Or.inl (htm ▸ hq))
  · obtain ⟨h1, h2⟩ := hother d hd
    exact ⟨h1, h2, by rw [htm], by rw [htm]⟩
  · rw [htm]
    exact hrsp q hq

end Invariant

section Fields

variable (s : Stacks ι) (m : Machine ι) (c : ι) (ph : Phase) (p : Option Nat) (q : Nat) (b : Bool)

@[simp] theorem goto_m : (s.goto m c ph).m = m := rfl
@[simp] theorem goto_rsp : (s.goto m c ph).rsp = s.rsp := rfl
@[simp] theorem goto_esp0 : (s.goto m c ph).esp0 = s.esp0 := rfl
@[simp] theorem goto_phase_self : (s.goto m c ph).phase c = ph := Function.update_self ..

@[simp] theorem goto_phase_ne {d : ι} (h : d ≠ c) : (s.goto m c ph).phase d = s.phase d :=
  Function.update_of_ne h ..

@[simp] theorem setRsp_m : (s.setRsp c p).m = s.m := rfl
@[simp] theorem setRsp_phase : (s.setRsp c p).phase = s.phase := rfl
@[simp] theorem setRsp_esp0 : (s.setRsp c p).esp0 = s.esp0 := rfl
@[simp] theorem setRsp_self : (s.setRsp c p).rsp c = p := Function.update_self ..

@[simp] theorem setRsp_ne {d : ι} (h : d ≠ c) : (s.setRsp c p).rsp d = s.rsp d :=
  Function.update_of_ne h ..

@[simp] theorem setUser_m : (s.setUser c b).m = s.m := rfl
@[simp] theorem setUser_phase : (s.setUser c b).phase = s.phase := rfl
@[simp] theorem setUser_rsp : (s.setUser c b).rsp = s.rsp := rfl
@[simp] theorem setUser_esp0 : (s.setUser c b).esp0 = s.esp0 := rfl

omit [DecidableEq ι] in
@[simp] theorem resetFirst_m : (s.resetFirst q).m = s.m := rfl
omit [DecidableEq ι] in
@[simp] theorem resetFirst_phase : (s.resetFirst q).phase = s.phase := rfl
omit [DecidableEq ι] in
@[simp] theorem resetFirst_rsp : (s.resetFirst q).rsp = s.rsp := rfl
omit [DecidableEq ι] in
@[simp] theorem resetFirst_esp0 : (s.resetFirst q).esp0 = s.esp0 := rfl

end Fields

section Steps

variable {s t : Stacks ι} {c : ι}

/-- `rsp` is loaded from the `esp0` of the current task. -/
theorem StackInv.load (hs : StackInv s) {p : Nat} (hcur : s.m.cur c = some p) (htm : t.m = s.m)
    (hother : ∀ d, d ≠ c → t.rsp d = s.rsp d ∧ t.phase d = s.phase d)
    (hesp0 : ∀ p q, t.esp0 p = some q → q = p) (hrsp : t.rsp c = s.esp0 p)
    (hpc : s.m.pc c = .run) (hat : (t.phase c).At (s.m.pc c) (s.m.cur c)) : StackInv t := by
  have hmine : ∀ q, t.rsp c = some q → s.m.cur c = some q := by
    intro q hq
    rw [hs.esp0 p q (hrsp ▸ hq)]
    exact hcur
  refine hs.local htm hother hesp0 (fun q hq => Or.inr (hmine q hq)) ⟨fun q hq => ?_, ?_, ?_⟩
  · rw [htm]
    exact Or.inl (hmine q hq)
  · rw [htm, hpc]
    exact False.elim
  · rw [htm]
    exact hat

omit [DecidableEq ι] in
theorem not_late (hph : ¬ (s.phase c).Late) (hpc : ∀ p, s.m.pc c ≠ .setRunning p) : ¬ s.Late c := by
  rintro (h | ⟨p, h⟩)
  · exact hph h
  · exact hpc p h

omit [DecidableEq ι] in
/-- Before it has a next task, a processor is on no kernel stack but its current task's. -/
theorem StackInv.on_cur (hs : StackInv s) (hlate : ¬ s.Late c) {q : Nat} (hq : s.rsp c = some q) :
    s.m.cur c = some q := ((hs.placed c).own q hq).resolve_right hlate

/-! ### After the entry -/

theorem setTaskEsp0_inv (hs : StackInv s) (hp : s.phase c = .setTaskEsp0)
    (hst : s.advance c = some t) : StackInv t := by
  cases hcur : s.m.cur c with
  | none => simp [Stacks.advance, hp, hcur] at hst
  | some p =>
    simp only [Stacks.advance, hp, hcur, Option.some.injEq] at hst
    subst hst
    have hpc : s.m.pc c = .scan true := by
      have hat := (hs.placed c).phase
      rwa [hp] at hat
    have hlate : ¬ s.Late c :=
      not_late (by rw [hp]; exact id) fun r hr => by cases hpc.symm.trans hr
    have hmine : ∀ q, s.rsp c = some q → q = p := fun q hq =>
      Option.some.inj ((hs.on_cur hlate hq).symm.trans hcur)
    refine hs.local rfl (fun d hd => ⟨rfl, goto_phase_ne _ _ _ _ hd⟩) (fun r q hr => ?_)
      (fun q hq => Or.inl hq) ⟨fun q hq => ?_, fun he => (hs.placed c).exiting he, ?_⟩
    · by_cases hrp : r = p
      · subst hrp
        exact hmine q (by simpa using hr)
      · exact hs.esp0 r q (by simpa [hrp] using hr)
    · exact Or.inl (hmine q hq ▸ hcur)
    · rw [goto_phase_self]
      trivial

theorem spinUnlock_inv (hs : StackInv s) {first : Bool} {p : Nat}
    (hp : s.phase c = .spinUnlock first p)
    (hst : s.advance c = some t) : StackInv t := by
  simp only [Stacks.advance, hp, Option.map_eq_some_iff] at hst
  obtain ⟨m, hm, rfl⟩ := hst
  have hat := (hs.placed c).phase
  rw [hp] at hat
  obtain ⟨hpc, hcur⟩ := hat
  have hm' : m = { s.m with lock := false }.goto c .run := by
    simpa [Machine.advance, hpc] using hm.symm
  have hlate : (Stacks.loadPhase first p).Late ∧
      (Stacks.loadPhase first p).At (m.pc c) (m.cur c) := by
    rw [hm', goto_pc_self, goto_cur, hcur]
    cases first <;> exact ⟨trivial, rfl, rfl⟩
  refine hs.machine hm (fun b hb => by cases hpc.symm.trans hb) rfl
    (fun d hd => ⟨rfl, goto_phase_ne _ _ _ _ hd⟩) rfl (Or.inl rfl)
    ⟨fun q _ => Or.inr (Or.inl ?_), ?_, ?_⟩
  · rw [goto_phase_self]
    exact hlate.1
  · rw [goto_m, hm', goto_pc_self]
    exact False.elim
  · rw [goto_phase_self]
    exact hlate.2

theorem restoreContext_inv (hs : StackInv s) {p : Nat} (hp : s.phase c = .restoreContext p)
    (hst : s.advance c = some t) : StackInv t := by
  have hat := (hs.placed c).phase
  rw [hp] at hat
  have hlate : ¬ s.Late c :=
    not_late (by rw [hp]; exact id) fun r hr => by cases hat.1.symm.trans hr
  simp only [Stacks.advance, hp] at hst
  split at hst
  · -- to ring 3
    cases hst
    refine hs.local (c := c) rfl (fun d hd => ?_) hs.esp0 (fun q hq => ?_)
      ⟨fun q hq => ?_, fun _ => ?_, ?_⟩
    · simp [hd]
    · simp at hq
    · simp at hq
    · simp
    · rw [goto_phase_self]
      trivial
  · cases hst
    refine hs.local rfl (fun d hd => ?_) hs.esp0 (fun q hq => Or.inl hq)
      ⟨fun q hq => Or.inl (hs.on_cur hlate hq), fun he => (hs.placed c).exiting he, ?_⟩
    · simp [hd]
    · rw [goto_phase_self]
      trivial

/-- The phases after the entry. -/
theorem late_inv (hs : StackInv s) (hph : s.phase c ≠ .entry) (hst : s.advance c = some t) :
    StackInv t := by
  have hat := (hs.placed c).phase
  cases hp : s.phase c with
  | entry => exact absurd hp hph
  | setTaskEsp0 => exact setTaskEsp0_inv hs hp hst
  | spinUnlock first p => exact spinUnlock_inv hs hp hst
  | firstSchedTask p =>
    simp only [Stacks.advance, hp, Option.some.injEq] at hst
    subst hst
    rw [hp] at hat
    refine hs.load hat.2 rfl (fun d hd => ?_) hs.esp0 (by simp) hat.1 ?_
    · simp [hd]
    · rw [goto_phase_self]
      trivial
  | schedTask p =>
    simp only [Stacks.advance, hp, Option.some.injEq] at hst
    subst hst
    rw [hp] at hat
    refine hs.load hat.2 rfl (fun d hd => ?_) hs.esp0 (by simp) hat.1 ?_
    · simp [hd]
    · rw [goto_phase_self]
      exact hat
  | restoreContext p => exact restoreContext_inv hs hp hst

/-! ### The entry -/

/-- A scan on `c` finds no task another processor is switching from or still on. -/
def Stacks.Alone (s : Stacks ι) (c : ι) : Prop :=
  ∀ b, s.m.pc c = .scan b → ∀ d, d ≠ c →
    ¬ Switching s.m d ∧ ∀ q, s.On d q → ¬ Candidate s.m.ctx q

/-- The processor stays on its stack and in the entry. -/
def Pc.Plain : Pc → Prop
  | .exitClean | .setRunning _ | .store false _ => False
  | _ => True

/-- A step of the entry that leaves the stack as it is. -/
theorem plain_inv (hs : StackInv s) (hph : s.phase c = .entry)
    (hno : s.Alone c)
    (hpc : (s.m.pc c).Plain) {m : Machine ι} (hm : s.m.advance c = some m)
    {ph : Phase} (hat : ph.At (m.pc c) (m.cur c)) : StackInv (s.goto m c ph) := by
  have hexit := (hs.placed c).exiting
  obtain ⟨pc, hpc', hmoved⟩ := advance_moved hm
  have hpcc : m.pc c = pc := by rw [hpc', Function.update_self]
  have hlate : ¬ s.Late c := not_late (by rw [hph]; exact id) fun p hp => by
    rw [hp] at hpc
    exact hpc.elim
  refine hs.machine hm hno rfl (fun d hd => ⟨rfl, goto_phase_ne _ _ _ _ hd⟩) rfl (Or.inl rfl)
    ⟨fun q hq => ?_, fun he => ?_, by rwa [goto_phase_self]⟩
  · have hq' : s.rsp c = some q := hq
    rw [goto_m]
    cases hmoved with
    | clear hfrom _ _ =>
      rw [hexit (by rw [hfrom]; trivial)] at hq'
      cases hq'
    | store b p hfrom hto _ =>
      cases b with
      | true => exact Or.inr (Or.inr ⟨p, hpcc.trans hto⟩)
      | false =>
        rw [hfrom] at hpc
        exact hpc.elim
    | plain hcur _ _ => exact Or.inl (hcur ▸ hs.on_cur hlate hq')
    | scan _ _ _ _ _ hcur => exact Or.inl (hcur ▸ hs.on_cur hlate hq')
    | claim _ _ _ _ hcur => exact Or.inl (hcur ▸ hs.on_cur hlate hq')
  · rw [goto_m, hpcc] at he
    apply hexit
    cases hmoved with
    | plain _ _ h =>
      rw [h he] at hpc
      exact hpc.elim
    | scan b p hfrom _ hto _ =>
      rw [hto] at he
      rw [hfrom]
      cases b <;> exact he
    | claim b p hfrom hto _ =>
      rw [hto] at he
      rw [hfrom]
      cases b <;> exact he
    | clear hfrom _ _ =>
      rw [hfrom]
      trivial
    | store b p _ hto _ =>
      rw [hto] at he
      cases b <;> exact he.elim

theorem timerMark_inv (hs : StackInv s) (hph : s.phase c = .entry) (hno : s.Alone c)
    (hp : s.m.pc c = .timerMark) (hst : s.advance c = some t) : StackInv t := by
  simp only [Stacks.advance, hph, hp] at hst
  split at hst
  · -- to the kernel stack of the current task
    cases hst
    refine hs.local (c := c) rfl (fun d hd => ⟨setRsp_ne _ _ _ hd, rfl⟩) hs.esp0 (fun q hq => ?_)
      ⟨fun q hq => ?_, fun he => ?_, ?_⟩
    · exact Or.inr (by simpa using hq)
    · exact Or.inl (by simpa using hq)
    · rw [setRsp_m, hp] at he
      exact he.elim
    · rw [setRsp_phase, hph]
      trivial
  · obtain ⟨m, hm, rfl⟩ := Option.map_eq_some_iff.mp hst
    refine plain_inv hs hph hno (by rw [hp]; trivial) hm ?_
    cases hcur : s.m.cur c with
    | none => simp [Machine.advance, hp, hcur] at hm
    | some p =>
      simp only [Machine.advance, hp, hcur, Option.some.injEq] at hm
      subst hm
      exact goto_pc_self _ _ _

theorem exitClean_inv (hs : StackInv s) (hph : s.phase c = .entry) (hno : s.Alone c)
    (hp : s.m.pc c = .exitClean) (hst : s.advance c = some t) : StackInv t := by
  simp only [Stacks.advance, hph, hp] at hst
  obtain ⟨m, hm, rfl⟩ := Option.map_eq_some_iff.mp hst
  refine hs.machine hm hno rfl (fun d hd => ?_) rfl (Or.inr (by simp))
    ⟨fun q hq => ?_, fun _ => ?_, ?_⟩
  · simp [hd]
  · simp at hq
  · simp
  · rw [goto_phase_self]
    trivial

theorem resetFirst_inv (hs : StackInv s) (hph : s.phase c = .entry) (hno : s.Alone c) {p : Nat}
    (hp : s.m.pc c = .setRunning p) (hst : s.advance c = some t) : StackInv t := by
  simp only [Stacks.advance, hph, hp] at hst
  obtain ⟨m, hm, rfl⟩ := Option.map_eq_some_iff.mp hst
  have hm' : m = { s.m with ctx := setTaskRunning s.m.ctx p }.goto c .unlock := by
    simpa [Machine.advance, hp] using hm.symm
  refine hs.machine hm hno rfl (fun d hd => ?_) rfl (Or.inl rfl) ⟨fun q _ => ?_, fun he => ?_, ?_⟩
  · simp [hd]
  · refine Or.inr (Or.inl ?_)
    rw [goto_phase_self]
    trivial
  · rw [goto_m, hm', goto_pc_self] at he
    exact he.elim
  · rw [goto_phase_self, goto_m, hm', goto_pc_self]
    exact ⟨rfl, hs.smp.setRunning c p hp⟩

/-- The store of `task_exit`, on no task's stack. -/
theorem exitStore_inv (hs : StackInv s) (hph : s.phase c = .entry) (hno : s.Alone c) {p : Nat}
    (hp : s.m.pc c = .store false p) (hst : s.advance c = some t) : StackInv t := by
  simp only [Stacks.advance, hph, hp] at hst
  obtain ⟨m, hm, rfl⟩ := Option.map_eq_some_iff.mp hst
  have hm' : m = (s.m.setCur c (some p)).goto c .run := by
    simpa [Machine.advance, hp] using hm.symm
  have hrsp : s.rsp c = none := (hs.placed c).exiting (by rw [hp]; trivial)
  refine hs.machine hm hno rfl (fun d hd => ?_) rfl (Or.inl rfl) ⟨fun q hq => ?_, fun he => ?_, ?_⟩
  · simp [hd]
  · rw [goto_rsp, resetFirst_rsp, hrsp] at hq
    cases hq
  · rw [goto_m, hm', goto_pc_self] at he
    exact he.elim
  · have hcur : m.cur c = some p := by
      rw [hm']
      exact Function.update_self ..
    rw [goto_phase_self, goto_m, hcur, hm', goto_pc_self, Stacks.loadPhase]
    split <;> exact ⟨rfl, rfl⟩

/-- A step of the entry. -/
theorem entry_inv (hs : StackInv s) (hph : s.phase c = .entry) (hno : s.Alone c)
    (hst : s.advance c = some t) : StackInv t := by
  have hplain : (s.m.pc c).Plain → (s.m.advance c).map (fun m => s.goto m c .entry) = some t →
      StackInv t := by
    intro hpc hadvance
    obtain ⟨m, hm, rfl⟩ := Option.map_eq_some_iff.mp hadvance
    exact plain_inv hs hph hno hpc hm trivial
  have hst' := hst
  simp only [Stacks.advance, hph] at hst'
  cases hp : s.m.pc c with
  | timerMark => exact timerMark_inv hs hph hno hp hst
  | exitClean => exact exitClean_inv hs hph hno hp hst
  | setRunning p => exact resetFirst_inv hs hph hno hp hst
  | store b p =>
    cases b with
    | true =>
      simp only [hp] at hst'
      exact hplain (by rw [hp]; trivial) hst'
    | false => exact exitStore_inv hs hph hno hp hst
  | _ =>
    simp only [hp] at hst'
    exact hplain (by rw [hp]; trivial) hst'

end Steps

/-- An entry begins where the processor was running. -/
theorem begin_inv {s t : Stacks ι} {c : ι} (hs : StackInv s) {a : SmpAct ι}
    (ha : a = .timer c ∨ a = .broadcast c ∨ a = .exit c) (hst : s.begin c a = some t) :
    StackInv t := by
  obtain ⟨hown, hexit, -⟩ := hs.placed c
  simp only [Stacks.begin, Option.ite_none_right_eq_some, Option.map_eq_some_iff] at hst
  obtain ⟨hph, m, hm, rfl⟩ := hst
  have hno : NoOverlap s.m a m := by
    rintro d b rfl
    rcases ha with h | h | h <;> cases h
  have hsmp : SmpInv m := smpInv_step s.m a m hs.smp hno hm
  -- the machine is where it was, or at the start of an entry
  have hmove : m = s.m ∨
      (s.m.pc c = .run ∧ ∃ pc, m = s.m.goto c pc ∧ pc.pick = none ∧ ¬ pc.Exiting) := by
    rcases ha with rfl | rfl | rfl
    · simp only [Machine.next, Option.ite_none_right_eq_some, Option.some.injEq] at hm
      exact Or.inr ⟨hm.1, _, hm.2.symm, rfl, id⟩
    · simp only [Machine.next, Option.ite_none_right_eq_some] at hm
      obtain ⟨hpc, hm⟩ := hm
      split at hm
      · cases hm
        exact Or.inr ⟨hpc, _, rfl, rfl, id⟩
      · cases hm
        exact Or.inl rfl
    · simp only [Machine.next, Option.ite_none_right_eq_some, Option.some.injEq] at hm
      exact Or.inr ⟨hm.1.1, _, hm.2.symm, rfl, id⟩
  rcases hmove with rfl | ⟨hpc, pc, rfl, hpick, hexit'⟩
  · refine hs.local (c := c) rfl (fun d hd => ⟨rfl, goto_phase_ne _ _ _ _ hd⟩) hs.esp0
      (fun q hq => Or.inl hq) ⟨fun q hq => (hown q hq).imp_right ?_, hexit, ?_⟩
    · rintro (h | h)
      · rw [hph] at h
        exact h.elim
      · exact Or.inr h
    · rw [goto_phase_self]
      trivial
  · refine hs.of_step hsmp (fun d hd => ⟨rfl, goto_phase_ne _ _ _ _ hd, goto_pc_ne _ _ hd, rfl⟩)
      hs.esp0 ⟨fun q hq => ?_, fun he => ?_, ?_⟩ (fun q hq => Or.inl hq) (fun q hq => Or.inl ?_)
    · exact Or.inl (hs.on_cur
        (not_late (by rw [hph]; exact id) fun p hp => by cases hpc.symm.trans hp) hq)
    · rw [goto_m, goto_pc_self] at he
      exact absurd he hexit'
    · rw [goto_phase_self]
      trivial
    · refine hq.imp_right fun hq => ?_
      rw [goto_m, goto_pc_self, hpick] at hq
      cases hq

theorem stackInv_step (s : Stacks ι) (a : StackAct ι) (t : Stacks ι) (hs : StackInv s)
    (hno : Apart s a t) (hst : stackStep s a t) : StackInv t := by
  simp only [stackStep, stepOf] at hst
  cases a with
  | step c =>
    by_cases hph : s.phase c = .entry
    · exact entry_inv hs hph (fun b hb d hd => hno c b rfl hph hb d hd) hst
    · exact late_inv hs hph hst
  | timer c => exact begin_inv hs (Or.inl rfl) hst
  | broadcast c => exact begin_inv hs (Or.inr (Or.inl rfl)) hst
  | exit c =>
    simp only [Stacks.next, Option.ite_none_left_eq_some] at hst
    exact begin_inv hs (Or.inr (Or.inr rfl)) hst.2
  | syscall c =>
    simp only [Stacks.next, Option.ite_none_right_eq_some, Option.some.injEq] at hst
    obtain ⟨-, rfl⟩ := hst
    obtain ⟨hown, hexit, hat⟩ := hs.placed c
    exact hs.local (c := c) rfl (fun _ _ => ⟨rfl, rfl⟩) hs.esp0 (fun q hq => Or.inl hq)
      ⟨hown, hexit, hat⟩
  | userState c =>
    simp only [Stacks.next, Option.ite_none_right_eq_some, Option.some.injEq] at hst
    obtain ⟨⟨hph, -⟩, rfl⟩ := hst
    refine hs.local (c := c) rfl (fun d hd => ?_) hs.esp0 (fun q hq => ?_)
      ⟨fun q hq => ?_, fun _ => ?_, ?_⟩
    · simp [hd]
    · simp at hq
    · simp at hq
    · simp
    · exact (hs.placed c).phase

/-! ## Runs -/

/-- Every processor runs, on the kernel stack of its current task if on that of any
task, and the saved stacks are the tasks' own. -/
structure StackStart (s : Stacks ι) : Prop where
  m : Start s.m
  phase : ∀ c, s.phase c = .entry
  rsp : ∀ c q, s.rsp c = some q → s.m.cur c = some q
  esp0 : ∀ p q, s.esp0 p = some q → q = p

omit [DecidableEq ι] in
theorem stackInv_start {s : Stacks ι} (h : StackStart s) : StackInv s := by
  have hsmp := smpInv_start h.m
  refine ⟨hsmp, h.esp0, fun c => ⟨fun q hq => Or.inl (h.rsp c q hq), fun he => ?_, ?_⟩,
    fun c q hq d hd hm => hsmp.not_mine hd hm (Or.inl (h.rsp c q hq)),
    fun c d p hc hd => h.m.distinct c d p (h.rsp c p hc) (h.rsp d p hd)⟩
  · rw [h.m.pc] at he
    exact he.elim
  · rw [h.phase]
    trivial

/-- **Stack safety.** For any number of processors and any interleaving in which a
table is scanned only apart from the switches of others, no reachable state has two
processors on the kernel stack of one task. -/
theorem oneStack_of_apart {s t : Stacks ι} (hs : StackStart s) {as : List (StackAct ι)}
    (hno : Every stackStep Apart s as) (hr : Run stackStep s as t) : OneStack t :=
  (run_inv stackInv_step (stackInv_start hs) hno hr).one

/-- The two processors of `sample` on the stacks of their tasks; the third task has not
run yet. -/
def sampleStacks : Stacks (Fin 2) where
  m := sample
  phase _ := .entry
  user _ := false
  rsp c := some (0x1000 + c)
  esp0 p := some p
  cross _ := false
  first p := p = 0x1002

theorem sampleStacks_start : StackStart sampleStacks :=
  ⟨sample_start, fun _ => rfl, fun _ _ hq => hq, fun _ _ hq => (Option.some.inj hq).symm⟩

/-- A tick that switches, up to the release of the lock. -/
def sampleSwitch (c : Fin 2) : List (StackAct (Fin 2)) := .timer c :: List.replicate 9 (.step c)

/-- The first processor has released the lock and is still on the stack of the task it
left; the second makes that task ready again, picks it and loads its stack. -/
theorem oneStack_sample_fails :
    StackStart sampleStacks ∧
      ∃ t, Run stackStep sampleStacks (sampleSwitch 0 ++ sampleSwitch 1 ++ [.step 1]) t ∧
        ¬ OneStack t := by
  refine ⟨sampleStacks_start, ?_⟩
  have hrsp : (exec Stacks.next sampleStacks (sampleSwitch 0 ++ sampleSwitch 1 ++ [.step 1])).map
      (fun t => (t.rsp 0, t.rsp 1)) = some (some 0x1000, some 0x1000) := by decide +kernel
  obtain ⟨t, ht, hrsp⟩ := Option.map_eq_some_iff.mp hrsp
  obtain ⟨h0, h1⟩ := Prod.mk.inj hrsp
  exact ⟨t, run_of_exec ht, fun hone => absurd (hone 0 1 _ h0 h1) (by decide)⟩

/-- `Apart`, by a check that looks at no candidate. -/
def checkApart (s : Stacks (Fin 2)) : StackAct (Fin 2) → Bool
  | .step c => checkOverlap s.m (.step c) &&
    (List.finRange 2).all fun d => d = c || (s.rsp d = none || s.m.cur d = s.rsp d)
  | _ => true

theorem apart_of_check (s : Stacks (Fin 2)) (a : StackAct (Fin 2)) (t : Stacks (Fin 2))
    (h : checkApart s a = true) : Apart s a t := by
  rintro c b rfl - hpc d hd
  obtain ⟨h1, h2⟩ := Bool.and_eq_true_iff.mp h
  refine ⟨noOverlap_of_check s.m (.step c) s.m h1 c b rfl hpc d hd, fun q hq => ?_⟩
  have hd' : s.rsp d = none ∨ s.m.cur d = s.rsp d := by
    have hcheck := List.all_eq_true.mp h2 d (List.mem_finRange d)
    simpa [hd] using hcheck
  rcases hd' with h3 | h3
  · rw [hq.1] at h3
    cases h3
  · exact absurd (h3.trans hq.1) hq.2

/-- The second processor's tick comes when the first has loaded its new stack. -/
theorem oneStack_sample_holds :
    ∃ t, exec Stacks.next sampleStacks
      (sampleSwitch 0 ++ [.step 0] ++ sampleSwitch 1 ++ [.step 1]) =
      some t ∧ OneStack t := by
  obtain ⟨t, ht⟩ := Option.isSome_iff_exists.mp (show (exec Stacks.next sampleStacks
    (sampleSwitch 0 ++ [.step 0] ++ sampleSwitch 1 ++ [.step 1])).isSome from by decide +kernel)
  exact ⟨t, ht, oneStack_of_apart sampleStacks_start
    (every_of_check apart_of_check (by decide +kernel)) (run_of_exec ht)⟩

end X64SmpOs.Smp

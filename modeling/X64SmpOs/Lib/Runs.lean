import Mathlib.Data.List.Induction
import Mathlib.Order.Basic

/-!
# Runs of a labelled transition system

A system is a relation `step s a t`: action `a` takes state `s` to state `t`.

* `Run step s as t`: the actions `as`, taken in order, lead from `s` to `t`;
* `Every step P s as`: `P` holds of every step taken along `as` from `s`;
* `run_inv`: an invariant kept by every step that meets a condition holds
  after every run whose steps all meet it;
* `run_history`: the same for an invariant that speaks of the actions taken;
* `every_of_inv`: the property such steps have at every step of such a run;
* `every_iff`, `every_iff_within`: two step properties that agree on the
  invariant's states hold along the same runs;
* `unique_of_step`: a step of one party, and what at most one party has;
* `exec`: a step function run on a list, with `run_of_exec`, `every_of_check`
  and `every_at` to read a concrete trace as a run.
-/

namespace X64SmpOs.Runs

universe u v
variable {σ : Type u} {α : Type v} {step : σ → α → σ → Prop}

/-- The actions of a list, taken in order, lead from the first state to the last. -/
def Run (step : σ → α → σ → Prop) : σ → List α → σ → Prop
  | s, [], t => s = t
  | s, a :: as, t => ∃ u, step s a u ∧ Run step u as t

/-- `P` holds of every step taken along the list. -/
def Every (step P : σ → α → σ → Prop) : σ → List α → Prop
  | _, [] => True
  | s, a :: as => ∀ t, step s a t → P s a t ∧ Every step P t as

theorem run_append (s : σ) (as bs : List α) (t : σ) :
    Run step s (as ++ bs) t ↔ ∃ u, Run step s as u ∧ Run step u bs t := by
  induction as generalizing s with
  | nil => simp [Run]
  | cons a as ih =>
    simp only [List.cons_append, Run, ih]
    constructor
    · rintro ⟨u, hu, w, hw, ht⟩
      exact ⟨w, ⟨u, hu, hw⟩, ht⟩
    · rintro ⟨w, ⟨u, hu, hw⟩, ht⟩
      exact ⟨u, hu, w, hw, ht⟩

theorem every_and {P Q : σ → α → σ → Prop} {s : σ} {as : List α} (hp : Every step P s as)
    (hq : Every step Q s as) : Every step (fun s a t => P s a t ∧ Q s a t) s as := by
  induction as generalizing s with
  | nil => trivial
  | cons a as ih =>
    intro t ht
    obtain ⟨h1, h2⟩ := hp t ht
    obtain ⟨h3, h4⟩ := hq t ht
    exact ⟨⟨h1, h3⟩, ih h2 h4⟩

/-- What the steps of the listed actions have, the run has. -/
theorem every_of_mem {P : σ → α → σ → Prop} {as : List α}
    (h : ∀ a ∈ as, ∀ s t, step s a t → P s a t) (s : σ) : Every step P s as := by
  induction as generalizing s with
  | nil => trivial
  | cons a as ih =>
    exact fun t ht => ⟨h a List.mem_cons_self s t ht,
      ih (fun b hb => h b (List.mem_cons_of_mem _ hb)) t⟩

/-- What every step has, every run has. -/
theorem every_of_step {P : σ → α → σ → Prop} (h : ∀ s a t, step s a t → P s a t) (s : σ)
    (as : List α) : Every step P s as :=
  every_of_mem (fun a _ s t => h s a t) s

/-- **Run rule.** An invariant kept by every step that meets `C` holds after
every run whose steps all meet `C`. -/
theorem run_inv {I : σ → Prop} {C : σ → α → σ → Prop}
    (hstep : ∀ s a t, I s → C s a t → step s a t → I t)
    {s t : σ} {as : List α} (hs : I s) (hc : Every step C s as) (hr : Run step s as t) : I t := by
  induction as generalizing s with
  | nil => exact hr ▸ hs
  | cons a as ih =>
    obtain ⟨u, hu, hr⟩ := hr
    obtain ⟨h1, h2⟩ := hc u hu
    exact ih (hstep s a u hs h1 hu) h2 hr

/-- The run rule with no condition on the steps. -/
theorem run_inv' {I : σ → Prop} (hstep : ∀ s a t, I s → step s a t → I t)
    {s t : σ} {as : List α} (hs : I s) (hr : Run step s as t) : I t := by
  induction as generalizing s with
  | nil => exact hr ▸ hs
  | cons a as ih =>
    obtain ⟨u, hu, hr⟩ := hr
    exact ih (hstep s a u hs hu) hr

/-- **Safety rule.** If `C`-steps keep the invariant and have `P`, then a run whose
steps all meet `C` has `P` at every step. -/
theorem every_of_inv {I : σ → Prop} {P C : σ → α → σ → Prop}
    (hstep : ∀ s a t, I s → C s a t → step s a t → I t ∧ P s a t)
    {s : σ} {as : List α} (hs : I s) (hc : Every step C s as) : Every step P s as := by
  induction as generalizing s with
  | nil => trivial
  | cons a as ih =>
    intro t ht
    obtain ⟨h1, h2⟩ := hc t ht
    obtain ⟨hi, hp⟩ := hstep s a t hs h1 ht
    exact ⟨hp, ih hi h2⟩

/-- **Step properties along runs.** If `C`-steps keep the invariant, and on the
invariant's states a step has `P` exactly when it has `C`, then a run has `P`
at every step exactly when it has `C` at every step. -/
theorem every_iff {I : σ → Prop} {P C : σ → α → σ → Prop}
    (hstep : ∀ s a t, I s → C s a t → step s a t → I t)
    (hiff : ∀ s a t, I s → step s a t → (P s a t ↔ C s a t))
    {s : σ} (hs : I s) (as : List α) : Every step P s as ↔ Every step C s as := by
  induction as generalizing s with
  | nil => exact Iff.rfl
  | cons a as ih =>
    constructor
    · intro h t ht
      obtain ⟨h1, h2⟩ := h t ht
      have hc := (hiff s a t hs ht).mp h1
      exact ⟨hc, (ih (hstep s a t hs hc ht)).mp h2⟩
    · intro h t ht
      obtain ⟨hc, h2⟩ := h t ht
      exact ⟨(hiff s a t hs ht).mpr hc, (ih (hstep s a t hs hc ht)).mpr h2⟩

/-- The same for runs whose steps all meet a condition that keeps the invariant. -/
theorem every_iff_within {I : σ → Prop} {N P C : σ → α → σ → Prop}
    (hstep : ∀ s a t, I s → N s a t → step s a t → I t)
    (hiff : ∀ s a t, I s → step s a t → (P s a t ↔ C s a t))
    {s : σ} (hs : I s) {as : List α} (hn : Every step N s as) :
    Every step P s as ↔ Every step C s as := by
  induction as generalizing s with
  | nil => exact Iff.rfl
  | cons a as ih =>
    refine forall_congr' fun t => imp_congr_right fun ht => ?_
    obtain ⟨h1, h2⟩ := hn t ht
    exact and_congr (hiff s a t hs ht) (ih (hstep s a t hs h1 ht) h2)

/-- A step of `c`. Another party that has it had it before, and `c` has it only if no
other party had it. -/
theorem unique_of_step {ι : Type u} {c : ι} {H H' : ι → Prop} (h : ∀ d e, H d → H e → d = e)
    (hother : ∀ d, d ≠ c → H' d → H d) (hc : H' c → ∀ d, d ≠ c → ¬ H d) :
    ∀ d e, H' d → H' e → d = e := by
  intro d e hd he
  rcases eq_or_ne d c with rfl | hdc
  · rcases eq_or_ne e d with rfl | hed
    · rfl
    · exact absurd (hother e hed he) (hc hd e hed)
  · rcases eq_or_ne e c with rfl | hec
    · exact absurd (hother d hdc hd) (hc he d hdc)
    · exact h d e (hother d hdc hd) (hother e hec he)

/-- Run a step function; `none` when an action is not enabled. -/
def exec (next : σ → α → Option σ) : σ → List α → Option σ
  | s, [] => some s
  | s, a :: as =>
    match next s a with
    | none => none
    | some t => exec next t as

/-- The relation of a step function. -/
def stepOf (next : σ → α → Option σ) (s : σ) (a : α) (t : σ) : Prop := next s a = some t

theorem run_of_exec {next : σ → α → Option σ} {s t : σ} {as : List α}
    (h : exec next s as = some t) : Run (stepOf next) s as t := by
  induction as generalizing s with
  | nil => simpa [exec, Run] using h
  | cons a as ih =>
    unfold exec at h
    cases hn : next s a with
    | none => simp [hn] at h
    | some u =>
      simp only [hn] at h
      exact ⟨u, hn, ih h⟩

/-- A step property, read off the states a concrete run goes through by a check
of state and action. -/
theorem every_of_check {next : σ → α → Option σ} {P : σ → α → σ → Prop} {check : σ → α → Bool}
    (hp : ∀ t a u, check t a = true → P t a u) {s : σ} {as : List α}
    (h : ∀ k < as.length, (exec next s (as.take k)).all (fun t => (as[k]?).all (check t)) = true) :
    Every (stepOf next) P s as := by
  induction as generalizing s with
  | nil => trivial
  | cons a as ih =>
    intro u hu
    have hu' : next s a = some u := hu
    refine ⟨hp s a u (by simpa [exec] using h 0 (by simp)), ih fun k hk => ?_⟩
    simpa only [List.take_succ_cons, exec, hu', List.getElem?_cons_succ] using
      h (k + 1) (by simpa using hk)

/-- A step property of a run, at a step the run reaches. -/
theorem every_at {next : σ → α → Option σ} {P : σ → α → σ → Prop} {s t u : σ} {as bs : List α}
    {a : α} (h : Every (stepOf next) P s (as ++ a :: bs)) (ht : exec next s as = some t)
    (hu : next t a = some u) : P t a u := by
  induction as generalizing s with
  | nil =>
    obtain rfl := Option.some.inj ht
    exact (h u hu).1
  | cons b as ih =>
    unfold exec at ht
    cases hn : next s b with
    | none => simp [hn] at ht
    | some v =>
      simp only [hn] at ht
      exact ih (h v hn).2 ht

end X64SmpOs.Runs

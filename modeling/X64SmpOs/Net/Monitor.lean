import X64SmpOs.Net.Endpoint

/-!
# The monitor thread

* `Answered`: for a frame the monitor waits for no thread that never posts it,
  and a data segment of a standing connection is answered by one ACK;
* `answered_iff_noData`: a run is answered exactly when no data segment comes
  while the connection stands;
* `blocked_after_data`, `monitor_returns`: what that means for the thread: after
  such a segment no frame is ever taken again, and without a wait the monitor
  finishes and has sent what it had to.
-/

namespace X64SmpOs.Net

open Memory Runs

/-- The control segments the operations send before a wait that nobody ends. -/
def controls (posts : ThreadName → Bool) : List MonOp → List (BitVec 8)
  | [] => []
  | .sleep w :: ops => if posts w then controls posts ops else []
  | .sendControl flag :: ops => flag :: controls posts ops
  | _ :: ops => controls posts ops

/-- What the monitor is left to do for a frame. -/
structure Answered (posts : ThreadName → Bool) (s : Endpoint) (a : Act) (t : Endpoint) : Prop where
  waits : ∀ f, a = .frame f → ∀ w, .sleep w ∈ t.monitor → posts w = true
  acks : ∀ f, a = .frame f → DataSegment s.inet f → s.inet.tcpStatus = .connected →
    controls posts t.monitor = [tcpAck]

def NoData (s : Endpoint) (a : Act) (_ : Endpoint) : Prop :=
  ∀ f, a = .frame f → DataSegment s.inet f → s.inet.tcpStatus ≠ .connected

theorem answered_step_iff {s t : Endpoint} {a : Act} (h : step postsMonitor s a t) :
    Answered postsMonitor s a t ↔ NoData s a t := by
  cases moves_of_step h with
  | @frame f _ keep eff =>
    constructor
    · rintro hans _ ⟨⟩ hdata hst
      cases eff with
      | data _ _ hmon =>
        rw [if_pos hst] at hmon
        have hwait := hans.waits f rfl .tcpDataRecvHandle (by simp [hmon, nstWaitByName])
        cases hwait
      | synAck hsyn => exact hsyn.not_data hdata
      | other hno => exact hno hdata
    · intro hno
      constructor
      · rintro _ ⟨⟩ w hw
        cases eff with
        | data hdata _ hmon =>
          rw [if_neg (hno f rfl hdata)] at hmon
          simp [hmon] at hw
        | synAck _ _ _ hmon => simp [hmon] at hw
        | other _ _ _ hmon =>
          obtain ⟨name, hname, -⟩ := hmon _ hw
          cases hname
      · rintro _ ⟨⟩ hdata hst
        exact absurd hst (hno f rfl hdata)
  | _ => exact iff_of_true ⟨nofun, nofun⟩ nofun

/-- **The monitor's own waits.** From any state of the threads, for every stream
of frames. -/
theorem answered_iff_noData (s : Endpoint) (as : List Act) :
    Every (step postsMonitor) (Answered postsMonitor) s as ↔
      Every (step postsMonitor) NoData s as :=
  every_iff (I := fun _ => True) (fun _ _ _ _ _ _ => trivial)
    (fun _ _ _ _ hst => answered_step_iff hst) trivial as

/-- A byte of data on the connection that stands. -/
theorem answered_sample_fails :
    ∃ t, Run (step postsMonitor) sampleStart sampleHandshake t ∧
      ¬ Every (step postsMonitor) (Answered postsMonitor) t [.frame sampleData] := by
  have hst : (exec (Endpoint.next postsMonitor) sampleStart sampleHandshake).map
      (fun t => (t.inet.tcpStatus, decide (DataSegment t.inet sampleData),
        (t.frame sampleData).isSome)) = some (.connected, true, true) := by decide +kernel
  obtain ⟨t, ht, hst⟩ := Option.map_eq_some_iff.mp hst
  obtain ⟨hconn, hdata, hsome⟩ : t.inet.tcpStatus = .connected ∧ DataSegment t.inet sampleData ∧
      (t.frame sampleData).isSome = true := by simpa using hst
  obtain ⟨u, hu⟩ := Option.isSome_iff_exists.mp hsome
  refine ⟨t, run_of_exec ht, fun h => ?_⟩
  have hstep : step postsMonitor t (.frame sampleData) u := hu
  exact (answered_step_iff hstep).mp (h u hu).1 _ rfl hdata hconn

/-! ## Blocking and returning -/

/-- In the wait for `w`, and not posted; `ops` comes after it. -/
def Blocked (w : ThreadName) (ops : List MonOp) (s : Endpoint) : Prop :=
  s.monitor = nstWaitByName w ++ ops ∨
    (s.threads.bePosted .monitorHandle = false ∧
      (s.monitor = .enter w :: .sleep w :: ops ∨ s.monitor = .sleep w :: ops))

/-- No routine posts the monitor. -/
theorem blocked_step {w : ThreadName} {ops : List MonOp} (s : Endpoint) (a : Act) (t : Endpoint)
    (hs : Blocked w ops s) (h : step postsMonitor s a t) : Blocked w ops t := by
  have hsame : t.monitor = s.monitor →
      t.threads.bePosted .monitorHandle = s.threads.bePosted .monitorHandle → Blocked w ops t := by
    intro hmon hposted
    rw [Blocked, hmon, hposted]
    exact hs
  cases moves_of_step h with
  | frame keep =>
    rw [Blocked, keep.idle] at hs
    simp [nstWaitByName] at hs
  | monPost head | monSend head =>
    rw [Blocked, head] at hs
    simp [nstWaitByName] at hs
  | monClear head =>
    rw [Blocked, head] at hs
    rcases hs with hs | ⟨-, hs | hs⟩
    · exact Or.inr ⟨Threads.clear_bePosted_self _ _, Or.inl (List.cons.inj hs).2⟩
    · cases hs
    · cases hs
  | monEnter head =>
    rw [Blocked, head] at hs
    rcases hs with hs | ⟨hposted, hs | hs⟩
    · cases hs
    · exact Or.inr ⟨hposted, Or.inr (List.cons.inj hs).2⟩
    · cases hs
  | monSleep head posted =>
    rw [Blocked, head] at hs
    rcases hs with hs | ⟨hposted, -⟩
    · cases hs
    · exact absurd (posted.symm.trans hposted) nofun
  | clear | sleep | command => exact hsame rfl (Threads.clear_bePosted_ne _ nofun)
  | @wake w waker => cases w <;> cases waker
  | _ => exact hsame rfl rfl

/-- **Blocked for good.** After a data segment on a standing connection the
monitor takes no frame and its ACK stays unsent, whatever the others do. -/
theorem blocked_after_data {s t u : Endpoint} {f : Frame} {as : List Act}
    (hdata : DataSegment s.inet f) (hst : s.inet.tcpStatus = .connected)
    (h : step postsMonitor s (.frame f) t) (hr : Run (step postsMonitor) t as u) :
    .sendControl tcpAck ∈ u.monitor ∧ ∀ g v, ¬ step postsMonitor u (.frame g) v := by
  have ht : Blocked .tcpDataRecvHandle [.sendControl tcpAck] t := by
    cases moves_of_step h with
    | frame _ eff =>
      cases eff with
      | data _ _ hmon =>
        rw [if_pos hst] at hmon
        exact Or.inl hmon
      | synAck hsyn => exact absurd hdata hsyn.not_data
      | other hno => exact absurd hdata hno
  have hu := run_inv' blocked_step ht hr
  have hmem : .sendControl tcpAck ∈ u.monitor := by
    rcases hu with hu | ⟨-, hu | hu⟩ <;> simp [hu, nstWaitByName]
  refine ⟨hmem, fun g v hg => ?_⟩
  cases moves_of_step hg with
  | frame keep =>
    rw [keep.idle] at hmem
    exact absurd hmem List.not_mem_nil

/-- **Returning.** Operations that do not sleep are done by the monitor alone,
and their control segments are then on the wire. -/
theorem monitor_returns (posts : ThreadName → Bool) (s : Endpoint)
    (hops : ∀ w, .sleep w ∉ s.monitor) :
    ∃ t, Run (step posts) s (List.replicate s.monitor.length .monitor) t ∧ t.monitor = [] ∧
      t.inet = s.inet ∧
      t.wire = ((controls posts s.monitor).map (tcpSendControl s.inet)).reverse ++ s.wire := by
  induction hmon : s.monitor generalizing s with
  | nil => exact ⟨s, rfl, hmon, rfl, by simp [controls]⟩
  | cons op ops ih =>
    rw [hmon] at hops
    have hrest : ∀ w, .sleep w ∉ ops := fun w hw => hops w (List.mem_cons_of_mem op hw)
    cases op with
    | sleep w => exact absurd (List.mem_cons_self ..) (hops w)
    | sendControl flag =>
      obtain ⟨t, hr, h1, h2, h3⟩ := ih { s with
        monitor := ops
        wire := tcpSendControl s.inet flag :: s.wire } hrest rfl
      refine ⟨t, ⟨_, ?_, hr⟩, h1, h2, ?_⟩
      · simp [step, stepOf, Endpoint.next, Endpoint.monitorStep, hmon]
      · simp [h3, controls]
    | post name =>
      obtain ⟨t, hr, h1, h2, h3⟩ := ih { s with
        monitor := ops
        threads := s.threads.post .monitorHandle name } hrest rfl
      refine ⟨t, ⟨_, ?_, hr⟩, h1, h2, h3⟩
      simp [step, stepOf, Endpoint.next, Endpoint.monitorStep, hmon]
    | clear =>
      obtain ⟨t, hr, h1, h2, h3⟩ := ih { s with
        monitor := ops
        threads := s.threads.clear .monitorHandle } hrest rfl
      refine ⟨t, ⟨_, ?_, hr⟩, h1, h2, h3⟩
      simp [step, stepOf, Endpoint.next, Endpoint.monitorStep, hmon]
    | enter w =>
      obtain ⟨t, hr, h1, h2, h3⟩ := ih { s with
        monitor := ops
        threads := s.threads.enter .monitorHandle w } hrest rfl
      refine ⟨t, ⟨_, ?_, hr⟩, h1, h2, h3⟩
      simp [step, stepOf, Endpoint.next, Endpoint.monitorStep, hmon]

end X64SmpOs.Net

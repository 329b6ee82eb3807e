import X64SmpOs.Net.Endpoint

/-!
# Wakeups of the connecting thread

* `Lost`: the SYN+ACK has been dealt with, the connecting thread waits or is
  about to wait, and no post is left to wake it;
* `InTime`: a SYN+ACK comes after the status is stored, and its post after the
  connecting thread has entered the monitor's table;
* `WakeInv`: which stages, marks and posts go together;
* `not_lost_iff_inTime`: no wakeup is lost in a run exactly when every SYN+ACK
  and every post of it is in time.
-/

namespace X64SmpOs.Net

open Memory Runs

/-- The thread is in `nst_wait_by_name`, or on the way to it, and not posted. -/
def Conn.waits (posted : Bool) : Conn → Bool
  | .hand1 | .clear | .enter => true
  | .sleep => !posted
  | _ => false

def Waiting (s : Endpoint) : Prop :=
  s.conn.waits (s.threads.bePosted .tcpConnectHandle) = true

def PostLeft (s : Endpoint) : Prop := .post .tcpConnectHandle ∈ s.monitor

structure Lost (s : Endpoint) : Prop where
  synAcked : s.hist.synAcked = true
  waiting : Waiting s
  noPost : ¬ PostLeft s

structure InTime (s : Endpoint) (a : Act) (_ : Endpoint) : Prop where
  frame : ∀ f, a = .frame f → SynAck s.inet f → s.conn ≠ .hand1
  post : a = .monitor → s.monitor.head? = some (.post .tcpConnectHandle) →
    s.threads.waitThis .monitorHandle .tcpConnectHandle = true

/-! ## The invariant -/

structure WakeInv (s : Endpoint) : Prop where
  conn : ConnOk s.conn s.inet.tcpStatus
  entered : s.conn = .enter → s.threads.bePosted .tcpConnectHandle = false
  posted : s.conn = .sleep → s.threads.bePosted .tcpConnectHandle = true →
    s.inet.tcpStatus = .hand2
  test : s.conn = .test → s.inet.tcpStatus = .hand2
  done : s.conn = .done → s.inet.tcpStatus = .connected
  registered : s.threads.waitThis .monitorHandle .tcpConnectHandle = true →
    s.conn = .sleep ∧ s.threads.bePosted .tcpConnectHandle = false
  acked : s.inet.tcpStatus = .hand2 → s.hist.synAcked = true
  pending : PostLeft s →
    s.inet.tcpStatus = .hand2 ∧ s.monitor = [.post .tcpConnectHandle] ∧ Waiting s
  live : ¬ Lost s

theorem wakeInv_start {s : Endpoint} (h : Start s) : WakeInv s where
  conn := by
    rw [h.conn, h.status]
    exact Or.inl rfl
  entered hc := by
    rw [h.conn] at hc
    cases hc
  posted hc := by
    rw [h.conn] at hc
    cases hc
  test hc := by
    rw [h.conn] at hc
    cases hc
  done hc := by
    rw [h.conn] at hc
    cases hc
  registered hw := by
    rw [h.waitThis] at hw
    cases hw
  acked hst := by
    rw [h.status] at hst
    cases hst
  pending hp := by
    rw [PostLeft, h.monitor] at hp
    cases hp
  live hl := by
    have hw := hl.synAcked
    rw [h.synAcked] at hw
    cases hw

section Steps

variable {s t : Endpoint}

theorem WakeInv.no_post (hs : WakeInv s) (h : ¬ Waiting s) : ¬ PostLeft s :=
  fun hp => h (hs.pending hp).2.2

theorem WakeInv.not_registered (hs : WakeInv s) (h : s.conn ≠ .sleep) :
    s.threads.waitThis .monitorHandle .tcpConnectHandle = false := by
  by_contra hw
  exact h (hs.registered (by simpa using hw)).1

/-- The status says that the SYN+ACK is still to come. -/
theorem WakeInv.waiting_of_hand1 (hs : WakeInv s)
    (hst : s.inet.tcpStatus = .hand1) : Waiting s := by
  have hconn := hs.conn
  rw [hst] at hconn
  unfold Waiting
  cases hc : s.conn with
  | hand1 | clear | enter => rfl
  | sleep =>
    cases hp : s.threads.bePosted .tcpConnectHandle with
    | false => rfl
    | true => exact absurd (hst.symm.trans (hs.posted hc hp)) nofun
  | test => exact absurd (hst.symm.trans (hs.test hc)) nofun
  | done => exact absurd (hst.symm.trans (hs.done hc)) nofun
  | idle =>
    rw [hc] at hconn
    exact absurd hconn (by simp [ConnOk])
  | syn | third | connected =>
    rw [hc] at hconn
    cases hconn

/-- Past the store of the status, a SYN+ACK is either still to come or noted. -/
theorem WakeInv.synAcked_of_waiting (hs : WakeInv s) (hw : Waiting s) (hc : s.conn ≠ .hand1)
    (hst : s.inet.tcpStatus ≠ .hand1) : s.hist.synAcked = true := by
  have hconn := hs.conn
  unfold Waiting at hw
  apply hs.acked
  cases hc' : s.conn with
  | hand1 => exact absurd hc' hc
  | clear | enter | sleep =>
    rw [hc'] at hconn
    exact hconn.resolve_left hst
  | _ =>
    rw [hc'] at hw
    cases hw

/-- A step of another thread that leaves the handshake alone. -/
theorem WakeInv.of_same (hs : WakeInv s) (hconn : t.conn = s.conn)
    (hst : t.inet.tcpStatus = s.inet.tcpStatus)
    (hack : s.hist.synAcked = true → t.hist.synAcked = true)
    (hback : t.hist.synAcked = true → Waiting s → s.hist.synAcked = true)
    (hposted : t.threads.bePosted .tcpConnectHandle = s.threads.bePosted .tcpConnectHandle)
    (hwait : t.threads.waitThis .monitorHandle .tcpConnectHandle =
      s.threads.waitThis .monitorHandle .tcpConnectHandle)
    (hmon : t.monitor = s.monitor ∨ (¬ PostLeft s ∧ ¬ PostLeft t)) : WakeInv t := by
  have hw : Waiting t ↔ Waiting s := by rw [Waiting, Waiting, hconn, hposted]
  refine ⟨?_, ?_, ?_, ?_, ?_, ?_, ?_, fun hp => ?_, fun hl => ?_⟩
  · rw [hconn, hst]
    exact hs.conn
  · rw [hconn, hposted]
    exact hs.entered
  · rw [hconn, hst, hposted]
    exact hs.posted
  · rw [hconn, hst]
    exact hs.test
  · rw [hconn, hst]
    exact hs.done
  · rw [hconn, hposted, hwait]
    exact hs.registered
  · rw [hst]
    exact fun h => hack (hs.acked h)
  · rcases hmon with hmon | ⟨-, hno⟩
    · rw [PostLeft, hmon] at hp
      rw [hst, hmon, hw]
      exact hs.pending hp
    · exact absurd hp hno
  · have hwait := hw.mp hl.waiting
    refine hs.live ⟨hback hl.synAcked hwait, hwait, ?_⟩
    rcases hmon with hmon | ⟨hno, -⟩
    · rw [PostLeft, ← hmon]
      exact hl.noPost
    · exact hno

/-- The first operation of the monitor is the post, or none is left. -/
theorem WakeInv.no_post_of_head (hs : WakeInv s) {op : MonOp} {ops : List MonOp}
    (hhead : s.monitor = op :: ops) (hne : op ≠ .post .tcpConnectHandle) :
    ¬ PostLeft s ∧ .post .tcpConnectHandle ∉ ops := by
  have hno : ¬ PostLeft s := by
    intro hp
    have hmon := (hs.pending hp).2.1
    rw [hhead] at hmon
    exact hne (List.cons.inj hmon).1
  refine ⟨hno, fun hmem => hno ?_⟩
  rw [PostLeft, hhead]
  exact List.mem_cons_of_mem op hmem

theorem wakeInv_frame {f : Frame} (hs : WakeInv s) (hkeep : FrameKeeps s t)
    (heff : FrameEffect s f t) (hc : ConnOk t.conn t.inet.tcpStatus)
    (hin : SynAck s.inet f → s.conn ≠ .hand1) : WakeInv t := by
  have hno : ¬ PostLeft s := by
    rw [PostLeft, hkeep.idle]
    exact List.not_mem_nil
  have hw : Waiting t ↔ Waiting s := by rw [Waiting, Waiting, hkeep.conn, hkeep.threads]
  cases heff with
  | synAck seg hst htcp hmon hsegs hack =>
    have hst' : t.inet.tcpStatus = .hand2 := congrArg (·.2.2) htcp
    have hwait := hw.mpr (hs.waiting_of_hand1 hst)
    refine ⟨hc, ?_, fun _ _ => hst', fun _ => hst', fun hd => ?_, ?_, fun _ => hack,
      fun _ => ⟨hst', hmon, hwait⟩, fun hl => hl.noPost ?_⟩
    · rw [hkeep.conn, hkeep.threads]
      exact hs.entered
    · rw [hkeep.conn] at hd
      exact absurd (hst.symm.trans (hs.done hd)) nofun
    · rw [hkeep.conn, hkeep.threads]
      exact hs.registered
    · rw [PostLeft, hmon]
      exact List.mem_singleton_self _
  | data seg htcp hmon hsegs hack =>
    refine hs.of_same hkeep.conn (congrArg (·.2.2) htcp) (fun h => hack ▸ h) (fun h _ => hack ▸ h)
      (by rw [hkeep.threads]) (by rw [hkeep.threads]) (Or.inr ⟨hno, ?_⟩)
    rw [PostLeft, hmon]
    split <;> simp [nstWaitByName]
  | other _ hsyn htcp hmon hsegs hack =>
    refine hs.of_same hkeep.conn (congrArg (·.2.2) htcp) (fun h => by simp [hack, h])
      (fun h hwait => ?_)
      (by rw [hkeep.threads]) (by rw [hkeep.threads]) (Or.inr ⟨hno, fun hp => ?_⟩)
    · by_cases hseg : SynAck s.inet f
      · exact hs.synAcked_of_waiting hwait (hin hseg) fun hst => hsyn ⟨hseg, hst⟩
      · simpa [hack, hseg] using h
    · obtain ⟨name, hname, hne⟩ := hmon _ hp
      exact hne (MonOp.post.inj hname).symm

/-- The monitor posts a thread that has entered the table, or does something else. -/
theorem wakeInv_monitor (hs : WakeInv s) (hin : InTime s .monitor t)
    (h : s.monitorStep = some t) : WakeInv t := by
  obtain ⟨hkeep, heff⟩ := monitor_cases (c := .tcpConnectHandle) nofun h
  cases heff with
  | posted head threads =>
    have hreg := hin.post rfl (by rw [head]; rfl)
    have hp : PostLeft s := by
      rw [PostLeft, head]
      exact List.mem_cons_self ..
    obtain ⟨hst, hmon, -⟩ := hs.pending hp
    have hconn : t.conn = .sleep := hkeep.conn.trans (hs.registered hreg).1
    have hst' : t.inet.tcpStatus = .hand2 := by rw [hkeep.inet, hst]
    have hops : t.monitor = [] := (List.cons.inj (head.symm.trans hmon)).2
    have hposted := Threads.post_bePosted_self hreg
    have hwait := Threads.post_waitThis_self s.threads .monitorHandle .tcpConnectHandle
    rw [← threads] at hposted hwait
    refine ⟨?_, fun he => ?_, fun _ _ => hst', fun _ => hst', fun hd => ?_, fun hw => ?_,
      fun _ => ?_, fun hp' => ?_, fun hl => ?_⟩
    · rw [hkeep.conn, hkeep.inet]
      exact hs.conn
    · exact absurd (hconn.symm.trans he) nofun
    · exact absurd (hconn.symm.trans hd) nofun
    · exact absurd (hwait.symm.trans hw) nofun
    · rw [hkeep.hist]
      exact hs.acked hst
    · rw [PostLeft, hops] at hp'
      exact absurd hp' List.not_mem_nil
    · have hw := hl.waiting
      rw [Waiting, hconn, hposted] at hw
      cases hw
  | other head notPost bePosted waitThis =>
    refine hs.of_same hkeep.conn (by rw [hkeep.inet]) (fun hack => by rw [hkeep.hist, hack])
      (fun hack _ => ?_) bePosted waitThis (Or.inr (hs.no_post_of_head head notPost))
    rw [← hkeep.hist, hack]

/-- A step of the connecting thread or of `main` to a stage that is not waiting
and not checked for its outcome. -/
theorem wakeInv_awake {conn : Conn} {inet : Inet} {threads : Threads ThreadName}
    {wire : List (List Byte)} {hist : History} (hc : ConnOk conn inet.tcpStatus)
    (hfree : ∀ posted, conn.waits posted = false)
    (htest : conn = .test → inet.tcpStatus = .hand2)
    (hdone : conn = .done → inet.tcpStatus = .connected)
    (hack : inet.tcpStatus = .hand2 → hist.synAcked = true)
    (hwait : threads.waitThis .monitorHandle .tcpConnectHandle = false) (hno : ¬ PostLeft s) :
    WakeInv { s with conn, inet, threads, wire, hist } := by
  refine ⟨hc, fun he => ?_, fun he => ?_, htest, hdone, fun hw => ?_, hack, fun hp => absurd hp hno,
    fun hl => ?_⟩
  · have h := hfree false
    rw [show conn = .enter from he] at h
    cases h
  · have h := hfree false
    rw [show conn = .sleep from he] at h
    cases h
  · exact absurd (hwait.symm.trans hw) nofun
  · have hw := hl.waiting
    rw [Waiting, hfree] at hw
    cases hw

/-- A step of the connecting thread that stays on the way into the wait. -/
theorem wakeInv_waiting {conn : Conn} {inet : Inet} {threads : Threads ThreadName}
    (hs : WakeInv s) (hw : Waiting s) (hc : ConnOk conn inet.tcpStatus)
    (hconn : conn.waits (threads.bePosted .tcpConnectHandle) = true)
    (hst : PostLeft s → inet.tcpStatus = .hand2)
    (hentered : conn = .enter → threads.bePosted .tcpConnectHandle = false)
    (hack : inet.tcpStatus = .hand2 → s.hist.synAcked = true)
    (hwait : threads.waitThis .monitorHandle .tcpConnectHandle = true → conn = .sleep ∧
      threads.bePosted .tcpConnectHandle = false) :
    WakeInv { s with conn, inet, threads } := by
  refine ⟨hc, hentered, fun he hp => ?_, fun he => ?_, fun he => ?_, hwait, hack,
    fun hp => ⟨hst hp, (hs.pending hp).2.1, hconn⟩, fun hl => hs.live ⟨hl.synAcked, hw, hl.noPost⟩⟩
  · rw [show conn = .sleep from he, show threads.bePosted .tcpConnectHandle = true from hp] at hconn
    cases hconn
  · rw [show conn = .test from he] at hconn
    cases hconn
  · rw [show conn = .done from he] at hconn
    cases hconn

/-- **Step lemma.** -/
theorem wakeInv_step {posts : ThreadName → Bool} {a : Act} (hs : WakeInv s) (hin : InTime s a t)
    (h : step posts s a t) : WakeInv t := by
  have hc := connOk_step hs.conn h
  have hconn := hs.conn
  -- a stage that is not waiting has no post to come
  have hno : ∀ c, s.conn = c → (∀ posted, c.waits posted = false) → ¬ PostLeft s := by
    rintro c rfl hfree
    exact hs.no_post (by rw [Waiting, hfree]; nofun)
  cases moves_of_step h with
  | @frame f _ keep eff => exact wakeInv_frame hs keep eff hc (hin.frame f rfl)
  | monPost | monClear | monEnter | monSleep | monSend => exact wakeInv_monitor hs hin h
  | syn conn =>
    rw [conn] at hconn
    have hreg := hs.not_registered (by rw [conn]; nofun)
    refine ⟨hc, nofun, nofun, nofun, nofun, fun hw => absurd (hreg.symm.trans hw) nofun,
      fun hst => absurd (hconn.symm.trans hst) nofun, fun hp => ?_, fun hl => nomatch hl.synAcked⟩
    exact absurd hp (hno _ conn fun _ => rfl)
  | hand1 conn =>
    rw [conn] at hconn
    refine wakeInv_waiting hs (by rw [Waiting, conn]; rfl) hc rfl (fun hp => ?_) nofun nofun
      (fun hw => ?_)
    · exact absurd (hconn.symm.trans (hs.pending hp).1) nofun
    · exact absurd ((hs.not_registered (by rw [conn]; nofun)).symm.trans hw) nofun
  | clear conn =>
    refine wakeInv_waiting hs (by rw [Waiting, conn]; rfl) hc rfl (fun hp => (hs.pending hp).1)
      (fun _ => Threads.clear_bePosted_self _ _) hs.acked (fun hw => ?_)
    exact absurd ((hs.not_registered (by rw [conn]; nofun)).symm.trans hw) nofun
  | enter conn =>
    have hposted := hs.entered conn
    refine wakeInv_waiting hs (by rw [Waiting, conn]; rfl) hc ?_ (fun hp => (hs.pending hp).1) nofun
      hs.acked (fun _ => ⟨rfl, hposted⟩)
    rw [Threads.enter_bePosted, hposted]
    rfl
  | sleep conn posted =>
    have hw : ¬ Waiting s := by
      rw [Waiting, conn, posted]
      nofun
    refine wakeInv_awake hc (fun _ => rfl) (fun _ => hs.posted conn posted) nofun hs.acked ?_
      (hs.no_post hw)
    by_contra hreg
    have hreg' := (hs.registered (by simpa using hreg)).2
    exact absurd (posted.symm.trans hreg') nofun
  | testPass conn status =>
    exact wakeInv_awake hc (fun _ => rfl) nofun nofun hs.acked
      (hs.not_registered (by rw [conn]; nofun)) (hno _ conn fun _ => rfl)
  | testFail conn status => exact absurd (hs.test conn) status
  | third conn =>
    exact wakeInv_awake hc (fun _ => rfl) nofun nofun hs.acked
      (hs.not_registered (by rw [conn]; nofun)) (hno _ conn fun _ => rfl)
  | connected conn =>
    exact wakeInv_awake hc (fun _ => rfl) nofun (fun _ => rfl) nofun
      (hs.not_registered (by rw [conn]; nofun)) (hno _ conn fun _ => rfl)
  | again => exact hs
  | command conn =>
    exact wakeInv_awake hc (fun _ => rfl) nofun nofun hs.acked
      (hs.not_registered (by rw [conn]; nofun)) (hno _ conn fun _ => rfl)
  | success conn =>
    exact wakeInv_awake hc (fun _ => rfl) nofun nofun hs.acked
      (hs.not_registered (by rw [conn]; nofun)) (hno _ conn fun _ => rfl)
  | failure conn status => exact absurd (hs.done conn) status
  | send => exact hs.of_same rfl rfl id (fun h _ => h) rfl rfl (Or.inl rfl)
  | wake =>
    exact hs.of_same rfl rfl id (fun h _ => h) (Threads.post_bePosted_ne _ _ nofun)
      (Threads.post_waitThis_ne _ _ _ nofun) (Or.inl rfl)

/-- A SYN+ACK before the status is stored is lost, and so is a post that does not
find the thread in the table. -/
theorem inTime_of_not_lost {posts : ThreadName → Bool} {a : Act} (hs : WakeInv s)
    (h : step posts s a t) (hlive : ¬ Lost t) : InTime s a t := by
  constructor
  · rintro f rfl hseg hc
    apply hlive
    have hconn := hs.conn
    rw [hc] at hconn
    cases moves_of_step h with
    | frame keep eff =>
      have hwait : Waiting t := by
        rw [Waiting, keep.conn, hc]
        rfl
      cases eff with
      | synAck _ hst => exact absurd (hconn.symm.trans hst) nofun
      | data hdata => exact absurd hdata hseg.not_data
      | other _ _ _ hmon _ hack =>
        refine ⟨by simp [hack, hseg], hwait, fun hp => ?_⟩
        obtain ⟨name, hname, hne⟩ := hmon _ hp
        exact hne (MonOp.post.inj hname).symm
  · rintro rfl hhead
    by_contra hreg
    apply hlive
    have hp : PostLeft s := List.mem_of_mem_head? hhead
    obtain ⟨hst, hmon, hw⟩ := hs.pending hp
    obtain ⟨hkeep, heff⟩ := monitor_cases (c := .tcpConnectHandle) nofun h
    cases heff with
    | posted head threads =>
      rw [Threads.post_of_not (by simpa using hreg)] at threads
      refine ⟨?_, ?_, ?_⟩
      · rw [hkeep.hist]
        exact hs.acked hst
      · rw [Waiting, hkeep.conn, threads]
        exact hw
      · rw [PostLeft, (List.cons.inj (head.symm.trans hmon)).2]
        exact List.not_mem_nil
    | other head notPost =>
      rw [head] at hhead
      exact absurd (Option.some.inj hhead) notPost

end Steps

/-- **No lost wakeup.** For every interleaving of the connecting thread, the
monitor and `main`, and every stream of frames. -/
theorem not_lost_iff_inTime (posts : ThreadName → Bool) {s : Endpoint} (hs : Start s)
    (as : List Act) :
    Every (step posts) (fun _ _ t => ¬ Lost t) s as ↔ Every (step posts) InTime s as :=
  every_iff (I := WakeInv) (fun _ _ _ hi hin hst => wakeInv_step hi hin hst)
    (fun _ _ _ hi hst => ⟨inTime_of_not_lost hi hst, fun hin => (wakeInv_step hi hin hst).live⟩)
    (wakeInv_start hs) as

/-- The SYN+ACK and its post come before the connecting thread has entered the
table. -/
theorem not_lost_sample_fails :
    Start sampleStart ∧ ¬ Every (step postsMonitor) (fun _ _ t => ¬ Lost t) sampleStart
      ([.command, .connect, .connect, .frame sampleSynAck] ++ [.monitor]) := by
  refine ⟨sample_start_ok, fun h => ?_⟩
  have hlost : ((exec (Endpoint.next postsMonitor) sampleStart
      [.command, .connect, .connect, .frame sampleSynAck]).bind (·.monitorStep)).map
        (fun t => (t.hist.synAcked, t.conn, t.monitor)) = some (true, .clear, []) := by
    decide +kernel
  obtain ⟨u, hu, hlost⟩ := Option.map_eq_some_iff.mp hlost
  obtain ⟨t, ht, hu⟩ := Option.bind_eq_some_iff.mp hu
  obtain ⟨hack, hconn, hmon⟩ : u.hist.synAcked = true ∧ u.conn = .clear ∧ u.monitor = [] := by
    simpa using hlost
  refine every_at h ht hu ⟨hack, ?_, ?_⟩
  · rw [Waiting, hconn]
    rfl
  · rw [PostLeft, hmon]
    exact List.not_mem_nil

/-- `InTime`, evaluated. -/
def checkInTime (s : Endpoint) : Act → Bool
  | .frame f => !decide (SynAck s.inet f) || s.conn ≠ .hand1
  | .monitor => s.monitor.head? ≠ some (.post .tcpConnectHandle) ||
      s.threads.waitThis .monitorHandle .tcpConnectHandle
  | _ => true

theorem inTime_of_check (s : Endpoint) (a : Act) (t : Endpoint) (h : checkInTime s a = true) :
    InTime s a t := by
  constructor
  · rintro f rfl hseg
    simpa [checkInTime, hseg] using h
  · rintro rfl hhead
    simpa [checkInTime, hhead] using h

/-- The handshake in which both are in time. -/
theorem not_lost_sample_holds :
    Every (step postsMonitor) (fun _ _ t => ¬ Lost t) sampleStart sampleHandshake :=
  (not_lost_iff_inTime postsMonitor sample_start_ok _).mpr
    (every_of_check inTime_of_check (by decide +kernel))

end X64SmpOs.Net

import X64SmpOs.Lib.Runs
import X64SmpOs.Net.Recv
import X64SmpOs.Net.Thread

/-!
# The endpoint

Three threads work on `g_inet_info`: `main` reads commands, `tcp_connect_handle`
makes the handshake, and `monitor_handle` calls `packet_recv` for one frame
after the other. A step is a handler's update of `g_inet_info`, a hold of a
mutex, or a call that sends; steps of different threads interleave freely.

* `Endpoint`, `Act`, `Endpoint.next`: the state and its steps. `posts w` tells
  whether the routine of thread `w` contains `nst_post_by_name("monitor_handle")`;
* `History`: what a property of a run speaks about, read by no step;
* `frame_cases`: the three things a frame can do;
* `monitor_cases`: an operation of the monitor as another thread sees it;
* `Start`, `ConnOk`: where each stage of the handshake can be.
-/

namespace X64SmpOs.Net

open Memory Runs

/-- Where `tcp_connect_handle` stands; `idle` when `main` has not created it,
`done` when it has returned and `main` is about to look at the outcome. -/
inductive Conn
  | idle
  | syn
  | hand1
  | clear
  | enter
  | sleep
  | test
  | third
  | connected
  | done
  deriving DecidableEq, Repr

/-- Since the last `tcp_init_seq`: its number, the data segments received, the
payload bytes sent; and whether a SYN+ACK came after the last SYN. -/
structure History where
  iss : BitVec 32
  segs : Nat
  bytes : Nat
  synAcked : Bool

/-- `monitor` is what `packet_recv` has still to do for its frame; `wire` holds
the packets sent, the last one first. -/
structure Endpoint where
  inet : Inet
  threads : Threads ThreadName
  monitor : List MonOp
  conn : Conn
  wire : List (List Byte)
  hist : History

inductive Act
  /-- `pcap_loop` hands a frame to `packet_recv`. -/
  | frame (f : Frame)
  | monitor
  | connect
  /-- `tcpconect` is typed. -/
  | command
  /-- `nst_destroy` has joined `tcp_connect_handle`. -/
  | join (rand : BitVec 32)
  /-- `tcpsend` is typed. -/
  | send (data : List Byte)
  /-- Another thread executes `nst_post_by_name("monitor_handle")`. -/
  | wake (w : ThreadName)

namespace Endpoint

/-- The next frame is taken when the last one is dealt with. -/
def frame (s : Endpoint) (f : Frame) : Option Endpoint :=
  match s.monitor with
  | _ :: _ => none
  | [] =>
    let r := packetRecv s.inet f
    some { s with
      inet := r.inet
      monitor := r.ops
      hist := { s.hist with
        segs := if DataSegment s.inet f then s.hist.segs + 1 else s.hist.segs
        synAcked := s.hist.synAcked || decide (SynAck s.inet f) } }

def monitorStep (s : Endpoint) : Option Endpoint :=
  match s.monitor with
  | [] => none
  | .post name :: ops =>
    some { s with monitor := ops, threads := s.threads.post .monitorHandle name }
  | .clear :: ops => some { s with monitor := ops, threads := s.threads.clear .monitorHandle }
  | .enter w :: ops => some { s with monitor := ops, threads := s.threads.enter .monitorHandle w }
  | .sleep _ :: ops =>
    (s.threads.leave .monitorHandle).map fun threads => { s with monitor := ops, threads }
  | .sendControl flag :: ops =>
    some { s with monitor := ops, wire := tcpSendControl s.inet flag :: s.wire }

/-- A step of `tcp_connect_handle`. -/
def connectStep (s : Endpoint) : Option Endpoint :=
  match s.conn with
  | .idle => none
  | .syn =>
    some { s with
      conn := .hand1
      wire := tcpSendControl s.inet tcpSyn :: s.wire
      hist := { s.hist with synAcked := false } }
  | .hand1 => some { s with conn := .clear, inet := { s.inet with tcpStatus := .hand1 } }
  | .clear => some { s with conn := .enter, threads := s.threads.clear .tcpConnectHandle }
  | .enter =>
    some { s with conn := .sleep, threads := s.threads.enter .tcpConnectHandle .monitorHandle }
  | .sleep =>
    (s.threads.leave .tcpConnectHandle).map fun threads => { s with conn := .test, threads }
  | .test => some { s with conn := if s.inet.tcpStatus = .hand2 then .third else .done }
  | .third => some { s with conn := .connected, wire := tcpSendControl s.inet tcpAck :: s.wire }
  | .connected => some { s with conn := .done, inet := { s.inet with tcpStatus := .connected } }
  | .done => none

/-- `nst_create` clears `be_posted` of the new thread. -/
def command (s : Endpoint) : Option Endpoint :=
  if s.conn = .idle then
    if s.inet.tcpStatus = .connected then some s
    else some { s with conn := .syn, threads := s.threads.clear .tcpConnectHandle }
  else none

def join (s : Endpoint) (rand : BitVec 32) : Option Endpoint :=
  if s.conn = .done then
    if s.inet.tcpStatus = .connected then some { s with conn := .idle }
    else some { s with
      conn := .idle
      inet := tcpInitSeq rand s.inet
      hist := { s.hist with iss := rand, segs := 0, bytes := 0 } }
  else none

/-- Nothing is sent unless the endpoint is connected. -/
def sendData (s : Endpoint) (data : List Byte) : Option Endpoint :=
  if s.conn = .idle ∧ s.inet.tcpStatus = .connected then
    some { s with
      wire := tcpSend s.inet data :: s.wire
      hist := { s.hist with bytes := s.hist.bytes + data.length } }
  else none

def next (posts : ThreadName → Bool) (s : Endpoint) : Act → Option Endpoint
  | .frame f => s.frame f
  | .monitor => s.monitorStep
  | .connect => s.connectStep
  | .command => s.command
  | .join rand => s.join rand
  | .send data => s.sendData data
  | .wake w => if posts w then some { s with threads := s.threads.post w .monitorHandle } else none

end Endpoint

def step (posts : ThreadName → Bool) : Endpoint → Act → Endpoint → Prop :=
  stepOf (Endpoint.next posts)

/-- No routine of the program contains `nst_post_by_name("monitor_handle")`. -/
def postsMonitor : ThreadName → Bool
  | .monitorHandle => false
  | .icmpReqHandle => false
  | .udpRecvHandle => false
  | .tcpDataRecvHandle => false
  | .tcpConnectHandle => false

/-! ## What a step does -/

/-- What a frame leaves alone. -/
structure FrameKeeps (s t : Endpoint) : Prop where
  idle : s.monitor = []
  threads : t.threads = s.threads
  conn : t.conn = s.conn
  wire : t.wire = s.wire
  iss : t.hist.iss = s.hist.iss
  bytes : t.hist.bytes = s.hist.bytes

/-- A frame is a SYN+ACK that is waited for, a data segment, or neither. -/
inductive FrameEffect (s : Endpoint) (f : Frame) (t : Endpoint) : Prop
  | synAck (seg : SynAck s.inet f) (status : s.inet.tcpStatus = .hand1)
      (tcp : t.inet.tcp = (s.inet.seqNum + 1, f.sequenceNum + 1, .hand2))
      (monitor : t.monitor = [.post .tcpConnectHandle])
      (segs : t.hist.segs = s.hist.segs) (synAcked : t.hist.synAcked = true)
  | data (seg : DataSegment s.inet f)
      (tcp : t.inet.tcp = (s.inet.seqNum + 1, f.sequenceNum + BitVec.ofNat 32 f.tcpDataLen,
        s.inet.tcpStatus))
      (monitor : t.monitor = (if s.inet.tcpStatus = .connected then
        nstWaitByName .tcpDataRecvHandle else []) ++ [.sendControl tcpAck])
      (segs : t.hist.segs = s.hist.segs + 1) (synAcked : t.hist.synAcked = s.hist.synAcked)
  | other (notData : ¬ DataSegment s.inet f)
      (notSyn : ¬ (SynAck s.inet f ∧ s.inet.tcpStatus = .hand1)) (tcp : t.inet.tcp = s.inet.tcp)
      (monitor : ∀ op ∈ t.monitor, ∃ name, op = .post name ∧ name ≠ .tcpConnectHandle)
      (segs : t.hist.segs = s.hist.segs)
      (synAcked : t.hist.synAcked = (s.hist.synAcked || decide (SynAck s.inet f)))

/-- **Frame rule.** -/
theorem frame_cases {s t : Endpoint} {f : Frame} (h : s.frame f = some t) :
    FrameKeeps s t ∧ FrameEffect s f t := by
  unfold Endpoint.frame at h
  split at h
  · cases h
  · rename_i hmon
    obtain rfl := Option.some.inj h
    refine ⟨⟨hmon, rfl, rfl, rfl, rfl, rfl⟩, ?_⟩
    by_cases hdata : DataSegment s.inet f
    · obtain ⟨h1, h2⟩ := packetRecv_data hdata
      have hsyn : ¬ SynAck s.inet f := fun hsyn => hsyn.not_data hdata
      exact .data hdata (by rw [h1]; rfl) h2 (if_pos hdata) (by simp [hsyn])
    · by_cases hsyn : SynAck s.inet f ∧ s.inet.tcpStatus = .hand1
      · obtain ⟨h1, h2⟩ := packetRecv_synAck hsyn.1 hsyn.2
        exact .synAck hsyn.1 hsyn.2 (by rw [h1]; rfl) h2 (if_neg hdata) (by simp [hsyn.1])
      · obtain ⟨h1, h2⟩ := packetRecv_other hdata hsyn
        exact .other hdata hsyn h1 h2 (if_neg hdata) rfl

/-- All that a step can do. -/
inductive Moves (posts : ThreadName → Bool) (s : Endpoint) : Act → Endpoint → Prop
  | frame {f : Frame} {t : Endpoint} (keep : FrameKeeps s t) (eff : FrameEffect s f t) :
      Moves posts s (.frame f) t
  | monPost {name : ThreadName} {ops : List MonOp} (head : s.monitor = .post name :: ops) :
      Moves posts s .monitor
        { s with monitor := ops, threads := s.threads.post .monitorHandle name }
  | monClear {ops : List MonOp} (head : s.monitor = .clear :: ops) :
      Moves posts s .monitor { s with monitor := ops, threads := s.threads.clear .monitorHandle }
  | monEnter {w : ThreadName} {ops : List MonOp} (head : s.monitor = .enter w :: ops) :
      Moves posts s .monitor
        { s with monitor := ops, threads := s.threads.enter .monitorHandle w }
  | monSleep {w : ThreadName} {ops : List MonOp} (head : s.monitor = .sleep w :: ops)
      (posted : s.threads.bePosted .monitorHandle = true) :
      Moves posts s .monitor { s with monitor := ops, threads := s.threads.clear .monitorHandle }
  | monSend {flag : BitVec 8} {ops : List MonOp} (head : s.monitor = .sendControl flag :: ops) :
      Moves posts s .monitor
        { s with monitor := ops, wire := tcpSendControl s.inet flag :: s.wire }
  | syn (conn : s.conn = .syn) :
      Moves posts s .connect
        { s with
          conn := .hand1
          wire := tcpSendControl s.inet tcpSyn :: s.wire
          hist := { s.hist with synAcked := false } }
  | hand1 (conn : s.conn = .hand1) :
      Moves posts s .connect { s with conn := .clear, inet := { s.inet with tcpStatus := .hand1 } }
  | clear (conn : s.conn = .clear) :
      Moves posts s .connect
        { s with conn := .enter, threads := s.threads.clear .tcpConnectHandle }
  | enter (conn : s.conn = .enter) :
      Moves posts s .connect
        { s with conn := .sleep, threads := s.threads.enter .tcpConnectHandle .monitorHandle }
  | sleep (conn : s.conn = .sleep) (posted : s.threads.bePosted .tcpConnectHandle = true) :
      Moves posts s .connect { s with conn := .test, threads := s.threads.clear .tcpConnectHandle }
  | testPass (conn : s.conn = .test) (status : s.inet.tcpStatus = .hand2) :
      Moves posts s .connect { s with conn := .third }
  | testFail (conn : s.conn = .test) (status : s.inet.tcpStatus ≠ .hand2) :
      Moves posts s .connect { s with conn := .done }
  | third (conn : s.conn = .third) :
      Moves posts s .connect
        { s with conn := .connected, wire := tcpSendControl s.inet tcpAck :: s.wire }
  | connected (conn : s.conn = .connected) :
      Moves posts s .connect
        { s with conn := .done, inet := { s.inet with tcpStatus := .connected } }
  | again (conn : s.conn = .idle) (status : s.inet.tcpStatus = .connected) :
      Moves posts s .command s
  | command (conn : s.conn = .idle) (status : s.inet.tcpStatus ≠ .connected) :
      Moves posts s .command { s with conn := .syn, threads := s.threads.clear .tcpConnectHandle }
  | success {rand : BitVec 32} (conn : s.conn = .done) (status : s.inet.tcpStatus = .connected) :
      Moves posts s (.join rand) { s with conn := .idle }
  | failure {rand : BitVec 32} (conn : s.conn = .done) (status : s.inet.tcpStatus ≠ .connected) :
      Moves posts s (.join rand)
        { s with
          conn := .idle
          inet := tcpInitSeq rand s.inet
          hist := { s.hist with iss := rand, segs := 0, bytes := 0 } }
  | send {data : List Byte} (conn : s.conn = .idle) (status : s.inet.tcpStatus = .connected) :
      Moves posts s (.send data)
        { s with
          wire := tcpSend s.inet data :: s.wire
          hist := { s.hist with bytes := s.hist.bytes + data.length } }
  | wake {w : ThreadName} (waker : posts w = true) :
      Moves posts s (.wake w) { s with threads := s.threads.post w .monitorHandle }

theorem moves_monitor {posts : ThreadName → Bool} {s t : Endpoint} (h : s.monitorStep = some t) :
    Moves posts s .monitor t := by
  unfold Endpoint.monitorStep at h
  split at h <;> rename_i hmon
  · cases h
  · exact Option.some.inj h ▸ .monPost hmon
  · exact Option.some.inj h ▸ .monClear hmon
  · exact Option.some.inj h ▸ .monEnter hmon
  · obtain ⟨threads, hleave, rfl⟩ := Option.map_eq_some_iff.mp h
    obtain ⟨hposted, rfl⟩ := Threads.leave_eq_some.mp hleave
    exact .monSleep hmon hposted
  · exact Option.some.inj h ▸ .monSend hmon

theorem moves_connect {posts : ThreadName → Bool} {s t : Endpoint} (h : s.connectStep = some t) :
    Moves posts s .connect t := by
  unfold Endpoint.connectStep at h
  split at h <;> rename_i hconn
  · cases h
  · exact Option.some.inj h ▸ .syn hconn
  · exact Option.some.inj h ▸ .hand1 hconn
  · exact Option.some.inj h ▸ .clear hconn
  · exact Option.some.inj h ▸ .enter hconn
  · obtain ⟨threads, hleave, rfl⟩ := Option.map_eq_some_iff.mp h
    obtain ⟨hposted, rfl⟩ := Threads.leave_eq_some.mp hleave
    exact .sleep hconn hposted
  · by_cases hst : s.inet.tcpStatus = .hand2
    · rw [if_pos hst] at h
      exact Option.some.inj h ▸ .testPass hconn hst
    · rw [if_neg hst] at h
      exact Option.some.inj h ▸ .testFail hconn hst
  · exact Option.some.inj h ▸ .third hconn
  · exact Option.some.inj h ▸ .connected hconn
  · cases h

/-- **Step rule.** -/
theorem moves_of_step {posts : ThreadName → Bool} {s t : Endpoint} {a : Act}
    (h : step posts s a t) : Moves posts s a t := by
  simp only [step, stepOf, Endpoint.next] at h
  cases a with
  | frame f =>
    obtain ⟨hkeep, heff⟩ := frame_cases h
    exact .frame hkeep heff
  | monitor => exact moves_monitor h
  | connect => exact moves_connect h
  | command =>
    unfold Endpoint.command at h
    split_ifs at h with hconn hst
    · exact Option.some.inj h ▸ .again hconn hst
    · exact Option.some.inj h ▸ .command hconn hst
  | join rand =>
    unfold Endpoint.join at h
    split_ifs at h with hconn hst
    · exact Option.some.inj h ▸ .success hconn hst
    · exact Option.some.inj h ▸ .failure hconn hst
  | send data =>
    unfold Endpoint.sendData at h
    split_ifs at h with hc
    exact Option.some.inj h ▸ .send hc.1 hc.2
  | wake w =>
    simp only at h
    split_ifs at h with hw
    exact Option.some.inj h ▸ .wake hw

/-! ## The monitor, seen by another thread -/

/-- What an operation of the monitor leaves alone. -/
structure MonitorKeeps (s t : Endpoint) : Prop where
  inet : t.inet = s.inet
  conn : t.conn = s.conn
  hist : t.hist = s.hist

/-- The operation is the post of `c`, or `c` sees nothing of it. -/
inductive MonitorEffect (c : ThreadName) (s t : Endpoint) : Prop
  | posted (head : s.monitor = .post c :: t.monitor)
      (threads : t.threads = s.threads.post .monitorHandle c)
  | other {op : MonOp} (head : s.monitor = op :: t.monitor) (notPost : op ≠ .post c)
      (bePosted : t.threads.bePosted c = s.threads.bePosted c)
      (waitThis : t.threads.waitThis .monitorHandle c = s.threads.waitThis .monitorHandle c)

/-- **Monitor rule.** -/
theorem monitor_cases {c : ThreadName} {s t : Endpoint} (hc : c ≠ .monitorHandle)
    (h : s.monitorStep = some t) : MonitorKeeps s t ∧ MonitorEffect c s t := by
  have hmoves : Moves postsMonitor s .monitor t := moves_monitor h
  cases hmoves with
  | @monPost name _ head =>
    refine ⟨⟨rfl, rfl, rfl⟩, ?_⟩
    by_cases hname : name = c
    · subst hname
      exact .posted head rfl
    · exact .other head (fun hop => hname (MonOp.post.inj hop))
        (Threads.post_bePosted_ne _ _ (Ne.symm hname))
          (Threads.post_waitThis_ne _ _ _ (Ne.symm hname))
  | monClear head => exact ⟨⟨rfl, rfl, rfl⟩, .other head nofun (Threads.clear_bePosted_ne _ hc) rfl⟩
  | monEnter head =>
    exact ⟨⟨rfl, rfl, rfl⟩, .other head nofun rfl (Threads.enter_waitThis_ne _ _ _ hc)⟩
  | monSleep head => exact ⟨⟨rfl, rfl, rfl⟩, .other head nofun (Threads.clear_bePosted_ne _ hc) rfl⟩
  | monSend head => exact ⟨⟨rfl, rfl, rfl⟩, .other head nofun rfl rfl⟩

/-! ## Stages of the handshake -/

/-- The states of the connection at a stage of the connecting thread. -/
def ConnOk : Conn → TcpState → Prop
  | .idle, st => st = .closed ∨ st = .connected
  | .syn, st | .hand1, st => st = .closed
  | .clear, st | .enter, st | .sleep, st | .test, st => st = .hand1 ∨ st = .hand2
  | .third, st | .connected, st => st = .hand2
  | .done, st => st ≠ .closed

/-- `main` has called `tcp_init_seq` and is about to read its first command. -/
structure Start (s : Endpoint) : Prop where
  monitor : s.monitor = []
  conn : s.conn = .idle
  status : s.inet.tcpStatus = .closed
  iss : s.hist.iss = s.inet.seqNum
  segs : s.hist.segs = 0
  bytes : s.hist.bytes = 0
  synAcked : s.hist.synAcked = false
  waitThis : s.threads.waitThis .monitorHandle .tcpConnectHandle = false

section Stages

variable {s t : Endpoint}

/-- The status a frame leaves. -/
theorem FrameEffect.status {f : Frame} (h : FrameEffect s f t) :
    t.inet.tcpStatus = s.inet.tcpStatus ∨
      (s.inet.tcpStatus = .hand1 ∧ t.inet.tcpStatus = .hand2 ∧ SynAck s.inet f) := by
  cases h with
  | synAck seg status tcp => exact Or.inr ⟨status, congrArg (·.2.2) tcp, seg⟩
  | data _ tcp => exact Or.inl (congrArg (·.2.2) tcp)
  | other _ _ tcp => exact Or.inl (congrArg (·.2.2) tcp)

theorem ConnOk.hand2 {c : Conn} (h : ConnOk c .hand1) : ConnOk c .hand2 := by
  cases c <;> simp_all [ConnOk]

theorem connOk_step {posts : ThreadName → Bool} {a : Act} (hs : ConnOk s.conn s.inet.tcpStatus)
    (h : step posts s a t) : ConnOk t.conn t.inet.tcpStatus := by
  cases moves_of_step h with
  | frame keep eff =>
    rw [keep.conn]
    rcases eff.status with hst | ⟨hst, hst', -⟩
    · rwa [hst]
    · rw [hst] at hs
      rw [hst']
      exact hs.hand2
  | hand1 => exact Or.inl rfl
  | testPass conn status => exact status
  | testFail conn status =>
    rw [conn] at hs
    have hst := hs.resolve_right status
    exact fun h => absurd (hst.symm.trans h) nofun
  | connected => exact nofun
  | command conn status =>
    rw [conn] at hs
    exact hs.resolve_right status
  | success conn status => exact Or.inr status
  | failure => exact Or.inl rfl
  | syn conn | clear conn | enter conn | sleep conn | third conn =>
    rw [conn] at hs
    exact hs
  | _ => exact hs

end Stages

/-! ## A handshake -/

/-- The endpoint of `sampleInet` before its first command, its first number 1000. -/
def sampleStart : Endpoint where
  inet := { sampleInet with seqNum := 1000, ackNum := 0, tcpStatus := .closed }
  threads := ⟨fun _ => false, fun _ _ => false⟩
  monitor := []
  conn := .idle
  wire := []
  hist := ⟨1000, 0, 0, false⟩

theorem sample_start_ok : Start sampleStart := ⟨rfl, rfl, rfl, rfl, rfl, rfl, rfl, rfl⟩

/-- The remote host's SYN+ACK, numbered 5000, and a byte of data, numbered 5001. -/
def sampleSynAck : Frame := .ofPacket (tcpSendControl { samplePeer with seqNum := 5000 } tcpSynAck)

def sampleData : Frame := .ofPacket (tcpSend samplePeer [0x41])

/-- The SYN+ACK comes when the status is stored, and its post when the connecting
thread sleeps. -/
def sampleHandshake : List Act :=
  [.command, .connect, .connect, .frame sampleSynAck, .connect, .connect, .monitor, .connect,
   .connect, .connect, .connect, .join 0]

example : (exec (Endpoint.next postsMonitor) sampleStart sampleHandshake).map
    (fun t => (t.inet.tcp, t.conn)) = some ((1001, 5001, .connected), .idle) := by decide +kernel

end X64SmpOs.Net

import X64SmpOs.Net.Endpoint
import X64SmpOs.Net.Icmp

/-!
# Address resolution and ping

`icmp_req_handle` sends an ARP request, waits for the monitor, sends an echo
request and waits for the monitor again. The handlers of ARP packets and of echo
replies both post it, whichever of the two waits it is in.

* `ArpHeader`, `sendArpReq`: the ARP request;
* `Resolver`, `resolveStep`: the monitor and `icmp_req_handle`, while no other
  thread runs;
* `pingSuccess_packetRecv`, `remoteMac_packetRecv`: what frames store;
* `Truthful`: the echo request follows a stored MAC, the report an echo reply;
* `Timely`: a post that ends a wait comes when what it stands for has happened;
* `truthful_of_timely`, `early_post_fails`: what such posts give, and what another
  post does.
-/

namespace X64SmpOs.Net

open Memory Runs

/-! ## The ARP request -/

structure ArpHeader where
  hardwareType : BitVec 16
  protocolType : BitVec 16
  hlen : BitVec 8
  plen : BitVec 8
  opcode : BitVec 16
  senderMac : Mac
  senderIp : BitVec 32
  targetMac : Mac
  targetIp : BitVec 32

def ArpHeader.bytes (h : ArpHeader) : List Byte :=
  le16 h.hardwareType ++ (le16 h.protocolType ++ (h.hlen :: h.plen :: (le16 h.opcode ++
    (h.senderMac.toList ++ (le32 h.senderIp ++ (h.targetMac.toList ++ le32 h.targetIp))))))

/-- `ARPOP_REQUEST`. -/
def arpOpRequest : Nat := 1

def createArpHeader (inet : Inet) : ArpHeader where
  hardwareType := htons 1
  protocolType := htons etherTypeIp.toNat
  hlen := 6
  plen := 4
  opcode := htons arpOpRequest
  senderMac := inet.localMac
  senderIp := inet.localIp
  targetMac := Vector.replicate 6 0
  targetIp := inet.remoteIp

def broadcastMac : Mac := Vector.replicate 6 0xff

def sendArpReq (inet : Inet) : List Byte :=
  (createEtherHeader broadcastMac inet.localMac etherTypeArp).bytes ++ (createArpHeader inet).bytes

/-! ## The two threads -/

/-- Where `icmp_req_handle` stands; `second` tells the two waits apart. -/
inductive Req
  | arp
  | clear (second : Bool)
  | enter (second : Bool)
  | sleep (second : Bool)
  | echo
  | report
  | done
  deriving DecidableEq, Repr

/-- `main` is in `nst_destroy` for `icmp_req_handle`. `resolved` tells whether
`deal_arp_reply` has stored a MAC; no step reads it. -/
structure Resolver where
  endpoint : Endpoint
  request : Req
  resolved : Bool

/-- `deal_arp_reply` stores the sender's MAC. -/
def ArpReply (inet : Inet) (f : Frame) : Prop :=
  f.etherType = etherTypeArp ∧ (dealArpReply inet f).1 = 0

instance (inet : Inet) (f : Frame) : Decidable (ArpReply inet f) :=
  inferInstanceAs (Decidable (_ ∧ _))

inductive ResolveAct
  | frame (f : Frame)
  | monitor
  | request

namespace Resolver

def threads (s : Resolver) : Threads ThreadName := s.endpoint.threads
def inet (s : Resolver) : Inet := s.endpoint.inet

def send (s : Resolver) (packet : List Byte) (request : Req) : Resolver :=
  { s with
    request
    endpoint := { s.endpoint with wire := packet :: s.endpoint.wire } }

def withThreads (s : Resolver) (threads : Threads ThreadName) (request : Req) : Resolver :=
  { s with
    request
    endpoint := { s.endpoint with threads } }

def requestStep (s : Resolver) : Option Resolver :=
  match s.request with
  | .arp => some (s.send (sendArpReq s.inet) (.clear false))
  | .clear second => some (s.withThreads (s.threads.clear .icmpReqHandle) (.enter second))
  | .enter second =>
    some (s.withThreads (s.threads.enter .icmpReqHandle .monitorHandle) (.sleep second))
  | .sleep second =>
    (s.threads.leave .icmpReqHandle).map fun threads =>
      s.withThreads threads (if second then .report else .echo)
  | .echo => some (s.send (sendIcmpEchoRequestPacket s.inet) (.clear true))
  | .report => some { s with request := .done }
  | .done => none

def next (s : Resolver) : ResolveAct → Option Resolver
  | .frame f =>
    (s.endpoint.frame f).map fun endpoint =>
      { s with
        endpoint
        resolved := s.resolved || decide (ArpReply s.inet f) }
  | .monitor => s.endpoint.monitorStep.map fun endpoint => { s with endpoint }
  | .request => s.requestStep

end Resolver

def resolveStep : Resolver → ResolveAct → Resolver → Prop := stepOf Resolver.next

/-- `icmp_req_handle` is about to run, and `g_inet_info` is fresh. -/
structure ResolveStart (s : Resolver) : Prop where
  request : s.request = .arp
  resolved : s.resolved = false
  pingSuccess : s.inet.pingSuccess = false
  waitThis : s.threads.waitThis .monitorHandle .icmpReqHandle = false

/-- What the two waits are for. -/
def Resolver.awaited (s : Resolver) : Bool → Bool
  | false => s.resolved
  | true => s.inet.pingSuccess

/-- The echo request is sent when the MAC is stored; the second wait is passed, and
the result reported, when an echo reply has come. -/
structure Truthful (s : Resolver) (a : ResolveAct) (t : Resolver) : Prop where
  echo : a = .request → s.request = .echo → s.resolved = true
  passed : a = .request → t.request = .report → s.inet.pingSuccess = true
  reported : a = .request → s.request = .report → s.inet.pingSuccess = true

/-- A post that takes `icmp_req_handle` out of a wait comes when what the wait is
for has happened. -/
def Timely (s : Resolver) (a : ResolveAct) (_ : Resolver) : Prop :=
  a = .monitor → s.endpoint.monitor.head? = some (.post .icmpReqHandle) →
    s.threads.waitThis .monitorHandle .icmpReqHandle = true →
      ∀ second, s.request = .sleep second → s.awaited second = true

/-! ## What frames store -/

/-- An echo reply as `distribute_ip_reply` lets it through. -/
structure EchoReply (inet : Inet) (f : Frame) : Prop where
  etherType : f.etherType = etherTypeIp
  srcIp : f.srcIp = inet.remoteIp
  dstIp : f.dstIp = inet.localIp
  protocol : f.protocol = ipLoadIcmp
  type : f.icmpType = icmpTypeReplyEcho

/-- The TCP and UDP handlers leave MAC and ping result alone. -/
theorem distributeTcpRecv_resolve (inet : Inet) (f : Frame) (n : Nat) :
    (distributeTcpRecv inet f n).inet.pingSuccess = inet.pingSuccess ∧
      (distributeTcpRecv inet f n).inet.remoteMac = inet.remoteMac := by
  simp only [distributeTcpRecv, dealTcpDataRecv]
  split
  · split
    · exact ⟨rfl, rfl⟩
    · exact ⟨rfl, rfl⟩
  · split
    · split
      · exact ⟨rfl, rfl⟩
      · exact ⟨rfl, rfl⟩
    · exact ⟨rfl, rfl⟩

/-- The fields that hold a datagram are no part of the resolution. -/
theorem data_resolve (inet : Inet) (data : Fin mtu → Byte) (n : Nat) :
    { inet with data := data, dataValid := n }.pingSuccess = inet.pingSuccess ∧
      { inet with data := data, dataValid := n }.remoteMac = inet.remoteMac := ⟨rfl, rfl⟩

theorem distributeUdpRecv_resolve (inet : Inet) (f : Frame) :
    (distributeUdpRecv inet f).inet.pingSuccess = inet.pingSuccess ∧
      (distributeUdpRecv inet f).inet.remoteMac = inet.remoteMac := by
  unfold distributeUdpRecv
  exact data_resolve inet _ _

/-- An accepted ARP reply stores a MAC, and nothing else does. -/
theorem remoteMac_packetRecv (inet : Inet) (f : Frame) :
    (packetRecv inet f).inet.remoteMac =
      if ArpReply inet f then Vector.ofFn fun i => f.bytes (22 + i) else inet.remoteMac := by
  have harp : ArpReply inet f ↔ f.etherType = etherTypeArp ∧ f.arpSenderIp = inet.remoteIp ∧
      f.arpTargetIp = inet.localIp := by
    simp only [ArpReply, dealArpReply]
    split
    · split <;> simp_all
    · simp_all
  have hno : ∀ p, Passes inet f p → ¬ ArpReply inet f := by
    intro p hp h
    exact absurd (hp.etherType.symm.trans (harp.mp h).1) (by decide)
  cases packetRecv_handled inet f with
  | arp etherType sender target info => rw [info, if_pos (harp.mpr ⟨etherType, sender, target⟩)]
  | echo passes _ info => rw [info, if_neg (hno _ passes)]
  | tcp passes info =>
    rw [info, if_neg (hno _ passes)]
    exact (distributeTcpRecv_resolve ..).2
  | udp passes info =>
    rw [info, if_neg (hno _ passes)]
    exact (distributeUdpRecv_resolve ..).2
  | nothing arp _ info =>
    rw [info, if_neg fun h => arp (harp.mp h).1 (harp.mp h).2.1 (harp.mp h).2.2]

/-- Only an echo reply sets `ping_success`, and nothing clears it. -/
theorem pingSuccess_packetRecv (inet : Inet) (f : Frame) :
    (packetRecv inet f).inet.pingSuccess = true ↔ inet.pingSuccess = true ∨ EchoReply inet f := by
  have hno : ∀ p, p ≠ ipLoadIcmp → Passes inet f p → ¬ EchoReply inet f :=
    fun p hne hp h => hne (hp.protocol.symm.trans h.protocol)
  cases packetRecv_handled inet f with
  | arp etherType _ _ info =>
    have harp : ¬ EchoReply inet f := fun h =>
      absurd (etherType.symm.trans h.etherType) (by decide)
    simp only [info, harp, or_false]
  | echo passes type info =>
    have hecho : EchoReply inet f :=
      ⟨passes.etherType, passes.srcIp, passes.dstIp, passes.protocol, type⟩
    simp only [info, hecho, or_true]
  | tcp passes info =>
    rw [info, (distributeTcpRecv_resolve ..).1]
    simp only [hno _ (by decide) passes, or_false]
  | udp passes info =>
    rw [info, (distributeUdpRecv_resolve ..).1]
    simp only [hno _ (by decide) passes, or_false]
  | nothing _ echo info =>
    have hecho : ¬ EchoReply inet f := fun h =>
      echo ⟨h.etherType, h.srcIp, h.dstIp, h.protocol⟩ h.type
    simp only [info, hecho, or_false]

/-! ## The invariant -/

/-- A post that finds its thread sleeping has seen what the wait is for. -/
structure ReqInv (s : Resolver) : Prop where
  entered : ∀ second, s.request = .enter second → s.threads.bePosted .icmpReqHandle = false
  posted : ∀ second, s.request = .sleep second → s.threads.bePosted .icmpReqHandle = true →
    s.awaited second = true
  echo : s.request = .echo → s.resolved = true
  report : s.request = .report → s.inet.pingSuccess = true
  registered : s.threads.waitThis .monitorHandle .icmpReqHandle = true →
    (∃ second, s.request = .sleep second) ∧ s.threads.bePosted .icmpReqHandle = false

theorem reqInv_start {s : Resolver} (h : ResolveStart s) : ReqInv s where
  entered second hr := by
    rw [h.request] at hr
    cases hr
  posted second hr := by
    rw [h.request] at hr
    cases hr
  echo hr := by
    rw [h.request] at hr
    cases hr
  report hr := by
    rw [h.request] at hr
    cases hr
  registered hw := by
    rw [h.waitThis] at hw
    cases hw

section Steps

variable {s t : Resolver}

/-- A step of the monitor under which `icmp_req_handle` stays where it is. -/
theorem ReqInv.of_same (hs : ReqInv s) (hreq : t.request = s.request)
    (hres : s.resolved = true → t.resolved = true)
    (hping : s.inet.pingSuccess = true → t.inet.pingSuccess = true)
    (hposted : t.threads.bePosted .icmpReqHandle = s.threads.bePosted .icmpReqHandle)
    (hwait : t.threads.waitThis .monitorHandle .icmpReqHandle =
      s.threads.waitThis .monitorHandle .icmpReqHandle) : ReqInv t := by
  constructor
  · rw [hreq, hposted]
    exact hs.entered
  · intro second hr hp
    rw [hreq] at hr
    rw [hposted] at hp
    have hawaited := hs.posted second hr hp
    cases second with
    | false => exact hres hawaited
    | true => exact hping hawaited
  · rw [hreq]
    exact fun hr => hres (hs.echo hr)
  · rw [hreq]
    exact fun hr => hping (hs.report hr)
  · rw [hreq, hposted, hwait]
    exact hs.registered

theorem reqInv_frame {f : Frame} (hs : ReqInv s) (h : s.next (.frame f) = some t) : ReqInv t := by
  obtain ⟨endpoint, hframe, rfl⟩ := Option.map_eq_some_iff.mp h
  obtain ⟨hkeep, -⟩ := frame_cases hframe
  have hinet : endpoint.inet = (packetRecv s.inet f).inet := by
    unfold Endpoint.frame at hframe
    split at hframe
    · cases hframe
    · exact Option.some.inj hframe ▸ rfl
  have hthreads : endpoint.threads = s.threads := hkeep.threads
  refine hs.of_same rfl (fun hr => ?_) (fun hp => ?_)
    (congrArg (fun x : Threads ThreadName => x.bePosted _) hthreads)
    (congrArg (fun x : Threads ThreadName => x.waitThis _ _) hthreads)
  · exact Bool.or_eq_true_iff.mpr (Or.inl hr)
  · have hping := (pingSuccess_packetRecv s.inet f).mpr (Or.inl hp)
    rwa [← hinet] at hping

theorem reqInv_monitor (hs : ReqInv s) (hin : Timely s .monitor t)
    (h : s.next .monitor = some t) : ReqInv t := by
  obtain ⟨endpoint, hmonitor, rfl⟩ := Option.map_eq_some_iff.mp h
  obtain ⟨hkeep, heff⟩ := monitor_cases (c := .icmpReqHandle) nofun hmonitor
  have hping : s.inet.pingSuccess = true → endpoint.inet.pingSuccess = true := by
    rw [hkeep.inet]
    exact id
  cases heff with
  | other _ _ bePosted waitThis => exact hs.of_same rfl id hping bePosted waitThis
  | posted head threads =>
    cases hw : s.threads.waitThis .monitorHandle .icmpReqHandle with
    | false =>
      -- the thread is not in the table: a post without effect
      have hsame : endpoint.threads = s.threads := threads.trans (Threads.post_of_not hw)
      exact hs.of_same rfl id hping
        (congrArg (fun x : Threads ThreadName => x.bePosted _) hsame)
        (congrArg (fun x : Threads ThreadName => x.waitThis _ _) hsame)
    | true =>
      have hawaited := hin rfl (by rw [head]; rfl) hw
      obtain ⟨⟨second, hsleep⟩, -⟩ := hs.registered hw
      have hno := Threads.post_waitThis_self s.threads .monitorHandle .icmpReqHandle
      rw [Resolver.threads, ← threads] at hno
      refine ⟨fun _ hr => ?_, fun second' hr _ => ?_, hs.echo, fun hr => hping (hs.report hr),
        fun hw' => ?_⟩
      · exact absurd (hsleep.symm.trans hr) nofun
      · have hsecond := hawaited second' hr
        cases second' with
        | false => exact hsecond
        | true => exact hping hsecond
      · exact absurd (hno.symm.trans hw') nofun

/-- A stage outside the waits is reached with nothing in the table. -/
theorem ReqInv.not_registered (hs : ReqInv s) (h : ∀ second, s.request ≠ .sleep second) :
    s.threads.waitThis .monitorHandle .icmpReqHandle = false := by
  by_contra hw
  obtain ⟨⟨second, hsleep⟩, -⟩ := hs.registered (by simpa using hw)
  exact h second hsleep

/-- A stage outside a wait, when nothing is in the table. -/
theorem reqInv_awake (hwait : s.threads.waitThis .monitorHandle .icmpReqHandle = false)
    (henter : ∀ second, s.request ≠ .enter second) (hsleep : ∀ second, s.request ≠ .sleep second)
    (hecho : s.request = .echo → s.resolved = true)
    (hreport : s.request = .report → s.inet.pingSuccess = true) : ReqInv s where
  entered second hr := absurd hr (henter second)
  posted second hr := absurd hr (hsleep second)
  echo := hecho
  report := hreport
  registered hw := absurd (hwait.symm.trans hw) nofun

theorem reqInv_request (hs : ReqInv s) (h : s.next .request = some t) :
    ReqInv t ∧ Truthful s .request t := by
  have hreg := hs.not_registered
  simp only [Resolver.next, Resolver.requestStep] at h
  cases hr : s.request with
  | arp =>
    obtain rfl : _ = t := by simpa only [hr, Option.some.injEq] using h
    rw [hr] at hreg
    exact ⟨reqInv_awake (hreg nofun) nofun nofun nofun nofun, by simp [hr], nofun, by simp [hr]⟩
  | clear second =>
    obtain rfl : _ = t := by simpa only [hr, Option.some.injEq] using h
    rw [hr] at hreg
    refine ⟨⟨fun _ _ => Threads.clear_bePosted_self .., nofun, nofun, nofun, fun hw => ?_⟩,
      by simp [hr], nofun, by simp [hr]⟩
    exact absurd ((hreg nofun).symm.trans hw) nofun
  | enter second =>
    obtain rfl : _ = t := by simpa only [hr, Option.some.injEq] using h
    have hposted := hs.entered second hr
    refine ⟨⟨nofun, fun _ _ hp => ?_, nofun, nofun, fun _ => ⟨⟨second, rfl⟩, hposted⟩⟩,
      by simp [hr], nofun, by simp [hr]⟩
    exact absurd (hposted.symm.trans hp) nofun
  | sleep second =>
    simp only [hr, Option.map_eq_some_iff] at h
    obtain ⟨threads, hleave, rfl⟩ := h
    obtain ⟨hposted, rfl⟩ := Threads.leave_eq_some.mp hleave
    have hawaited := hs.posted second hr hposted
    have hwait : s.threads.waitThis .monitorHandle .icmpReqHandle = false := by
      by_contra hw
      exact absurd (hposted.symm.trans (hs.registered (by simpa using hw)).2) nofun
    cases second with
    | false =>
      exact ⟨reqInv_awake hwait nofun nofun (fun _ => hawaited) nofun, by simp [hr], nofun,
        by simp [hr]⟩
    | true =>
      exact ⟨reqInv_awake hwait nofun nofun nofun (fun _ => hawaited), by simp [hr],
        fun _ _ => hawaited, by simp [hr]⟩
  | echo =>
    obtain rfl : _ = t := by simpa only [hr, Option.some.injEq] using h
    rw [hr] at hreg
    exact ⟨reqInv_awake (hreg nofun) nofun nofun nofun nofun, fun _ _ => hs.echo hr, nofun,
      by simp [hr]⟩
  | report =>
    obtain rfl : _ = t := by simpa only [hr, Option.some.injEq] using h
    rw [hr] at hreg
    exact ⟨reqInv_awake (hreg nofun) nofun nofun nofun nofun, by simp [hr], nofun,
      fun _ _ => hs.report hr⟩
  | done => simp [hr] at h

theorem reqInv_step {a : ResolveAct} (hs : ReqInv s) (hin : Timely s a t)
    (h : resolveStep s a t) : ReqInv t ∧ Truthful s a t := by
  cases a with
  | frame f => exact ⟨reqInv_frame hs h, nofun, nofun, nofun⟩
  | monitor => exact ⟨reqInv_monitor hs hin h, nofun, nofun, nofun⟩
  | request => exact reqInv_request hs h

end Steps

/-! ## What timely posts give -/

/-- **Resolution before ping.** In every run whose posts are timely, for every
order and repetition of frames. -/
theorem truthful_of_timely {s : Resolver} {as : List ResolveAct} (hs : ResolveStart s)
    (hin : Every resolveStep Timely s as) : Every resolveStep Truthful s as :=
  every_of_inv (fun _ _ _ hs hin h => reqInv_step hs hin h) (reqInv_start hs) hin

/-- A thread posted in a wait goes on, whatever it was posted for. -/
theorem posted_fails {s : Resolver} {second : Bool} (hsleep : s.request = .sleep second)
    (hposted : s.threads.bePosted .icmpReqHandle = true) (hno : s.awaited second = false) :
    ¬ Every resolveStep Truthful s [.request, .request] := by
  intro hall
  have hleave : s.threads.leave .icmpReqHandle = some (s.threads.clear .icmpReqHandle) :=
    Threads.leave_eq_some.mpr ⟨hposted, rfl⟩
  cases second with
  | false =>
    have hwake : resolveStep s .request
        (s.withThreads (s.threads.clear .icmpReqHandle) .echo) := by
      simp [resolveStep, stepOf, Resolver.next, Resolver.requestStep, hsleep, hleave]
    have hsend := (hall _ hwake).2 _ rfl
    exact Bool.false_ne_true (hno.symm.trans (hsend.1.echo rfl rfl))
  | true =>
    have hwake : resolveStep s .request
        (s.withThreads (s.threads.clear .icmpReqHandle) .report) := by
      simp [resolveStep, stepOf, Resolver.next, Resolver.requestStep, hsleep, hleave]
    exact Bool.false_ne_true (hno.symm.trans ((hall _ hwake).1.passed rfl rfl))

/-- **An early post.** It ends the wait, and the echo request or the report follows
without what was waited for. -/
theorem early_post_fails {s t : Resolver} (h : resolveStep s .monitor t)
    (hin : ¬ Timely s .monitor t) : ¬ Every resolveStep Truthful t [.request, .request] := by
  obtain ⟨hhead, hw, second, hsleep, hno⟩ : s.endpoint.monitor.head? = some (.post .icmpReqHandle) ∧
      s.threads.waitThis .monitorHandle .icmpReqHandle = true ∧
        ∃ second, s.request = .sleep second ∧ s.awaited second = false := by
    simpa only [Timely, not_forall, exists_prop, true_and, Bool.not_eq_true] using hin
  obtain ⟨endpoint, hmonitor, rfl⟩ := Option.map_eq_some_iff.mp h
  obtain ⟨ops, hmon⟩ := List.head?_eq_some_iff.mp hhead
  simp only [Endpoint.monitorStep, hmon, Option.some.injEq] at hmonitor
  subst hmonitor
  have hposted := Threads.post_bePosted_self hw
  cases second with
  | false => exact posted_fails hsleep hposted hno
  | true => exact posted_fails hsleep hposted hno

/-! ## A ping -/

/-- The endpoint of `sampleStart` before it has resolved anything. -/
def sampleResolver : Resolver where
  endpoint := { sampleStart with inet := { sampleStart.inet with pingSuccess := false } }
  request := .arp
  resolved := false

theorem sample_resolver_ok : ResolveStart sampleResolver := ⟨rfl, rfl, rfl, rfl⟩

/-- The remote host's answers. -/
def sampleArpReply : Frame :=
  let peer := { samplePeer with localMac := sampleInet.remoteMac }
  .ofPacket ((createEtherHeader sampleInet.localMac peer.localMac etherTypeArp).bytes ++
    { createArpHeader peer with
      opcode := htons 2
      targetMac := sampleInet.localMac }.bytes)

def sampleEchoReply : Frame :=
  .ofPacket ((createEtherHeader sampleInet.localMac sampleInet.remoteMac etherTypeIp).bytes ++
    ((createIpIcmpProtocolHeader samplePeer ipLoadIcmp).bytes ++
      (createIcmpProtocolHeader icmpTypeReplyEcho).bytes))

/-- From a request into the wait for its answer. -/
def sampleAsk : List ResolveAct := [.request, .request, .request]

/-- An answer comes, the monitor posts, and `icmp_req_handle` wakes. -/
def sampleAnswer (f : Frame) : List ResolveAct := [.frame f, .monitor, .request]

/-- An echo reply in the first wait: the echo request goes out with no MAC stored.
The ARP reply once more in the second wait: the wait is over without an echo reply. -/
theorem truthful_sample_fails :
    ResolveStart sampleResolver ∧
    ¬ Every resolveStep Truthful sampleResolver
      (sampleAsk ++ sampleAnswer sampleEchoReply ++ [.request]) ∧
    ¬ Every resolveStep Truthful sampleResolver
      (sampleAsk ++ sampleAnswer sampleArpReply ++ (sampleAsk ++ sampleAnswer sampleArpReply) ++
        [.request]) := by
  have hecho : (exec Resolver.next sampleResolver
      (sampleAsk ++ sampleAnswer sampleEchoReply)).map
        (fun t => (t.request, t.resolved)) = some (.echo, false) := by decide +kernel
  have hreport : (exec Resolver.next sampleResolver
      (sampleAsk ++ sampleAnswer sampleArpReply ++ (sampleAsk ++ sampleAnswer sampleArpReply))).map
        (fun t => (t.request, t.inet.pingSuccess)) = some (.report, false) := by decide +kernel
  refine ⟨sample_resolver_ok, fun h => ?_, fun h => ?_⟩
  · obtain ⟨t, ht, hst⟩ := Option.map_eq_some_iff.mp hecho
    obtain ⟨hreq, hno⟩ := Prod.mk.inj hst
    have hnext : Resolver.next t .request =
        some (t.send (sendIcmpEchoRequestPacket t.inet) (.clear true)) := by
      rw [Resolver.next, Resolver.requestStep, hreq]
    exact absurd (hno.symm.trans ((every_at h ht hnext).echo rfl hreq)) nofun
  · obtain ⟨t, ht, hst⟩ := Option.map_eq_some_iff.mp hreport
    obtain ⟨hreq, hno⟩ := Prod.mk.inj hst
    have hnext : Resolver.next t .request = some { t with request := .done } := by
      rw [Resolver.next, Resolver.requestStep, hreq]
    exact absurd (hno.symm.trans ((every_at h ht hnext).reported rfl hreq)) nofun

/-- `Timely`, evaluated. -/
def checkTimely (s : Resolver) : ResolveAct → Bool
  | .monitor => s.endpoint.monitor.head? ≠ some (.post .icmpReqHandle) ||
      !s.threads.waitThis .monitorHandle .icmpReqHandle ||
        match s.request with
        | .sleep second => s.awaited second
        | _ => true
  | _ => true

theorem timely_of_check (s : Resolver) (a : ResolveAct) (t : Resolver)
    (h : checkTimely s a = true) : Timely s a t := by
  rintro rfl hhead hw second hsleep
  simpa [checkTimely, hhead, hw, hsleep] using h

/-- The ping of a host that answers each request once. -/
theorem truthful_sample_holds :
    Every resolveStep Truthful sampleResolver
      (sampleAsk ++ sampleAnswer sampleArpReply ++ (sampleAsk ++ sampleAnswer sampleEchoReply) ++
        [.request]) ∧
    (exec Resolver.next sampleResolver
      (sampleAsk ++ sampleAnswer sampleArpReply ++ (sampleAsk ++ sampleAnswer sampleEchoReply) ++
        [.request])).map (fun t => (t.request, t.inet.pingSuccess)) = some (.done, true) :=
  ⟨truthful_of_timely sample_resolver_ok (every_of_check timely_of_check (by decide +kernel)),
    by decide +kernel⟩

end X64SmpOs.Net

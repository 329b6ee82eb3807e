import X64SmpOs.Net.Datagram
import X64SmpOs.Net.Endpoint

/-!
# Delivery of datagrams

The endpoint with `udp_recv_handle`, which waits for the monitor, copies the
datagram out and prints it. `distribute_udp_recv` holds `datalock` from its copy
through its post; `udp_recv` takes it for its copy.

* `Delivery`, `Delivery.next`: the endpoint and the consumer;
* `Lossless`: the datagrams delivered are those accepted, in their order, but for
  one that is still in `g_inet_info.data` and will be fetched;
* `OnTime`: a datagram comes when the last one has been copied out, its post when
  the consumer is in the monitor's table;
* `lossless_iff_onTime`: a run is lossless exactly when it is on time.
-/

namespace X64SmpOs.Net

open Memory Runs

/-! ## The system -/

/-- Where `udp_recv_handle` stands: in its wait, before the copy of `udp_recv`, or
before its output. -/
inductive Consumer
  | clear
  | enter
  | sleep
  | copy
  | print
  deriving DecidableEq, Repr

/-- `arrived` lists the payloads `distribute_udp_recv` was given, `delivered` what
`udp_recv` has returned; no step reads them. -/
structure Delivery where
  endpoint : Endpoint
  consumer : Consumer
  arrived : List (List Byte)
  delivered : List (List Byte)

inductive DeliveryAct
  | endpoint (a : Act)
  | consumer

/-- What an action of the endpoint adds to the datagrams accepted. -/
def accepted (inet : Inet) : Act → List (List Byte)
  | .frame f => if UdpDatagram inet f then [f.udpPayload] else []
  | _ => []

theorem accepted_of_not {inet : Inet} {a : Act} (h : ∀ f, a = .frame f → ¬ UdpDatagram inet f) :
    accepted inet a = [] := by
  cases a with
  | frame f => exact if_neg (h f rfl)
  | _ => rfl

@[simp] theorem accepted_monitor (inet : Inet) : accepted inet .monitor = [] := rfl

namespace Delivery

/-- The post of `distribute_udp_recv` is still to come, and with it the release of
`datalock`. -/
def PostLeft (s : Delivery) : Prop := .post .udpRecvHandle ∈ s.endpoint.monitor

instance (s : Delivery) : Decidable s.PostLeft := inferInstanceAs (Decidable (_ ∈ _))

def setThreads (s : Delivery) (consumer : Consumer) (threads : Threads ThreadName) : Delivery :=
  { s with endpoint := { s.endpoint with threads }, consumer }

/-- A step of `udp_recv_handle`. -/
def consumerStep (s : Delivery) : Option Delivery :=
  match s.consumer with
  | .clear => some (s.setThreads .enter (s.endpoint.threads.clear .udpRecvHandle))
  | .enter => some (s.setThreads .sleep (s.endpoint.threads.enter .udpRecvHandle .monitorHandle))
  | .sleep => (s.endpoint.threads.leave .udpRecvHandle).map (s.setThreads .copy)
  | .copy =>
    if s.PostLeft then none
    else some { s with
      consumer := .print
      delivered := s.delivered ++ [udpRecv s.endpoint.inet mtu] }
  | .print => some { s with consumer := .clear }

def next (posts : ThreadName → Bool) (s : Delivery) : DeliveryAct → Option Delivery
  | .endpoint a =>
    (s.endpoint.next posts a).map fun endpoint =>
      { s with endpoint, arrived := s.arrived ++ accepted s.endpoint.inet a }
  | .consumer => s.consumerStep

end Delivery

def deliveryStep (posts : ThreadName → Bool) : Delivery → DeliveryAct → Delivery → Prop :=
  stepOf (Delivery.next posts)

/-- `udp_recv_handle` has just been created. -/
structure DeliveryStart (s : Delivery) : Prop where
  consumer : s.consumer = .clear
  waitThis : s.endpoint.threads.waitThis .monitorHandle .udpRecvHandle = false
  noPost : ¬ s.PostLeft
  arrived : s.arrived = []
  delivered : s.delivered = []

/-! ## What is to hold, and when -/

/-- The consumer has been woken for a datagram that it has not copied yet. -/
def Delivery.Woken (s : Delivery) : Prop :=
  (s.consumer = .sleep ∧ s.endpoint.threads.bePosted .udpRecvHandle = true) ∨ s.consumer = .copy

/-- The datagram in `g_inet_info.data` is about to be fetched. -/
def Delivery.Coming (s : Delivery) : Prop := s.PostLeft ∨ s.Woken

def Lossless (s : Delivery) : Prop :=
  s.arrived = s.delivered ∨
    (s.arrived = s.delivered ++ [udpRecv s.endpoint.inet mtu] ∧ s.Coming)

structure OnTime (s : Delivery) (a : DeliveryAct) (_ : Delivery) : Prop where
  frame : ∀ f, a = .endpoint (.frame f) → UdpDatagram s.endpoint.inet f →
    ¬ s.Woken ∧ 8 ≤ f.udpLength ∧ f.udpLength ≤ 8 + mtu
  post : a = .endpoint .monitor → s.endpoint.monitor.head? = some (.post .udpRecvHandle) →
    s.endpoint.threads.waitThis .monitorHandle .udpRecvHandle = true

/-! ## Steps of the endpoint -/

/-- What the consumer sees of the endpoint. -/
structure SameSlot (s t : Endpoint) : Prop where
  slot : udpRecv t.inet mtu = udpRecv s.inet mtu
  monitor : t.monitor = s.monitor ∨ (s.monitor = [] ∧ .post .udpRecvHandle ∉ t.monitor) ∨
    ∃ op, op ≠ .post .udpRecvHandle ∧ s.monitor = op :: t.monitor
  bePosted : t.threads.bePosted .udpRecvHandle = s.threads.bePosted .udpRecvHandle
  waitThis : t.threads.waitThis .monitorHandle .udpRecvHandle =
    s.threads.waitThis .monitorHandle .udpRecvHandle

/-- A datagram is copied into the slot, its post is executed, or the consumer sees
nothing. -/
inductive SlotEffect (s : Endpoint) (a : Act) (t : Endpoint) : Prop
  | datagram {f : Frame} (act : a = .frame f) (udp : UdpDatagram s.inet f) (idle : s.monitor = [])
      (monitor : t.monitor = [.post .udpRecvHandle]) (threads : t.threads = s.threads)
      (slot : udpRecv t.inet mtu = udpRecv (distributeUdpRecv s.inet f).inet mtu)
  | posted {ops : List MonOp} (act : a = .monitor) (head : s.monitor = .post .udpRecvHandle :: ops)
      (monitor : t.monitor = ops)
      (threads : t.threads = s.threads.post .monitorHandle .udpRecvHandle)
      (slot : t.inet = s.inet)
  | other (notPost : a = .monitor → s.monitor.head? ≠ some (.post .udpRecvHandle))
      (notUdp : ∀ f, a = .frame f → ¬ UdpDatagram s.inet f) (same : SameSlot s t)

section Effect

variable {s t : Endpoint}

theorem slot_frame {f : Frame} (h : s.frame f = some t) : SlotEffect s (.frame f) t := by
  unfold Endpoint.frame at h
  split at h
  · cases h
  · rename_i hmon
    obtain rfl := Option.some.inj h
    by_cases hudp : UdpDatagram s.inet f
    · obtain ⟨h1, h2⟩ := packetRecv_udp hudp
      exact .datagram rfl hudp hmon h2 rfl (by rw [h1])
    · have hkeep := packetRecv_keepsSlot hudp
      refine .other nofun (fun g hg => Act.frame.inj hg ▸ hudp) ⟨?_, ?_, rfl, rfl⟩
      · simp only [udpRecv, hkeep.data, hkeep.dataValid]
      · exact Or.inr (Or.inl ⟨hmon, hkeep.ops⟩)

theorem slot_monitor (h : s.monitorStep = some t) : SlotEffect s .monitor t := by
  obtain ⟨hkeep, heff⟩ := monitor_cases (c := .udpRecvHandle) nofun h
  cases heff with
  | posted head threads => exact .posted rfl head rfl threads hkeep.inet
  | other head notPost bePosted waitThis =>
    refine .other (fun _ hpost => ?_) nofun
      ⟨by rw [hkeep.inet], Or.inr (Or.inr ⟨_, notPost, head⟩), bePosted, waitThis⟩
    rw [head] at hpost
    exact notPost (Option.some.inj hpost)

/-- **Step rule** for the consumer's part of the endpoint. -/
theorem slot_step {posts : ThreadName → Bool} {a : Act} (h : step posts s a t) :
    SlotEffect s a t := by
  have hother : (a ≠ .monitor) → (∀ f, a ≠ .frame f) → SameSlot s t → SlotEffect s a t :=
    fun h1 h2 hsame => .other (fun ha => absurd ha h1) (fun f hf => absurd hf (h2 f)) hsame
  cases moves_of_step h with
  | @frame f _ _ _ => exact slot_frame h
  | monPost | monClear | monEnter | monSleep | monSend => exact slot_monitor h
  | clear | sleep | command =>
    exact hother nofun nofun ⟨rfl, Or.inl rfl, Threads.clear_bePosted_ne _ nofun, rfl⟩
  | enter =>
    exact hother nofun nofun ⟨rfl, Or.inl rfl, rfl, Threads.enter_waitThis_ne _ _ _ nofun⟩
  | wake =>
    exact hother nofun nofun ⟨rfl, Or.inl rfl, Threads.post_bePosted_ne _ _ nofun,
      Threads.post_waitThis_ne _ _ _ nofun⟩
  | _ => exact hother nofun nofun ⟨rfl, Or.inl rfl, rfl, rfl⟩

end Effect

/-! ## The invariant -/

/-- Of a datagram on its way exactly one thing is true: its post is to come, the
consumer is woken for it, or the consumer is at its copy. -/
structure DeliveryInv (s : Delivery) : Prop where
  registered : s.endpoint.threads.waitThis .monitorHandle .udpRecvHandle = true ↔
    s.consumer = .sleep ∧ s.endpoint.threads.bePosted .udpRecvHandle = false
  entered : s.consumer = .enter → s.endpoint.threads.bePosted .udpRecvHandle = false
  pending : s.PostLeft → s.endpoint.monitor = [.post .udpRecvHandle] ∧ ¬ s.Woken
  fetched : ¬ s.Coming → s.arrived = s.delivered
  coming : s.Coming → s.arrived = s.delivered ++ [udpRecv s.endpoint.inet mtu]

theorem DeliveryInv.lossless {s : Delivery} (hs : DeliveryInv s) : Lossless s := by
  by_cases h : s.Coming
  · exact Or.inr ⟨hs.coming h, h⟩
  · exact Or.inl (hs.fetched h)

theorem DeliveryStart.not_coming {s : Delivery} (h : DeliveryStart s) : ¬ s.Coming := by
  rintro (hp | ⟨hw, -⟩ | hw)
  · exact h.noPost hp
  · exact absurd (h.consumer.symm.trans hw) nofun
  · exact absurd (h.consumer.symm.trans hw) nofun

theorem deliveryInv_start {s : Delivery} (h : DeliveryStart s) : DeliveryInv s where
  registered := by
    rw [h.waitThis, h.consumer]
    exact ⟨nofun, nofun⟩
  entered hc := absurd (h.consumer.symm.trans hc) nofun
  pending hp := absurd hp h.noPost
  fetched _ := by rw [h.arrived, h.delivered]
  coming hc := absurd hc h.not_coming

section Steps

variable {s t : Delivery}

/-- The consumer sees nothing of the step. -/
theorem DeliveryInv.of_same (hs : DeliveryInv s) (h : SameSlot s.endpoint t.endpoint)
    (hc : t.consumer = s.consumer) (ha : t.arrived = s.arrived) (hd : t.delivered = s.delivered) :
    DeliveryInv t := by
  have hwoken : t.Woken ↔ s.Woken := by
    rw [Delivery.Woken, Delivery.Woken, hc, h.bePosted]
  have hpost : t.endpoint.monitor = s.endpoint.monitor ∨ (¬ s.PostLeft ∧ ¬ t.PostLeft) := by
    rcases h.monitor with hmon | ⟨hnil, hno⟩ | ⟨op, hop, hcons⟩
    · exact Or.inl hmon
    · refine Or.inr ⟨?_, hno⟩
      rw [Delivery.PostLeft, hnil]
      exact List.not_mem_nil
    · have hno : ¬ s.PostLeft := by
        intro hp
        have hmon := hcons.symm.trans (hs.pending hp).1
        exact hop (List.cons.inj hmon).1
      refine Or.inr ⟨hno, fun hp => hno ?_⟩
      rw [Delivery.PostLeft, hcons]
      exact List.mem_cons_of_mem op hp
  have hleft : t.PostLeft ↔ s.PostLeft := by
    rcases hpost with hmon | ⟨h1, h2⟩
    · rw [Delivery.PostLeft, Delivery.PostLeft, hmon]
    · exact iff_of_false h2 h1
  have hcoming : t.Coming ↔ s.Coming := or_congr hleft hwoken
  refine ⟨?_, ?_, fun hp => ?_, fun hno => ?_, fun hcom => ?_⟩
  · rw [h.waitThis, hc, h.bePosted]
    exact hs.registered
  · rw [hc, h.bePosted]
    exact hs.entered
  · obtain ⟨h1, h2⟩ := hs.pending (hleft.mp hp)
    rcases hpost with hmon | ⟨hno, -⟩
    · exact ⟨hmon.trans h1, fun hw => h2 (hwoken.mp hw)⟩
    · exact absurd (hleft.mp hp) hno
  · rw [ha, hd]
    exact hs.fetched fun hcom => hno (hcoming.mpr hcom)
  · rw [ha, hd, h.slot]
    exact hs.coming (hcoming.mp hcom)

theorem DeliveryInv.endpoint {posts : ThreadName → Bool} {a : Act} {e : Endpoint}
    (hs : DeliveryInv s) (h : step posts s.endpoint a e)
    (hin : OnTime s (.endpoint a) t) :
    DeliveryInv { s with endpoint := e, arrived := s.arrived ++ accepted s.endpoint.inet a } := by
  cases slot_step h with
  | @datagram f act udp idle monitor threads slot =>
    subst act
    obtain ⟨hwoken, hlen⟩ := hin.frame f rfl udp
    have hno : ¬ s.PostLeft := by
      rw [Delivery.PostLeft, idle]
      exact List.not_mem_nil
    have hfetched := hs.fetched fun hc => hc.elim hno hwoken
    refine ⟨?_, ?_, fun _ => ⟨monitor, ?_⟩, fun hnot => ?_, fun _ => ?_⟩
    · rw [threads]
      exact hs.registered
    · rw [threads]
      exact hs.entered
    · rw [Delivery.Woken, threads]
      exact hwoken
    · refine absurd (Or.inl ?_) hnot
      rw [Delivery.PostLeft, monitor]
      exact List.mem_singleton_self _
    · rw [hfetched, slot, (udpRecv_distributeUdpRecv s.endpoint.inet f).mpr hlen, accepted,
        if_pos udp]
  | @posted ops act head monitor threads slot =>
    subst act
    have hreg := hin.post rfl (by rw [head]; rfl)
    have hp : s.PostLeft := by
      rw [Delivery.PostLeft, head]
      exact List.mem_cons_self ..
    obtain ⟨hsleep, -⟩ := hs.registered.mp hreg
    have hops : ops = [] := (List.cons.inj (head.symm.trans (hs.pending hp).1)).2
    have hposted := Threads.post_bePosted_self hreg
    rw [← threads] at hposted
    refine ⟨?_, fun hc => ?_, fun hp' => ?_, fun hno => ?_, fun _ => ?_⟩
    · rw [hposted, threads, Threads.post_waitThis_self]
      simp
    · exact absurd (hsleep.symm.trans hc) nofun
    · rw [Delivery.PostLeft, monitor, hops] at hp'
      exact absurd hp' List.not_mem_nil
    · exact absurd (Or.inr (Or.inl ⟨hsleep, hposted⟩)) hno
    · rw [slot, hs.coming (Or.inl hp), accepted_monitor, List.append_nil]
  | other notPost notUdp same =>
    exact hs.of_same same rfl (by rw [accepted_of_not notUdp, List.append_nil]) rfl

/-- A step of the consumer that leaves it as woken as it was. -/
theorem DeliveryInv.move (hs : DeliveryInv s) (c : Consumer) (threads : Threads ThreadName)
    (hreg : threads.waitThis .monitorHandle .udpRecvHandle = true ↔
      c = .sleep ∧ threads.bePosted .udpRecvHandle = false)
    (hentered : c = .enter → threads.bePosted .udpRecvHandle = false)
    (hwoken : (s.setThreads c threads).Woken ↔ s.Woken) : DeliveryInv (s.setThreads c threads) := by
  have hcoming : (s.setThreads c threads).Coming ↔ s.Coming := or_congr Iff.rfl hwoken
  refine ⟨hreg, hentered, fun hp => ?_, fun hno => ?_, fun hc => ?_⟩
  · obtain ⟨h1, h2⟩ := hs.pending hp
    exact ⟨h1, fun hw => h2 (hwoken.mp hw)⟩
  · exact hs.fetched fun hc => hno (hcoming.mpr hc)
  · exact hs.coming (hcoming.mp hc)

theorem DeliveryInv.not_registered (hs : DeliveryInv s) (h : ¬ (s.consumer = .sleep ∧
    s.endpoint.threads.bePosted .udpRecvHandle = false)) :
    s.endpoint.threads.waitThis .monitorHandle .udpRecvHandle ≠ true :=
  fun hw => h (hs.registered.mp hw)

theorem DeliveryInv.consumer_step (hs : DeliveryInv s) (h : s.consumerStep = some t) :
    DeliveryInv t := by
  unfold Delivery.consumerStep at h
  split at h <;> rename_i hc
  · obtain rfl := Option.some.inj h
    have hreg := hs.not_registered (by rw [hc]; nofun)
    refine hs.move _ _ (iff_of_false hreg nofun) (fun _ => Threads.clear_bePosted_self _ _) ?_
    simp [Delivery.Woken, Delivery.setThreads, hc]
  · obtain rfl := Option.some.inj h
    have hposted := hs.entered hc
    refine hs.move _ _ (iff_of_true (Threads.enter_waitThis_self _ _ _) ⟨rfl, hposted⟩) nofun ?_
    simp [Delivery.Woken, Delivery.setThreads, hc, hposted]
  · obtain ⟨threads, hleave, rfl⟩ := Option.map_eq_some_iff.mp h
    obtain ⟨hposted, rfl⟩ := Threads.leave_eq_some.mp hleave
    have hreg := hs.not_registered (by rw [hposted]; nofun)
    refine hs.move _ _ (iff_of_false hreg nofun) nofun ?_
    simp [Delivery.Woken, Delivery.setThreads, hc, hposted]
  · split at h
    · cases h
    · rename_i hno
      obtain rfl := Option.some.inj h
      have hreg := hs.not_registered (by rw [hc]; nofun)
      have hcoming := hs.coming (Or.inr (Or.inr hc))
      refine ⟨iff_of_false hreg nofun, nofun, fun hp => absurd hp hno, fun _ => hcoming, ?_⟩
      rintro (hp | ⟨hw, -⟩ | hw)
      · exact absurd hp hno
      · cases hw
      · cases hw
  · obtain rfl := Option.some.inj h
    have hreg := hs.not_registered (by rw [hc]; nofun)
    refine hs.move .clear s.endpoint.threads (iff_of_false hreg nofun) nofun ?_
    simp [Delivery.Woken, Delivery.setThreads, hc]

/-- **Step lemma.** -/
theorem deliveryInv_step {posts : ThreadName → Bool} {a : DeliveryAct} (hs : DeliveryInv s)
    (hin : OnTime s a t) (h : deliveryStep posts s a t) : DeliveryInv t := by
  simp only [deliveryStep, stepOf, Delivery.next] at h
  cases a with
  | consumer => exact hs.consumer_step h
  | endpoint a =>
    obtain ⟨e, he, rfl⟩ := Option.map_eq_some_iff.mp h
    exact hs.endpoint he hin

/-- A datagram over one that is not fetched or does not fit, and a post that finds
nobody, lose a datagram. -/
theorem onTime_of_lossless {posts : ThreadName → Bool} {a : DeliveryAct} (hs : DeliveryInv s)
    (h : deliveryStep posts s a t) (ht : Lossless t) : OnTime s a t := by
  simp only [deliveryStep, stepOf, Delivery.next] at h
  constructor
  · rintro f rfl hudp
    obtain ⟨e, he, rfl⟩ := Option.map_eq_some_iff.mp h
    cases slot_step he with
    | @datagram g act udp idle monitor threads slot =>
      obtain rfl := Act.frame.inj act
      simp only [Lossless, accepted, if_pos hudp, slot] at ht
      have hnew : ¬ s.Woken := by
        intro hw
        rw [hs.coming (Or.inr hw)] at ht
        simp at ht
      have hno : ¬ s.PostLeft := by
        rw [Delivery.PostLeft, idle]
        exact List.not_mem_nil
      rw [hs.fetched fun hc => hc.elim hno hnew] at ht
      refine ⟨hnew, (udpRecv_distributeUdpRecv s.endpoint.inet f).mp ?_⟩
      rcases ht with ht | ⟨ht, -⟩
      · simp at ht
      · simpa [eq_comm] using ht
    | posted act => cases act
    | other _ notUdp => exact absurd hudp (notUdp f rfl)
  · rintro rfl hhead
    by_contra hreg
    obtain ⟨e, he, rfl⟩ := Option.map_eq_some_iff.mp h
    have hp : s.PostLeft := List.mem_of_mem_head? hhead
    obtain ⟨hmon, hnew⟩ := hs.pending hp
    cases slot_step he with
    | datagram act => cases act
    | posted _ head monitor threads slot =>
      have hops := (List.cons.inj (head.symm.trans hmon)).2
      rw [Threads.post_of_not (by simpa using hreg)] at threads
      rcases ht with ht | ⟨-, hpost | hw⟩
      · simp only [accepted_monitor, List.append_nil] at ht
        rw [hs.coming (Or.inl hp)] at ht
        simp at ht
      · rw [Delivery.PostLeft, monitor, hops] at hpost
        exact List.not_mem_nil hpost
      · rw [Delivery.Woken, threads] at hw
        exact hnew hw
    | other notPost => exact notPost rfl hhead

end Steps

/-- **Delivery.** For every interleaving of the monitor, the consumer and the other
threads, and every stream of frames. -/
theorem lossless_iff_onTime (posts : ThreadName → Bool) {s : Delivery} (hs : DeliveryStart s)
    (as : List DeliveryAct) :
    Every (deliveryStep posts) (fun _ _ t => Lossless t) s as ↔
      Every (deliveryStep posts) OnTime s as :=
  every_iff (I := DeliveryInv) (fun _ _ _ hi hin hst => deliveryInv_step hi hin hst)
    (fun _ _ _ hi hst =>
      ⟨onTime_of_lossless hi hst, fun hin => (deliveryInv_step hi hin hst).lossless⟩)
    (deliveryInv_start hs) as

/-! ## Fetching -/

/-- Steps of the monitor and the consumer alone end with everything accepted
delivered. -/
def Fetches (posts : ThreadName → Bool) (s : Delivery) : Prop :=
  ∃ as t, (∀ a ∈ as, a = .consumer ∨ a = .endpoint .monitor) ∧ Run (deliveryStep posts) s as t ∧
    t.delivered = s.arrived ∧ t.arrived = s.arrived

section Fetch

variable {posts : ThreadName → Bool} {s t : Delivery}

theorem Fetches.cons {a : DeliveryAct} (h : Fetches posts t)
    (ha : a = .consumer ∨ a = .endpoint .monitor) (hst : deliveryStep posts s a t)
    (harr : t.arrived = s.arrived) : Fetches posts s := by
  obtain ⟨as, u, hall, hr, h1, h2⟩ := h
  exact ⟨a :: as, u, List.forall_mem_cons.mpr ⟨ha, hall⟩, ⟨t, hst, hr⟩, h1.trans harr,
    h2.trans harr⟩

theorem fetches_copy (hs : DeliveryInv s) (hc : s.consumer = .copy) : Fetches posts s := by
  have hw : s.Woken := Or.inr hc
  have hno : ¬ s.PostLeft := fun hp => (hs.pending hp).2 hw
  refine ⟨[.consumer], { s with
    consumer := .print
    delivered := s.delivered ++ [udpRecv s.endpoint.inet mtu] }, by simp, ⟨_, ?_, rfl⟩,
    (hs.coming (Or.inr hw)).symm, rfl⟩
  simp only [deliveryStep, stepOf, Delivery.next, Delivery.consumerStep, hc, if_neg hno]

theorem fetches_woken (hs : DeliveryInv s) (hw : s.Woken) : Fetches posts s := by
  rcases hw with ⟨hc, hposted⟩ | hc
  · have hst : s.consumerStep =
        some (s.setThreads .copy (s.endpoint.threads.clear .udpRecvHandle)) := by
      simp only [Delivery.consumerStep, hc, Threads.leave, hposted, if_true, Option.map_some]
    have hnext : Fetches posts (s.setThreads .copy (s.endpoint.threads.clear .udpRecvHandle)) :=
      fetches_copy (hs.consumer_step hst) rfl
    exact hnext.cons (Or.inl rfl) hst rfl
  · exact fetches_copy hs hc

/-- The post finds the consumer, once it is in the table. -/
theorem fetches_sleep (hs : DeliveryInv s) (hp : s.PostLeft) (hc : s.consumer = .sleep) :
    Fetches posts s := by
  obtain ⟨hmon, hnew⟩ := hs.pending hp
  have hposted : s.endpoint.threads.bePosted .udpRecvHandle = false := by
    by_contra h
    exact hnew (Or.inl ⟨hc, by simpa using h⟩)
  have hreg := hs.registered.mpr ⟨hc, hposted⟩
  have hst : deliveryStep posts s (.endpoint .monitor)
      { s with endpoint := { s.endpoint with
          monitor := []
          threads := s.endpoint.threads.post .monitorHandle .udpRecvHandle } } := by
    simp [deliveryStep, stepOf, Delivery.next, Endpoint.next, Endpoint.monitorStep, hmon]
  have hnext := deliveryInv_step hs ⟨fun f hf => (by cases hf), fun _ _ => hreg⟩ hst
  exact (fetches_woken hnext (Or.inl ⟨hc, Threads.post_bePosted_self hreg⟩)).cons
    (Or.inr rfl) hst rfl

/-- **Fetching.** A datagram in the slot can always be fetched. -/
theorem fetches_of_coming (hs : DeliveryInv s) (h : s.Coming) : Fetches posts s := by
  rcases h with hp | hw
  · have henter : ∀ u : Delivery, DeliveryInv u → u.PostLeft → u.consumer = .enter →
        Fetches posts u := by
      intro u hu hpu hc
      have hst : u.consumerStep =
          some (u.setThreads .sleep (u.endpoint.threads.enter .udpRecvHandle .monitorHandle)) := by
        simp only [Delivery.consumerStep, hc]
      exact (fetches_sleep (hu.consumer_step hst) hpu rfl).cons (Or.inl rfl) hst rfl
    have hclear : ∀ u : Delivery, DeliveryInv u → u.PostLeft → u.consumer = .clear →
        Fetches posts u := by
      intro u hu hpu hc
      have hst : u.consumerStep =
          some (u.setThreads .enter (u.endpoint.threads.clear .udpRecvHandle)) := by
        simp only [Delivery.consumerStep, hc]
      exact (henter _ (hu.consumer_step hst) hpu rfl).cons (Or.inl rfl) hst rfl
    cases hc : s.consumer with
    | clear => exact hclear s hs hp hc
    | enter => exact henter s hs hp hc
    | sleep => exact fetches_sleep hs hp hc
    | copy => exact fetches_copy hs hc
    | print =>
      have hst : s.consumerStep = some { s with consumer := .clear } := by
        simp only [Delivery.consumerStep, hc]
      exact (hclear _ (hs.consumer_step hst) hp rfl).cons (Or.inl rfl) hst rfl
  · exact fetches_woken hs hw

/-- In a run that is on time every datagram accepted can be delivered. -/
theorem fetches_of_onTime {as : List DeliveryAct} (hs : DeliveryStart s)
    (hin : Every (deliveryStep posts) OnTime s as) (hr : Run (deliveryStep posts) s as t) :
    Fetches posts t := by
  have ht := run_inv (I := DeliveryInv) (fun _ _ _ hi hin hst => deliveryInv_step hi hin hst)
    (deliveryInv_start hs) hin hr
  by_cases h : t.Coming
  · exact fetches_of_coming ht h
  · exact ⟨[], t, nofun, rfl, (ht.fetched h).symm, rfl⟩

end Fetch

/-! ## Two datagrams -/

/-- `udp_recv_handle` has been created, the endpoint is that of `sampleStart`. -/
def sampleDelivery : Delivery where
  endpoint := sampleStart
  consumer := .clear
  arrived := []
  delivered := []

theorem sample_delivery_ok : DeliveryStart sampleDelivery := ⟨rfl, rfl, nofun, rfl, rfl⟩

def sampleDatagram (b : Byte) : Frame := .ofPacket (udpSend samplePeer [b])

/-- The first datagram is fetched; the second one comes, and is posted, before
`udp_recv_handle` waits again. -/
def sampleBurst : List DeliveryAct :=
  [.consumer, .consumer, .endpoint (.frame (sampleDatagram 0x41)), .endpoint .monitor, .consumer,
   .consumer, .endpoint (.frame (sampleDatagram 0x42))] ++ [.endpoint .monitor]

theorem lossless_sample_fails :
    DeliveryStart sampleDelivery ∧
      ¬ Every (deliveryStep postsMonitor) (fun _ _ t => Lossless t) sampleDelivery sampleBurst := by
  refine ⟨sample_delivery_ok, fun h => ?_⟩
  have hlost : ((exec (Delivery.next postsMonitor) sampleDelivery (sampleBurst.take 7)).bind
      (·.next postsMonitor (.endpoint .monitor))).map
        (fun t => (t.arrived, t.delivered, t.consumer, t.endpoint.monitor)) =
      some ([[0x41], [0x42]], [[0x41]], .print, []) := by decide +kernel
  obtain ⟨u, hu, hlost⟩ := Option.map_eq_some_iff.mp hlost
  obtain ⟨t, ht, hu⟩ := Option.bind_eq_some_iff.mp hu
  obtain ⟨harr, hdel, hcons, hmon⟩ : u.arrived = [[0x41], [0x42]] ∧ u.delivered = [[0x41]] ∧
      u.consumer = .print ∧ u.endpoint.monitor = [] := by simpa using hlost
  rcases every_at h ht hu with hl | ⟨-, hp | ⟨hw, -⟩ | hw⟩
  · rw [harr, hdel] at hl
    exact absurd hl (by decide)
  · rw [Delivery.PostLeft, hmon] at hp
    exact List.not_mem_nil hp
  · rw [hcons] at hw
    cases hw
  · rw [hcons] at hw
    cases hw

/-- `OnTime`, evaluated. -/
def checkOnTime (s : Delivery) : DeliveryAct → Bool
  | .endpoint (.frame f) => !decide (UdpDatagram s.endpoint.inet f) ||
      (!(s.consumer = .sleep && s.endpoint.threads.bePosted .udpRecvHandle) && s.consumer ≠ .copy &&
        8 ≤ f.udpLength && f.udpLength ≤ 8 + mtu)
  | .endpoint .monitor => s.endpoint.monitor.head? ≠ some (.post .udpRecvHandle) ||
      s.endpoint.threads.waitThis .monitorHandle .udpRecvHandle
  | _ => true

theorem onTime_of_check (s : Delivery) (a : DeliveryAct) (t : Delivery)
    (h : checkOnTime s a = true) : OnTime s a t := by
  constructor
  · rintro f rfl hudp
    simp only [checkOnTime, hudp, decide_true, Bool.not_true, Bool.false_or, Bool.and_eq_true,
      Bool.not_eq_true', Bool.and_eq_false_iff, decide_eq_false_iff_not, decide_eq_true_eq] at h
    refine ⟨?_, h.1.2, h.2⟩
    rintro (⟨hc, hp⟩ | hc)
    · rcases h.1.1.1 with hne | hfalse
      · exact hne hc
      · exact absurd (hp.symm.trans hfalse) nofun
    · exact h.1.1.2 hc
  · rintro rfl hhead
    simpa [checkOnTime, hhead] using h

/-- The two datagrams, the second one when `udp_recv_handle` waits again. -/
def sampleInTurn : List DeliveryAct :=
  [.consumer, .consumer, .endpoint (.frame (sampleDatagram 0x41)), .endpoint .monitor, .consumer,
   .consumer, .endpoint (.frame (sampleDatagram 0x42)), .consumer, .consumer, .consumer,
   .endpoint .monitor, .consumer, .consumer]

theorem lossless_sample_holds :
    Every (deliveryStep postsMonitor) (fun _ _ t => Lossless t) sampleDelivery sampleInTurn :=
  (lossless_iff_onTime postsMonitor sample_delivery_ok _).mpr
    (every_of_check onTime_of_check (by decide +kernel))

end X64SmpOs.Net

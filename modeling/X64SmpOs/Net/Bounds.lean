import X64SmpOs.Net.Recv

/-!
# Bounds on the receive path

* `Access.InBounds`: an access stays inside the captured frame, or inside the
  array of `g_inet_info` it copies into, and a length does not wrap;
* `RecvSafe`: all accesses made for a frame do, and a datagram leaves at most
  `MTU` bytes valid;
* `FrameOk`: the lengths a frame must have for that, layer by layer;
* `recvSafe_iff_frameOk`: the two are the same, for every frame.
-/

namespace X64SmpOs.Net

open Memory Words

/-- Every byte of the access is where it may be. -/
def Access.InBounds (f : Frame) : Access → Prop
  | .read off n => ∀ i < n, off + i < f.caplen
  | .cstr mem off => ∃ k, off + k < f.caplen ∧ mem (off + k) = 0
  -- the frame is not a part of `g_inet_info`
  | .write _ => False
  | .store size n => n ≤ size
  | .length a b => b ≤ a

def InBounds (f : Frame) (log : List Access) : Prop := ∀ a ∈ log, a.InBounds f

structure UdpDatagram (inet : Inet) (f : Frame) : Prop where
  etherType : f.etherType = etherTypeIp
  srcIp : f.srcIp = inet.remoteIp
  dstIp : f.dstIp = inet.localIp
  protocol : f.protocol = ipLoadUdp

/-- **A datagram** is copied and posted. -/
theorem packetRecv_udp {inet : Inet} {f : Frame} (h : UdpDatagram inet f) :
    (packetRecv inet f).inet = (distributeUdpRecv inet f).inet ∧
      (packetRecv inet f).ops = (distributeUdpRecv inet f).ops := by
  have hne : etherTypeIp ≠ etherTypeArp := by decide
  have hne1 : ipLoadUdp ≠ ipLoadIcmp := by decide
  have hne2 : ipLoadUdp ≠ ipLoadTcp := by decide
  simp only [packetRecv, distributeIpReply, h.etherType, h.srcIp, h.dstIp, h.protocol, if_neg hne,
    if_neg hne1, if_neg hne2, if_true, ne_eq, not_true_eq_false, if_false, Recv.after_inet,
    Recv.after_ops, and_self]

structure RecvSafe (inet : Inet) (f : Frame) : Prop where
  log : InBounds f (packetRecv inet f).log
  dataValid : UdpDatagram inet f → (packetRecv inet f).inet.dataValid ≤ mtu

/-! ## The lengths a frame must have -/

def ArpOk (inet : Inet) (f : Frame) : Prop :=
  32 ≤ f.caplen ∧ (f.arpSenderIp = inet.remoteIp → 42 ≤ f.caplen)

/-- A segment as long as the IP header says, and not a data segment: for those
the handler writes a terminator behind the payload, into the frame. -/
def TcpOk (f : Frame) : Prop :=
  20 ≤ f.totalLength ∧ 48 ≤ f.caplen ∧ 14 + f.totalLength ≤ f.caplen ∧ f.tcpFlags ≠ tcpPshAck

def UdpOk (f : Frame) : Prop :=
  40 ≤ f.caplen ∧ 8 ≤ f.udpLength ∧ f.udpLength ≤ 8 + mtu ∧
    (f.udpLength = 8 ∨ 34 + f.udpLength ≤ f.caplen)

def PayloadOk (f : Frame) : Prop :=
  (f.protocol = ipLoadIcmp → 35 ≤ f.caplen) ∧ (f.protocol = ipLoadTcp → TcpOk f) ∧
    (f.protocol = ipLoadUdp → UdpOk f)

def IpOk (inet : Inet) (f : Frame) : Prop :=
  30 ≤ f.caplen ∧
    (f.srcIp = inet.remoteIp → 34 ≤ f.caplen ∧ (f.dstIp = inet.localIp → PayloadOk f))

def FrameOk (inet : Inet) (f : Frame) : Prop :=
  14 ≤ f.caplen ∧ (f.etherType = etherTypeArp → ArpOk inet f) ∧
    (f.etherType = etherTypeIp → IpOk inet f)

/-! ## Accesses -/

section Accesses

variable {f : Frame}

@[simp] theorem inBounds_nil : InBounds f [] := nofun

@[simp] theorem inBounds_cons {a : Access} {log : List Access} :
    InBounds f (a :: log) ↔ a.InBounds f ∧ InBounds f log :=
  List.forall_mem_cons

@[simp] theorem inBounds_append {log log' : List Access} :
    InBounds f (log ++ log') ↔ InBounds f log ∧ InBounds f log' :=
  List.forall_mem_append

@[simp] theorem inBounds_after {r : Recv} {log : List Access} :
    InBounds f (r.after log).log ↔ InBounds f log ∧ InBounds f r.log :=
  inBounds_append

theorem read_inBounds {off n : Nat} :
    (Access.read off n).InBounds f ↔ n = 0 ∨ off + n ≤ f.caplen := by
  unfold Access.InBounds
  constructor
  · intro h
    by_cases hn : n = 0
    · exact Or.inl hn
    · have hlast := h (n - 1) (by omega)
      omega
  · omega

/-- A read of a fixed positive size. -/
@[simp] theorem read_succ_inBounds {off n : Nat} :
    (Access.read off (n + 1)).InBounds f ↔ off + n < f.caplen := by
  rw [read_inBounds]
  omega

@[simp] theorem length_inBounds {a b : Nat} : (Access.length a b).InBounds f ↔ b ≤ a := Iff.rfl

@[simp] theorem store_inBounds {size n : Nat} : (Access.store size n).InBounds f ↔ n ≤ size :=
  Iff.rfl

end Accesses

theorem totalLength_lt (f : Frame) : f.totalLength < 2 ^ 16 := BitVec.isLt _

theorem udpLength_lt (f : Frame) : f.udpLength < 2 ^ 16 := BitVec.isLt _

/-! ## Handlers -/

theorem dealArpReply_inBounds (inet : Inet) (f : Frame) :
    InBounds f (dealArpReply inet f).2.2 ↔ ArpOk inet f := by
  rw [dealArpReply, ArpOk]
  split
  · rename_i hs
    split <;> simp [hs] <;> omega
  · rename_i hs
    simp [hs]
    omega

theorem distributeIcmpReply_inBounds (inet : Inet) (f : Frame) :
    InBounds f (distributeIcmpReply inet f).log ↔ 35 ≤ f.caplen := by
  rw [distributeIcmpReply]
  split <;> simp <;> omega

/-- What every segment is printed and looked at for. -/
theorem printed_inBounds {f : Frame} (h : 20 ≤ f.totalLength) :
    InBounds f (printHexString 34 (sub64 f.totalLength 20) ++ [.read 47 1]) ↔
      48 ≤ f.caplen ∧ 14 + f.totalLength ≤ f.caplen := by
  have hlt := totalLength_lt f
  have hlen : (s32 (sub64 f.totalLength 20)).toNat = f.totalLength - 20 := by
    rw [sub64_of_le (by omega) h, s32_of_lt (by omega), Int.toNat_natCast]
  simp only [printHexString, hlen, inBounds_append, inBounds_cons, inBounds_nil, and_true,
    read_inBounds]
  omega

/-- The terminator behind the payload. -/
theorem dealTcpDataRecv_not_inBounds (inet : Inet) (f : Frame) (off len : Nat) :
    ¬ InBounds f (dealTcpDataRecv inet f off len).log := by
  intro h
  apply h (.write (u64 (off + len)))
  rw [dealTcpDataRecv]
  split <;> exact List.mem_cons_self ..

theorem distributeTcpRecv_inBounds (inet : Inet) {f : Frame} (h : 20 ≤ f.totalLength) :
    InBounds f (distributeTcpRecv inet f (sub64 f.totalLength 20)).log ↔ TcpOk f := by
  have hprint := printed_inBounds h
  have hplain : f.tcpFlags ≠ tcpPshAck →
      ((48 ≤ f.caplen ∧ 14 + f.totalLength ≤ f.caplen) ↔ TcpOk f) :=
    fun hne => ⟨fun ⟨h1, h2⟩ => ⟨h, h1, h2, hne⟩, fun ⟨_, h1, h2, _⟩ => ⟨h1, h2⟩⟩
  rw [distributeTcpRecv]
  split
  · rename_i hflag
    have hok := hplain (by rw [hflag]; decide)
    split
    · -- the sequence number lies before the flags
      rw [inBounds_append, hprint, hok, inBounds_cons, read_succ_inBounds]
      refine and_iff_left_of_imp fun hseg => ⟨?_, inBounds_nil⟩
      have hcap := hseg.2.1
      omega
    · rw [hprint, hok]
  · split
    · rename_i hflag
      refine iff_of_false (fun hsafe => ?_) (fun hok => hok.2.2.2 hflag)
      exact dealTcpDataRecv_not_inBounds _ _ _ _ (inBounds_append.mp hsafe).2
    · rw [hprint, hplain ‹_›]

theorem distributeUdpRecv_inBounds (inet : Inet) (f : Frame) :
    InBounds f (distributeUdpRecv inet f).log ↔ UdpOk f := by
  have hlt := udpLength_lt f
  simp only [distributeUdpRecv, inBounds_cons, inBounds_nil, read_inBounds, length_inBounds,
    store_inBounds, UdpOk]
  by_cases h : 8 ≤ f.udpLength
  · rw [sub64_of_le (by omega) h]
    simp only [and_true]
    omega
  · simp [h]

/-- The segment's length is computed on the way to its handler. -/
theorem tcpPayload_inBounds (inet : Inet) (f : Frame) :
    InBounds f ((distributeTcpRecv inet f (sub64 f.totalLength 20)).after
      [.read 16 2, .length f.totalLength 20]).log ↔ TcpOk f := by
  simp only [inBounds_after, inBounds_cons, inBounds_nil, and_true, length_inBounds,
    read_succ_inBounds]
  constructor
  · rintro ⟨⟨-, h⟩, hlog⟩
    exact (distributeTcpRecv_inBounds inet h).mp hlog
  · intro hok
    have hcap := hok.2.1
    exact ⟨⟨by omega, hok.1⟩, (distributeTcpRecv_inBounds inet hok.1).mpr hok⟩

section Payload

variable {f : Frame}

theorem payloadOk_icmp (h : f.protocol = ipLoadIcmp) : PayloadOk f ↔ 35 ≤ f.caplen := by
  simp [PayloadOk, h, ipLoadIcmp, ipLoadTcp, ipLoadUdp]

theorem payloadOk_tcp (h : f.protocol = ipLoadTcp) : PayloadOk f ↔ TcpOk f := by
  simp [PayloadOk, h, ipLoadIcmp, ipLoadTcp, ipLoadUdp]

theorem payloadOk_udp (h : f.protocol = ipLoadUdp) : PayloadOk f ↔ UdpOk f := by
  simp [PayloadOk, h, ipLoadIcmp, ipLoadTcp, ipLoadUdp]

end Payload

theorem distributeIpReply_inBounds (inet : Inet) (f : Frame) :
    InBounds f (distributeIpReply inet f).log ↔ IpOk inet f := by
  -- the header fields looked at before the payload's handler
  have hheader : InBounds f [.read 26 4, .read 30 4, .read 23 1] ↔
      30 ≤ f.caplen ∧ 34 ≤ f.caplen := by
    simp only [inBounds_cons, inBounds_nil, and_true, read_succ_inBounds]
    omega
  rw [distributeIpReply, IpOk]
  split
  · rename_i hsrc
    simp only [hsrc, false_imp_iff, and_true, inBounds_cons, inBounds_nil, read_succ_inBounds]
    omega
  · rename_i hsrc
    rw [not_not.mp hsrc]
    split
    · rename_i hdst
      simp only [hdst, true_imp_iff, false_imp_iff, and_true, inBounds_cons, inBounds_nil,
        read_succ_inBounds]
      omega
    · rename_i hdst
      simp only [not_not.mp hdst, true_imp_iff]
      rw [← and_assoc, ← hheader]
      split
      · rename_i hp
        rw [inBounds_after, payloadOk_icmp hp, distributeIcmpReply_inBounds]
      · split
        · rename_i hp
          rw [payloadOk_tcp hp, ← tcpPayload_inBounds inet f]
          simp only [inBounds_after, inBounds_append, and_assoc]
        · split
          · rename_i hp
            rw [inBounds_after, payloadOk_udp hp, distributeUdpRecv_inBounds]
          · rename_i hi ht hu
            simp only [PayloadOk, hi, ht, hu, false_imp_iff, and_true]

theorem packetRecv_inBounds (inet : Inet) (f : Frame) :
    InBounds f (packetRecv inet f).log ↔ FrameOk inet f := by
  have hne : etherTypeIp ≠ etherTypeArp := by decide
  rw [packetRecv, FrameOk]
  split
  · rename_i harp
    simp only [inBounds_cons, read_succ_inBounds, dealArpReply_inBounds, harp, true_imp_iff,
      hne.symm, false_imp_iff, and_true]
    exact Iff.rfl
  · rename_i harp
    split
    · rename_i hip
      simp only [inBounds_after, inBounds_cons, inBounds_nil, read_succ_inBounds, and_true,
        distributeIpReply_inBounds, hip, hne, false_imp_iff, true_imp_iff, true_and]
      exact Iff.rfl
    · rename_i hip
      simp only [inBounds_cons, inBounds_nil, read_succ_inBounds, harp, hip,
        false_imp_iff, and_true]
      exact Iff.rfl

/-- A datagram of the right length leaves its payload's length. -/
theorem dataValid_of_udpOk {inet : Inet} {f : Frame} (h : UdpDatagram inet f) (hok : UdpOk f) :
    (packetRecv inet f).inet.dataValid = f.udpLength - 8 := by
  have hlt := udpLength_lt f
  rw [(packetRecv_udp h).1]
  exact sub64_of_le (by omega) hok.2.1

/-- **Receive bounds.** The accesses made for a frame stay in bounds exactly when
the frame has the lengths its headers promise and is no data segment. -/
theorem recvSafe_iff_frameOk (inet : Inet) (f : Frame) : RecvSafe inet f ↔ FrameOk inet f := by
  rw [← packetRecv_inBounds]
  refine ⟨fun h => h.log, fun h => ⟨h, fun hudp => ?_⟩⟩
  have hok : UdpOk f := by
    have hip := ((packetRecv_inBounds inet f).mp h).2.2 hudp.etherType
    exact (payloadOk_udp hudp.protocol).mp ((hip.2 hudp.srcIp).2 hudp.dstIp)
  rw [dataValid_of_udpOk hudp hok]
  have hmtu := hok.2.2.1
  omega

/-- One byte of data from the remote host, captured whole. -/
theorem recvSafe_sample_fails :
    ¬ RecvSafe sampleInet (Frame.ofPacket (tcpSend samplePeer [0x41])) := by
  intro h
  have hdata : DataSegment sampleInet (Frame.ofPacket (tcpSend samplePeer [0x41])) := by
    decide +kernel
  have hok := (packetRecv_inBounds _ _).mp h.log
  have htcp := ((hok.2.2 hdata.1.etherType).2 hdata.1.srcIp).2 hdata.1.dstIp
  exact (htcp.2.1 hdata.1.protocol).2.2.2 hdata.2

end X64SmpOs.Net

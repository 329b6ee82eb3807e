import X64SmpOs.Lib.Words
import X64SmpOs.Net.Send

/-!
# The receive path

`packetRecv` and the handlers under it. A handler updates `g_inet_info` first
and then posts, waits or sends; `Recv` keeps the two apart and logs what the
handler reads and writes.

* `dealArpReply`, `distributeIcmpReply`, `distributeTcpRecv`,
  `distributeUdpRecv`, `distributeIpReply`, `packetRecv`;
* `Handled`, `packetRecv_handled`: the handlers a frame can come to;
* `TcpSegment`, `SynAck`, `DataSegment`: the segments of the remote host;
* `packetRecv_synAck`, `packetRecv_data`, `packetRecv_other`: all that a frame
  can do to the connection.
-/

namespace X64SmpOs.Net

open Memory Words

/-! ## Fields -/

def Frame.etherType (f : Frame) : BitVec 16 := ntohs (f.u16 12)
def Frame.arpSenderIp (f : Frame) : BitVec 32 := f.u32 28
def Frame.arpTargetIp (f : Frame) : BitVec 32 := f.u32 38
def Frame.totalLength (f : Frame) : Nat := (ntohs (f.u16 16)).toNat
def Frame.protocol (f : Frame) : BitVec 8 := f.u8 23
def Frame.srcIp (f : Frame) : BitVec 32 := f.u32 26
def Frame.dstIp (f : Frame) : BitVec 32 := f.u32 30
def Frame.icmpType (f : Frame) : BitVec 8 := f.u8 34
def Frame.udpLength (f : Frame) : Nat := (ntohs (f.u16 38)).toNat

/-- `(tcp->data_offset >> 4)*4`. -/
def Frame.tcpHeaderLen (f : Frame) : Nat := (f.u8 46 >>> 4).toNat * 4

section Packet

variable (e : EtherHeader) (i : IpHeader) (rest : List Byte)

theorem etherType_ipPacket :
    (Frame.ofPacket (e.bytes ++ (i.bytes ++ rest))).etherType = ntohs e.etherType := by
  have hsplit : e.bytes ++ (i.bytes ++ rest) =
      (e.etherDhost.toList ++ e.etherShost.toList) ++ (le16 e.etherType ++ (i.bytes ++ rest)) := by
    simp only [EtherHeader.bytes, List.append_assoc]
  rw [Frame.etherType, hsplit, u16_field _ _ (by simp)]

theorem totalLength_ipPacket :
    (Frame.ofPacket (e.bytes ++ (i.bytes ++ rest))).totalLength = (ntohs i.totalLength).toNat := by
  have hsplit : e.bytes ++ (i.bytes ++ rest) =
      (e.bytes ++ [i.versionIhl, i.tos]) ++ (le16 i.totalLength ++ (le16 i.identification ++
        (le16 i.flagsFragment ++ (i.ttl :: i.protocol :: (le16 i.checksum ++ (le32 i.srcIp ++
          (le32 i.dstIp ++ rest))))))) := by
    simp only [IpHeader.bytes, List.append_assoc, List.cons_append, List.nil_append]
  rw [Frame.totalLength, hsplit, u16_field _ _ (by simp)]

theorem protocol_ipPacket :
    (Frame.ofPacket (e.bytes ++ (i.bytes ++ rest))).protocol = i.protocol := by
  have hsplit : e.bytes ++ (i.bytes ++ rest) =
      (e.bytes ++ (i.versionIhl :: i.tos :: (le16 i.totalLength ++ (le16 i.identification ++
        (le16 i.flagsFragment ++ [i.ttl]))))) ++ (i.protocol :: (le16 i.checksum ++ (le32 i.srcIp ++
          (le32 i.dstIp ++ rest)))) := by
    simp only [IpHeader.bytes, List.append_assoc, List.cons_append, List.nil_append]
  rw [Frame.protocol, hsplit, u8_field _ _ (by simp)]

theorem srcIp_ipPacket :
    (Frame.ofPacket (e.bytes ++ (i.bytes ++ rest))).srcIp = i.srcIp := by
  have hsplit : e.bytes ++ (i.bytes ++ rest) =
      (e.bytes ++ (i.versionIhl :: i.tos :: (le16 i.totalLength ++ (le16 i.identification ++
        (le16 i.flagsFragment ++ (i.ttl :: i.protocol :: le16 i.checksum)))))) ++
        (le32 i.srcIp ++ (le32 i.dstIp ++ rest)) := by
    simp only [IpHeader.bytes, List.append_assoc, List.cons_append]
  rw [Frame.srcIp, hsplit, u32_field _ _ (by simp)]

theorem dstIp_ipPacket :
    (Frame.ofPacket (e.bytes ++ (i.bytes ++ rest))).dstIp = i.dstIp := by
  have hsplit : e.bytes ++ (i.bytes ++ rest) =
      (e.bytes ++ (i.versionIhl :: i.tos :: (le16 i.totalLength ++ (le16 i.identification ++
        (le16 i.flagsFragment ++ (i.ttl :: i.protocol :: (le16 i.checksum ++ le32 i.srcIp))))))) ++
        (le32 i.dstIp ++ rest) := by
    simp only [IpHeader.bytes, List.append_assoc, List.cons_append]
  rw [Frame.dstIp, hsplit, u32_field _ _ (by simp)]

end Packet

/-! ## What a handler does -/

/-- A step of the monitor thread after the update of `g_inet_info`. A call of
`nst_wait_by_name` is three steps. -/
inductive MonOp
  | post (name : ThreadName)
  | clear
  | enter (wait : ThreadName)
  | sleep (wait : ThreadName)
  | sendControl (flag : BitVec 8)
  deriving DecidableEq, Repr

def nstWaitByName (wait : ThreadName) : List MonOp := [.clear, .enter wait, .sleep wait]

/-- An access to the frame, a copy into an array of `g_inet_info`, or the
computation of a payload length. -/
inductive Access
  | read (off n : Nat)
  /-- A string, read up to its terminator. -/
  | cstr (mem : Mem) (off : Nat)
  | write (off : Nat)
  /-- `n` bytes copied into a field of `size` bytes. -/
  | store (size n : Nat)
  /-- The length `a - b` as a `size_t`. -/
  | length (a b : Nat)

structure Recv where
  inet : Inet
  ops : List MonOp
  log : List Access

/-- The accesses a caller makes before its handler runs. -/
def Recv.after (log : List Access) (r : Recv) : Recv := { r with log := log ++ r.log }

@[simp] theorem Recv.after_inet (log : List Access) (r : Recv) : (r.after log).inet = r.inet := rfl
@[simp] theorem Recv.after_ops (log : List Access) (r : Recv) : (r.after log).ops = r.ops := rfl

/-! ## Handlers -/

/-- The returned number is `ret`. -/
def dealArpReply (inet : Inet) (f : Frame) : Int × Inet × List Access :=
  if f.arpSenderIp = inet.remoteIp then
    if f.arpTargetIp = inet.localIp then
      (0, { inet with remoteMac := Vector.ofFn fun i => f.bytes (22 + i) },
        [.read 28 4, .read 38 4, .read 22 6, .store 6 6])
    else (-1, inet, [.read 28 4, .read 38 4])
  else (-1, inet, [.read 28 4])

def distributeIcmpReply (inet : Inet) (f : Frame) : Recv :=
  if f.icmpType = icmpTypeReplyEcho then
    ⟨{ inet with pingSuccess := true }, [.post .icmpReqHandle], [.read 34 1]⟩
  else ⟨inet, [], [.read 34 1]⟩

/-- `print_hex_string`, whose length is an `int`. -/
def printHexString (off len : Nat) : List Access := [.read off (s32 len).toNat]

/-- `data` points to `off` in the frame. -/
def dealTcpDataRecv (inet : Inet) (f : Frame) (off len : Nat) : Recv :=
  let last := u64 (off + len)
  if inet.tcpStatus = .connected then
    ⟨inet, nstWaitByName .tcpDataRecvHandle,
      [.write last, .cstr (Function.update f.bytes last 0) off]⟩
  else ⟨inet, [], [.write last]⟩

def distributeTcpRecv (inet : Inet) (f : Frame) (tcpLen : Nat) : Recv :=
  let log := printHexString 34 tcpLen ++ [.read 47 1]
  if f.tcpFlags = tcpSynAck then
    if inet.tcpStatus = .hand1 then
      ⟨{ inet with
          tcpStatus := .hand2
          seqNum := inet.seqNum + 1
          ackNum := f.sequenceNum + 1 },
        [.post .tcpConnectHandle], log ++ [.read 38 4]⟩
    else ⟨inet, [], log⟩
  else if f.tcpFlags = tcpPshAck then
    let datalen := sub64 tcpLen f.tcpHeaderLen
    let inet' :=
      { inet with
        seqNum := inet.seqNum + 1
        ackNum := f.sequenceNum + BitVec.ofNat 32 datalen }
    let r := dealTcpDataRecv inet' f (34 + f.tcpHeaderLen) datalen
    ⟨r.inet, r.ops ++ [.sendControl tcpAck],
      log ++ [.read 46 1, .length tcpLen f.tcpHeaderLen, .read 38 4] ++ r.log⟩
  -- a plain ACK and every other combination of flags
  else ⟨inet, [], log⟩

def distributeUdpRecv (inet : Inet) (f : Frame) : Recv :=
  let datalen := sub64 f.udpLength 8
  ⟨{ inet with
      data := fun i => if i < datalen then f.bytes (42 + i) else inet.data i
      dataValid := datalen },
    [.post .udpRecvHandle],
    [.read 38 2, .length f.udpLength 8, .read 42 datalen, .store mtu datalen]⟩

def distributeIpReply (inet : Inet) (f : Frame) : Recv :=
  if f.srcIp ≠ inet.remoteIp then ⟨inet, [], [.read 26 4]⟩
  else if f.dstIp ≠ inet.localIp then ⟨inet, [], [.read 26 4, .read 30 4]⟩
  else
    let log : List Access := [.read 26 4, .read 30 4, .read 23 1]
    if f.protocol = ipLoadIcmp then (distributeIcmpReply inet f).after log
    else if f.protocol = ipLoadTcp then
      (distributeTcpRecv inet f (sub64 f.totalLength 20)).after
        (log ++ [.read 16 2, .length f.totalLength 20])
    else if f.protocol = ipLoadUdp then (distributeUdpRecv inet f).after log
    else ⟨inet, [], log⟩

def packetRecv (inet : Inet) (f : Frame) : Recv :=
  if f.etherType = etherTypeArp then
    let (ret, inet', log) := dealArpReply inet f
    ⟨inet', if ret = 0 then [.post .icmpReqHandle] else [], .read 12 2 :: log⟩
  else if f.etherType = etherTypeIp then (distributeIpReply inet f).after [.read 12 2]
  else ⟨inet, [], [.read 12 2]⟩

/-! ## Dispatch -/

/-- An IP packet that `distribute_ip_reply` hands to the handler of `protocol`. -/
structure Passes (inet : Inet) (f : Frame) (protocol : BitVec 8) : Prop where
  etherType : f.etherType = etherTypeIp
  srcIp : f.srcIp = inet.remoteIp
  dstIp : f.dstIp = inet.localIp
  protocol : f.protocol = protocol

/-- What comes of a frame, but for the accesses. -/
inductive Handled (inet : Inet) (f : Frame) (r : Recv) : Prop
  | arp (etherType : f.etherType = etherTypeArp) (sender : f.arpSenderIp = inet.remoteIp)
      (target : f.arpTargetIp = inet.localIp)
      (info : r.inet = { inet with remoteMac := Vector.ofFn fun i => f.bytes (22 + i) })
      (ops : r.ops = [.post .icmpReqHandle])
  | echo (passes : Passes inet f ipLoadIcmp) (type : f.icmpType = icmpTypeReplyEcho)
      (info : r.inet = { inet with pingSuccess := true }) (ops : r.ops = [.post .icmpReqHandle])
  | tcp (passes : Passes inet f ipLoadTcp)
      (info : r.inet = (distributeTcpRecv inet f (sub64 f.totalLength 20)).inet)
      (ops : r.ops = (distributeTcpRecv inet f (sub64 f.totalLength 20)).ops)
  | udp (passes : Passes inet f ipLoadUdp) (info : r.inet = (distributeUdpRecv inet f).inet)
      (ops : r.ops = [.post .udpRecvHandle])
  | nothing (arp : f.etherType = etherTypeArp → f.arpSenderIp = inet.remoteIp →
        f.arpTargetIp ≠ inet.localIp)
      (echo : Passes inet f ipLoadIcmp → f.icmpType ≠ icmpTypeReplyEcho)
      (info : r.inet = inet) (ops : r.ops = [])

theorem handled_arp {inet : Inet} {f : Frame} (h : f.etherType = etherTypeArp) :
    Handled inet f (packetRecv inet f) := by
  have hne : etherTypeArp ≠ etherTypeIp := by decide
  have hecho : Passes inet f ipLoadIcmp → f.icmpType ≠ icmpTypeReplyEcho :=
    fun hp => absurd (h.symm.trans hp.etherType) hne
  rw [packetRecv, if_pos h, dealArpReply]
  by_cases hs : f.arpSenderIp = inet.remoteIp
  · by_cases ht : f.arpTargetIp = inet.localIp
    · simp only [hs, ht, if_true]
      exact .arp h hs ht rfl rfl
    · simp only [hs, ht, if_true, if_false]
      exact .nothing (fun _ _ => ht) hecho rfl rfl
  · simp only [hs, if_false]
    exact .nothing (fun _ hs' => absurd hs' hs) hecho rfl rfl

theorem handled_ip {inet : Inet} {f : Frame} (h : f.etherType = etherTypeIp) :
    Handled inet f (distributeIpReply inet f) := by
  have hne : etherTypeIp ≠ etherTypeArp := by decide
  have harp : f.etherType = etherTypeArp → f.arpSenderIp = inet.remoteIp →
      f.arpTargetIp ≠ inet.localIp := fun ha => absurd (h.symm.trans ha) hne
  unfold distributeIpReply
  split
  · rename_i hs
    exact .nothing harp (fun hp => absurd hp.srcIp hs) rfl rfl
  · rename_i hs
    split
    · rename_i hd
      exact .nothing harp (fun hp => absurd hp.dstIp hd) rfl rfl
    · rename_i hd
      have hpass : ∀ p, f.protocol = p → Passes inet f p :=
        fun _ => .mk h (not_not.mp hs) (not_not.mp hd)
      split
      · rename_i hp
        rw [distributeIcmpReply]
        split
        · exact .echo (hpass _ hp) ‹_› rfl rfl
        · exact .nothing harp (fun _ => ‹_›) rfl rfl
      · rename_i hicmp
        split
        · exact .tcp (hpass _ ‹_›) rfl rfl
        · split
          · exact .udp (hpass _ ‹_›) rfl rfl
          · exact .nothing harp (fun hp => absurd hp.protocol hicmp) rfl rfl

theorem Handled.after {inet : Inet} {f : Frame} {r : Recv} (h : Handled inet f r)
    (log : List Access) : Handled inet f (r.after log) := by
  cases h with
  | arp etherType sender target info ops => exact .arp etherType sender target info ops
  | echo passes type info ops => exact .echo passes type info ops
  | tcp passes info ops => exact .tcp passes info ops
  | udp passes info ops => exact .udp passes info ops
  | nothing arp echo info ops => exact .nothing arp echo info ops

/-- **Dispatch rule.** -/
theorem packetRecv_handled (inet : Inet) (f : Frame) : Handled inet f (packetRecv inet f) := by
  by_cases harp : f.etherType = etherTypeArp
  · exact handled_arp harp
  · rw [packetRecv, if_neg harp]
    split
    · exact (handled_ip ‹_›).after _
    · rename_i hip
      exact .nothing (fun ha => absurd ha harp) (fun hp => absurd hp.etherType hip) rfl rfl

/-! ## Segments of the remote host -/

/-- A TCP segment as `distribute_ip_reply` lets it through. -/
structure TcpSegment (inet : Inet) (f : Frame) : Prop where
  etherType : f.etherType = etherTypeIp
  srcIp : f.srcIp = inet.remoteIp
  dstIp : f.dstIp = inet.localIp
  protocol : f.protocol = ipLoadTcp

instance (inet : Inet) (f : Frame) : Decidable (TcpSegment inet f) :=
  decidable_of_iff (f.etherType = etherTypeIp ∧ f.srcIp = inet.remoteIp ∧ f.dstIp = inet.localIp ∧
    f.protocol = ipLoadTcp) ⟨fun ⟨a, b, c, d⟩ => ⟨a, b, c, d⟩, fun ⟨a, b, c, d⟩ => ⟨a, b, c, d⟩⟩

def SynAck (inet : Inet) (f : Frame) : Prop := TcpSegment inet f ∧ f.tcpFlags = tcpSynAck

def DataSegment (inet : Inet) (f : Frame) : Prop := TcpSegment inet f ∧ f.tcpFlags = tcpPshAck

instance (inet : Inet) (f : Frame) : Decidable (SynAck inet f) :=
  inferInstanceAs (Decidable (_ ∧ _))

instance (inet : Inet) (f : Frame) : Decidable (DataSegment inet f) :=
  inferInstanceAs (Decidable (_ ∧ _))

theorem SynAck.not_data {inet : Inet} {f : Frame} (h : SynAck inet f) : ¬ DataSegment inet f :=
  fun h' => absurd (h.2.symm.trans h'.2) (by decide)

/-- The payload length as the handler computes it. -/
def Frame.tcpDataLen (f : Frame) : Nat := sub64 (sub64 f.totalLength 20) f.tcpHeaderLen

theorem packetRecv_tcp {inet : Inet} {f : Frame} (h : TcpSegment inet f) :
    packetRecv inet f = ((distributeTcpRecv inet f (sub64 f.totalLength 20)).after
      [.read 26 4, .read 30 4, .read 23 1, .read 16 2, .length f.totalLength 20]).after
        [.read 12 2] := by
  have hne : etherTypeIp ≠ etherTypeArp := by decide
  have hne' : ipLoadTcp ≠ ipLoadIcmp := by decide
  simp only [packetRecv, distributeIpReply, h.etherType, h.srcIp, h.dstIp, h.protocol, if_neg hne,
    if_neg hne', if_true, ne_eq, not_true_eq_false, if_false]
  rfl

/-- **A SYN+ACK** in `TCP_HAND_1`. -/
theorem packetRecv_synAck {inet : Inet} {f : Frame} (h : SynAck inet f)
    (hst : inet.tcpStatus = .hand1) :
    (packetRecv inet f).inet = { inet with
      tcpStatus := .hand2
      seqNum := inet.seqNum + 1
      ackNum := f.sequenceNum + 1 } ∧
    (packetRecv inet f).ops = [.post .tcpConnectHandle] := by
  rw [packetRecv_tcp h.1]
  simp [distributeTcpRecv, h.2, hst]

/-- **A data segment**, in every state. -/
theorem packetRecv_data {inet : Inet} {f : Frame} (h : DataSegment inet f) :
    (packetRecv inet f).inet = { inet with
      seqNum := inet.seqNum + 1
      ackNum := f.sequenceNum + BitVec.ofNat 32 f.tcpDataLen } ∧
    (packetRecv inet f).ops =
      (if inet.tcpStatus = .connected then nstWaitByName .tcpDataRecvHandle else []) ++
        [.sendControl tcpAck] := by
  have hne : tcpPshAck ≠ tcpSynAck := by decide
  rw [packetRecv_tcp h.1]
  simp only [Recv.after_inet, Recv.after_ops, distributeTcpRecv, h.2, if_neg hne, if_true,
    dealTcpDataRecv]
  split <;> exact ⟨rfl, rfl⟩

/-- The part of `g_inet_info` the connection is in. -/
def Inet.tcp (inet : Inet) : BitVec 32 × BitVec 32 × TcpState :=
  (inet.seqNum, inet.ackNum, inet.tcpStatus)

/-- The connection is left alone, and at most another thread than the connecting
one is woken. -/
structure Recv.Keeps (r : Recv) (inet : Inet) : Prop where
  tcp : r.inet.tcp = inet.tcp
  ops : ∀ op ∈ r.ops, ∃ name, op = .post name ∧ name ≠ .tcpConnectHandle

theorem Recv.keeps_of_post {r : Recv} {inet : Inet} {name : ThreadName}
    (htcp : r.inet.tcp = inet.tcp) (hops : r.ops = [.post name])
    (hname : name ≠ .tcpConnectHandle) : r.Keeps inet := by
  refine ⟨htcp, fun op hop => ?_⟩
  rw [hops] at hop
  exact ⟨name, List.mem_singleton.mp hop, hname⟩

theorem Recv.keeps_of_nothing {r : Recv} {inet : Inet} (hinet : r.inet = inet)
    (hops : r.ops = []) : r.Keeps inet :=
  ⟨by rw [hinet], by simp [hops]⟩

theorem distributeUdpRecv_tcp (inet : Inet) (f : Frame) :
    (distributeUdpRecv inet f).inet.tcp = inet.tcp := by
  have htcp : ∀ (data : Fin mtu → Byte) (n : Nat),
      { inet with data := data, dataValid := n }.tcp = inet.tcp := fun _ _ => rfl
  exact htcp _ _

theorem distributeTcpRecv_other {inet : Inet} {f : Frame} (n : Nat)
    (hdata : f.tcpFlags ≠ tcpPshAck) (hsyn : f.tcpFlags = tcpSynAck → inet.tcpStatus ≠ .hand1) :
    (distributeTcpRecv inet f n).inet = inet ∧ (distributeTcpRecv inet f n).ops = [] := by
  simp only [distributeTcpRecv, if_neg hdata]
  split
  · rw [if_neg (hsyn ‹_›)]
    exact ⟨rfl, rfl⟩
  · exact ⟨rfl, rfl⟩

/-- **Any other frame** leaves the connection alone. -/
theorem packetRecv_other {inet : Inet} {f : Frame} (hdata : ¬ DataSegment inet f)
    (hsyn : ¬ (SynAck inet f ∧ inet.tcpStatus = .hand1)) : (packetRecv inet f).Keeps inet := by
  cases packetRecv_handled inet f with
  | arp _ _ _ info ops | echo _ _ info ops =>
    refine Recv.keeps_of_post ?_ ops nofun
    rw [info]
    simp only [Inet.tcp]
  | tcp passes info ops =>
    have hseg : TcpSegment inet f :=
      ⟨passes.etherType, passes.srcIp, passes.dstIp, passes.protocol⟩
    obtain ⟨hinet, hops⟩ := distributeTcpRecv_other (sub64 f.totalLength 20)
      (fun hflag => hdata ⟨hseg, hflag⟩) (fun hflag hst => hsyn ⟨⟨hseg, hflag⟩, hst⟩)
    exact Recv.keeps_of_nothing (info.trans hinet) (ops.trans hops)
  | udp _ info ops =>
    have htcp := distributeUdpRecv_tcp inet f
    rw [← info] at htcp
    exact Recv.keeps_of_post htcp ops nofun
  | nothing _ _ info ops => exact Recv.keeps_of_nothing info ops

end X64SmpOs.Net

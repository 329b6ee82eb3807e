import X64SmpOs.Net.Bounds
import X64SmpOs.Net.Checksum

/-!
# Datagrams

* `Frame.udpPayload`, `udpRecv`: the payload of a datagram, and what `udp_recv`
  copies out of `g_inet_info`;
* `udpRecv_distributeUdpRecv`: the two are the same when the datagram fits;
* `udpDatagram_udpSend`: what `udp_send` puts on the wire is read back;
* `packetRecv_keepsSlot`: other frames leave the datagram kept alone.
-/

namespace X64SmpOs.Net

open Memory Words

/-- The payload of a datagram as long as its header says. -/
def Frame.udpPayload (f : Frame) : List Byte :=
  (List.range (f.udpLength - 8)).map fun i => f.bytes (42 + i)

instance (inet : Inet) (f : Frame) : Decidable (UdpDatagram inet f) :=
  decidable_of_iff (f.etherType = etherTypeIp ∧ f.srcIp = inet.remoteIp ∧ f.dstIp = inet.localIp ∧
    f.protocol = ipLoadUdp) ⟨fun ⟨a, b, c, d⟩ => ⟨a, b, c, d⟩, fun ⟨a, b, c, d⟩ => ⟨a, b, c, d⟩⟩

/-- What `udp_recv` copies to a buffer of `len` bytes. -/
def udpRecv (inet : Inet) (len : Nat) : List Byte :=
  (List.ofFn inet.data).take (min inet.dataValid len)

/-! ## The slot -/

theorem length_udpRecv (inet : Inet) : (udpRecv inet mtu).length = min inet.dataValid mtu := by
  simp [udpRecv]

theorem getElem_udpRecv (inet : Inet) (i : Nat) (h : i < (udpRecv inet mtu).length) :
    (udpRecv inet mtu)[i] =
      inet.data ⟨i, Nat.lt_of_lt_of_le h (length_udpRecv inet ▸ Nat.min_le_right ..)⟩ := by
  simp [udpRecv]

theorem distributeUdpRecv_data (inet : Inet) (f : Frame) (i : Fin mtu)
    (h : i.val < sub64 f.udpLength 8) :
    (distributeUdpRecv inet f).inet.data i = f.bytes (42 + i) := by
  unfold distributeUdpRecv
  simp only [h, if_true]

theorem Frame.getElem_udpPayload (f : Frame) (i : Nat) (h : i < f.udpPayload.length) :
    f.udpPayload[i] = f.bytes (42 + i) := by
  simp [udpPayload]

/-- The datagram in the slot is the one received exactly when it fits. -/
theorem udpRecv_distributeUdpRecv (inet : Inet) (f : Frame) :
    udpRecv (distributeUdpRecv inet f).inet mtu = f.udpPayload ↔
      8 ≤ f.udpLength ∧ f.udpLength ≤ 8 + mtu := by
  have hlt := udpLength_lt f
  constructor
  · intro h
    have hlen := congrArg List.length h
    rw [length_udpRecv, Frame.udpPayload, List.length_map, List.length_range] at hlen
    simp only [distributeUdpRecv, sub64, u64, mtu] at hlen ⊢
    omega
  · rintro ⟨h1, h2⟩
    have hvalid : (distributeUdpRecv inet f).inet.dataValid = f.udpLength - 8 :=
      sub64_of_le (by omega) h1
    apply List.ext_getElem
    · rw [length_udpRecv, hvalid, Frame.udpPayload, List.length_map, List.length_range]
      omega
    · intro i hi _
      rw [length_udpRecv, hvalid] at hi
      have hi' : i < sub64 f.udpLength 8 := by
        rw [sub64_of_le (by omega) h1]
        omega
      rw [getElem_udpRecv, Frame.getElem_udpPayload]
      exact distributeUdpRecv_data inet f _ hi'

/-! ## Datagrams of the remote host -/

section Sent

variable (e : EtherHeader) (i : IpHeader) (u : UdpHeader) (data : List Byte)

theorem udpLength_udpPacket :
    (Frame.ofPacket (udpPacket e i u data)).udpLength = (ntohs u.length).toNat := by
  have hsplit : udpPacket e i u data =
      (e.bytes ++ (i.bytes ++ (le16 u.sourcePort ++ le16 u.destPort))) ++
        (le16 u.length ++ (le16 u.checksum ++ data)) := by
    simp only [udpPacket, UdpHeader.bytes, List.append_assoc]
  rw [Frame.udpLength, hsplit, u16_field _ _ (by simp)]

theorem payload_udpPacket (k : Nat) :
    (Frame.ofPacket (udpPacket e i u data)).bytes (42 + k) = ofList data k := by
  have hsplit : udpPacket e i u data = (e.bytes ++ (i.bytes ++ u.bytes)) ++ data := by
    simp only [udpPacket, List.append_assoc]
  have hlen : (e.bytes ++ (i.bytes ++ u.bytes)).length = 42 := by simp
  rw [hsplit, ← hlen]
  exact ofList_append_right ..

end Sent

/-- **Round trip.** What the remote host's `udp_send` puts on the wire is a
datagram here, with the payload it was given. -/
theorem udpDatagram_udpSend {inet peer : Inet} (hsrc : peer.localIp = inet.remoteIp)
    (hdst : peer.remoteIp = inet.localIp) {data : List Byte} (hlen : 8 + data.length < 2 ^ 16) :
    UdpDatagram inet (Frame.ofPacket (udpSend peer data)) ∧
      (Frame.ofPacket (udpSend peer data)).udpLength = 8 + data.length ∧
      (Frame.ofPacket (udpSend peer data)).udpPayload = data := by
  have hudp : (Frame.ofPacket (udpSend peer data)).udpLength = 8 + data.length := by
    rw [udpSend, udpLength_udpPacket]
    have hfield : ntohs (createUdpHeader peer data).length = BitVec.ofNat 16 (8 + data.length) :=
      ntohs_ntohs _
    rw [hfield, BitVec.toNat_ofNat, Nat.mod_eq_of_lt hlen]
  refine ⟨⟨?_, ?_, ?_, ?_⟩, hudp, ?_⟩
  · rw [udpSend, udpPacket, etherType_ipPacket]
    exact ntohs_ntohs _
  · rw [udpSend, udpPacket, srcIp_ipPacket]
    exact hsrc
  · rw [udpSend, udpPacket, dstIp_ipPacket]
    exact hdst
  · rw [udpSend, udpPacket, protocol_ipPacket]
    rfl
  · apply List.ext_getElem
    · rw [Frame.udpPayload, List.length_map, List.length_range, hudp]
      omega
    · intro k _ hk
      rw [Frame.getElem_udpPayload, udpSend, payload_udpPacket]
      simp [ofList, hk]

/-! ## Frames and the slot -/

/-- The datagram kept is left alone, and `udp_recv_handle` is not posted. -/
structure Recv.KeepsSlot (r : Recv) (inet : Inet) : Prop where
  data : r.inet.data = inet.data
  dataValid : r.inet.dataValid = inet.dataValid
  ops : .post .udpRecvHandle ∉ r.ops

theorem distributeTcpRecv_keepsSlot (inet : Inet) (f : Frame) (n : Nat) :
    (distributeTcpRecv inet f n).KeepsSlot inet := by
  unfold distributeTcpRecv
  split
  · split
    · exact ⟨rfl, rfl, by simp⟩
    · exact ⟨rfl, rfl, by simp⟩
  · split
    · simp only [dealTcpDataRecv]
      split
      · exact ⟨rfl, rfl, by simp [nstWaitByName]⟩
      · exact ⟨rfl, rfl, by simp⟩
    · exact ⟨rfl, rfl, by simp⟩

/-- **Any other frame** leaves the datagram alone. -/
theorem packetRecv_keepsSlot {inet : Inet} {f : Frame} (h : ¬ UdpDatagram inet f) :
    (packetRecv inet f).KeepsSlot inet := by
  cases packetRecv_handled inet f with
  | arp _ _ _ info ops | echo _ _ info ops => exact ⟨by rw [info], by rw [info], by simp [ops]⟩
  | tcp _ info ops =>
    obtain ⟨hdata, hvalid, hops⟩ :=
      distributeTcpRecv_keepsSlot inet f (sub64 f.totalLength 20)
    rw [← info] at hdata hvalid
    rw [← ops] at hops
    exact ⟨hdata, hvalid, hops⟩
  | udp passes =>
    exact absurd ⟨passes.etherType, passes.srcIp, passes.dstIp, passes.protocol⟩ h
  | nothing _ _ info ops => exact ⟨by rw [info], by rw [info], by simp [ops]⟩

end X64SmpOs.Net

import X64SmpOs.Net.Datagram

/-!
# Sent and received payloads

A frame of `tcp_send`, `tcp_send_control` or `udp_send`, handed to
`distribute_ip_reply` of the endpoint it is for.

* `distributeIpReply_tcp`, `distributeIpReply_udp`: which handler is reached;
* `distributeTcpRecv_data`: the pointer and the length `deal_tcp_data_recv` is
  called with;
* `payload_tcpSend`, `payload_tcpSendControl`: the lengths read back;
* `distributeIpReply_sent`: the payload sent is the payload seen.
-/

namespace X64SmpOs.Net

open Memory Words

/-- The bytes `deal_tcp_data_recv` is handed. -/
def Frame.tcpPayload (f : Frame) : List Byte :=
  (List.range f.tcpDataLen).map fun i => f.bytes (34 + f.tcpHeaderLen + i)

/-! ## Handlers reached -/

/-- The accesses of `distribute_ip_reply` before the TCP handler runs. -/
def tcpAccesses (f : Frame) : List Access :=
  [.read 26 4, .read 30 4, .read 23 1, .read 16 2, .length f.totalLength 20]

theorem distributeIpReply_tcp {inet : Inet} {f : Frame} (h : TcpSegment inet f) :
    distributeIpReply inet f =
      (distributeTcpRecv inet f (sub64 f.totalLength 20)).after (tcpAccesses f) := by
  have hne : ipLoadTcp ≠ ipLoadIcmp := by decide
  simp only [distributeIpReply, h.srcIp, h.dstIp, h.protocol, if_neg hne, if_true, ne_eq,
    not_true_eq_false, if_false]
  rfl

theorem distributeIpReply_udp {inet : Inet} {f : Frame} (h : UdpDatagram inet f) :
    distributeIpReply inet f =
      (distributeUdpRecv inet f).after [.read 26 4, .read 30 4, .read 23 1] := by
  have hicmp : ipLoadUdp ≠ ipLoadIcmp := by decide
  have htcp : ipLoadUdp ≠ ipLoadTcp := by decide
  simp only [distributeIpReply, h.srcIp, h.dstIp, h.protocol, if_neg hicmp, if_neg htcp, if_true,
    ne_eq, not_true_eq_false, if_false]

/-- A data segment: `deal_tcp_data_recv` gets what is behind the header, and the
segment is acknowledged. -/
theorem distributeIpReply_data {inet : Inet} {f : Frame} (h : DataSegment inet f) :
    ∃ log, distributeIpReply inet f =
      let r := dealTcpDataRecv
        { inet with
          seqNum := inet.seqNum + 1
          ackNum := f.sequenceNum + BitVec.ofNat 32 f.tcpDataLen }
        f (34 + f.tcpHeaderLen) f.tcpDataLen
      ⟨r.inet, r.ops ++ [.sendControl tcpAck], log ++ r.log⟩ := by
  have hne : tcpPshAck ≠ tcpSynAck := by decide
  refine ⟨tcpAccesses f ++ (printHexString 34 (sub64 f.totalLength 20) ++ [.read 47 1] ++
    [.read 46 1, .length (sub64 f.totalLength 20) f.tcpHeaderLen, .read 38 4]), ?_⟩
  rw [distributeIpReply_tcp h.1]
  simp only [distributeTcpRecv, h.2, if_neg hne, if_true, Recv.after, Frame.tcpDataLen,
    List.append_assoc]

/-! ## TCP frames -/

section TcpPacket

variable (e : EtherHeader) (i : IpHeader) (t : TcpHeader) (rest : List Byte)

theorem tcpHeaderLen_tcpPacket :
    (Frame.ofPacket (tcpPacket e i t rest)).tcpHeaderLen = (t.dataOffset >>> 4).toNat * 4 := by
  have hsplit : tcpPacket e i t rest =
      (e.bytes ++ (i.bytes ++ (le16 t.sourcePort ++ (le16 t.destPort ++ (le32 t.sequenceNum ++
        le32 t.ackNum))))) ++ (t.dataOffset :: (t.flags :: (le16 t.windowSize ++
          (le16 t.checksum ++ (le16 t.urgentPointer ++ rest))))) := by
    simp only [tcpPacket, TcpHeader.bytes, List.append_assoc, List.cons_append]
  rw [Frame.tcpHeaderLen, hsplit, u8_field _ _ (by simp)]

theorem bytes_tcpPacket (k : Nat) :
    (Frame.ofPacket (tcpPacket e i t rest)).bytes (54 + k) = ofList rest k := by
  have hsplit : tcpPacket e i t rest = (e.bytes ++ (i.bytes ++ t.bytes)) ++ rest := by
    simp only [tcpPacket, List.append_assoc]
  have hlen : (e.bytes ++ (i.bytes ++ t.bytes)).length = 54 := by simp
  rw [hsplit, ← hlen]
  exact ofList_append_right ..

end TcpPacket

/-- The headers of both send functions reach the TCP handler of the other end. -/
theorem tcpSegment_tcpPacket {inet peer : Inet} (hlocal : inet.localIp = peer.remoteIp)
    (hremote : inet.remoteIp = peer.localIp) (len : BitVec 16) (t : TcpHeader)
    (rest : List Byte) :
    TcpSegment peer (Frame.ofPacket (tcpPacket
      (createEtherHeader inet.remoteMac inet.localMac etherTypeIp)
      (createIpProtocolHeader inet len ipLoadTcp) t rest)) where
  etherType := by
    rw [tcpPacket, etherType_ipPacket]
    exact ntohs_ntohs _
  srcIp := by
    rw [tcpPacket, srcIp_ipPacket]
    exact hlocal
  dstIp := by
    rw [tcpPacket, dstIp_ipPacket]
    exact hremote
  protocol := by
    rw [tcpPacket, protocol_ipPacket]
    rfl

theorem ntohs_htons {n : Nat} (h : n < 2 ^ 16) : (ntohs (htons n)).toNat = n := by
  rw [htons, ntohs_ntohs, BitVec.toNat_ofNat, Nat.mod_eq_of_lt h]

/-- A segment of `20 + 20 + n` bytes without options. -/
theorem payload_tcpSend (inet : Inet) {data : List Byte} (h : data.length ≤ 65495) :
    (Frame.ofPacket (tcpSend inet data)).totalLength = 40 + data.length ∧
    (Frame.ofPacket (tcpSend inet data)).tcpHeaderLen = 20 ∧
    (Frame.ofPacket (tcpSend inet data)).tcpDataLen = data.length ∧
    (Frame.ofPacket (tcpSend inet data)).tcpPayload = data := by
  have htotal : (Frame.ofPacket (tcpSend inet data)).totalLength = 40 + data.length := by
    rw [tcpSend, tcpPacket, totalLength_ipPacket]
    exact ntohs_htons (by omega)
  have hheader : (Frame.ofPacket (tcpSend inet data)).tcpHeaderLen = 20 := by
    have hoffset : (createTcpHeader inet tcpPshAck inet.seqNum inet.ackNum [] data).dataOffset =
        0x50 := rfl
    rw [tcpSend, tcpHeaderLen_tcpPacket, hoffset]
    decide
  have hlen : (Frame.ofPacket (tcpSend inet data)).tcpDataLen = data.length := by
    have hsegment : sub64 (40 + data.length) 20 = 20 + data.length := by
      rw [sub64_of_le (by omega) (by omega)]
      omega
    rw [Frame.tcpDataLen, htotal, hheader, hsegment, sub64_of_le (by omega) (by omega)]
    omega
  refine ⟨htotal, hheader, hlen, ?_⟩
  apply List.ext_getElem
  · rw [Frame.tcpPayload, List.length_map, List.length_range, hlen]
  · intro k _ hk
    simp only [Frame.tcpPayload, List.getElem_map, List.getElem_range, hheader]
    rw [tcpSend, bytes_tcpPacket]
    simp [ofList, hk]

/-- A control segment: twenty bytes of options, and nothing behind them. -/
theorem payload_tcpSendControl (inet : Inet) (flag : BitVec 8) :
    (Frame.ofPacket (tcpSendControl inet flag)).totalLength = 60 ∧
    (Frame.ofPacket (tcpSendControl inet flag)).tcpHeaderLen = 40 ∧
    (Frame.ofPacket (tcpSendControl inet flag)).tcpDataLen = 0 ∧
    (Frame.ofPacket (tcpSendControl inet flag)).tcpPayload = [] := by
  have htotal : (Frame.ofPacket (tcpSendControl inet flag)).totalLength = 60 := by
    rw [tcpSendControl, tcpPacket, totalLength_ipPacket]
    exact ntohs_htons (by decide)
  have hheader : (Frame.ofPacket (tcpSendControl inet flag)).tcpHeaderLen = 40 := by
    have hoffset : (createTcpHeader inet flag inet.seqNum inet.ackNum tcpOptions []).dataOffset =
        0xa0 := rfl
    rw [tcpSendControl, tcpHeaderLen_tcpPacket, hoffset]
    decide
  have hlen : (Frame.ofPacket (tcpSendControl inet flag)).tcpDataLen = 0 := by
    rw [Frame.tcpDataLen, htotal, hheader]
    rfl
  refine ⟨htotal, hheader, hlen, ?_⟩
  rw [Frame.tcpPayload, hlen]
  rfl

/-! ## Round trip -/

/-- **Payloads.** `peer` is the endpoint the frames of `inet` are for. A segment
of `tcp_send` is handed on with the pointer to its data and their length, a
datagram of `udp_send` is found in `g_inet_info`, and a control segment has no
payload, whatever its flag. -/
theorem distributeIpReply_sent {inet peer : Inet} (hlocal : inet.localIp = peer.remoteIp)
    (hremote : inet.remoteIp = peer.localIp) :
    (∀ data : List Byte, data.length ≤ 65495 →
      let f := Frame.ofPacket (tcpSend inet data)
      let r := dealTcpDataRecv
        { peer with
          seqNum := peer.seqNum + 1
          ackNum := inet.seqNum + BitVec.ofNat 32 data.length }
        f (34 + 20) data.length
      f.tcpPayload = data ∧ (∀ i, (hi : i < data.length) → f.bytes (34 + 20 + i) = data[i]) ∧
      ∃ log, distributeIpReply peer f =
        ⟨r.inet, r.ops ++ [.sendControl tcpAck], log ++ r.log⟩) ∧
    (∀ data : List Byte, data.length ≤ mtu →
      let r := distributeIpReply peer (Frame.ofPacket (udpSend inet data))
      r.inet.dataValid = data.length ∧ (List.ofFn r.inet.data).take data.length = data ∧
      r.ops = [.post .udpRecvHandle]) ∧
    (∀ flag,
      let f := Frame.ofPacket (tcpSendControl inet flag)
      f.tcpDataLen = 0 ∧ f.tcpPayload = [] ∧ 34 + f.tcpHeaderLen = f.caplen ∧
      distributeIpReply peer f = (distributeTcpRecv peer f 40).after (tcpAccesses f)) := by
  refine ⟨fun data hlen => ?_, fun data hlen => ?_, fun flag => ?_⟩
  · obtain ⟨-, hheader, hdata, hpayload⟩ := payload_tcpSend inet hlen
    have hsegment : DataSegment peer (Frame.ofPacket (tcpSend inet data)) := by
      refine ⟨tcpSegment_tcpPacket hlocal hremote _ _ _, ?_⟩
      rw [tcpSend, tcpFlags_tcpPacket]
      rfl
    refine ⟨hpayload, fun i hi => ?_, ?_⟩
    · rw [tcpSend, bytes_tcpPacket]
      simp [ofList, hi]
    · have hroute := distributeIpReply_data hsegment
      rwa [hheader, hdata, sequence_tcpSend] at hroute
  · have hmtu : data.length ≤ 1500 := hlen
    have hsmall : 8 + data.length < 2 ^ 16 := by omega
    obtain ⟨hdatagram, hlength, hpayload⟩ := udpDatagram_udpSend hlocal hremote hsmall
    have hrecv := (udpRecv_distributeUdpRecv peer (Frame.ofPacket (udpSend inet data))).mpr
      (by rw [hlength, mtu]; omega)
    have hvalid : (distributeUdpRecv peer (Frame.ofPacket (udpSend inet data))).inet.dataValid =
        data.length := by
      simp only [distributeUdpRecv, hlength]
      rw [sub64_of_le (by omega) (by omega)]
      omega
    rw [udpRecv, hvalid, hpayload, Nat.min_eq_left hlen] at hrecv
    rw [distributeIpReply_udp hdatagram]
    exact ⟨hvalid, hrecv, rfl⟩
  · obtain ⟨htotal, hheader, hdata, hpayload⟩ := payload_tcpSendControl inet flag
    have hroute := distributeIpReply_tcp (tcpSegment_tcpPacket hlocal hremote
      (htons (20 + 20 + tcpOptions.length))
      (createTcpHeader inet flag inet.seqNum inet.ackNum tcpOptions []) tcpOptions)
    refine ⟨hdata, hpayload, ?_, ?_⟩
    · rw [hheader]
      simp [Frame.ofPacket, tcpSendControl, tcpPacket, tcpOptions]
    · refine hroute.trans ?_
      rw [← tcpSendControl, htotal]
      rfl

theorem distributeIpReply_sent_sample :
    (Frame.ofPacket (tcpSend samplePeer [0x41, 0x42])).tcpPayload = [0x41, 0x42] ∧
    (distributeIpReply sampleInet (Frame.ofPacket (udpSend samplePeer [0x41]))).inet.dataValid = 1 ∧
    (Frame.ofPacket (tcpSendControl samplePeer tcpPshAck)).tcpPayload = [] := by
  have hlocal : samplePeer.localIp = sampleInet.remoteIp := rfl
  have hremote : samplePeer.remoteIp = sampleInet.localIp := rfl
  obtain ⟨htcp, hudp, hcontrol⟩ := distributeIpReply_sent hlocal hremote
  exact ⟨(htcp [0x41, 0x42] (by decide)).1, (hudp [0x41] (by decide)).1,
    (hcontrol tcpPshAck).2.1⟩

end X64SmpOs.Net

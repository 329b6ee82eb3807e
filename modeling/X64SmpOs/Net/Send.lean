import X64SmpOs.Net.Inet

/-!
# The TCP send path

* `ipChecksum`, `tcpChecksum`: the sums of `util.cpp`, their folding loop run
  for the two rounds it can take (`foldCarry_done`);
* `createTcpHeader`, `createIpProtocolHeader`, `createEtherHeader`;
* `tcpSendControl`, `tcpSend`: the packet handed to `pcap_sendpacket`;
* `sequence_tcpSend`, `sequence_tcpSendControl`, `flags_tcpSendControl`: what a
  receiver reads in them.
-/

namespace X64SmpOs.Net

open Memory

/-! ## Checksums -/

/-- A 16-bit word as loaded, and after `ntohs`. -/
def wordHost (a b : Byte) : BitVec 32 := a.setWidth 32 + (b.setWidth 32 <<< 8)
def wordNet (a b : Byte) : BitVec 32 := wordHost b a

/-- The words of a byte string added up, an odd last byte padded with a zero. -/
def wordSum (word : Byte → Byte → BitVec 32) : BitVec 32 → List Byte → BitVec 32
  | sum, a :: b :: l => wordSum word (sum + word a b) l
  | sum, [a] => sum + word a 0
  | sum, [] => sum

/-- `while (sum >> 16) sum = (sum & 0xFFFF) + (sum >> 16)`. -/
def foldCarry : Nat → BitVec 32 → BitVec 32
  | 0, sum => sum
  | n + 1, sum =>
    if sum >>> 16 = 0 then sum else foldCarry n ((sum &&& 0xFFFF#32) + (sum >>> 16))

theorem toNat_carry (s : BitVec 32) :
    ((s &&& 0xFFFF#32) + (s >>> 16)).toNat = s.toNat % 2 ^ 16 + s.toNat / 2 ^ 16 := by
  have hlow : s.toNat &&& 0xFFFF = s.toNat % 2 ^ 16 := Nat.and_two_pow_sub_one_eq_mod s.toNat 16
  have hs := s.isLt
  rw [BitVec.toNat_add, BitVec.toNat_and, BitVec.toNat_ushiftRight, Nat.shiftRight_eq_div_pow,
    show (0xFFFF#32).toNat = 0xFFFF from rfl, hlow]
  omega

/-- Two rounds leave no carry. -/
theorem foldCarry_done (s : BitVec 32) : (foldCarry 2 s).toNat < 2 ^ 16 := by
  have hstop : ∀ x : BitVec 32, x >>> 16 = 0 → x.toNat < 2 ^ 16 := by
    intro x hx
    have h := congrArg BitVec.toNat hx
    simp only [BitVec.toNat_ushiftRight, Nat.shiftRight_eq_div_pow] at h
    have h0 : x.toNat / 2 ^ 16 = 0 := h
    omega
  have hs := s.isLt
  simp only [foldCarry]
  split
  · exact hstop s ‹_›
  · split
    · exact hstop _ ‹_›
    · rw [toNat_carry, toNat_carry]
      omega

def ipChecksum (data : List Byte) : BitVec 16 :=
  ~~~ (foldCarry 2 (wordSum wordHost 0 data)).setWidth 16

def tcpChecksum (pseudoHeader tcpHeader options data : List Byte) : BitVec 16 :=
  ~~~ (foldCarry 2 (wordSum wordNet 0 (pseudoHeader ++ tcpHeader ++ options ++ data))).setWidth 16

/-! ## Headers -/

def createEtherHeader (dstMac srcMac : Mac) (type : BitVec 16) : EtherHeader :=
  ⟨dstMac, srcMac, ntohs type⟩

/-- `len` is the field as the caller has swapped it. -/
def createIpProtocolHeader (inet : Inet) (len : BitVec 16) (protocol : BitVec 8) : IpHeader :=
  let header : IpHeader :=
    { versionIhl := 0x45
      tos := 0
      totalLength := len
      identification := htons 0xd0f1
      flagsFragment := htons 0x4000
      ttl := 64
      protocol
      checksum := 0
      srcIp := inet.localIp
      dstIp := inet.remoteIp }
  { header with checksum := ipChecksum header.bytes }

def createTcpHeader (inet : Inet) (flag : BitVec 8) (seqNum ackNum : BitVec 32)
    (options s : List Byte) : TcpHeader :=
  let pseudo : PseudoHeader :=
    { srcAddr := inet.localIp
      destAddr := inet.remoteIp
      reserved := 0
      protocol := 6
      length := htons (20 + options.length + s.length) }
  let tcp : TcpHeader :=
    { sourcePort := htons inet.localPort
      destPort := htons inet.remotePort
      sequenceNum := htonl seqNum
      ackNum := htonl ackNum
      dataOffset := BitVec.ofNat 8 (((20 + options.length) / 4) <<< 4)
      flags := flag
      windowSize := htons 0xfaf0
      checksum := 0
      urgentPointer := 0 }
  { tcp with checksum := ntohs (tcpChecksum pseudo.bytes tcp.bytes options s) }

/-! ## Packets -/

/-- The options of a control segment. -/
def tcpOptions : List Byte :=
  [0x02, 0x04, 0x05, 0xb4, 0x04, 0x02, 0x08, 0x0a, 0xaf, 0xef,
   0x15, 0x2c, 0x00, 0x00, 0x00, 0x00, 0x01, 0x03, 0x03, 0x07]

/-- The headers and what follows them, copied one behind the other. -/
def tcpPacket (ethernet : EtherHeader) (ip : IpHeader) (tcp : TcpHeader) (rest : List Byte) :
    List Byte :=
  ethernet.bytes ++ (ip.bytes ++ (tcp.bytes ++ rest))

def tcpSendControl (inet : Inet) (flag : BitVec 8) : List Byte :=
  let tcp := createTcpHeader inet flag inet.seqNum inet.ackNum tcpOptions []
  let ethernet := createEtherHeader inet.remoteMac inet.localMac etherTypeIp
  let ip := createIpProtocolHeader inet (htons (20 + 20 + tcpOptions.length)) ipLoadTcp
  tcpPacket ethernet ip tcp tcpOptions

def tcpSend (inet : Inet) (data : List Byte) : List Byte :=
  let tcp := createTcpHeader inet tcpPshAck inet.seqNum inet.ackNum [] data
  let ethernet := createEtherHeader inet.remoteMac inet.localMac etherTypeIp
  let ip := createIpProtocolHeader inet (htons (20 + 20 + data.length)) ipLoadTcp
  tcpPacket ethernet ip tcp data

/-! ## What a receiver reads -/

/-- The fields of a TCP segment behind plain Ethernet and IP headers. -/
def Frame.sequenceNum (f : Frame) : BitVec 32 := ntohl (f.u32 38)
def Frame.ackNum (f : Frame) : BitVec 32 := ntohl (f.u32 42)
def Frame.tcpFlags (f : Frame) : BitVec 8 := f.u8 47

theorem sequenceNum_tcpPacket (e : EtherHeader) (i : IpHeader) (t : TcpHeader) (rest : List Byte) :
    (Frame.ofPacket (tcpPacket e i t rest)).sequenceNum = ntohl t.sequenceNum := by
  have hsplit : tcpPacket e i t rest =
      (e.bytes ++ (i.bytes ++ (le16 t.sourcePort ++ le16 t.destPort))) ++
        (le32 t.sequenceNum ++ (le32 t.ackNum ++ (t.dataOffset :: t.flags ::
          (le16 t.windowSize ++ (le16 t.checksum ++ (le16 t.urgentPointer ++ rest)))))) := by
    simp only [tcpPacket, TcpHeader.bytes, List.append_assoc, List.cons_append]
  rw [Frame.sequenceNum, hsplit, u32_field _ _ (by simp)]

theorem tcpFlags_tcpPacket (e : EtherHeader) (i : IpHeader) (t : TcpHeader) (rest : List Byte) :
    (Frame.ofPacket (tcpPacket e i t rest)).tcpFlags = t.flags := by
  have hsplit : tcpPacket e i t rest =
      (e.bytes ++ (i.bytes ++ (le16 t.sourcePort ++ (le16 t.destPort ++ (le32 t.sequenceNum ++
        (le32 t.ackNum ++ [t.dataOffset])))))) ++ (t.flags ::
          (le16 t.windowSize ++ (le16 t.checksum ++ (le16 t.urgentPointer ++ rest)))) := by
    simp only [tcpPacket, TcpHeader.bytes, List.append_assoc, List.cons_append, List.nil_append]
  rw [Frame.tcpFlags, hsplit, u8_field _ _ (by simp)]

/-- A data segment carries `seq_num`. -/
theorem sequence_tcpSend (inet : Inet) (data : List Byte) :
    (Frame.ofPacket (tcpSend inet data)).sequenceNum = inet.seqNum := by
  rw [tcpSend, sequenceNum_tcpPacket]
  exact ntohl_htonl inet.seqNum

/-- A control segment carries `seq_num` and its flag. -/
theorem sequence_tcpSendControl (inet : Inet) (flag : BitVec 8) :
    (Frame.ofPacket (tcpSendControl inet flag)).sequenceNum = inet.seqNum := by
  rw [tcpSendControl, sequenceNum_tcpPacket]
  exact ntohl_htonl inet.seqNum

theorem flags_tcpSendControl (inet : Inet) (flag : BitVec 8) :
    (Frame.ofPacket (tcpSendControl inet flag)).tcpFlags = flag := by
  rw [tcpSendControl, tcpFlags_tcpPacket]
  rfl

/-! ## A pair of endpoints -/

/-- An endpoint at 192.168.133.137, connected to 192.168.133.138. -/
def sampleInet : Inet where
  localIp := 0x8985a8c0
  remoteIp := 0x8a85a8c0
  localMac := Vector.replicate 6 1
  remoteMac := Vector.replicate 6 2
  localPort := 1234
  remotePort := 8080
  pingSuccess := true
  data _ := 0
  dataValid := 0
  seqNum := 1001
  ackNum := 5001
  tcpStatus := .connected

/-- The remote host's end of the same connection. -/
def samplePeer : Inet :=
  { sampleInet with
    localIp := 0x8a85a8c0
    remoteIp := 0x8985a8c0
    localPort := 8080
    remotePort := 1234
    seqNum := 5001
    ackNum := 1001 }

example : (Frame.ofPacket (tcpSend samplePeer [0x41])).tcpFlags = tcpPshAck := by decide +kernel

end X64SmpOs.Net

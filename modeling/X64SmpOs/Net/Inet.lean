import X64SmpOs.Lib.Bytes

/-!
# Frames, headers and `g_inet_info`

The host is a 64-bit little-endian one: a field of a packed header is loaded
lowest byte first, and `ntohs`, `ntohl` reverse its bytes.

* `Frame`: the buffer `packet_recv` is handed, with the captured length;
* `Inet`: `g_inet_info`;
* `EtherHeader`, `IpHeader`, `TcpHeader`, `PseudoHeader`: the packed headers
  and their bytes;
* `ThreadName`: the threads `nst_create` starts.
-/

namespace X64SmpOs.Net

open Memory

/-! ## Byte order -/

def ntohs (x : BitVec 16) : BitVec 16 := BitVec.ofNat 16 (swap 2 x.toNat)

def ntohl (x : BitVec 32) : BitVec 32 := BitVec.ofNat 32 (swap 4 x.toNat)

/-- The argument is an `int` or a `size_t`, cut to 16 bits. -/
def htons (n : Nat) : BitVec 16 := ntohs (BitVec.ofNat 16 n)

def htonl (x : BitVec 32) : BitVec 32 := ntohl x

theorem toNat_ntohs (x : BitVec 16) : (ntohs x).toNat = swap 2 x.toNat :=
  Nat.mod_eq_of_lt (swap_lt 2 x.toNat)

theorem toNat_ntohl (x : BitVec 32) : (ntohl x).toNat = swap 4 x.toNat :=
  Nat.mod_eq_of_lt (swap_lt 4 x.toNat)

@[simp] theorem ntohs_ntohs (x : BitVec 16) : ntohs (ntohs x) = x := by
  apply BitVec.eq_of_toNat_eq
  rw [toNat_ntohs, toNat_ntohs, swap_swap x.isLt]

@[simp] theorem ntohl_htonl (x : BitVec 32) : ntohl (htonl x) = x := by
  apply BitVec.eq_of_toNat_eq
  rw [toNat_ntohl, htonl, toNat_ntohl, swap_swap x.isLt]

/-! ## Frames -/

/-- A captured frame: `caplen` bytes were captured; what follows them in memory
is whatever it is. -/
structure Frame where
  bytes : Mem
  caplen : Nat

/-- A frame of exactly the given bytes. -/
def Frame.ofPacket (p : List Byte) : Frame := ⟨ofList p, p.length⟩

def Frame.u8 (f : Frame) (off : Nat) : Byte := f.bytes off

def Frame.u16 (f : Frame) (off : Nat) : BitVec 16 := BitVec.ofNat 16 (readLE 2 f.bytes off)

def Frame.u32 (f : Frame) (off : Nat) : BitVec 32 := BitVec.ofNat 32 (readLE 4 f.bytes off)

/-- The bytes of a raw field. -/
def le16 (x : BitVec 16) : List Byte := toLE 2 x.toNat

def le32 (x : BitVec 32) : List Byte := toLE 4 x.toNat

@[simp] theorem length_le16 (x : BitVec 16) : (le16 x).length = 2 := length_toLE ..

@[simp] theorem length_le32 (x : BitVec 32) : (le32 x).length = 4 := length_toLE ..

/-- A 32-bit field laid out in a packet, read back at its offset. -/
theorem u32_field {pre : List Byte} {k : Nat} (x : BitVec 32) (post : List Byte)
    (hk : pre.length = k) : (Frame.ofPacket (pre ++ (le32 x ++ post))).u32 k = x := by
  rw [Frame.u32, Frame.ofPacket, le32, readLE_field pre post x.isLt hk]
  exact BitVec.eq_of_toNat_eq (Nat.mod_eq_of_lt x.isLt)

theorem u16_field {pre : List Byte} {k : Nat} (x : BitVec 16) (post : List Byte)
    (hk : pre.length = k) : (Frame.ofPacket (pre ++ (le16 x ++ post))).u16 k = x := by
  rw [Frame.u16, Frame.ofPacket, le16, readLE_field pre post x.isLt hk]
  exact BitVec.eq_of_toNat_eq (Nat.mod_eq_of_lt x.isLt)

theorem u8_field {pre : List Byte} {k : Nat} (b : Byte) (post : List Byte) (hk : pre.length = k) :
    (Frame.ofPacket (pre ++ (b :: post))).u8 k = b := by
  have h := ofList_append_right pre (b :: post) 0
  rw [Nat.add_zero, hk] at h
  exact h

/-! ## Headers -/

abbrev Mac := Vector Byte 6

structure EtherHeader where
  etherDhost : Mac
  etherShost : Mac
  etherType : BitVec 16

def EtherHeader.bytes (h : EtherHeader) : List Byte :=
  h.etherDhost.toList ++ (h.etherShost.toList ++ le16 h.etherType)

structure IpHeader where
  versionIhl : BitVec 8
  tos : BitVec 8
  totalLength : BitVec 16
  identification : BitVec 16
  flagsFragment : BitVec 16
  ttl : BitVec 8
  protocol : BitVec 8
  checksum : BitVec 16
  srcIp : BitVec 32
  dstIp : BitVec 32

def IpHeader.bytes (h : IpHeader) : List Byte :=
  h.versionIhl :: h.tos :: (le16 h.totalLength ++ (le16 h.identification ++
    (le16 h.flagsFragment ++ (h.ttl :: h.protocol :: (le16 h.checksum ++
      (le32 h.srcIp ++ le32 h.dstIp))))))

structure TcpHeader where
  sourcePort : BitVec 16
  destPort : BitVec 16
  sequenceNum : BitVec 32
  ackNum : BitVec 32
  dataOffset : BitVec 8
  flags : BitVec 8
  windowSize : BitVec 16
  checksum : BitVec 16
  urgentPointer : BitVec 16

def TcpHeader.bytes (h : TcpHeader) : List Byte :=
  le16 h.sourcePort ++ (le16 h.destPort ++ (le32 h.sequenceNum ++ (le32 h.ackNum ++
    (h.dataOffset :: h.flags :: (le16 h.windowSize ++ (le16 h.checksum ++
      le16 h.urgentPointer))))))

structure PseudoHeader where
  srcAddr : BitVec 32
  destAddr : BitVec 32
  reserved : BitVec 8
  protocol : BitVec 8
  length : BitVec 16

def PseudoHeader.bytes (h : PseudoHeader) : List Byte :=
  le32 h.srcAddr ++ (le32 h.destAddr ++ (h.reserved :: h.protocol :: le16 h.length))

@[simp] theorem EtherHeader.length_bytes (h : EtherHeader) : h.bytes.length = 14 := by
  simp [EtherHeader.bytes]

@[simp] theorem IpHeader.length_bytes (h : IpHeader) : h.bytes.length = 20 := by
  simp [IpHeader.bytes]

@[simp] theorem TcpHeader.length_bytes (h : TcpHeader) : h.bytes.length = 20 := by
  simp [TcpHeader.bytes]

@[simp] theorem PseudoHeader.length_bytes (h : PseudoHeader) : h.bytes.length = 12 := by
  simp [PseudoHeader.bytes]

/-! ## `g_inet_info` -/

/-- The protocol and flag constants. -/
def etherTypeIp : BitVec 16 := 0x0800
def etherTypeArp : BitVec 16 := 0x0806
def ipLoadIcmp : BitVec 8 := 1
def ipLoadTcp : BitVec 8 := 6
def ipLoadUdp : BitVec 8 := 17
def icmpTypeReplyEcho : BitVec 8 := 0
def tcpSyn : BitVec 8 := 0x02
def tcpAck : BitVec 8 := 0x10
def tcpPsh : BitVec 8 := 0x08
def tcpSynAck : BitVec 8 := tcpSyn ||| tcpAck
def tcpPshAck : BitVec 8 := tcpPsh ||| tcpAck

def mtu : Nat := 1500

inductive TcpState
  | closed
  | hand1
  | hand2
  | connected
  deriving DecidableEq, Repr

/-- Addresses are kept as they stand in a header; ports are `size_t`. -/
structure Inet where
  localIp : BitVec 32
  remoteIp : BitVec 32
  localMac : Mac
  remoteMac : Mac
  localPort : Nat
  remotePort : Nat
  pingSuccess : Bool
  data : Fin mtu → Byte
  dataValid : Nat
  seqNum : BitVec 32
  ackNum : BitVec 32
  tcpStatus : TcpState

/-- `tcp_init_seq`, the value of `rand()` given. -/
def tcpInitSeq (rand : BitVec 32) (inet : Inet) : Inet :=
  { inet with seqNum := rand, ackNum := 0, tcpStatus := .closed }

inductive ThreadName
  | monitorHandle
  | icmpReqHandle
  | udpRecvHandle
  | tcpDataRecvHandle
  | tcpConnectHandle
  deriving DecidableEq, Repr

end X64SmpOs.Net

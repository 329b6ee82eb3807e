import X64SmpOs.Net.Checksum

/-!
# ICMP and the six checksums

* `createIcmpProtocolHeader`, `createIpIcmpProtocolHeader`,
  `sendIcmpEchoRequestPacket`: the echo request;
* `IpVerifies`, `TcpVerifies`: the sum over finished bytes, as a receiver takes
  it, with the word it folds to;
* `ipChecksum_store`: bytes verify once their checksum is stored in an aligned
  field that was zero;
* `checksums_verify`: what the builders of headers emit.
-/

namespace X64SmpOs.Net

open Memory OnesComplement

/-! ## The echo request -/

structure IcmpHeader where
  type : BitVec 8
  code : BitVec 8
  checksum : BitVec 16
  identifier : BitVec 16
  sequenceNum : BitVec 16

def IcmpHeader.bytes (h : IcmpHeader) : List Byte :=
  h.type :: h.code :: (le16 h.checksum ++ (le16 h.identifier ++ le16 h.sequenceNum))

@[simp] theorem IcmpHeader.length_bytes (h : IcmpHeader) : h.bytes.length = 8 := by
  simp [IcmpHeader.bytes]

def icmpTypeReqEcho : BitVec 8 := 8

def createIcmpProtocolHeader (type : BitVec 8) : IcmpHeader :=
  let header : IcmpHeader :=
    { type
      code := 0
      checksum := 0
      identifier := htons 1
      sequenceNum := htons 1 }
  { header with checksum := ipChecksum header.bytes }

def createIpIcmpProtocolHeader (inet : Inet) (protocol : BitVec 8) : IpHeader :=
  let header : IpHeader :=
    { versionIhl := 0x45
      tos := 0
      totalLength := htons (20 + 8)
      identification := htons 1
      flagsFragment := htons 0x4000
      ttl := 64
      protocol
      checksum := 0
      srcIp := inet.localIp
      dstIp := inet.remoteIp }
  { header with checksum := ipChecksum header.bytes }

/-- The buffer has the size of an ARP header where the IP header goes; its end
stays zero. -/
def sendIcmpEchoRequestPacket (inet : Inet) : List Byte :=
  let ether := createEtherHeader inet.remoteMac inet.localMac etherTypeIp
  let ip := createIpIcmpProtocolHeader inet ipLoadIcmp
  let icmp := createIcmpProtocolHeader icmpTypeReqEcho
  ether.bytes ++ (ip.bytes ++ (icmp.bytes ++ List.replicate 8 0))

/-! ## Verification -/

/-- The words of the bytes add up to a sum that folds to all ones, `ip_checksum` finds it and
returns its complement. -/
structure IpVerifies (data : List Byte) : Prop where
  folds : Folds 256 (digitSum (lowFirst 256) (data.map BitVec.toNat)) 65535
  sum : foldCarry 2 (wordSum wordHost 0 data) = 0xFFFF
  checksum : ipChecksum data = 0

/-- The same of `tcp_checksum`, whose words are in network order. -/
structure TcpVerifies (pseudoHeader tcpHeader options data : List Byte) : Prop where
  folds : Folds 256 (digitSum (highFirst 256)
    ((pseudoHeader ++ tcpHeader ++ options ++ data).map BitVec.toNat)) 65535
  sum : foldCarry 2 (wordSum wordNet 0 (pseudoHeader ++ tcpHeader ++ options ++ data)) = 0xFFFF
  checksum : tcpChecksum pseudoHeader tcpHeader options data = 0

/-- The loop ends in the word that the sum folds to. -/
theorem foldCarry_ones {word : Byte → Byte → BitVec 32} {w : ℕ → ℕ → ℕ}
    (hw : ∀ a b, (word a b).toNat = w a.toNat b.toNat) {l : List Byte} (hl : l.length ≤ 131074)
    (hmax : ∀ a b, a ∈ l.map BitVec.toNat ∨ a = 0 → b ∈ l.map BitVec.toNat ∨ b = 0 →
      w a b ≤ 65535) (h : Folds 256 (digitSum w (l.map BitVec.toNat)) 65535) :
    foldCarry 2 (wordSum word 0 l) = 0xFFFF :=
  BitVec.eq_of_toNat_eq ((folds_wordSum hw hl hmax).unique h)

theorem ipVerifies_of_folds {data : List Byte} (hlen : data.length ≤ 131074)
    (h : Folds 256 (digitSum (lowFirst 256) (data.map BitVec.toNat)) 65535) : IpVerifies data := by
  have hsum := foldCarry_ones toNat_wordHost hlen (fun _ _ ha hb => (word_le ha hb).1) h
  refine ⟨h, hsum, ?_⟩
  rw [ipChecksum, hsum]
  decide

theorem tcpVerifies_of_folds {pseudoHeader tcpHeader options data : List Byte}
    (hlen : (pseudoHeader ++ tcpHeader ++ options ++ data).length ≤ 131074)
    (h : Folds 256 (digitSum (highFirst 256)
      ((pseudoHeader ++ tcpHeader ++ options ++ data).map BitVec.toNat)) 65535) :
    TcpVerifies pseudoHeader tcpHeader options data := by
  have hsum := foldCarry_ones toNat_wordNet hlen (fun _ _ ha hb => (word_le ha hb).2) h
  refine ⟨h, hsum, ?_⟩
  rw [tcpChecksum, hsum]
  decide

/-- The word a stored field stands for. -/
theorem digitSum_le16 (x : BitVec 16) :
    digitSum (lowFirst 256) ((le16 x).map BitVec.toNat) = x.toNat := by
  have hx := x.isLt
  simp only [le16, toLE, List.map_cons, List.map_nil, digitSum, lowFirst, BitVec.toNat_ofNat]
  omega

/-- The sum around an aligned field. -/
theorem digitSum_field {pre : List Byte} (heven : pre.length % 2 = 0) (x : BitVec 16)
    (post : List Byte) :
    digitSum (lowFirst 256) ((pre ++ (le16 x ++ post)).map BitVec.toNat) =
      digitSum (lowFirst 256) (pre.map BitVec.toNat) +
        (x.toNat + digitSum (lowFirst 256) (post.map BitVec.toNat)) := by
  rw [List.map_append, List.map_append, digitSum_append _ (by simpa using heven),
    digitSum_append _ (by simp), digitSum_le16]

/-- **Stored checksum.** Bytes whose checksum is stored in an aligned field that
was zero when it was computed verify. -/
theorem ipChecksum_store {pre post : List Byte} (heven : pre.length % 2 = 0)
    (hlen : pre.length + 2 + post.length ≤ 131074) :
    IpVerifies (pre ++ (le16 (ipChecksum (pre ++ (le16 0 ++ post))) ++ post)) := by
  have hbound : ∀ x : BitVec 16, (pre ++ (le16 x ++ post)).length ≤ 131074 := by
    intro x
    simp only [List.length_append, length_le16]
    omega
  have hfold : ∀ x : BitVec 16, Folds 256
      (digitSum (lowFirst 256) ((pre ++ (le16 x ++ post)).map BitVec.toNat))
      (foldCarry 2 (wordSum wordHost 0 (pre ++ (le16 x ++ post)))).toNat := fun x =>
    folds_wordSum toNat_wordHost (hbound x) fun _ _ ha hb => (word_le ha hb).1
  have hblank := hfold 0
  -- the stored word is the complement of the folded sum
  have hstored : (ipChecksum (pre ++ (le16 0 ++ post))).toNat =
      256 * 256 - 1 - (foldCarry 2 (wordSum wordHost 0 (pre ++ (le16 0 ++ post)))).toNat := by
    rw [ipChecksum, BitVec.toNat_not, BitVec.toNat_setWidth, Nat.mod_eq_of_lt hblank.lt]
  have hall := hblank.complement (by decide)
  have h0 : (0 : BitVec 16).toNat = 0 := rfl
  rw [digitSum_field heven, h0] at hall
  apply ipVerifies_of_folds (hbound _)
  rw [digitSum_field heven, hstored]
  convert hall using 1
  omega

/-- The network sum of verified bytes. -/
theorem IpVerifies.tcp {pseudoHeader tcpHeader options data : List Byte}
    (h : IpVerifies (pseudoHeader ++ tcpHeader ++ options ++ data))
    (hlen : (pseudoHeader ++ tcpHeader ++ options ++ data).length ≤ 131074) :
    TcpVerifies pseudoHeader tcpHeader options data := by
  -- all ones are all ones with their digits exchanged
  exact tcpVerifies_of_folds hlen (folds_exchange (by decide) h.folds)

/-! ## The builders -/

/-- A header of `ip.cpp` or `tcp.cpp` after its checksum is stored. -/
theorem ipHeader_verifies (h : IpHeader) :
    IpVerifies { h with checksum := ipChecksum { h with checksum := 0 }.bytes }.bytes := by
  have hsplit : ∀ x : BitVec 16, { h with checksum := x }.bytes =
      (h.versionIhl :: h.tos :: (le16 h.totalLength ++ (le16 h.identification ++
        (le16 h.flagsFragment ++ [h.ttl, h.protocol])))) ++
        (le16 x ++ (le32 h.srcIp ++ le32 h.dstIp)) := by
    intro x
    simp only [IpHeader.bytes, List.append_assoc, List.cons_append, List.nil_append]
  rw [hsplit, hsplit]
  exact ipChecksum_store (by simp) (by simp)

theorem icmpHeader_verifies (type : BitVec 8) :
    IpVerifies (createIcmpProtocolHeader type).bytes := by
  have hstore := @ipChecksum_store [type, 0] (le16 (htons 1) ++ le16 (htons 1)) (by simp) (by simp)
  exact hstore

/-- The pseudo header of `create_tcp_header`. -/
def tcpPseudoHeader (inet : Inet) (len : Nat) : PseudoHeader :=
  { srcAddr := inet.localIp
    destAddr := inet.remoteIp
    reserved := 0
    protocol := 6
    length := htons len }

theorem tcpHeader_verifies (pseudo : List Byte) (t : TcpHeader) (options s : List Byte)
    (heven : pseudo.length % 2 = 0)
    (hlen : (pseudo ++ t.bytes ++ options ++ s).length ≤ 131074) :
    TcpVerifies pseudo { t with
      checksum := ntohs (tcpChecksum pseudo { t with checksum := 0 }.bytes options s) }.bytes
      options s := by
  have hbytes : ∀ x : BitVec 16,
      (pseudo ++ { t with checksum := x }.bytes ++ options ++ s).length ≤ 131074 := by
    intro x
    simp only [List.length_append, TcpHeader.length_bytes] at hlen ⊢
    omega
  have hsplit : ∀ x : BitVec 16, pseudo ++ { t with checksum := x }.bytes ++ options ++ s =
      (pseudo ++ (le16 t.sourcePort ++ (le16 t.destPort ++ (le32 t.sequenceNum ++ (le32 t.ackNum ++
        (t.dataOffset :: t.flags :: le16 t.windowSize)))))) ++
        (le16 x ++ (le16 t.urgentPointer ++ (options ++ s))) := by
    intro x
    simp only [TcpHeader.bytes, List.append_assoc, List.cons_append]
  apply IpVerifies.tcp _ (hbytes _)
  rw [tcpChecksum_swapped (hbytes 0), hsplit, hsplit]
  apply ipChecksum_store
  · simp only [List.length_append, length_le16, length_le32, List.length_cons]
    omega
  · simp only [List.length_append, TcpHeader.length_bytes, length_le16, length_le32,
      List.length_cons] at hlen ⊢
    omega

theorem udpHeader_verifies (pseudo : List Byte) (u : UdpHeader) (data : List Byte)
    (heven : pseudo.length % 2 = 0) (hlen : pseudo.length + 8 + data.length ≤ 131074) :
    IpVerifies (pseudo ++ { u with
      checksum := udpChecksum pseudo { u with checksum := 0 }.bytes data }.bytes ++ data) := by
  have hsplit : ∀ x : BitVec 16, pseudo ++ { u with checksum := x }.bytes ++ data =
      (pseudo ++ (le16 u.sourcePort ++ (le16 u.destPort ++ le16 u.length))) ++
        (le16 x ++ data) := by
    intro x
    simp only [UdpHeader.bytes, List.append_assoc]
  rw [udpChecksum, hsplit, hsplit]
  apply ipChecksum_store
  · simp only [List.length_append, length_le16]
    omega
  · simp only [List.length_append, length_le16]
    omega

/-- **Every emitted checksum verifies**, whatever the fields and whatever the
payload whose length the 16-bit length fields hold. -/
theorem checksums_verify :
    (∀ tos len identification flags ttl protocol srcIp dstIp, IpVerifies
      (createIpHeader tos len identification flags ttl protocol srcIp dstIp).bytes) ∧
    (∀ inet len protocol, IpVerifies (createIpProtocolHeader inet len protocol).bytes) ∧
    (∀ inet protocol, IpVerifies (createIpIcmpProtocolHeader inet protocol).bytes) ∧
    (∀ type, IpVerifies (createIcmpProtocolHeader type).bytes) ∧
    (∀ inet flag seqNum ackNum options s, 20 + options.length + s.length < 2 ^ 16 →
      TcpVerifies (tcpPseudoHeader inet (20 + options.length + s.length)).bytes
        (createTcpHeader inet flag seqNum ackNum options s).bytes options s) ∧
    (∀ inet data, 8 + data.length < 2 ^ 16 →
      IpVerifies ((udpPseudoHeader inet (8 + data.length)).bytes ++
        (createUdpHeader inet data).bytes ++ data)) := by
  refine ⟨fun tos len identification flags ttl protocol srcIp dstIp => ?_,
    fun inet len protocol => ?_, fun inet protocol => ?_, icmpHeader_verifies,
    fun inet flag seqNum ackNum options s hlen => ?_, fun inet data hlen => ?_⟩
  · exact ipHeader_verifies ⟨0x45, tos, len, htons identification, htons flags, ttl, protocol, 0,
      srcIp, dstIp⟩
  · exact ipHeader_verifies ⟨0x45, 0, len, htons 0xd0f1, htons 0x4000, 64, protocol, 0,
      inet.localIp, inet.remoteIp⟩
  · exact ipHeader_verifies ⟨0x45, 0, htons (20 + 8), htons 1, htons 0x4000, 64, protocol, 0,
      inet.localIp, inet.remoteIp⟩
  · apply tcpHeader_verifies (tcpPseudoHeader inet (20 + options.length + s.length)).bytes
      ⟨htons inet.localPort, htons inet.remotePort, htonl seqNum, htonl ackNum,
        BitVec.ofNat 8 (((20 + options.length) / 4) <<< 4), flag, htons 0xfaf0, 0, 0⟩
    · simp
    · simp only [List.length_append, PseudoHeader.length_bytes, TcpHeader.length_bytes]
      omega
  · apply udpHeader_verifies (udpPseudoHeader inet (8 + data.length)).bytes
      (blankUdpHeader inet (8 + data.length)) data
    · simp
    · rw [PseudoHeader.length_bytes]
      omega

theorem checksums_verify_sample :
    TcpVerifies (tcpPseudoHeader sampleInet (20 + 4 + 3)).bytes
      (createTcpHeader sampleInet tcpPshAck 7 9 [1, 1, 1, 0] [0x41, 0x42, 0x43]).bytes
      [1, 1, 1, 0] [0x41, 0x42, 0x43] ∧
    IpVerifies ((udpPseudoHeader sampleInet (8 + 1)).bytes ++
      (createUdpHeader sampleInet [0xff]).bytes ++ [0xff]) := by
  obtain ⟨-, -, -, -, htcp, hudp⟩ := checksums_verify
  exact ⟨htcp sampleInet tcpPshAck 7 9 [1, 1, 1, 0] [0x41, 0x42, 0x43] (by decide),
    hudp sampleInet [0xff] (by decide)⟩

end X64SmpOs.Net

import X64SmpOs.Lib.OnesComplement
import X64SmpOs.Net.Send

/-!
# The two checksum routines

`ip_checksum` adds the words as they are loaded, `tcp_checksum` adds them in
network order and its caller swaps the result.

* `udpChecksum`, `createUdpHeader`, `udpSend`: the UDP path, over `ip_checksum`;
* `toNat_wordSum`: the 32-bit sum of up to 65537 words does not overflow;
* `checksum_agree`: both routines give the same two bytes on the wire.
-/

namespace X64SmpOs.Net

open Memory OnesComplement

/-! ## The UDP path -/

structure UdpHeader where
  sourcePort : BitVec 16
  destPort : BitVec 16
  length : BitVec 16
  checksum : BitVec 16

def UdpHeader.bytes (h : UdpHeader) : List Byte :=
  le16 h.sourcePort ++ (le16 h.destPort ++ (le16 h.length ++ le16 h.checksum))

@[simp] theorem UdpHeader.length_bytes (h : UdpHeader) : h.bytes.length = 8 := by
  simp [UdpHeader.bytes]

/-- The three pieces are copied one behind the other. -/
def udpChecksum (psh udph data : List Byte) : BitVec 16 := ipChecksum (psh ++ udph ++ data)

/-- The header before its checksum, and the pseudo header. -/
def blankUdpHeader (inet : Inet) (len : Nat) : UdpHeader :=
  { sourcePort := htons inet.localPort
    destPort := htons inet.remotePort
    length := htons len
    checksum := 0 }

def udpPseudoHeader (inet : Inet) (len : Nat) : PseudoHeader :=
  { srcAddr := inet.localIp
    destAddr := inet.remoteIp
    reserved := 0
    protocol := 17
    length := htons len }

def createUdpHeader (inet : Inet) (data : List Byte) : UdpHeader :=
  let len := 8 + data.length
  let header := blankUdpHeader inet len
  { header with checksum := udpChecksum (udpPseudoHeader inet len).bytes header.bytes data }

/-- `len` is swapped by the caller, `identification` and `flags` here. -/
def createIpHeader (tos : BitVec 8) (len : BitVec 16) (identification flags : Nat)
    (ttl protocol : BitVec 8) (srcIp dstIp : BitVec 32) : IpHeader :=
  let header : IpHeader :=
    { versionIhl := 0x45
      tos
      totalLength := len
      identification := htons identification
      flagsFragment := htons flags
      ttl
      protocol
      checksum := 0
      srcIp
      dstIp }
  { header with checksum := ipChecksum header.bytes }

def udpPacket (ethernet : EtherHeader) (ip : IpHeader) (udp : UdpHeader) (data : List Byte) :
    List Byte :=
  ethernet.bytes ++ (ip.bytes ++ (udp.bytes ++ data))

def udpSend (inet : Inet) (data : List Byte) : List Byte :=
  let ethernet := createEtherHeader inet.remoteMac inet.localMac etherTypeIp
  let udp := createUdpHeader inet data
  let ip := createIpHeader 0 (htons (20 + 8 + data.length)) 0x3fa6 0x4000 64 ipLoadUdp
    inet.localIp inet.remoteIp
  udpPacket ethernet ip udp data

/-! ## Sums of words -/

theorem toNat_wordHost (a b : Byte) : (wordHost a b).toNat = lowFirst 256 a.toNat b.toNat := by
  have ha := a.isLt
  have hb := b.isLt
  simp only [wordHost, lowFirst, BitVec.toNat_add, BitVec.toNat_shiftLeft, BitVec.toNat_setWidth,
    Nat.shiftLeft_eq]
  omega

theorem toNat_wordNet (a b : Byte) : (wordNet a b).toNat = highFirst 256 a.toNat b.toNat :=
  toNat_wordHost b a

/-- Words of 16 bits. -/
theorem word_le {l : List Byte} {a b : ℕ} (ha : a ∈ l.map BitVec.toNat ∨ a = 0)
    (hb : b ∈ l.map BitVec.toNat ∨ b = 0) :
    lowFirst 256 a b ≤ 65535 ∧ highFirst 256 a b ≤ 65535 := by
  have hlt : ∀ c, c ∈ l.map BitVec.toNat ∨ c = 0 → c < 256 := by
    rintro c (hc | rfl)
    · obtain ⟨x, -, rfl⟩ := List.mem_map.mp hc
      exact x.isLt
    · decide
  have ha' := hlt a ha
  have hb' := hlt b hb
  unfold lowFirst highFirst
  omega

/-- **No overflow.** A sum that fits in 32 bits is the sum of the words. -/
theorem toNat_wordSum {word : Byte → Byte → BitVec 32} {w : ℕ → ℕ → ℕ}
    (hw : ∀ a b, (word a b).toNat = w a.toNat b.toNat) (l : List Byte) (sum : BitVec 32)
    (h : sum.toNat + digitSum w (l.map BitVec.toNat) < 2 ^ 32) :
    (wordSum word sum l).toNat = sum.toNat + digitSum w (l.map BitVec.toNat) := by
  induction sum, l using wordSum.induct word with
  | case1 sum a b l ih =>
    simp only [List.map_cons, digitSum, wordSum] at h ⊢
    have hstep : (sum + word a b).toNat = sum.toNat + w a.toNat b.toNat := by
      rw [BitVec.toNat_add, hw]
      exact Nat.mod_eq_of_lt (by omega)
    rw [ih (by omega), hstep]
    omega
  | case2 sum a =>
    simp only [List.map_cons, List.map_nil, digitSum, wordSum] at h ⊢
    rw [BitVec.toNat_add, hw]
    exact Nat.mod_eq_of_lt h
  | case3 sum => simp [digitSum, wordSum]

/-! ## The folding loop -/

theorem foldCarry_folds {n : ℕ} {s : BitVec 32} (h : (foldCarry n s).toNat < 2 ^ 16) :
    Folds 256 s.toNat (foldCarry n s).toNat := by
  induction n generalizing s with
  | zero => exact folds_self h
  | succ n ih =>
    unfold foldCarry at h ⊢
    split at h
    · rename_i hs
      rw [if_pos hs]
      exact folds_self h
    · rename_i hs
      rw [if_neg hs]
      have hround := ih h
      rw [toNat_carry] at hround
      exact folds_carry (by decide) hround

/-- The folded sum of a byte string of at most 65537 words. -/
theorem folds_wordSum {word : Byte → Byte → BitVec 32} {w : ℕ → ℕ → ℕ}
    (hw : ∀ a b, (word a b).toNat = w a.toNat b.toNat) {l : List Byte} (hl : l.length ≤ 131074)
    (hmax : ∀ a b, a ∈ l.map BitVec.toNat ∨ a = 0 → b ∈ l.map BitVec.toNat ∨ b = 0 →
      w a b ≤ 65535) :
    Folds 256 (digitSum w (l.map BitVec.toNat)) (foldCarry 2 (wordSum word 0 l)).toNat := by
  have hle := digitSum_le (l.map BitVec.toNat) hmax
  rw [List.length_map] at hle
  have h0 : (0 : BitVec 32).toNat = 0 := rfl
  have hsum := toNat_wordSum hw l 0 (by omega)
  have hfold := foldCarry_folds (foldCarry_done (wordSum word 0 l))
  rw [hsum, h0, Nat.zero_add] at hfold
  exact hfold

/-! ## Agreement -/

theorem swap_two {x : ℕ} (hx : x < 2 ^ 16) : swap 2 x = exchange 256 x := by
  have hlow : x / 256 % 256 = x / 256 := Nat.mod_eq_of_lt (by omega)
  simp [swap, toLE, readLE, ofList, exchange, hlow]

/-- The bytes of a word are exchanged before or after it is complemented. -/
theorem ntohs_not (x : BitVec 16) : ntohs (~~~ x) = ~~~ (ntohs x) := by
  apply BitVec.eq_of_toNat_eq
  have hx := x.isLt
  rw [toNat_ntohs, BitVec.toNat_not, BitVec.toNat_not, toNat_ntohs, swap_two (by omega),
    swap_two hx]
  unfold exchange
  omega

/-- **Agreement.** Up to 131074 bytes, cut into four pieces anywhere, the swapped
result of `tcp_checksum` is the result of `ip_checksum`. -/
theorem tcpChecksum_swapped {pseudoHeader header options data : List Byte}
    (h : (pseudoHeader ++ header ++ options ++ data).length ≤ 131074) :
    ntohs (tcpChecksum pseudoHeader header options data) =
      ipChecksum (pseudoHeader ++ header ++ options ++ data) := by
  unfold tcpChecksum ipChecksum
  generalize pseudoHeader ++ header ++ options ++ data = l at h
  have hhost := folds_wordSum toNat_wordHost h fun _ _ ha hb => (word_le ha hb).1
  have hnet := folds_wordSum toNat_wordNet h fun _ _ ha hb => (word_le ha hb).2
  have hfold := (folds_exchange (by decide) hhost).unique hnet
  -- the network sum folds to the host sum with its bytes exchanged
  rw [ntohs_not]
  congr 1
  apply BitVec.eq_of_toNat_eq
  have hn := hnet.lt
  have hh := hhost.lt
  rw [toNat_ntohs, BitVec.toNat_setWidth, BitVec.toNat_setWidth, Nat.mod_eq_of_lt hn,
    Nat.mod_eq_of_lt hh, swap_two hn, ← hfold]
  unfold exchange at *
  omega

theorem htons_toNat (x : BitVec 16) : htons x.toNat = ntohs x := by
  rw [htons, BitVec.ofNat_toNat, BitVec.setWidth_eq]

/-- **The two paths.** The caller of `tcp_checksum` stores `htons` of it, the
callers of `ip_checksum` and `udp_checksum` store the result itself; the bytes
that go out are the same. -/
theorem checksum_agree (pseudoHeader header options data : List Byte)
    (h : (pseudoHeader ++ header ++ options ++ data).length ≤ 131074) :
    htons (tcpChecksum pseudoHeader header options data).toNat =
      ipChecksum (pseudoHeader ++ header ++ options ++ data) ∧
    le16 (htons (tcpChecksum pseudoHeader header options data).toNat) =
      le16 (ipChecksum (pseudoHeader ++ header ++ options ++ data)) ∧
    le16 (htons (tcpChecksum pseudoHeader header options data).toNat) =
      le16 (udpChecksum pseudoHeader header (options ++ data)) := by
  have hagree := tcpChecksum_swapped h
  rw [htons_toNat, hagree]
  refine ⟨rfl, rfl, ?_⟩
  simp only [udpChecksum, List.append_assoc]

theorem checksum_agree_sample :
    htons (tcpChecksum [0xc0, 0xa8] [0x04, 0xd2] [0x02] [0x41, 0x42]).toNat =
      ipChecksum ([0xc0, 0xa8] ++ [0x04, 0xd2] ++ [0x02] ++ [0x41, 0x42]) ∧
    le16 (htons (tcpChecksum [0xc0, 0xa8] [0x04, 0xd2] [0x02] [0x41, 0x42]).toNat) =
      le16 (ipChecksum ([0xc0, 0xa8] ++ [0x04, 0xd2] ++ [0x02] ++ [0x41, 0x42])) ∧
    le16 (htons (tcpChecksum [0xc0, 0xa8] [0x04, 0xd2] [0x02] [0x41, 0x42]).toNat) =
      le16 (udpChecksum [0xc0, 0xa8] [0x04, 0xd2] ([0x02] ++ [0x41, 0x42])) :=
  checksum_agree _ _ _ _ (by decide)

/-- `create_udp_header` stores what the TCP path would store for its datagram. -/
theorem createUdpHeader_checksum (inet : Inet) {data : List Byte} (h : data.length ≤ 131054) :
    (createUdpHeader inet data).checksum =
      ntohs (tcpChecksum (udpPseudoHeader inet (8 + data.length)).bytes
        (blankUdpHeader inet (8 + data.length)).bytes [] data) := by
  rw [tcpChecksum_swapped, List.append_nil]
  · rfl
  · simp only [List.length_append, PseudoHeader.length_bytes, UdpHeader.length_bytes,
      List.length_nil]
    omega

end X64SmpOs.Net

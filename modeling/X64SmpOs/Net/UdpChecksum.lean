import X64SmpOs.Net.Checksum

/-!
# The value a UDP checksum takes

Zero in the checksum field means that the sender computed none, so a computed
zero has to go out as all ones. `create_udp_header` stores what `ip_checksum`
returns.

* `udpSum`: the words of the datagram and its pseudo header added up, read off
  the addresses, the ports and the payload;
* `netSum_datagram`: the bytes that are summed are worth `udpSum`;
* `createUdpHeader_nonzero_iff`: the field is non-zero unless 65535 divides
  `udpSum`.
-/

namespace X64SmpOs.Net

open Memory OnesComplement

/-! ## Words in network order -/

/-- The sum of the words of a byte string in network order. -/
def netSum (l : List Byte) : ℕ := digitSum (highFirst 256) (l.map BitVec.toNat)

theorem netSum_append {pre : List Byte} (h : pre.length % 2 = 0) (l : List Byte) :
    netSum (pre ++ l) = netSum pre + netSum l := by
  rw [netSum, List.map_append, digitSum_append _ (by rwa [List.length_map])]
  rfl

theorem netSum_cons_cons (a b : Byte) (l : List Byte) :
    netSum (a :: b :: l) = highFirst 256 a.toNat b.toNat + netSum l := rfl

theorem netSum_le16 (x : BitVec 16) : netSum (le16 x) = (ntohs x).toNat := by
  have hx := x.isLt
  rw [toNat_ntohs]
  simp [netSum, le16, toLE, digitSum, highFirst, swap, readLE, ofList]

/-- The two words of an address. -/
def addressSum (ip : BitVec 32) : ℕ := (ntohl ip).toNat / 2 ^ 16 + (ntohl ip).toNat % 2 ^ 16

theorem netSum_le32 (x : BitVec 32) : netSum (le32 x) = addressSum x := by
  have hx := x.isLt
  have hbytes : netSum (le32 x) = highFirst 256 (x.toNat % 256) (x.toNat / 256 % 256) +
      highFirst 256 (x.toNat / 256 / 256 % 256) (x.toNat / 256 / 256 / 256 % 256) := rfl
  rw [addressSum, toNat_ntohl, hbytes]
  simp only [swap, toLE, List.reverse_cons, List.reverse_nil, List.nil_append, List.cons_append,
    readLE, ofList, List.getD_cons_zero, List.getD_cons_succ, BitVec.toNat_ofNat, highFirst]
  omega

theorem netSum_htons (n : ℕ) : netSum (le16 (htons n)) = n % 2 ^ 16 := by
  rw [netSum_le16, htons, ntohs_ntohs, BitVec.toNat_ofNat]

/-! ## The datagram -/

/-- Addresses, protocol, ports, the length in both headers, and the payload. -/
def udpSum (inet : Inet) (data : List Byte) : ℕ :=
  addressSum inet.localIp + addressSum inet.remoteIp + 17 + inet.localPort % 2 ^ 16 +
    inet.remotePort % 2 ^ 16 + 2 * (8 + data.length) + netSum data

theorem netSum_pseudoHeader (inet : Inet) (len : ℕ) :
    netSum (udpPseudoHeader inet len).bytes =
      addressSum inet.localIp + addressSum inet.remoteIp + 17 + len % 2 ^ 16 := by
  simp only [PseudoHeader.bytes, udpPseudoHeader]
  rw [netSum_append (by simp), netSum_append (by simp), netSum_cons_cons, netSum_le32, netSum_le32,
    netSum_htons]
  have hword : highFirst 256 (0 : Byte).toNat (17 : Byte).toNat = 17 := rfl
  omega

theorem netSum_blankUdpHeader (inet : Inet) (len : ℕ) :
    netSum (blankUdpHeader inet len).bytes =
      inet.localPort % 2 ^ 16 + inet.remotePort % 2 ^ 16 + len % 2 ^ 16 := by
  have hzero : netSum (le16 0) = 0 := rfl
  simp only [UdpHeader.bytes, blankUdpHeader]
  rw [netSum_append (by simp), netSum_append (by simp), netSum_append (by simp), netSum_htons,
    netSum_htons, netSum_htons, hzero]
  omega

/-- **The summed bytes.** Pseudo header, header and payload in one buffer. -/
theorem netSum_datagram (inet : Inet) {data : List Byte} (h : 8 + data.length < 2 ^ 16) :
    netSum ((udpPseudoHeader inet (8 + data.length)).bytes ++
      (blankUdpHeader inet (8 + data.length)).bytes ++ data) = udpSum inet data := by
  rw [netSum_append (by simp), netSum_append (by simp), netSum_pseudoHeader, netSum_blankUdpHeader,
    Nat.mod_eq_of_lt h, udpSum]
  omega

/-! ## The zero -/

/-- `ip_checksum` returns zero for the non-empty sums 65535 divides. -/
theorem ipChecksum_eq_zero_iff {l : List Byte} (hl : l.length ≤ 131074) :
    ipChecksum l = 0 ↔ 0 < netSum l ∧ 65535 ∣ netSum l := by
  have hfold := folds_wordSum toNat_wordHost hl fun _ _ ha hb => (word_le ha hb).1
  have hlt := hfold.lt
  have hones := hfold.eq_ones_iff (by decide)
  have hdvd := dvd_digitSum_iff (B := 256) (by decide) (l.map BitVec.toNat)
  have hzero := digitSum_eq_zero (B := 256) (by decide) (l.map BitVec.toNat)
  have hnot : ipChecksum l = 0 ↔ (foldCarry 2 (wordSum wordHost 0 l)).toNat = 65535 := by
    rw [ipChecksum, ← BitVec.toNat_inj, BitVec.toNat_not, BitVec.toNat_setWidth,
      Nat.mod_eq_of_lt hlt]
    have hword : (0 : BitVec 16).toNat = 0 := rfl
    omega
  rw [hnot, netSum, hdvd, Nat.pos_iff_ne_zero, Ne, hzero, ← Ne, ← Nat.pos_iff_ne_zero]
  exact hones

/-- **The checksum field.** For a payload that fits the length field, it is
zero exactly when 65535 divides the sum of the words. -/
theorem createUdpHeader_nonzero_iff (inet : Inet) (data : List Byte)
    (h : 8 + data.length < 2 ^ 16) :
    (createUdpHeader inet data).checksum ≠ 0 ↔ ¬ 65535 ∣ udpSum inet data := by
  have hpos : 0 < udpSum inet data := by
    unfold udpSum
    omega
  have hlen : ((udpPseudoHeader inet (8 + data.length)).bytes ++
      (blankUdpHeader inet (8 + data.length)).bytes ++ data).length ≤ 131074 := by
    simp only [List.length_append, PseudoHeader.length_bytes, UdpHeader.length_bytes]
    omega
  have hzero := ipChecksum_eq_zero_iff hlen
  rw [netSum_datagram inet h] at hzero
  rw [Ne, createUdpHeader, udpChecksum, hzero]
  simp [hpos]

theorem createUdpHeader_nonzero_sample :
    (createUdpHeader sampleInet [0x41]).checksum ≠ 0 ↔ ¬ 65535 ∣ udpSum sampleInet [0x41] :=
  createUdpHeader_nonzero_iff sampleInet [0x41] (by decide)

/-- A payload of two bytes that makes up the sum to a multiple of 65535. -/
theorem createUdpHeader_zero :
    8 + [(0x4F : Byte), 0x13].length < 2 ^ 16 ∧
      (createUdpHeader sampleInet [0x4F, 0x13]).checksum = 0 := by
  constructor
  · decide
  · decide +kernel

end X64SmpOs.Net

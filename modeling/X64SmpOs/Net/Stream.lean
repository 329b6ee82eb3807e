import Mathlib.Data.BitVec
import X64SmpOs.Lib.Coverage
import X64SmpOs.Net.Endpoint

/-!
# Acknowledgement of the peer's stream

* `Segment`: a data segment and the place of its payload in the peer's stream;
* `recvStep`: the handler's step on a connected endpoint, with the positions
  received so far; `recvStep_of_frame`: it is the endpoint's step;
* `AckLaw`: `ack_num` counts the bytes received without a gap and does not go
  back;
* `InOrder`: a segment begins in what has arrived without a gap or next to it,
  reaches its end, and what follows the segment has not arrived;
* `ackLaw_of_inOrder`: a run in order keeps the law; `ackLaw_iff_inOrder`: in a
  stream short of 4 GiB only such a run does.
-/

namespace X64SmpOs.Net

open Coverage Runs Words

/-- `off` is the position of the first payload byte. -/
structure Segment where
  frame : Frame
  off : Nat

/-- The payload's length, from the lengths in the headers. -/
def Segment.len (g : Segment) : Nat := g.frame.totalLength - 20 - g.frame.tcpHeaderLen

/-- A well-formed data segment of the stream whose SYN was numbered `irs`. -/
structure OfStream (irs : BitVec 32) (inet : Inet) (g : Segment) : Prop where
  data : DataSegment inet g.frame
  header : 20 + g.frame.tcpHeaderLen ≤ g.frame.totalLength
  sequence : g.frame.sequenceNum = irs + 1 + BitVec.ofNat 32 g.off

/-- `got` is the set of the positions received, a history read by no step. -/
structure Receiver where
  inet : Inet
  got : Set Nat

def recvStep (irs : BitVec 32) (s : Receiver) (g : Segment) (t : Receiver) : Prop :=
  OfStream irs s.inet g ∧ t =
    ⟨(packetRecv s.inet g.frame).inet, s.got ∪ Set.Ico g.off (g.off + g.len)⟩

/-- The endpoint's step. -/
theorem recvStep_of_frame {posts : ThreadName → Bool} {irs : BitVec 32} {s t : Endpoint}
    {g : Segment} (got : Set Nat) (hseg : OfStream irs s.inet g)
    (h : step posts s (.frame g.frame) t) :
    recvStep irs ⟨s.inet, got⟩ g ⟨t.inet, got ∪ Set.Ico g.off (g.off + g.len)⟩ := by
  refine ⟨hseg, ?_⟩
  simp only [step, stepOf, Endpoint.next, Endpoint.frame] at h
  split at h
  · cases h
  · cases h
    rfl

/-- `c` bytes have come without a gap, and `ack_num` says so. -/
def Acked (irs : BitVec 32) (s : Receiver) (c : Nat) : Prop :=
  FirstMissing s.got c ∧ s.inet.ackNum = irs + 1 + BitVec.ofNat 32 c

def AckLaw (irs : BitVec 32) (s : Receiver) (_ : Segment) (t : Receiver) : Prop :=
  ∃ c d, Acked irs s c ∧ Acked irs t d ∧ c ≤ d

def InOrder (s : Receiver) (g : Segment) (_ : Receiver) : Prop :=
  ∀ c, FirstMissing s.got c → g.off ≤ c ∧ c ≤ g.off + g.len ∧ g.off + g.len ∉ s.got

/-- The connection stands, and none of the peer's bytes has come. -/
structure Connected (irs : BitVec 32) (s : Receiver) : Prop where
  status : s.inet.tcpStatus = .connected
  ackNum : s.inet.ackNum = irs + 1
  got : s.got = ∅

/-! ## One segment -/

section Steps

variable {irs : BitVec 32} {s t : Receiver} {g : Segment}

/-- A header no longer than the segment: nothing wraps. -/
theorem tcpDataLen_of_header {f : Frame} (h : 20 + f.tcpHeaderLen ≤ f.totalLength) :
    f.tcpDataLen = f.totalLength - 20 - f.tcpHeaderLen := by
  have hlt : f.totalLength < 2 ^ 16 := BitVec.isLt _
  have hseg : sub64 f.totalLength 20 = f.totalLength - 20 := sub64_of_le (by omega) (by omega)
  rw [Frame.tcpDataLen, hseg, sub64_of_le (by omega) (by omega)]

/-- The handler acknowledges the segment's own end. -/
theorem ackNum_recvStep (h : recvStep irs s g t) :
    t.inet.ackNum = irs + 1 + BitVec.ofNat 32 (g.off + g.len) := by
  obtain ⟨hseg, rfl⟩ := h
  rw [(packetRecv_data hseg.data).1]
  show g.frame.sequenceNum + BitVec.ofNat 32 g.frame.tcpDataLen = _
  rw [hseg.sequence, tcpDataLen_of_header hseg.header, ← Segment.len, BitVec.ofNat_add, add_assoc]

theorem got_recvStep (h : recvStep irs s g t) :
    t.got = s.got ∪ Set.Ico g.off (g.off + g.len) := by
  rw [h.2]

/-- After a segment in order the gapless part ends with it. -/
theorem acked_of_inOrder {c : Nat} (h : recvStep irs s g t) (hin : InOrder s g t)
    (hs : Acked irs s c) : Acked irs t (g.off + g.len) ∧ c ≤ g.off + g.len := by
  have ho := hin c hs.1
  refine ⟨⟨?_, ackNum_recvStep h⟩, ho.2.1⟩
  rw [got_recvStep h]
  exact (firstMissing_union_iff hs.1).mpr ho

/-- **Step lemma.** -/
theorem ackLaw_step (h : recvStep irs s g t) (hin : InOrder s g t) (hs : ∃ c, Acked irs s c) :
    (∃ c, Acked irs t c) ∧ AckLaw irs s g t := by
  obtain ⟨c, hc⟩ := hs
  obtain ⟨ht, hle⟩ := acked_of_inOrder h hin hc
  exact ⟨⟨_, ht⟩, c, _, hc, ht, hle⟩

theorem acked_connected (h : Connected irs s) : Acked irs s 0 := by
  refine ⟨?_, by simp [h.ackNum]⟩
  rw [h.got]
  exact firstMissing_empty

end Steps

/-- **Cumulative acknowledgement.** For every stream of data segments to a
connected endpoint that come in order, with repetitions of the last one. -/
theorem ackLaw_of_inOrder {irs : BitVec 32} {s : Receiver} (hs : Connected irs s)
    (gs : List Segment) (hin : Every (recvStep irs) InOrder s gs) :
    Every (recvStep irs) (AckLaw irs) s gs :=
  every_of_inv (I := fun s => ∃ c, Acked irs s c) (fun _ _ _ hi hc hst => ackLaw_step hst hc hi)
    ⟨0, acked_connected hs⟩ hin

/-! ## Streams short of 4 GiB -/

/-- Positions below the modulus of sequence numbers. -/
def Short (_ : Receiver) (g : Segment) (_ : Receiver) : Prop := g.off + g.len < 2 ^ 32

theorem ofNat_inj {m n : Nat} (hm : m < 2 ^ 32) (hn : n < 2 ^ 32)
    (h : BitVec.ofNat 32 m = BitVec.ofNat 32 n) : m = n := by
  have h' := congrArg BitVec.toNat h
  rwa [BitVec.toNat_ofNat, BitVec.toNat_ofNat, Nat.mod_eq_of_lt hm, Nat.mod_eq_of_lt hn] at h'

/-- A segment out of order is acknowledged wrongly. -/
theorem inOrder_of_ackLaw {irs : BitVec 32} {s t : Receiver} {g : Segment}
    (hb : ∀ k ∈ s.got, k < 2 ^ 32 - 1) (hshort : g.off + g.len < 2 ^ 32) (h : recvStep irs s g t)
    (hlaw : AckLaw irs s g t) : InOrder s g t := by
  obtain ⟨-, d, -, ⟨hd, hack⟩, -⟩ := hlaw
  have hlt : d < 2 ^ 32 := by
    rw [got_recvStep h] at hd
    have hle : d ≤ 2 ^ 32 - 1 := by
      apply hd.le_of_bound
      intro k hk
      rcases hk with hk | hk
      · exact hb k hk
      · have hend := hk.2
        omega
    omega
  have hend : g.off + g.len = d := by
    rw [ackNum_recvStep h] at hack
    exact ofNat_inj hshort hlt (add_left_cancel hack)
  intro c hc
  rw [got_recvStep h, ← hend] at hd
  exact (firstMissing_union_iff hc).mp hd

theorem ackLaw_iff_inOrder {irs : BitVec 32} {s : Receiver} (hs : Connected irs s)
    (gs : List Segment) (hshort : Every (recvStep irs) Short s gs) :
    Every (recvStep irs) (AckLaw irs) s gs ↔ Every (recvStep irs) InOrder s gs := by
  refine ⟨fun hlaw => ?_, ackLaw_of_inOrder hs gs⟩
  refine every_of_inv (I := fun s => ∀ k ∈ s.got, k < 2 ^ 32 - 1)
    (fun s g t hb hc hst => ⟨?_, inOrder_of_ackLaw hb hc.2 hst hc.1⟩) ?_ (every_and hlaw hshort)
  · intro k hk
    rw [got_recvStep hst] at hk
    rcases hk with hk | hk
    · exact hb k hk
    · have hend := hk.2
      have hlt : g.off + g.len < 2 ^ 32 := hc.2
      omega
  · rw [hs.got]
    nofun

/-- The endpoint of `sampleInet`, the peer's SYN numbered 5000. -/
def sampleReceiver : Receiver := ⟨sampleInet, ∅⟩

theorem sample_connected : Connected 5000 sampleReceiver := ⟨rfl, by decide, rfl⟩

/-- The first byte of the stream, and the sixth. -/
def sampleFirst : Segment := ⟨sampleData, 0⟩

def sampleSixth : Segment := ⟨.ofPacket (tcpSend { samplePeer with seqNum := 5006 } [0x42]), 5⟩

theorem sample_first : OfStream 5000 sampleInet sampleFirst :=
  ⟨by decide +kernel, by decide +kernel, by decide +kernel⟩

/-- The sixth byte comes first: six bytes are acknowledged, none has come. -/
theorem ackLaw_sample_fails :
    Connected 5000 sampleReceiver ∧
      ¬ Every (recvStep 5000) (AckLaw 5000) sampleReceiver [sampleSixth] := by
  refine ⟨sample_connected, fun h => ?_⟩
  have hseg : OfStream 5000 sampleInet sampleSixth :=
    ⟨by decide +kernel, by decide +kernel, by decide +kernel⟩
  have hlen : sampleSixth.len = 1 := by decide +kernel
  have hst : recvStep 5000 sampleReceiver sampleSixth _ := ⟨hseg, rfl⟩
  obtain ⟨-, d, -, ⟨hd, hack⟩, -⟩ := (h _ hst).1
  have hd0 : d = 0 := by
    refine hd.unique ⟨nofun, ?_⟩
    rw [got_recvStep hst, hlen]
    rintro (hmem | hmem)
    · exact hmem
    · exact absurd hmem.1 (by decide)
  rw [ackNum_recvStep hst, hlen, hd0] at hack
  exact absurd hack (by decide)

/-- The first byte comes twice. -/
theorem ackLaw_sample_holds :
    (∃ t, Run (recvStep 5000) sampleReceiver [sampleFirst, sampleFirst] t) ∧
      Every (recvStep 5000) (AckLaw 5000) sampleReceiver [sampleFirst, sampleFirst] := by
  have hagain : OfStream 5000 (packetRecv sampleInet sampleData).inet sampleFirst :=
    ⟨by decide +kernel, by decide +kernel, by decide +kernel⟩
  refine ⟨⟨_, _, ⟨sample_first, rfl⟩, _, ⟨hagain, rfl⟩, rfl⟩,
    ackLaw_of_inOrder sample_connected _ fun t ht => ⟨fun c hc => ?_, fun u hu => ⟨?_, trivial⟩⟩⟩
  · obtain rfl := hc.unique firstMissing_empty
    exact ⟨le_rfl, by omega, id⟩
  · have hgot : FirstMissing t.got (sampleFirst.off + sampleFirst.len) := by
      rw [got_recvStep ht]
      exact (firstMissing_union_iff firstMissing_empty).mpr ⟨le_rfl, by omega, id⟩
    intro c hc
    obtain rfl := hc.unique hgot
    exact ⟨by omega, le_rfl, hgot.missing⟩

end X64SmpOs.Net

import Mathlib.Data.BitVec
import Mathlib.Data.Nat.ModEq
import Mathlib.Tactic.Ring
import X64SmpOs.Net.Endpoint

/-!
# Send sequence numbers

* `SeqInv`: `seq_num` is the initial number, one for an accepted SYN+ACK, and
  one for every data segment received;
* `SendLaw`: a data segment carries the initial number, one for the SYN, and
  the payload bytes sent before it;
* `Balanced`: as many data segments received as payload bytes sent;
* `sendLaw_iff_balanced`: a run keeps the law exactly when it sends in balance
  only.
-/

namespace X64SmpOs.Net

open Memory Runs

/-- The last packet sent. -/
def Endpoint.lastSent (s : Endpoint) : Frame := Frame.ofPacket (s.wire.headD [])

/-- The number in the data segment a `tcp_send` puts on the wire. -/
def SendLaw (s : Endpoint) (a : Act) (t : Endpoint) : Prop :=
  ∀ data, a = .send data →
    t.lastSent.sequenceNum = s.hist.iss + 1 + BitVec.ofNat 32 s.hist.bytes

def Balanced (s : Endpoint) (a : Act) (_ : Endpoint) : Prop :=
  ∀ data, a = .send data → s.hist.segs ≡ s.hist.bytes [MOD 2 ^ 32]

/-- What the SYN has taken of the sequence space. -/
def TcpState.synNum : TcpState → BitVec 32
  | .closed | .hand1 => 0
  | .hand2 | .connected => 1

structure SeqInv (s : Endpoint) : Prop where
  conn : ConnOk s.conn s.inet.tcpStatus
  seq : s.inet.seqNum = s.hist.iss + s.inet.tcpStatus.synNum + BitVec.ofNat 32 s.hist.segs

theorem seqInv_start {s : Endpoint} (h : Start s) : SeqInv s := by
  constructor
  · rw [h.conn, h.status]
    exact Or.inl rfl
  · simp [h.iss, h.segs, h.status, TcpState.synNum]

section Steps

variable {s t : Endpoint}

theorem seq_frame {f : Frame} (hs : SeqInv s) (hkeep : FrameKeeps s t) (heff : FrameEffect s f t) :
    t.inet.seqNum = t.hist.iss + t.inet.tcpStatus.synNum + BitVec.ofNat 32 t.hist.segs := by
  have hseq := hs.seq
  rw [hkeep.iss]
  cases heff with
  | synAck _ hst htcp _ hsegs =>
    have h1 : t.inet.seqNum = s.inet.seqNum + 1 := congrArg (·.1) htcp
    have h2 : t.inet.tcpStatus = .hand2 := congrArg (·.2.2) htcp
    rw [h1, h2, hsegs, hseq, hst, TcpState.synNum, TcpState.synNum]
    ring
  | data _ htcp _ hsegs =>
    have h1 : t.inet.seqNum = s.inet.seqNum + 1 := congrArg (·.1) htcp
    have h2 : t.inet.tcpStatus = s.inet.tcpStatus := congrArg (·.2.2) htcp
    rw [h1, h2, hsegs, hseq, BitVec.ofNat_add]
    exact add_assoc _ _ _
  | other _ _ htcp _ hsegs =>
    have h1 : t.inet.seqNum = s.inet.seqNum := congrArg (·.1) htcp
    have h2 : t.inet.tcpStatus = s.inet.tcpStatus := congrArg (·.2.2) htcp
    rw [h1, h2, hsegs, hseq]

theorem seqInv_step {posts : ThreadName → Bool} {a : Act} (hs : SeqInv s) (h : step posts s a t) :
    SeqInv t := by
  refine ⟨connOk_step hs.conn h, ?_⟩
  have hconn := hs.conn
  have hseq := hs.seq
  cases moves_of_step h with
  | frame keep eff => exact seq_frame hs keep eff
  -- the status stored stands for as much of the sequence space as the one found
  | hand1 conn =>
    rw [conn] at hconn
    rw [show s.inet.tcpStatus = .closed from hconn] at hseq
    exact hseq
  | connected conn =>
    rw [conn] at hconn
    rw [show s.inet.tcpStatus = .hand2 from hconn] at hseq
    exact hseq
  | failure => simp [tcpInitSeq, TcpState.synNum]
  | _ => exact hseq

end Steps

/-- The two counts agree as sequence numbers. -/
theorem ofNat_eq_iff_modEq (m n : Nat) :
    BitVec.ofNat 32 m = BitVec.ofNat 32 n ↔ m ≡ n [MOD 2 ^ 32] := by
  rw [← BitVec.toNat_inj, BitVec.toNat_ofNat, BitVec.toNat_ofNat]
  exact Iff.rfl

theorem sendLaw_step_iff {posts : ThreadName → Bool} {s t : Endpoint} {a : Act} (hs : SeqInv s)
    (h : step posts s a t) : SendLaw s a t ↔ Balanced s a t := by
  cases moves_of_step h with
  | @send data _ status =>
    have hsent : Endpoint.lastSent
        { s with
          wire := tcpSend s.inet data :: s.wire
          hist := { s.hist with bytes := s.hist.bytes + data.length } } =
        Frame.ofPacket (tcpSend s.inet data) := rfl
    have hseq : s.inet.seqNum = s.hist.iss + 1 + BitVec.ofNat 32 s.hist.segs := by
      rw [hs.seq, status]
      rfl
    have hiff : (Frame.ofPacket (tcpSend s.inet data)).sequenceNum =
        s.hist.iss + 1 + BitVec.ofNat 32 s.hist.bytes ↔
          s.hist.segs ≡ s.hist.bytes [MOD 2 ^ 32] := by
      rw [sequence_tcpSend, hseq, add_right_inj, ofNat_eq_iff_modEq]
    constructor
    · rintro hlaw _ ⟨⟩
      exact hiff.mp (hsent ▸ hlaw data rfl)
    · rintro hbal _ ⟨⟩
      exact hsent ▸ hiff.mpr (hbal data rfl)
  | _ => exact iff_of_true nofun nofun

/-- **Send sequence law.** From the first `tcp_init_seq` on, for every
interleaving of handshakes, received frames and calls of `tcp_send`, whatever
ends the monitor's waits. -/
theorem sendLaw_iff_balanced (posts : ThreadName → Bool) {s : Endpoint} (hs : Start s)
    (as : List Act) : Every (step posts) SendLaw s as ↔ Every (step posts) Balanced s as :=
  every_iff (I := SeqInv) (fun _ _ _ hi _ hst => seqInv_step hi hst)
    (fun _ _ _ hi hst => sendLaw_step_iff hi hst) (seqInv_start hs) as

/-- After the handshake two bytes are sent, one by one, and nothing is received:
the second segment carries the number of the first. -/
theorem sendLaw_sample_fails :
    Start sampleStart ∧ ¬ Every (step postsMonitor) SendLaw sampleStart
      ((sampleHandshake ++ [.send [0x41]]) ++ [.send [0x42]]) := by
  refine ⟨sample_start_ok, fun h => ?_⟩
  have hlaw : (exec (Endpoint.next postsMonitor) sampleStart
      (sampleHandshake ++ [.send [0x41]])).map
        (fun t => t.hist.iss + 1 + BitVec.ofNat 32 t.hist.bytes) = some 1002 := by decide +kernel
  have hsent : ((exec (Endpoint.next postsMonitor) sampleStart
      (sampleHandshake ++ [.send [0x41]])).bind (·.sendData [0x42])).map
        (·.lastSent.sequenceNum) = some 1001 := by decide +kernel
  obtain ⟨t, ht, hlaw⟩ := Option.map_eq_some_iff.mp hlaw
  rw [ht, Option.bind_some] at hsent
  obtain ⟨u, hu, hsent⟩ := Option.map_eq_some_iff.mp hsent
  have hbad := every_at h ht hu [0x42] rfl
  rw [hlaw, hsent] at hbad
  exact absurd hbad (by decide)

/-- `Balanced`, evaluated. -/
def checkBalanced (s : Endpoint) : Act → Bool
  | .send _ => s.hist.segs % 2 ^ 32 = s.hist.bytes % 2 ^ 32
  | _ => true

theorem balanced_of_check (s : Endpoint) (a : Act) (t : Endpoint) (h : checkBalanced s a = true) :
    Balanced s a t := by
  rintro data rfl
  exact of_decide_eq_true h

/-- A byte of data comes between the two. -/
theorem sendLaw_sample_holds :
    Every (step postsMonitor) SendLaw sampleStart
      (sampleHandshake ++ [.send [0x41], .frame sampleData, .send [0x42]]) :=
  (sendLaw_iff_balanced postsMonitor sample_start_ok _).mpr
    (every_of_check balanced_of_check (by decide +kernel))

end X64SmpOs.Net

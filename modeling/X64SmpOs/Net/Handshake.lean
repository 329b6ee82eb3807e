import X64SmpOs.Net.Endpoint

/-!
# The handshake

* `StrictLaw`: a SYN+ACK is accepted by its ports and acknowledgement number;
* `HandLaw`: `TCP_HAND_2` is entered on a SYN+ACK of the remote host only, and
  before the connection stands other segments change nothing;
* `handLaw_every`: the handler keeps the second law in every run;
  `strictLaw_sample_fails`: it does not keep the first.
-/

namespace X64SmpOs.Net

open Memory Runs

def Frame.sourcePort (f : Frame) : BitVec 16 := ntohs (f.u16 34)

def Frame.destPort (f : Frame) : BitVec 16 := ntohs (f.u16 36)

/-- A segment of this connection that acknowledges the SYN. -/
structure ForUs (s : Endpoint) (f : Frame) : Prop where
  sourcePort : f.sourcePort = BitVec.ofNat 16 s.inet.remotePort
  destPort : f.destPort = BitVec.ofNat 16 s.inet.localPort
  ackNum : f.ackNum = s.hist.iss + 1

/-- Acceptance by ports and acknowledgement number, which the handler does not
look at. -/
structure StrictLaw (s : Endpoint) (a : Act) (t : Endpoint) : Prop where
  accept : s.inet.tcpStatus = .hand1 → t.inet.tcpStatus = .hand2 →
    ∃ f, a = .frame f ∧ SynAck s.inet f ∧ ForUs s f
  keep : ∀ f, a = .frame f → TcpSegment s.inet f → s.inet.tcpStatus ≠ .connected →
    ¬ (SynAck s.inet f ∧ ForUs s f ∧ s.inet.tcpStatus = .hand1) → t.inet.tcp = s.inet.tcp

/-- The handler goes by addresses and flags. Data segments are left out. -/
structure HandLaw (s : Endpoint) (a : Act) (t : Endpoint) : Prop where
  accept : s.inet.tcpStatus = .hand1 → t.inet.tcpStatus = .hand2 →
    ∃ f, a = .frame f ∧ SynAck s.inet f
  keep : ∀ f, a = .frame f → TcpSegment s.inet f → s.inet.tcpStatus ≠ .connected →
    ¬ (SynAck s.inet f ∧ s.inet.tcpStatus = .hand1) → f.tcpFlags ≠ tcpPshAck →
    t.inet.tcp = s.inet.tcp

/-- Only a frame takes the connection to `TCP_HAND_2`. -/
theorem hand2_of_frame {posts : ThreadName → Bool} {s t : Endpoint} {a : Act}
    (h : step posts s a t) (hs : s.inet.tcpStatus = .hand1) (ht : t.inet.tcpStatus = .hand2) :
    ∃ f, a = .frame f ∧ SynAck s.inet f := by
  cases moves_of_step h with
  | @frame f _ keep eff =>
    rcases eff.status with hst | ⟨-, -, hseg⟩
    · rw [hst, hs] at ht
      cases ht
    · exact ⟨f, rfl, hseg⟩
  | hand1 | connected | failure => cases ht
  | _ => exact absurd (hs.symm.trans ht) nofun

/-- **Handshake acceptance.** From any state, in every run. -/
theorem handLaw_every (posts : ThreadName → Bool) (s : Endpoint) (as : List Act) :
    Every (step posts) HandLaw s as := by
  refine every_of_step (fun s a t h => ⟨hand2_of_frame h, ?_⟩) s as
  rintro f rfl - - hsyn hflag
  obtain ⟨-, heff⟩ := frame_cases h
  cases heff with
  | synAck seg status => exact absurd ⟨seg, status⟩ hsyn
  | data seg => exact absurd seg.2 hflag
  | other _ _ htcp => exact htcp

/-- A SYN+ACK between two other ports that acknowledges something else. -/
def sampleStray : Frame := .ofPacket (tcpSendControl
  { samplePeer with localPort := 80, remotePort := 9, seqNum := 5000, ackNum := 7 } tcpSynAck)

theorem strictLaw_sample_fails :
    Start sampleStart ∧ ¬ Every (step postsMonitor) StrictLaw sampleStart
      ([.command, .connect, .connect] ++ [.frame sampleStray]) := by
  refine ⟨sample_start_ok, fun h => ?_⟩
  have hwait : (exec (Endpoint.next postsMonitor) sampleStart
      [.command, .connect, .connect]).map
        (fun t => (t.inet.tcpStatus, t.hist.iss)) = some (.hand1, 1000) := by decide +kernel
  have hhand : ((exec (Endpoint.next postsMonitor) sampleStart
      [.command, .connect, .connect]).bind (·.frame sampleStray)).map
        (·.inet.tcpStatus) = some .hand2 := by decide +kernel
  have hack : sampleStray.ackNum = 7 := by decide +kernel
  obtain ⟨t, ht, hwait⟩ := Option.map_eq_some_iff.mp hwait
  rw [ht, Option.bind_some] at hhand
  obtain ⟨u, hu, hhand⟩ := Option.map_eq_some_iff.mp hhand
  obtain ⟨hst, hiss⟩ := Prod.mk.inj hwait
  obtain ⟨f, hf, -, hus⟩ := (every_at h ht hu).accept hst hhand
  cases hf
  have hbad := hus.ackNum
  rw [hack, hiss] at hbad
  exact absurd hbad (by decide)

end X64SmpOs.Net

import X64SmpOs.Net.Datagram

/-!
# What is printed of a datagram

`udp_recv_handle` keeps one buffer over all datagrams. The NUL is put one byte
too far behind the payload, so the string has one more byte of the buffer in it.

* `udpRecvHandle`, `receiveAll`: one turn of the loop, and one turn a datagram;
* `udpRecvHandle_message`: the payload, and at most one byte more;
* `EndsAtNul`, `Clean`: where the buffer holds a NUL, told by the lengths alone;
* `receiveAll_eq_payloads_iff`: the payloads are what is printed exactly then.
-/

namespace X64SmpOs.Net

open Memory Words

/-- `memcpy` of the bytes to the begin of the buffer. -/
def copyIn (data : Mem) (bytes : List Byte) : Mem := fun i => (bytes[i]?).getD (data i)

def notNul (b : Byte) : Bool := b ≠ 0

/-- The string at the begin of the buffer, its NUL among the first `n` bytes. -/
def bufferString (data : Mem) (n : Nat) : List Byte :=
  ((List.range n).map data).takeWhile notNul

/-- One turn of the loop: what is printed behind `-------udp recv: `, and the
buffer `data` afterwards. -/
def udpRecvHandle (inet : Inet) (data : Mem) : List Byte × Mem :=
  let bytes := udpRecv inet mtu
  let len := bytes.length
  let data' := Function.update (copyIn data bytes) (len + 1) 0
  (bufferString data' (len + 2), data')

/-- Frames one at a time, each printed before the next is received. -/
def receiveAll (inet : Inet) (data : Mem) : List Frame → List (List Byte)
  | [] => []
  | f :: fs =>
    let inet' := (packetRecv inet f).inet
    let out := udpRecvHandle inet' data
    out.1 :: receiveAll inet' out.2 fs

/-- A datagram of the remote host that the buffer can hold with its NUL. -/
structure Message (inet : Inet) (f : Frame) : Prop where
  datagram : UdpDatagram inet f
  header : 8 ≤ f.udpLength
  fits : f.udpPayload.length ≤ mtu - 2
  noNul : 0 ∉ f.udpPayload

/-- Position `i` of the buffer holds NUL. The lengths are those of the datagrams
before, the last one first: a datagram of length `l` leaves NUL at `l + 1`, no NUL
below `l`, and the rest as it was. -/
def EndsAtNul (data : Mem) : List Nat → Nat → Prop
  | [], i => data i = 0
  | l :: ls, i => i = l + 1 ∨ (l ≤ i ∧ EndsAtNul data ls i)

/-- The buffer holds NUL behind each payload, when it is printed. The lengths still
to come are the second list. -/
def Clean (data : Mem) : List Nat → List Nat → Prop
  | _, [] => True
  | ls, n :: ns => EndsAtNul data ls n ∧ Clean data (n :: ls) ns

/-! ## The buffer -/

theorem notNul_iff (b : Byte) : notNul b = true ↔ b ≠ 0 := decide_eq_true_iff

theorem takeWhile_singleton_eq_nil_iff (b : Byte) : [b].takeWhile notNul = [] ↔ b = 0 := by
  obtain rfl | hne := eq_or_ne b 0
  · exact iff_of_true rfl rfl
  · rw [List.takeWhile_cons_of_pos ((notNul_iff b).mpr hne)]
    exact iff_of_false (List.cons_ne_nil _ _) hne

section Buffer

variable (data : Mem) (bytes : List Byte)

theorem copyIn_of_lt {i : Nat} (h : i < bytes.length) : copyIn data bytes i = bytes[i] := by
  rw [copyIn, List.getElem?_eq_getElem h, Option.getD_some]

theorem copyIn_of_le {i : Nat} (h : bytes.length ≤ i) : copyIn data bytes i = data i := by
  rw [copyIn, List.getElem?_eq_none h, Option.getD_none]

theorem range_map_copyIn :
    (List.range bytes.length).map (copyIn data bytes) = bytes := by
  apply List.ext_getElem
  · rw [List.length_map, List.length_range]
  · intro i _ h
    rw [List.getElem_map, List.getElem_range, copyIn_of_lt data bytes h]

/-- The buffer after one turn. -/
abbrev turned : Mem := Function.update (copyIn data bytes) (bytes.length + 1) 0

theorem turned_of_lt {i : Nat} (h : i < bytes.length) : turned data bytes i = bytes[i] := by
  rw [turned, Function.update_of_ne (by omega), copyIn_of_lt data bytes h]

theorem turned_nul : turned data bytes (bytes.length + 1) = 0 :=
  Function.update_self ..

theorem turned_of_le {i : Nat} (h : bytes.length ≤ i) (hne : i ≠ bytes.length + 1) :
    turned data bytes i = data i := by
  rw [turned, Function.update_of_ne hne, copyIn_of_le data bytes h]

theorem range_map_turned : (List.range (bytes.length + 2)).map (turned data bytes) =
    bytes ++ [data bytes.length, 0] := by
  have hhead : (List.range bytes.length).map (turned data bytes) = bytes := by
    calc (List.range bytes.length).map (turned data bytes)
        = (List.range bytes.length).map (copyIn data bytes) := by
          apply List.map_congr_left
          intro i hi
          have hlt := List.mem_range.mp hi
          rw [turned_of_lt data bytes hlt, copyIn_of_lt data bytes hlt]
      _ = bytes := range_map_copyIn data bytes
  rw [List.range_succ, List.range_succ, List.map_append, List.map_append, hhead, List.map_singleton,
    List.map_singleton, turned_nul, turned_of_le data bytes (le_refl _) (by omega),
    List.append_assoc]
  rfl

/-- Behind bytes without a NUL stands what the buffer held there, if that was not
the NUL. -/
theorem bufferString_turned (h : 0 ∉ bytes) : bufferString (turned data bytes) (bytes.length + 2) =
    bytes ++ [data bytes.length].takeWhile notNul := by
  have hpos : ∀ b ∈ bytes, notNul b = true := by
    intro b hb
    refine (notNul_iff b).mpr ?_
    rintro rfl
    exact h hb
  have htail : [data bytes.length, 0].takeWhile notNul = [data bytes.length].takeWhile notNul := by
    cases hz : notNul (data bytes.length) with
    | true =>
      rw [List.takeWhile_cons_of_pos hz, List.takeWhile_cons_of_pos hz]
      rfl
    | false =>
      have hneg : ¬ notNul (data bytes.length) = true := by simp [hz]
      rw [List.takeWhile_cons_of_neg hneg, List.takeWhile_cons_of_neg hneg]
  rw [bufferString, range_map_turned, List.takeWhile_append_of_pos hpos, htail]

theorem turned_eq_zero_iff (h : 0 ∉ bytes) (i : Nat) :
    turned data bytes i = 0 ↔ i = bytes.length + 1 ∨ (bytes.length ≤ i ∧ data i = 0) := by
  obtain hlt | hle := Nat.lt_or_ge i bytes.length
  · have hne : bytes[i] ≠ 0 := fun h0 => h (h0 ▸ List.getElem_mem hlt)
    rw [turned_of_lt data bytes hlt]
    constructor
    · exact fun h0 => absurd h0 hne
    · omega
  · obtain rfl | hne := eq_or_ne i (bytes.length + 1)
    · exact iff_of_true (turned_nul data bytes) (.inl rfl)
    · rw [turned_of_le data bytes hle hne]
      constructor
      · exact fun h0 => .inr ⟨hle, h0⟩
      · rintro (h0 | ⟨-, h0⟩)
        · exact absurd h0 hne
        · exact h0

end Buffer

/-! ## One datagram -/

theorem Message.udpRecv_eq {inet : Inet} {f : Frame} (h : Message inet f) :
    udpRecv (packetRecv inet f).inet mtu = f.udpPayload := by
  have hlen : f.udpPayload.length = f.udpLength - 8 := by
    rw [Frame.udpPayload, List.length_map, List.length_range]
  have hfits := h.fits
  have hbound : f.udpLength ≤ 8 + mtu := by
    unfold mtu at hfits ⊢
    omega
  rw [(packetRecv_udp h.datagram).1]
  exact (udpRecv_distributeUdpRecv inet f).mpr ⟨h.header, hbound⟩

/-- A datagram changes the slot only. -/
theorem distributeUdpRecv_inet (inet : Inet) (f : Frame) :
    ∃ d n, (distributeUdpRecv inet f).inet =
      { inet with
        data := d
        dataValid := n } :=
  ⟨_, _, rfl⟩

theorem Message.after {inet : Inet} {f g : Frame} (h : Message inet f) (hg : Message inet g) :
    Message (packetRecv inet f).inet g := by
  obtain ⟨d, n, hslot⟩ := distributeUdpRecv_inet inet f
  rw [(packetRecv_udp h.datagram).1, hslot]
  exact
    { datagram :=
        { etherType := hg.datagram.etherType
          srcIp := hg.datagram.srcIp
          dstIp := hg.datagram.dstIp
          protocol := hg.datagram.protocol }
      header := hg.header
      fits := hg.fits
      noNul := hg.noNul }

/-- **One turn**: the payload is printed, and the byte the buffer held behind it. -/
theorem udpRecvHandle_message {inet : Inet} {f : Frame} (h : Message inet f) (data : Mem) :
    udpRecvHandle (packetRecv inet f).inet data =
      (f.udpPayload ++ [data f.udpPayload.length].takeWhile notNul,
        turned data f.udpPayload) := by
  simp only [udpRecvHandle, h.udpRecv_eq]
  rw [bufferString_turned data f.udpPayload h.noNul]

/-- The remote host can send every such payload. -/
theorem message_udpSend {inet peer : Inet} (hsrc : peer.localIp = inet.remoteIp)
    (hdst : peer.remoteIp = inet.localIp) {payload : List Byte} (hlen : payload.length ≤ mtu - 2)
    (hnul : 0 ∉ payload) : Message inet (Frame.ofPacket (udpSend peer payload)) := by
  have hsmall : 8 + payload.length < 2 ^ 16 := by
    unfold mtu at hlen
    omega
  obtain ⟨hudp, hlength, hpayload⟩ := udpDatagram_udpSend hsrc hdst hsmall
  exact
    { datagram := hudp
      header := by
        rw [hlength]
        exact Nat.le_add_right ..
      fits := by rwa [hpayload]
      noNul := by rwa [hpayload] }

/-! ## All datagrams -/

/-- What is printed of the payloads, over a buffer. -/
def printed (data : Mem) : List (List Byte) → List (List Byte)
  | [] => []
  | p :: ps => (p ++ [data p.length].takeWhile notNul) :: printed (turned data p) ps

theorem receiveAll_eq_printed (fs : List Frame) :
    ∀ {inet : Inet} {data : Mem}, (∀ f ∈ fs, Message inet f) →
      receiveAll inet data fs = printed data (fs.map Frame.udpPayload) := by
  induction fs with
  | nil => exact fun _ => rfl
  | cons f fs ih =>
    intro inet data hmsg
    have hf := hmsg f List.mem_cons_self
    have hrest : ∀ g ∈ fs, Message (packetRecv inet f).inet g :=
      fun g hg => hf.after (hmsg g (List.mem_cons_of_mem f hg))
    rw [receiveAll, udpRecvHandle_message hf, ih hrest]
    rfl

/-- The buffer between two turns, against the one at the start. -/
def Tracks (start : Mem) (ls : List Nat) (data : Mem) : Prop :=
  ∀ i, data i = 0 ↔ EndsAtNul start ls i

theorem Tracks.turned {start data : Mem} {ls : List Nat} (h : Tracks start ls data)
    {bytes : List Byte} (hbytes : 0 ∉ bytes) :
    Tracks start (bytes.length :: ls) (turned data bytes) := by
  intro i
  rw [turned_eq_zero_iff data bytes hbytes, h i]
  rfl

theorem printed_eq_self_iff {start : Mem} (ps : List (List Byte)) :
    ∀ {data : Mem} {ls : List Nat}, Tracks start ls data → (∀ p ∈ ps, 0 ∉ p) →
      (printed data ps = ps ↔ Clean start ls (ps.map List.length)) := by
  induction ps with
  | nil => exact fun _ _ => iff_of_true rfl trivial
  | cons p ps ih =>
    intro data ls htracks hnul
    have htail : ∀ q ∈ ps, 0 ∉ q := fun q hq => hnul q (List.mem_cons_of_mem p hq)
    rw [printed, List.cons.injEq, List.map_cons, Clean,
      ih (htracks.turned (hnul p List.mem_cons_self)) htail, List.append_right_eq_self,
      takeWhile_singleton_eq_nil_iff, htracks]

/-- **The datagrams printed.** Each is printed as it was sent exactly when every
payload ends where the buffer holds a NUL. -/
theorem receiveAll_eq_payloads_iff (inet : Inet) (data : Mem) (fs : List Frame)
    (h : ∀ f ∈ fs, Message inet f) :
    receiveAll inet data fs = fs.map Frame.udpPayload ↔
      Clean data [] (fs.map fun f => f.udpPayload.length) := by
  have hnul : ∀ p ∈ fs.map Frame.udpPayload, 0 ∉ p := by
    intro p hp
    obtain ⟨f, hf, rfl⟩ := List.mem_map.mp hp
    exact (h f hf).noNul
  have hstart : Tracks data [] data := fun _ => Iff.rfl
  rw [receiveAll_eq_printed fs h, printed_eq_self_iff _ hstart hnul, List.map_map]
  rfl

/-! ## Two conversations -/

section Samples

variable {payloads : List (List Byte)}

/-- The payloads as `samplePeer` sends them. -/
def sampleMessages (payloads : List (List Byte)) : List Frame :=
  payloads.map fun payload => Frame.ofPacket (udpSend samplePeer payload)

theorem message_sampleMessages (h : ∀ p ∈ payloads, p.length ≤ mtu - 2 ∧ 0 ∉ p) :
    ∀ f ∈ sampleMessages payloads, Message sampleInet f := by
  intro f hf
  obtain ⟨p, hmem, rfl⟩ := List.mem_map.mp hf
  exact message_udpSend rfl rfl (h p hmem).1 (h p hmem).2

theorem udpPayload_sampleMessages (h : ∀ p ∈ payloads, p.length ≤ mtu - 2 ∧ 0 ∉ p) :
    (sampleMessages payloads).map Frame.udpPayload = payloads := by
  rw [sampleMessages, List.map_map]
  conv_rhs => rw [← List.map_id payloads]
  apply List.map_congr_left
  intro p hp
  have hsmall : 8 + p.length < 2 ^ 16 := by
    have hlen := (h p hp).1
    unfold mtu at hlen
    omega
  exact (@udpDatagram_udpSend sampleInet samplePeer rfl rfl p hsmall).2.2

end Samples

/-- `hi` and `hi!`, the second one byte longer, over a buffer of NULs. -/
theorem receiveAll_eq_payloads_longer :
    receiveAll sampleInet (fun _ => 0) (sampleMessages [[0x68, 0x69], [0x68, 0x69, 0x21]]) =
      (sampleMessages [[0x68, 0x69], [0x68, 0x69, 0x21]]).map Frame.udpPayload := by
  have hok : ∀ p ∈ ([[0x68, 0x69], [0x68, 0x69, 0x21]] : List (List Byte)),
      p.length ≤ mtu - 2 ∧ 0 ∉ p := by decide
  have hlens : (sampleMessages [[0x68, 0x69], [0x68, 0x69, 0x21]]).map
      (fun f => f.udpPayload.length) = [2, 3] := by
    have hcomp := congrArg (List.map List.length) (udpPayload_sampleMessages hok)
    rwa [List.map_map] at hcomp
  refine (receiveAll_eq_payloads_iff _ _ _ (message_sampleMessages hok)).mpr ?_
  rw [hlens]
  exact ⟨rfl, .inl rfl, trivial⟩

/-- The datagrams `hello` and `hi`. -/
def helloHi : List Frame := sampleMessages [[0x68, 0x65, 0x6c, 0x6c, 0x6f], [0x68, 0x69]]

/-- They are printed as `hello` and `hil`. -/
theorem receiveAll_eq_payloads_fails :
    (∀ f ∈ helloHi, Message sampleInet f) ∧
      receiveAll sampleInet (fun _ => 0) helloHi =
        [[0x68, 0x65, 0x6c, 0x6c, 0x6f], [0x68, 0x69, 0x6c]] ∧
      receiveAll sampleInet (fun _ => 0) helloHi ≠ helloHi.map Frame.udpPayload := by
  have hok : ∀ p ∈ ([[0x68, 0x65, 0x6c, 0x6c, 0x6f], [0x68, 0x69]] : List (List Byte)),
      p.length ≤ mtu - 2 ∧ 0 ∉ p := by decide
  have hmsg : ∀ f ∈ helloHi, Message sampleInet f := message_sampleMessages hok
  rw [receiveAll_eq_printed _ hmsg, helloHi, udpPayload_sampleMessages hok]
  exact ⟨hmsg, by decide, by decide⟩

end X64SmpOs.Net

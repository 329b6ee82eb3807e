import Mathlib.Data.List.Nodup
import X64SmpOs.Lib.Memory
import X64SmpOs.Lib.Runs

/-!
# The echo server

One thread waits in `epoll_wait` and serves the events of a batch one after the other.
The listening socket is watched for edges, the clients for their level, and an event of
the listening socket is served with one `accept`, which blocks.

* `Server`, `next`: the loop with the kernel's side of the sockets; clients connect, send,
  shut down and fail at any moment, and the kernel may take a connection back that nobody
  has accepted yet;
* `Inv`, `inv_step`: the clients that wait are those that raised no event of their own,
  but for the events under way and the connections taken back, and an event served is
  still there;
* `left_behind`: what a connection missed costs;
* `ConnInv`, `echo_law`: what goes back to a client.
-/

namespace X64SmpOs.EchoServer

open Memory Runs

/-! ## The code -/

/-- A connection. `sent`, `echoed` and `lost` are what the client has sent, what it has
got back, and how many bytes `send` has not taken; no step reads them. -/
structure Conn where
  inbound : List Byte
  eof : Bool
  failed : Bool
  closed : Bool
  sent : List Byte
  echoed : List Byte
  lost : Nat
  deriving DecidableEq, Repr

def Conn.fresh : Conn := ⟨[], false, false, false, [], [], 0⟩

inductive Fd
  | listening
  | client (c : Nat)
  deriving DecidableEq, Repr

/-- `events` is what is left of the batch, empty in `epoll_wait`; `edge` is an event of the
listening socket that has not been reported. `arrived` lists the connections, `gone` those
that were lost before `accept` could return them, `dropped` counts the ones the kernel took
back of its own. `missed` counts the connections that raised no event of their own, and the
calls of `accept` that failed and left the connection. No step reads these four but to keep
the names of connections apart. -/
structure Server where
  backlog : List Nat
  edge : Bool
  events : List Fd
  registered : List Nat
  conn : Nat → Conn
  arrived : List Nat
  gone : List Nat
  dropped : Nat
  missed : Nat

inductive Act
  | connect (c : Nat)
  | data (c : Nat) (bytes : List Byte)
  | shutdown (c : Nat)
  | fail (c : Nat)
  /-- The kernel takes a connection back that waits. -/
  | drop (c : Nat)
  | wait (events : List Fd)
  /-- `epoll_wait` looks into the queue before it reports an edge. -/
  | stale
  /-- `send` takes at most this many bytes. -/
  | serve (taken : Nat)
  /-- An `accept` that fails uses the first connection up (`ECONNABORTED`) or leaves it
  (`EMFILE`). -/
  | acceptFails (used : Bool)
  deriving DecidableEq, Repr

/-- The level `epoll` watches; an error is always reported. -/
def Conn.Readable (x : Conn) : Prop := x.closed = false ∧ (x.inbound ≠ [] ∨ x.eof ∨ x.failed)

instance (x : Conn) : Decidable x.Readable := inferInstanceAs (Decidable (_ ∧ _))

/-- `sizeof(buffer) - 1` -/
def recvSize : Nat := 1499

/-- The `else` branch of the loop, with the results of `recv` in their order: bytes, and
zero or an error. -/
def Conn.echo (x : Conn) (taken : Nat) : Conn :=
  if x.failed = false ∧ x.inbound ≠ [] then
    let bytes := x.inbound.take recvSize
    { x with
      inbound := x.inbound.drop recvSize
      echoed := x.echoed ++ bytes.take taken
      lost := x.lost + (bytes.length - taken) }
  else { x with closed := true }

namespace Server

/-- `epoll_ctl` finds the clients that have connected since `listen`. -/
def init (early : List Nat) : Server where
  backlog := early
  edge := early ≠ []
  events := []
  registered := []
  conn := fun _ => .fresh
  arrived := early
  gone := []
  dropped := 0
  missed := early.length - 1

def Ready (s : Server) : Fd → Prop
  | .listening => s.edge ∧ s.backlog ≠ []
  | .client c => c ∈ s.registered ∧ (s.conn c).Readable

instance (s : Server) (fd : Fd) : Decidable (s.Ready fd) :=
  match fd with
  | .listening => inferInstanceAs (Decidable (_ ∧ _))
  | .client _ => inferInstanceAs (Decidable (_ ∧ _))

/-- The loop is in an `accept` that finds no connection. -/
def Blocked (s : Server) : Prop := ∃ rest, s.events = .listening :: rest ∧ s.backlog = []

def setConn (s : Server) (c : Nat) (x : Conn) : Server :=
  { s with conn := Function.update s.conn c x }

/-- `accept`, which waits while there is no connection, and the registration of the
client. -/
def accept (s : Server) (rest : List Fd) : Option Server :=
  match s.backlog with
  | [] => none
  | c :: backlog =>
    some { s with
      backlog
      events := rest
      registered := s.registered ++ [c] }

/-- An `accept` that fails. -/
def acceptFail (s : Server) (rest : List Fd) (used : Bool) : Option Server :=
  match used, s.backlog with
  | false, _ =>
    some { s with
      events := rest
      missed := s.missed + 1 }
  | true, [] => none
  | true, c :: backlog =>
    some { s with
      backlog
      events := rest
      gone := s.gone ++ [c] }

/-- An action of a client, of the kernel or of the loop; `none` where it cannot happen. -/
def next (s : Server) : Act → Option Server
  | .connect c =>
    if c ∈ s.arrived then none
    else some { s with
      backlog := s.backlog ++ [c]
      edge := true
      arrived := s.arrived ++ [c]
      missed := if s.edge then s.missed + 1 else s.missed }
  | .data c bytes =>
    let x := s.conn c
    if c ∈ s.arrived ∧ x.eof = false ∧ x.failed = false then
      some (s.setConn c { x with
        inbound := x.inbound ++ bytes
        sent := x.sent ++ bytes })
    else none
  | .shutdown c =>
    if c ∈ s.arrived then some (s.setConn c { s.conn c with eof := true }) else none
  | .fail c =>
    if c ∈ s.arrived then some (s.setConn c { s.conn c with failed := true }) else none
  | .drop c =>
    if c ∈ s.backlog then
      some { s with
        backlog := s.backlog.erase c
        gone := s.gone ++ [c]
        dropped := s.dropped + 1 }
    else none
  | .wait events =>
    if s.events = [] ∧ events ≠ [] ∧ events.length ≤ 10 ∧ events.Nodup ∧
        ∀ fd ∈ events, s.Ready fd then
      some { s with
        events
        edge := s.edge && decide (.listening ∉ events) }
    else none
  | .stale => if s.events = [] ∧ s.backlog = [] then some { s with edge := false } else none
  | .serve taken =>
    match s.events with
    | [] => none
    | .listening :: rest => s.accept rest
    | .client c :: rest => some { s.setConn c ((s.conn c).echo taken) with events := rest }
  | .acceptFails used =>
    match s.events with
    | .listening :: rest => s.acceptFail rest used
    | _ => none

end Server

def step : Server → Act → Server → Prop := stepOf Server.next

/-! ## The clients that wait -/

/-- The calls of `accept` that are under way. -/
def Server.pending (s : Server) : Nat := s.edge.toNat + s.events.count .listening

structure Inv (s : Server) : Prop where
  order : (s.registered ++ s.backlog).Sublist s.arrived
  all : (s.gone ++ (s.registered ++ s.backlog)).Perm s.arrived
  atLeast : s.missed + s.pending ≤ s.backlog.length + s.dropped
  atMost : s.backlog.length ≤ s.missed + s.pending
  events : s.events.Nodup
  ready : ∀ c, .client c ∈ s.events → c ∈ s.registered ∧ (s.conn c).Readable

theorem inv_init (early : List Nat) : Inv (Server.init early) where
  order := .refl _
  all := .refl _
  atLeast := by
    cases early with
    | nil => exact Nat.le_refl _
    | cons c early => simp [Server.init, Server.pending]
  atMost := by
    cases early with
    | nil => exact Nat.le_refl _
    | cons c early => simp [Server.init, Server.pending]
  events := List.nodup_nil
  ready := nofun

section Steps

variable {s : Server} {rest : List Fd}

theorem inv_connect (h : Inv s) (c : Nat) :
    Inv { s with
      backlog := s.backlog ++ [c]
      edge := true
      arrived := s.arrived ++ [c]
      missed := if s.edge then s.missed + 1 else s.missed } := by
  -- the new connection takes the edge, or is missed
  have hcount : (if s.edge then s.missed + 1 else s.missed) + (1 + s.events.count .listening) =
      s.missed + s.pending + 1 := by
    unfold Server.pending
    cases s.edge with
    | false =>
      simp only [Bool.false_eq_true, if_false, Bool.toNat_false]
      omega
    | true =>
      simp only [if_true, Bool.toNat_true]
      omega
  have hleast := h.atLeast
  have hmost := h.atMost
  refine ⟨?_, ?_, ?_, ?_, h.events, h.ready⟩
  · rw [← List.append_assoc]
    exact h.order.append (.refl _)
  · rw [← List.append_assoc, ← List.append_assoc, List.append_assoc s.gone]
    exact h.all.append_right _
  · change (if s.edge then s.missed + 1 else s.missed) + (1 + s.events.count .listening) ≤
      (s.backlog ++ [c]).length + s.dropped
    rw [hcount, List.length_append, List.length_singleton]
    omega
  · change (s.backlog ++ [c]).length ≤
      (if s.edge then s.missed + 1 else s.missed) + (1 + s.events.count .listening)
    rw [hcount, List.length_append, List.length_singleton]
    omega

/-- What a client does to its connection leaves the connection readable. -/
theorem Inv.setConn (h : Inv s) {c : Nat} {x : Conn} (hx : (s.conn c).Readable → x.Readable) :
    Inv (s.setConn c x) where
  order := h.order
  all := h.all
  atLeast := h.atLeast
  atMost := h.atMost
  events := h.events
  ready d hd := by
    obtain ⟨hreg, hread⟩ := h.ready d hd
    refine ⟨hreg, ?_⟩
    change (Function.update s.conn c x d).Readable
    rw [Function.update_apply]
    split
    · next heq => exact hx (heq ▸ hread)
    · exact hread

/-- A connection leaves the queue for the list of those that are gone. -/
theorem gone_perm {c : Nat} {backlog : List Nat} (hp : s.backlog.Perm (c :: backlog)) :
    ((s.gone ++ [c]) ++ (s.registered ++ backlog)).Perm
      (s.gone ++ (s.registered ++ s.backlog)) := by
  rw [List.append_assoc, List.singleton_append]
  refine List.Perm.append_left _ (List.perm_middle.symm.trans ?_)
  exact hp.symm.append_left _

theorem inv_drop (h : Inv s) {c : Nat} (hc : c ∈ s.backlog) :
    Inv { s with
      backlog := s.backlog.erase c
      gone := s.gone ++ [c]
      dropped := s.dropped + 1 } := by
  have hlen := List.length_erase_of_mem hc
  have hpos := List.length_pos_of_mem hc
  have hleast := h.atLeast
  have hmost := h.atMost
  refine ⟨?_, (gone_perm (List.perm_cons_erase hc)).trans h.all, ?_, ?_, h.events, h.ready⟩
  · exact ((List.Sublist.refl _).append List.erase_sublist).trans h.order
  · change s.missed + s.pending ≤ (s.backlog.erase c).length + (s.dropped + 1)
    omega
  · change (s.backlog.erase c).length ≤ s.missed + s.pending
    omega

theorem inv_wait (h : Inv s) {events : List Fd} (hidle : s.events = []) (hnodup : events.Nodup)
    (hready : ∀ fd ∈ events, s.Ready fd) :
    Inv { s with events, edge := s.edge && decide (.listening ∉ events) } := by
  have hpending : (s.edge && decide (.listening ∉ events)).toNat + events.count .listening =
      s.pending := by
    unfold Server.pending
    rw [hidle, List.count_nil]
    by_cases hlist : Fd.listening ∈ events
    · have hedge : s.edge = true := (hready _ hlist).1
      rw [List.count_eq_one_of_mem hnodup hlist, hedge]
      simp [hlist]
    · rw [List.count_eq_zero_of_not_mem hlist]
      simp [hlist]
  refine ⟨h.order, h.all, ?_, ?_, hnodup, fun c hc => hready _ hc⟩
  · exact (congrArg (s.missed + ·) hpending).trans_le h.atLeast
  · exact h.atMost.trans_eq (congrArg (s.missed + ·) hpending).symm

theorem inv_stale (h : Inv s) (hempty : s.backlog = []) : Inv { s with edge := false } := by
  have hleast := h.atLeast
  unfold Server.pending at hleast
  refine ⟨h.order, h.all, ?_, ?_, h.events, h.ready⟩
  · change s.missed + (0 + s.events.count .listening) ≤ s.backlog.length + s.dropped
    omega
  · change s.backlog.length ≤ _
    rw [hempty]
    exact Nat.zero_le _

/-- What is left of the batch behind an event of the listening socket. -/
theorem Inv.listening (h : Inv s) (hevents : s.events = .listening :: rest) :
    s.pending = s.edge.toNat + rest.count .listening + 1 ∧ rest.Nodup ∧
      ∀ c, .client c ∈ rest → c ∈ s.registered ∧ (s.conn c).Readable := by
  refine ⟨?_, ?_, fun c hc => h.ready c (hevents ▸ List.mem_cons_of_mem _ hc)⟩
  · rw [Server.pending, hevents, List.count_cons_self, Nat.add_assoc]
  · have hnodup := h.events
    rw [hevents] at hnodup
    exact hnodup.of_cons

theorem inv_accept (h : Inv s) (hevents : s.events = .listening :: rest) {t : Server}
    (ht : s.accept rest = some t) : Inv t := by
  obtain ⟨hpending, hnodup, hready⟩ := h.listening hevents
  have hleast := h.atLeast
  have hmost := h.atMost
  unfold Server.accept at ht
  cases hbacklog : s.backlog with
  | nil => simp [hbacklog] at ht
  | cons c backlog =>
    rw [hbacklog] at ht
    obtain rfl := Option.some.inj ht
    rw [hbacklog, List.length_cons] at hleast hmost
    have hsplit : s.registered ++ s.backlog = (s.registered ++ [c]) ++ backlog := by
      rw [hbacklog, List.append_assoc]
      rfl
    refine ⟨?_, ?_, ?_, ?_, hnodup, fun d hd => ?_⟩
    · exact hsplit ▸ h.order
    · exact hsplit ▸ h.all
    · change s.missed + (s.edge.toNat + rest.count .listening) ≤ backlog.length + s.dropped
      omega
    · change backlog.length ≤ s.missed + (s.edge.toNat + rest.count .listening)
      omega
    · exact ⟨List.mem_append_left _ (hready d hd).1, (hready d hd).2⟩

theorem inv_acceptFail (h : Inv s) (hevents : s.events = .listening :: rest) {used : Bool}
    {t : Server} (ht : s.acceptFail rest used = some t) : Inv t := by
  obtain ⟨hpending, hnodup, hready⟩ := h.listening hevents
  have hleast := h.atLeast
  have hmost := h.atMost
  unfold Server.acceptFail at ht
  cases used with
  | false =>
    obtain rfl := Option.some.inj ht
    refine ⟨h.order, h.all, ?_, ?_, hnodup, hready⟩
    · change s.missed + 1 + (s.edge.toNat + rest.count .listening) ≤ s.backlog.length + s.dropped
      omega
    · change s.backlog.length ≤ s.missed + 1 + (s.edge.toNat + rest.count .listening)
      omega
  | true =>
    cases hbacklog : s.backlog with
    | nil => simp [hbacklog] at ht
    | cons c backlog =>
      rw [hbacklog] at ht
      obtain rfl := Option.some.inj ht
      rw [hbacklog, List.length_cons] at hleast hmost
      have hsub : (s.registered ++ backlog).Sublist (s.registered ++ s.backlog) := by
        rw [hbacklog]
        exact (List.Sublist.refl _).append (List.sublist_cons_self c backlog)
      refine ⟨hsub.trans h.order, (gone_perm (by rw [hbacklog])).trans h.all, ?_, ?_, hnodup,
        hready⟩
      · change s.missed + (s.edge.toNat + rest.count .listening) ≤ backlog.length + s.dropped
        omega
      · change backlog.length ≤ s.missed + (s.edge.toNat + rest.count .listening)
        omega

/-- A client is served once in a batch. -/
theorem inv_echo (h : Inv s) {c : Nat} (hevents : s.events = .client c :: rest) (x : Conn) :
    Inv { s.setConn c x with events := rest } := by
  have hpending : s.pending = s.edge.toNat + rest.count .listening := by
    rw [Server.pending, hevents, List.count_cons_of_ne (show Fd.client c ≠ .listening from nofun)]
  have hnodup := h.events
  rw [hevents] at hnodup
  have hleast := h.atLeast
  have hmost := h.atMost
  rw [hpending] at hleast hmost
  refine ⟨h.order, h.all, hleast, hmost, hnodup.of_cons, fun d hd => ?_⟩
  obtain ⟨hreg, hread⟩ := h.ready d (hevents ▸ List.mem_cons_of_mem _ hd)
  have hne : d ≠ c := fun heq => (List.nodup_cons.mp hnodup).1 (heq ▸ hd)
  refine ⟨hreg, ?_⟩
  change (Function.update s.conn c x d).Readable
  rwa [Function.update_of_ne hne]

end Steps

theorem inv_step {s : Server} {a : Act} {t : Server} (h : Inv s) (hstep : step s a t) : Inv t := by
  change s.next a = some t at hstep
  cases a with
  | connect c =>
    simp only [Server.next] at hstep
    split at hstep
    · cases hstep
    · obtain rfl := Option.some.inj hstep
      exact inv_connect h c
  | data c bytes =>
    simp only [Server.next] at hstep
    split at hstep
    · obtain rfl := Option.some.inj hstep
      refine h.setConn fun hread => ⟨hread.1, ?_⟩
      rcases hread.2 with hin | hrest
      · exact .inl (List.append_ne_nil_of_left_ne_nil hin _)
      · exact .inr hrest
    · cases hstep
  | shutdown c =>
    simp only [Server.next] at hstep
    split at hstep
    · obtain rfl := Option.some.inj hstep
      exact h.setConn fun hread => ⟨hread.1, .inr (.inl rfl)⟩
    · cases hstep
  | fail c =>
    simp only [Server.next] at hstep
    split at hstep
    · obtain rfl := Option.some.inj hstep
      exact h.setConn fun hread => ⟨hread.1, .inr (.inr rfl)⟩
    · cases hstep
  | drop c =>
    simp only [Server.next] at hstep
    split at hstep
    · next hc =>
      obtain rfl := Option.some.inj hstep
      exact inv_drop h hc
    · cases hstep
  | wait events =>
    simp only [Server.next] at hstep
    split at hstep
    · next hg =>
      obtain rfl := Option.some.inj hstep
      exact inv_wait h hg.1 hg.2.2.2.1 hg.2.2.2.2
    · cases hstep
  | stale =>
    simp only [Server.next] at hstep
    split at hstep
    · next hg =>
      obtain rfl := Option.some.inj hstep
      exact inv_stale h hg.2
    · cases hstep
  | serve taken =>
    simp only [Server.next] at hstep
    split at hstep
    · cases hstep
    · next hevents => exact inv_accept h hevents hstep
    · next hevents =>
      obtain rfl := Option.some.inj hstep
      exact inv_echo h hevents _
  | acceptFails used =>
    simp only [Server.next] at hstep
    split at hstep
    · next hevents => exact inv_acceptFail h hevents hstep
    · cases hstep

theorem inv_run {s t : Server} {as : List Act} (h : Inv s) (hr : Run step s as t) : Inv t :=
  run_inv' (I := Inv) (fun _ _ _ hs hstep => inv_step hs hstep) h hr

/-- Nothing makes up for a connection missed. -/
theorem missed_step {s : Server} {a : Act} {t : Server} (hstep : step s a t) :
    s.missed ≤ t.missed := by
  change s.next a = some t at hstep
  cases a with
  | connect c =>
    simp only [Server.next] at hstep
    split at hstep
    · cases hstep
    · obtain rfl := Option.some.inj hstep
      change s.missed ≤ if s.edge then s.missed + 1 else s.missed
      split <;> omega
  | data c bytes | shutdown c | fail c | drop c | wait events | stale =>
    simp only [Server.next] at hstep
    split at hstep
    · obtain rfl := Option.some.inj hstep
      exact Nat.le_refl _
    · cases hstep
  | serve taken =>
    simp only [Server.next, Server.accept] at hstep
    split at hstep
    · cases hstep
    · split at hstep
      · cases hstep
      · obtain rfl := Option.some.inj hstep
        exact Nat.le_refl _
    · obtain rfl := Option.some.inj hstep
      exact Nat.le_refl _
  | acceptFails used =>
    simp only [Server.next, Server.acceptFail] at hstep
    split at hstep
    · split at hstep
      · obtain rfl := Option.some.inj hstep
        exact Nat.le_succ _
      · cases hstep
      · obtain rfl := Option.some.inj hstep
        exact Nat.le_refl _
    · cases hstep

theorem missed_run {s t : Server} {as : List Act} (hr : Run step s as t) : s.missed ≤ t.missed := by
  induction as generalizing s with
  | nil => exact hr ▸ Nat.le_refl _
  | cons a as ih =>
    obtain ⟨u, hu, hr⟩ := hr
    exact (missed_step hu).trans (ih hr)

/-- A connection missed leaves the line of those that wait one longer for ever, whoever
connects later, unless the kernel takes a waiting connection back. Only when it has taken
back more than were missed can `accept` block. Clients are served in their order. -/
theorem left_behind {early : List Nat} {s t : Server} {as bs : List Act}
    (hs : Run step (.init early) as s) (ht : Run step s bs t) :
    s.missed ≤ t.backlog.length + t.dropped ∧ (t.Blocked → t.missed < t.dropped) ∧
      (t.registered ++ t.backlog).Sublist t.arrived ∧
      (t.gone ++ (t.registered ++ t.backlog)).Perm t.arrived ∧
      (t.edge = false → t.events = [] →
        t.backlog.length ≤ t.missed ∧ t.missed ≤ t.backlog.length + t.dropped) := by
  have h := inv_run (inv_run (inv_init early) hs) ht
  have hleast := h.atLeast
  have hmost := h.atMost
  have hmissed := missed_run ht
  refine ⟨by omega, ?_, h.order, h.all, fun hedge hevents => ?_⟩
  · rintro ⟨rest, hevents, hbacklog⟩
    have hpending := (h.listening hevents).1
    rw [hbacklog, List.length_nil] at hleast
    omega
  · rw [Server.pending, hedge, hevents] at hmost hleast
    exact ⟨hmost, hleast⟩

/-- Three clients connect while the server waits; one is served and one is taken back. A
fourth one comes, and the client that was left behind is served in its place. -/
theorem left_behind_sample :
    ∃ s t, Run step (.init [])
        [.connect 1, .connect 2, .connect 3, .wait [.listening], .serve 0] s ∧
      Run step s [.drop 2, .connect 4, .wait [.listening], .serve 0] t ∧
      2 ≤ t.backlog.length + 1 ∧ (t.registered ++ t.backlog).Sublist [1, 2, 3, 4] ∧
      t.registered = [1, 3] := by
  have hs : ∃ s, Run step (.init [])
        [.connect 1, .connect 2, .connect 3, .wait [.listening], .serve 0] s ∧
      s.missed = 2 ∧ ∃ t, Run step s [.drop 2, .connect 4, .wait [.listening], .serve 0] t ∧
        t.arrived = [1, 2, 3, 4] ∧ t.dropped = 1 ∧ t.registered = [1, 3] :=
    ⟨_, ⟨_, rfl, _, rfl, _, rfl, _, rfl, _, rfl, rfl⟩, rfl, _,
      ⟨_, rfl, _, rfl, _, rfl, _, rfl, rfl⟩, rfl, rfl, rfl⟩
  obtain ⟨s, hs, hmissed, t, ht, harrived, hdropped, hregistered⟩ := hs
  have h := left_behind hs ht
  rw [hmissed, hdropped, harrived] at h
  exact ⟨s, t, hs, ht, h.1, h.2.2.1, hregistered⟩

/-! ## What is echoed -/

structure ConnInv (x : Conn) : Prop where
  order : (x.echoed ++ x.inbound).Sublist x.sent
  length : x.sent.length = x.echoed.length + x.inbound.length + x.lost
  closed : x.closed = true → x.failed = true ∨ (x.eof = true ∧ x.inbound = [])

theorem connInv_fresh : ConnInv .fresh := ⟨.slnil, rfl, nofun⟩

theorem connInv_data {x : Conn} (h : ConnInv x) (bytes : List Byte) (heof : x.eof = false)
    (hfailed : x.failed = false) :
    ConnInv { x with
      inbound := x.inbound ++ bytes
      sent := x.sent ++ bytes } where
  order := by
    rw [← List.append_assoc]
    exact h.order.append (.refl _)
  length := by
    have hlen := h.length
    simp only [List.length_append]
    omega
  closed hclosed := by
    rcases h.closed hclosed with hf | ⟨he, -⟩
    · exact absurd (hfailed.symm.trans hf) (by decide)
    · exact absurd (heof.symm.trans he) (by decide)

/-- Only the bytes that `send` does not take are missing from what goes back. -/
theorem connInv_echo {x : Conn} (h : ConnInv x) (hread : x.Readable) (taken : Nat) :
    ConnInv (x.echo taken) := by
  unfold Conn.echo
  split
  · next hdata =>
    have hlen := h.length
    refine ⟨?_, ?_, fun hclosed => absurd (hread.1.symm.trans hclosed) (by decide)⟩
    · have hbytes : ((x.inbound.take recvSize).take taken ++ x.inbound.drop recvSize).Sublist
          x.inbound := by
        conv_rhs => rw [← List.take_append_drop recvSize x.inbound]
        exact (List.take_sublist _ _).append (.refl _)
      rw [List.append_assoc]
      exact ((List.Sublist.refl x.echoed).append hbytes).trans h.order
    · simp only [List.length_append, List.length_take, List.length_drop]
      omega
  · next hdata =>
    refine ⟨h.order, h.length, fun _ => ?_⟩
    rcases hread.2 with hin | heof | hfailed
    · exact .inl (by simpa [hin] using hdata)
    · by_cases hin : x.inbound = []
      · exact .inr ⟨heof, hin⟩
      · exact .inl (by simpa [hin] using hdata)
    · exact .inl hfailed

theorem connInv_update {s : Server} (h : ∀ c, ConnInv (s.conn c)) {c : Nat} {x : Conn}
    (hx : ConnInv x) (d : Nat) : ConnInv ((s.setConn c x).conn d) := by
  change ConnInv (Function.update s.conn c x d)
  rw [Function.update_apply]
  split
  · exact hx
  · exact h d

theorem connInv_step {s : Server} {a : Act} {t : Server} (hinv : Inv s)
    (h : ∀ c, ConnInv (s.conn c)) (hstep : step s a t) (c : Nat) : ConnInv (t.conn c) := by
  change s.next a = some t at hstep
  cases a with
  | connect d =>
    simp only [Server.next] at hstep
    split at hstep
    · cases hstep
    · obtain rfl := Option.some.inj hstep
      exact h c
  | data d bytes =>
    simp only [Server.next] at hstep
    split at hstep
    · next hg =>
      obtain rfl := Option.some.inj hstep
      exact connInv_update h (connInv_data (h d) bytes hg.2.1 hg.2.2) c
    · cases hstep
  | shutdown d =>
    simp only [Server.next] at hstep
    split at hstep
    · obtain rfl := Option.some.inj hstep
      have hd := h d
      have hx : ConnInv { s.conn d with eof := true } :=
        ⟨hd.order, hd.length, fun hclosed => (hd.closed hclosed).imp id fun he => ⟨rfl, he.2⟩⟩
      exact connInv_update h hx c
    · cases hstep
  | fail d =>
    simp only [Server.next] at hstep
    split at hstep
    · obtain rfl := Option.some.inj hstep
      have hx : ConnInv { s.conn d with failed := true } :=
        ⟨(h d).order, (h d).length, fun _ => .inl rfl⟩
      exact connInv_update h hx c
    · cases hstep
  | drop d | wait events | stale =>
    simp only [Server.next] at hstep
    split at hstep
    · obtain rfl := Option.some.inj hstep
      exact h c
    · cases hstep
  | serve taken =>
    simp only [Server.next, Server.accept] at hstep
    split at hstep
    · cases hstep
    · split at hstep
      · cases hstep
      · obtain rfl := Option.some.inj hstep
        exact h c
    · next d rest hevents =>
      obtain rfl := Option.some.inj hstep
      have hread := (hinv.ready d (hevents ▸ List.mem_cons_self)).2
      exact connInv_update h (connInv_echo (h d) hread taken) c
  | acceptFails used =>
    simp only [Server.next, Server.acceptFail] at hstep
    split at hstep
    · split at hstep
      · obtain rfl := Option.some.inj hstep
        exact h c
      · cases hstep
      · obtain rfl := Option.some.inj hstep
        exact h c
    · cases hstep

theorem connInv_run {s t : Server} {as : List Act} (hinv : Inv s) (h : ∀ c, ConnInv (s.conn c))
    (hr : Run step s as t) : ∀ c, ConnInv (t.conn c) :=
  (run_inv' (I := fun s => Inv s ∧ ∀ c, ConnInv (s.conn c))
    (fun _ _ _ hs hstep => ⟨inv_step hs.1 hstep, connInv_step hs.1 hs.2 hstep⟩) ⟨hinv, h⟩ hr).2

/-- Bytes go back in the order they came, all of them exactly when `send` took all, and a
connection is closed only when it failed or when its stream has been read to the end. -/
theorem echo_law {early : List Nat} {s : Server} {as : List Act} (hs : Run step (.init early) as s)
    (c : Nat) :
    ((s.conn c).echoed ++ (s.conn c).inbound).Sublist (s.conn c).sent ∧
      ((s.conn c).echoed ++ (s.conn c).inbound = (s.conn c).sent ↔ (s.conn c).lost = 0) ∧
      ((s.conn c).closed = true →
        (s.conn c).failed = true ∨ ((s.conn c).eof = true ∧ (s.conn c).inbound = [])) := by
  have h := connInv_run (inv_init early) (fun _ => connInv_fresh) hs c
  have hlen := h.length
  refine ⟨h.order, ⟨fun heq => ?_, fun hlost => h.order.eq_of_length ?_⟩, h.closed⟩
  · rw [← heq, List.length_append] at hlen
    omega
  · rw [List.length_append]
    omega

/-- Three bytes of which `send` takes two, and two more. -/
theorem echo_law_short :
    ∃ s, Run step (.init []) [.connect 1, .wait [.listening], .serve 0, .data 1 [1, 2, 3],
        .wait [.client 1], .serve 2, .data 1 [4, 5]] s ∧
      ((s.conn 1).echoed ++ (s.conn 1).inbound = [1, 2, 3, 4, 5] ↔ (s.conn 1).lost = 0) ∧
      (s.conn 1).lost = 1 := by
  have hs : ∃ s, Run step (.init []) [.connect 1, .wait [.listening], .serve 0,
      .data 1 [1, 2, 3], .wait [.client 1], .serve 2, .data 1 [4, 5]] s ∧
      (s.conn 1).sent = [1, 2, 3, 4, 5] ∧ (s.conn 1).lost = 1 :=
    ⟨_, ⟨_, rfl, _, rfl, _, rfl, _, rfl, _, rfl, _, rfl, _, rfl, rfl⟩, rfl, rfl⟩
  obtain ⟨s, hs, hsent, hlost⟩ := hs
  exact ⟨s, hs, hsent ▸ (echo_law hs 1).2.1, hlost⟩

end X64SmpOs.EchoServer

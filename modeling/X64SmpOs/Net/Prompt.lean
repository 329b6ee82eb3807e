import Mathlib.Data.List.TakeWhile
import X64SmpOs.Net.UdpPrint

/-!
# The prompt of the network stack

`main` reads a line, takes a command and a message from it, and acts. At the end of its
input `fgets` leaves the buffer alone, and the last line is taken again.

* `fgets`, `cut`, `sscanf`, `iteration`, `session`: the code;
* `sscanf_iff`: the lines that are a command with a message;
* `session_law`: a whole session, with the pieces long lines fall into and what comes
  behind the end of the input;
* `typed_printed`: messages typed on one host and printed on the other.
-/

namespace X64SmpOs.Prompt

open Memory

/-! ## The code -/

def newline : Byte := 0x0A

/-- `isspace`, of which `sscanf` makes use. -/
def isSpace (c : Byte) : Bool := c == 0x20 || (0x09 ≤ c && c ≤ 0x0D)

def isWord (c : Byte) : Bool := !isSpace c

def maxInputSize : Nat := 128

/-- `sizeof(command)` -/
def commandSize : Nat := 10

/-- At most `k` bytes of a stream, up to a newline. -/
def readLine : Nat → List Byte → List Byte × List Byte
  | 0, stdin => ([], stdin)
  | _ + 1, [] => ([], [])
  | k + 1, c :: stdin =>
    if c = newline then ([c], stdin)
    else (c :: (readLine k stdin).1, (readLine k stdin).2)

/-- The bytes stored before the NUL, and the rest of the stream; `none` is the end of the
file, where nothing is stored. -/
def fgets (size : Nat) : List Byte → Option (List Byte × List Byte)
  | [] => none
  | stdin => some (readLine (size - 1) stdin)

/-- `input[strcspn(input, "\n")] = 0` -/
def cut (input : List Byte) : List Byte := input.takeWhile fun c => c ≠ 0 ∧ c ≠ newline

/-- `sscanf(input, "%s %[^\n]", command, message)`: what is stored, in this order. -/
def sscanf (input : List Byte) : List (List Byte) :=
  let input := input.dropWhile isSpace
  let command := input.takeWhile isWord
  let input := (input.dropWhile isWord).dropWhile isSpace
  let message := input.takeWhile (· ≠ newline)
  if command = [] then []
  else if message = [] then [command]
  else [command, message]

inductive Action
  | invalidInput
  | udpSend (message : List Byte)
  /-- The connect thread has ended, with or without a connection. -/
  | connect (connected : Bool)
  | connectedAlready
  | tcpSend (message : List Byte)
  | notConnected
  | unknownCommand (command : List Byte)
  deriving DecidableEq, Repr

/-- `udp`, `tcpconect` and `tcpsend` -/
def udpCommand : List Byte := [0x75, 0x64, 0x70]
def tcpconectCommand : List Byte := [0x74, 0x63, 0x70, 0x63, 0x6f, 0x6e, 0x65, 0x63, 0x74]
def tcpsendCommand : List Byte := [0x74, 0x63, 0x70, 0x73, 0x65, 0x6e, 0x64]

/-- `status` is whether `tcp_status` is `TCP_CONNECTED` at its first and second reading; other
threads set it. -/
def performAction (status : Bool × Bool) (command message : List Byte) : Action :=
  if command = udpCommand then .udpSend message
  else if command = tcpconectCommand then
    if status.1 = false then .connect status.2 else .connectedAlready
  else if command = tcpsendCommand then
    if status.1 then .tcpSend message else .notConnected
  else .unknownCommand command

/-- The loop ends at `q`; behind a command that `command` does not hold, `sscanf` has
written over the stack. -/
inductive Outcome
  | action (a : Action)
  | quit
  | overflow (command : List Byte)
  deriving DecidableEq, Repr

/-- The body of the loop behind `fgets`. -/
def iteration (status : Bool × Bool) (input : List Byte) : Outcome :=
  if input = [0x71] then .quit
  else
    match sscanf input with
    | [] => .action .invalidInput
    | command :: rest =>
      if commandSize ≤ command.length then .overflow command
      else
        match rest with
        | [] => .action .invalidInput
        | message :: _ => .action (performAction status command message)

/-- The buffer and the rest of the stream after `fgets` and the cut. -/
def nextInput (stdin input : List Byte) : List Byte × List Byte :=
  match fgets maxInputSize stdin with
  | none => (stdin, cut input)
  | some (input, stdin) => (stdin, cut input)

/-- At most `n` rounds, from round `i` on; `input` is what the buffer held before. -/
def session (status : Nat → Bool × Bool) : Nat → Nat → List Byte → List Byte → List Outcome
  | 0, _, _, _ => []
  | n + 1, i, stdin, input =>
    let (stdin, input) := nextInput stdin input
    match iteration (status i) input with
    | .action a => .action a :: session status n (i + 1) stdin input
    | o => [o]

/-! ## A line -/

section
variable {p : Byte → Bool} {l m : List Byte}

theorem takeWhile_all (h : ∀ c ∈ l, p c = true) (hm : ∀ c ∈ m.head?, p c = false) :
    (l ++ m).takeWhile p = l := by
  rw [List.takeWhile_append_of_pos h]
  cases m with
  | nil => simp
  | cons c m => rw [List.takeWhile_cons_of_neg (by simp [hm c rfl]), List.append_nil]

theorem dropWhile_all (h : ∀ c ∈ l, p c = true) (hm : ∀ c ∈ m.head?, p c = false) :
    (l ++ m).dropWhile p = m := by
  rw [List.dropWhile_append_of_pos h]
  cases m with
  | nil => rfl
  | cons c m => exact List.dropWhile_cons_of_neg (by simp [hm c rfl])

theorem head_dropWhile (p : Byte → Bool) (l : List Byte) :
    ∀ c ∈ (l.dropWhile p).head?, p c = false := by
  intro c hc
  induction l with
  | nil => cases hc
  | cons d l ih =>
    cases hd : p d with
    | true => exact ih (by rwa [List.dropWhile_cons_of_pos hd] at hc)
    | false =>
      rw [List.dropWhile_cons_of_neg (by simp [hd])] at hc
      exact Option.some.inj hc ▸ hd

theorem head_append_of_ne_nil {P : Byte → Prop} (hl : l ≠ []) (h : ∀ c ∈ l, P c) :
    ∀ c ∈ (l ++ m).head?, P c := by
  obtain ⟨d, l, rfl⟩ := List.exists_cons_of_ne_nil hl
  intro c hc
  exact Option.some.inj hc ▸ h d List.mem_cons_self

end

/-- Spaces, a command, spaces, and a message that begins with another byte. -/
structure Line (input command message : List Byte) : Prop where
  word : command ≠ [] ∧ ∀ c ∈ command, isSpace c = false
  text : message ≠ [] ∧ ∀ c ∈ message.head?, isSpace c = false
  spaces : ∃ pre sep, input = pre ++ (command ++ (sep ++ message)) ∧ sep ≠ [] ∧
    ∀ c ∈ pre ++ sep, isSpace c = true

theorem isWord_eq_true {c : Byte} : isWord c = true ↔ isSpace c = false := by
  simp [isWord]

theorem isWord_eq_false {c : Byte} : isWord c = false ↔ isSpace c = true := by
  simp [isWord]

theorem line_of_sscanf {input command message : List Byte} (hline : newline ∉ input)
    (h : sscanf input = [command, message]) : Line input command message := by
  have hpre := List.takeWhile_append_dropWhile (p := isSpace) (l := input)
  have hhead := head_dropWhile isSpace input
  have hmem : ∀ c ∈ input.dropWhile isSpace, c ≠ newline :=
    fun c hc heq => hline (heq ▸ (List.dropWhile_sublist _).mem hc)
  simp only [sscanf] at h
  generalize input.dropWhile isSpace = i1 at h hpre hhead hmem
  have hcmd := List.takeWhile_append_dropWhile (p := isWord) (l := i1)
  have hhead2 := head_dropWhile isWord i1
  have hmem2 : ∀ c ∈ i1.dropWhile isWord, c ≠ newline :=
    fun c hc => hmem c ((List.dropWhile_sublist _).mem hc)
  generalize hi2 : i1.dropWhile isWord = i2 at h hcmd hhead2 hmem2
  have hsep := List.takeWhile_append_dropWhile (p := isSpace) (l := i2)
  have hhead3 := head_dropWhile isSpace i2
  have hall : (i2.dropWhile isSpace).takeWhile (· ≠ newline) = i2.dropWhile isSpace :=
    List.takeWhile_eq_self_iff.mpr fun c hc =>
      decide_eq_true (hmem2 c ((List.dropWhile_sublist _).mem hc))
  rw [hall] at h
  split at h
  · cases h
  · next hne =>
    split at h
    · cases h
    · next hne' =>
      obtain ⟨rfl, rfl⟩ : i1.takeWhile isWord = command ∧ i2.dropWhile isSpace = message := by
        simpa using h
      refine ⟨⟨hne, fun c hc => isWord_eq_true.mp (List.mem_takeWhile_imp hc)⟩, ⟨hne', hhead3⟩,
        input.takeWhile isSpace, i2.takeWhile isSpace, ?_, ?_, fun c hc => ?_⟩
      · rw [hsep, hcmd, hpre]
      · -- what ended the command is a space
        obtain ⟨d, l, rfl⟩ := List.exists_cons_of_ne_nil
          fun hnil : i2 = [] => hne' (by rw [hnil]; rfl)
        rw [List.takeWhile_cons_of_pos (isWord_eq_false.mp (hhead2 d rfl))]
        exact List.cons_ne_nil _ _
      · rcases List.mem_append.mp hc with hc | hc
        · exact List.mem_takeWhile_imp hc
        · exact List.mem_takeWhile_imp hc

theorem sscanf_of_line {input command message : List Byte} (hline : newline ∉ input)
    (h : Line input command message) : sscanf input = [command, message] := by
  obtain ⟨⟨hne, hword⟩, ⟨hne', htext⟩, pre, sep, rfl, hsep, hspace⟩ := h
  have hpre : ∀ c ∈ pre, isSpace c = true := fun c hc => hspace c (List.mem_append_left _ hc)
  have hsep' : ∀ c ∈ sep, isSpace c = true := fun c hc => hspace c (List.mem_append_right _ hc)
  have hword' : ∀ c ∈ command, isWord c = true := fun c hc => isWord_eq_true.mpr (hword c hc)
  have hstop : ∀ c ∈ (sep ++ message).head?, isWord c = false :=
    head_append_of_ne_nil hsep fun c hc => isWord_eq_false.mpr (hsep' c hc)
  have hmessage : message.takeWhile (· ≠ newline) = message :=
    List.takeWhile_eq_self_iff.mpr fun c hc => decide_eq_true fun heq =>
      hline (by simp [← heq, hc])
  simp only [sscanf]
  rw [dropWhile_all hpre (head_append_of_ne_nil hne hword), takeWhile_all hword' hstop,
    dropWhile_all hword' hstop, dropWhile_all hsep' htext, hmessage, if_neg hne, if_neg hne']

/-- The lines with a command and a message. -/
theorem sscanf_iff {input : List Byte} (hline : newline ∉ input) (command message : List Byte) :
    sscanf input = [command, message] ↔ Line input command message :=
  ⟨line_of_sscanf hline, sscanf_of_line hline⟩

/-- `udp hi`, and a tab before the message. -/
theorem sscanf_iff_tab :
    sscanf [0x75, 0x64, 0x70, 0x20, 0x09, 0x68, 0x69] = [udpCommand, [0x68, 0x69]] ↔
      Line [0x75, 0x64, 0x70, 0x20, 0x09, 0x68, 0x69] udpCommand [0x68, 0x69] :=
  sscanf_iff (by decide) _ _

/-! ## The stream -/

/-- The pieces `fgets` takes from a stream, at most `fuel`. -/
def pieces : Nat → List Byte → List (List Byte)
  | 0, _ => []
  | fuel + 1, stdin =>
    match fgets maxInputSize stdin with
    | none => []
    | some (piece, stdin) => piece :: pieces fuel stdin

def lines (stdin : List Byte) : List (List Byte) := pieces stdin.length stdin

/-- A line, or 127 bytes of a longer one; the last piece may be shorter. -/
structure Piece (last : Bool) (p : List Byte) : Prop where
  ne_nil : p ≠ []
  length_le : p.length ≤ maxInputSize - 1
  noNewline : newline ∉ p.dropLast
  full : p.getLast? = some newline ∨ p.length = maxInputSize - 1 ∨ last = true

theorem readLine_append (k : Nat) (stdin : List Byte) :
    (readLine k stdin).1 ++ (readLine k stdin).2 = stdin := by
  induction k generalizing stdin with
  | zero => rfl
  | succ k ih =>
    cases stdin with
    | nil => rfl
    | cons c stdin =>
      rw [readLine]
      split
      · rfl
      · exact congrArg (c :: ·) (ih stdin)

/-- The loop stops behind a newline, behind the last byte it may take, or at the end. -/
theorem readLine_piece (k : Nat) (stdin : List Byte) :
    (readLine k stdin).1.length ≤ k ∧ newline ∉ (readLine k stdin).1.dropLast ∧
      ((readLine k stdin).1.getLast? = some newline ∨ (readLine k stdin).1.length = k ∨
        (readLine k stdin).2 = []) := by
  induction k generalizing stdin with
  | zero => exact ⟨Nat.le_refl _, by simp [readLine], .inr (.inl rfl)⟩
  | succ k ih =>
    cases stdin with
    | nil => exact ⟨Nat.zero_le _, by simp [readLine], .inr (.inr rfl)⟩
    | cons c stdin =>
      rw [readLine]
      split
      · next hc => exact ⟨by simp, by simp, .inl (hc ▸ rfl)⟩
      · next hc =>
        obtain ⟨hlen, hnl, hend⟩ := ih stdin
        dsimp only
        cases hrest : (readLine k stdin).1 with
        | nil =>
          refine ⟨by simp, by simp, .inr ?_⟩
          rw [hrest] at hend
          rcases hend with h | h | h
          · cases h
          · exact .inl (by rw [← h]; rfl)
          · exact .inr h
        | cons d l =>
          rw [hrest] at hlen hnl hend
          refine ⟨Nat.succ_le_succ hlen, ?_, ?_⟩
          · rw [List.dropLast_cons_of_ne_nil (List.cons_ne_nil _ _), List.mem_cons]
            exact not_or.mpr ⟨Ne.symm hc, hnl⟩
          · rw [List.getLast?_cons_cons]
            exact hend.imp id (Or.imp (congrArg Nat.succ) id)

theorem fgets_cons (c : Byte) (stdin : List Byte) :
    fgets maxInputSize (c :: stdin) = some (readLine (maxInputSize - 1) (c :: stdin)) := rfl

theorem readLine_ne_nil (k : Nat) (c : Byte) (stdin : List Byte) :
    (readLine (k + 1) (c :: stdin)).1 ≠ [] := by
  rw [readLine]
  split
  · exact List.cons_ne_nil _ _
  · exact List.cons_ne_nil _ _

theorem readLine_shorter (c : Byte) (stdin : List Byte) :
    (readLine (maxInputSize - 1) (c :: stdin)).2.length ≤ stdin.length := by
  have hsum := congrArg List.length (readLine_append (maxInputSize - 1) (c :: stdin))
  have hpos := List.length_pos_iff.mpr (readLine_ne_nil (maxInputSize - 2) c stdin)
  rw [List.length_append, List.length_cons] at hsum
  change 0 < (readLine (maxInputSize - 1) (c :: stdin)).1.length at hpos
  omega

theorem pieces_flatten {fuel : Nat} {stdin : List Byte} (h : stdin.length ≤ fuel) :
    (pieces fuel stdin).flatten = stdin := by
  induction fuel generalizing stdin with
  | zero => exact (List.length_eq_zero_iff.mp (Nat.le_zero.mp h)).symm
  | succ fuel ih =>
    cases stdin with
    | nil => rfl
    | cons c stdin =>
      have hshort := readLine_shorter c stdin
      rw [List.length_cons] at h
      rw [pieces, fgets_cons]
      dsimp only
      rw [List.flatten_cons, ih (hshort.trans (by omega)), readLine_append]

theorem pieces_piece {fuel : Nat} {stdin : List Byte} {pre post : List (List Byte)} {p : List Byte}
    (h : pieces fuel stdin = pre ++ p :: post) : Piece post.isEmpty p := by
  induction fuel generalizing stdin pre with
  | zero => simp [pieces] at h
  | succ fuel ih =>
    cases stdin with
    | nil => simp [pieces, fgets] at h
    | cons c stdin =>
      rw [pieces, fgets_cons] at h
      dsimp only at h
      cases pre with
      | cons q pre => exact ih (List.cons.inj h).2
      | nil =>
        obtain ⟨rfl, hpost⟩ := List.cons.inj h
        obtain ⟨hlen, hnl, hend⟩ := readLine_piece (maxInputSize - 1) (c :: stdin)
        refine ⟨readLine_ne_nil (maxInputSize - 2) c stdin, hlen, hnl, ?_⟩
        rcases hend with h | h | h
        · exact .inl h
        · exact .inr (.inl h)
        · refine .inr (.inr ?_)
          rw [← hpost, h]
          cases fuel with
          | zero => rfl
          | succ fuel => rfl

/-! ## The session -/

theorem cut_cut (input : List Byte) : cut (cut input) = cut input := by
  unfold cut
  rw [List.takeWhile_takeWhile]
  simp only [and_self, Bool.decide_eq_true]

/-- What is before the cut in each of `n` rounds: the pieces, and the last one again and
again. -/
def inputs : Nat → List (List Byte) → List Byte → List (List Byte)
  | 0, _, _ => []
  | n + 1, [], input => cut input :: inputs n [] (cut input)
  | n + 1, p :: ps, _ => cut p :: inputs n ps (cut p)

/-- The loop ends with the first outcome that is no action. -/
def upToEnd : List Outcome → List Outcome
  | [] => []
  | .action a :: os => .action a :: upToEnd os
  | o :: _ => [o]

/-- A round. -/
theorem inputs_next (n : Nat) {fuel : Nat} {stdin : List Byte} (input : List Byte)
    (h : stdin.length ≤ fuel) :
    ∃ fuel', (nextInput stdin input).1.length ≤ fuel' ∧
      inputs (n + 1) (pieces fuel stdin) input = (nextInput stdin input).2 ::
        inputs n (pieces fuel' (nextInput stdin input).1) (nextInput stdin input).2 := by
  cases stdin with
  | nil =>
    have hnil : ∀ k, pieces k [] = [] := fun k => by cases k <;> rfl
    refine ⟨0, Nat.le_refl _, ?_⟩
    rw [hnil, inputs]
    rfl
  | cons c stdin =>
    obtain ⟨fuel, rfl⟩ : ∃ k, fuel = k + 1 := ⟨fuel - 1, by rw [List.length_cons] at h; omega⟩
    have hshort := readLine_shorter c stdin
    rw [List.length_cons] at h
    refine ⟨fuel, hshort.trans (by omega), ?_⟩
    rw [pieces, fgets_cons]
    rfl

theorem session_inputs (status : Nat → Bool × Bool) (n i : Nat) {fuel : Nat}
    {stdin : List Byte} (input : List Byte) (h : stdin.length ≤ fuel) :
    session status n i stdin input =
      upToEnd ((inputs n (pieces fuel stdin) input).mapIdx fun k x =>
        iteration (status (i + k)) x) := by
  induction n generalizing i fuel stdin input with
  | zero => rfl
  | succ n ih =>
    obtain ⟨fuel', hlen, hinputs⟩ := inputs_next n input h
    have hrest := ih (i + 1) (nextInput stdin input).2 hlen
    rw [hinputs, List.mapIdx_cons]
    simp only [session, hrest, Nat.add_zero, Nat.add_assoc, Nat.add_comm 1]
    cases hout : iteration (status i) (nextInput stdin input).2 with
    | action a => rfl
    | quit => rfl
    | overflow c => rfl

theorem take_replicate_succ (n : Nat) (l : List (List Byte)) (x : List Byte) :
    (l ++ List.replicate (n + 1) x).take n = (l ++ List.replicate n x).take n := by
  rw [List.replicate_succ', ← List.append_assoc, List.take_append_of_le_length]
  rw [List.length_append, List.length_replicate]
  omega

theorem inputs_eq (n : Nat) (ps : List (List Byte)) (input : List Byte) :
    inputs n ps input =
      (ps.map cut ++ List.replicate n (cut (ps.getLastD input))).take n := by
  induction n generalizing ps input with
  | zero => rfl
  | succ n ih =>
    cases ps with
    | nil =>
      rw [inputs, ih, List.map_nil, List.nil_append, List.nil_append, List.getLastD_nil,
        List.getLastD_nil, cut_cut, List.take_replicate, List.take_replicate, Nat.min_self,
        Nat.min_self, List.replicate_succ]
    | cons p ps =>
      have hlast : cut (ps.getLastD (cut p)) = cut (ps.getLastD p) := by
        cases ps with
        | nil => exact cut_cut p
        | cons q ps => rfl
      rw [inputs, ih, hlast, List.map_cons, List.cons_append, List.take_succ_cons,
        take_replicate_succ, List.getLastD_cons]

/-- **A session.** The stream falls into pieces, a line longer than 126 bytes into several;
each is acted upon in its turn, and from the end of the stream on the last one is acted
upon for ever, up to a `q` or a command that does not fit. -/
theorem session_law (status : Nat → Bool × Bool) (n : Nat) (stdin junk : List Byte) :
    session status n 0 stdin junk =
        upToEnd ((((lines stdin).map cut ++
          List.replicate n (cut ((lines stdin).getLastD junk))).take n).mapIdx fun k x =>
            iteration (status k) x) ∧
      (lines stdin).flatten = stdin ∧
      ∀ pre p post, lines stdin = pre ++ p :: post → Piece post.isEmpty p := by
  refine ⟨?_, pieces_flatten (Nat.le_refl _), fun _ _ _ => pieces_piece⟩
  rw [session_inputs status n 0 junk (Nat.le_refl _), inputs_eq]
  simp only [Nat.zero_add]
  rfl

/-! ## Messages typed -/

/-- What is typed to send a message. -/
def typed (message : List Byte) : List Byte :=
  udpCommand ++ [0x20] ++ message ++ [newline]

/-- A message that one line can hold. -/
structure Typable (message : List Byte) : Prop where
  text : message ≠ [] ∧ ∀ c ∈ message.head?, isSpace c = false
  oneLine : newline ∉ message
  noNul : 0 ∉ message
  length_le : message.length ≤ 122

theorem all_ne_iff {x : Byte} {m : List Byte} :
    (m.all fun c => decide (c ≠ x)) = true ↔ x ∉ m := by
  simp only [List.all_eq_true, decide_eq_true_eq]
  exact ⟨fun h hx => h x hx rfl, fun h c hc he => h (he ▸ hc)⟩

instance (m : List Byte) : Decidable (Typable m) :=
  decidable_of_iff (m ≠ [] ∧ m.head?.any isSpace = false ∧
      (m.all fun c => decide (c ≠ newline)) = true ∧ (m.all fun c => decide (c ≠ 0)) = true ∧
      m.length ≤ 122) <| by
    rw [Option.any_eq_false, all_ne_iff, all_ne_iff]
    exact ⟨fun h => ⟨⟨h.1, h.2.1⟩, h.2.2.1, h.2.2.2.1, h.2.2.2.2⟩,
      fun h => ⟨h.text.1, h.text.2, h.oneLine, h.noNul, h.length_le⟩⟩

/-- What the host sends after a round. -/
def Outcome.frame? (peer : Net.Inet) : Outcome → Option Net.Frame
  | .action (.udpSend message) => some (.ofPacket (Net.udpSend peer message))
  | _ => none

theorem readLine_line {k : Nat} {l : List Byte} (hl : newline ∉ l) (hlen : l.length < k)
    (rest : List Byte) : readLine k (l ++ newline :: rest) = (l ++ [newline], rest) := by
  induction l generalizing k with
  | nil =>
    obtain ⟨k, rfl⟩ := Nat.exists_eq_add_of_lt hlen
    rfl
  | cons c l ih =>
    obtain ⟨k, rfl⟩ : ∃ j, k = j + 1 := ⟨k - 1, by omega⟩
    have hc : c ≠ newline := fun heq => hl (heq ▸ List.mem_cons_self)
    have hrest := ih (fun hm => hl (List.mem_cons_of_mem _ hm)) (Nat.lt_of_succ_lt_succ hlen)
    rw [List.cons_append, readLine, if_neg hc, hrest]
    rfl

section
variable {m : List Byte}

theorem Typable.newline_not_mem (h : Typable m) : newline ∉ udpCommand ++ [0x20] ++ m := by
  rw [List.mem_append, not_or]
  exact ⟨by decide, h.oneLine⟩

theorem Typable.cut (h : Typable m) : cut (typed m) = udpCommand ++ [0x20] ++ m := by
  have hmem : ∀ c ∈ udpCommand ++ [0x20] ++ m, decide (c ≠ 0 ∧ c ≠ newline) = true := by
    intro c hc
    refine decide_eq_true ⟨fun h0 => ?_, fun hn => h.newline_not_mem (hn ▸ hc)⟩
    rcases List.mem_append.mp (h0 ▸ hc) with hmem | hmem
    · exact absurd hmem (by decide)
    · exact h.noNul hmem
  exact takeWhile_all hmem fun c hc => Option.some.inj hc ▸ rfl

theorem Typable.iteration (h : Typable m) (status : Bool × Bool) :
    iteration status (Prompt.cut (typed m)) = .action (.udpSend m) := by
  have hline : Line (udpCommand ++ [0x20] ++ m) udpCommand m :=
    ⟨⟨List.cons_ne_nil _ _, by decide⟩, h.text, [], [0x20],
      by rw [List.nil_append, List.append_assoc], List.cons_ne_nil _ _, by decide⟩
  rw [h.cut, Prompt.iteration, if_neg (by simp [udpCommand]),
    sscanf_of_line h.newline_not_mem hline]
  rfl

end

theorem pieces_typed {ms : List (List Byte)} (h : ∀ m ∈ ms, Typable m) {fuel : Nat}
    (hfuel : (ms.flatMap typed).length ≤ fuel) : pieces fuel (ms.flatMap typed) = ms.map typed := by
  induction ms generalizing fuel with
  | nil => cases fuel <;> rfl
  | cons m ms ih =>
    have hm := h m List.mem_cons_self
    have hlen : (udpCommand ++ [0x20] ++ m).length < maxInputSize - 1 := by
      have := hm.length_le
      simp only [udpCommand, maxInputSize, List.length_append, List.length_cons, List.length_nil]
      omega
    have hsplit : (m :: ms).flatMap typed =
        (udpCommand ++ [0x20] ++ m) ++ newline :: ms.flatMap typed := by
      rw [List.flatMap_cons, typed, List.append_assoc]
      rfl
    obtain ⟨fuel, rfl⟩ : ∃ k, fuel = k + 1 := by
      rw [hsplit, List.length_append, List.length_cons] at hfuel
      exact ⟨fuel - 1, by omega⟩
    have hget : fgets maxInputSize ((m :: ms).flatMap typed) =
        some (typed m, ms.flatMap typed) := by
      rw [hsplit]
      exact congrArg some (readLine_line hm.newline_not_mem hlen (ms.flatMap typed))
    rw [hsplit, List.length_append, List.length_cons] at hfuel
    rw [pieces, hget]
    dsimp only
    rw [ih (fun x hx => h x (List.mem_cons_of_mem _ hx)) (by omega), List.map_cons]

theorem session_typed (status : Nat → Bool × Bool) {ms : List (List Byte)}
    (h : ∀ m ∈ ms, Typable m) (junk : List Byte) :
    session status ms.length 0 (ms.flatMap typed) junk =
      ms.map fun m => .action (.udpSend m) := by
  have hout : ∀ (l : List (List Byte)) (i : Nat), (∀ m ∈ l, Typable m) →
      upToEnd ((l.map fun m => cut (typed m)).mapIdx fun k x => iteration (status (i + k)) x) =
        l.map fun m => .action (.udpSend m) := by
    intro l
    induction l with
    | nil => exact fun _ _ => rfl
    | cons m l ih =>
      intro i hl
      have hrest := ih (i + 1) fun x hx => hl x (List.mem_cons_of_mem _ hx)
      rw [List.map_cons, List.mapIdx_cons, (hl m List.mem_cons_self).iteration, upToEnd,
        List.map_cons]
      simp only [← hrest, Nat.add_assoc, Nat.add_comm 1]
  rw [session_inputs status ms.length 0 junk (Nat.le_refl _), inputs_eq,
    pieces_typed h (Nat.le_refl _), List.take_append_of_le_length (by simp),
    List.take_of_length_le (by simp), List.map_map]
  exact hout ms 0 h

/-- **From the keyboard to the screen.** Messages typed on one host, sent, received and
printed on the other, each with at most one byte more. -/
theorem typed_printed {inet peer : Net.Inet} (hsrc : peer.localIp = inet.remoteIp)
    (hdst : peer.remoteIp = inet.localIp) {ms : List (List Byte)} (h : ∀ m ∈ ms, Typable m)
    (status : Nat → Bool × Bool) (junk : List Byte) (data : Mem) :
    Net.receiveAll inet data
        ((session status ms.length 0 (ms.flatMap typed) junk).filterMap (Outcome.frame? peer)) =
      Net.printed data ms := by
  have hfits : ∀ m ∈ ms, m.length ≤ Net.mtu - 2 := fun m hm =>
    (h m hm).length_le.trans (by decide)
  have hsmall : ∀ m ∈ ms, 8 + m.length < 2 ^ 16 := fun m hm => by
    have := (h m hm).length_le
    omega
  have hframes : (session status ms.length 0 (ms.flatMap typed) junk).filterMap
      (Outcome.frame? peer) = ms.map fun m => .ofPacket (Net.udpSend peer m) := by
    rw [session_typed status h, List.filterMap_map]
    exact congrFun List.filterMap_eq_map ms
  have hmessage : ∀ m ∈ ms, Net.Message inet (.ofPacket (Net.udpSend peer m)) := fun m hm =>
    Net.message_udpSend hsrc hdst (hfits m hm) (h m hm).noNul
  rw [hframes, Net.receiveAll_eq_printed, List.map_map]
  · congr 1
    calc ms.map (Net.Frame.udpPayload ∘ fun m => .ofPacket (Net.udpSend peer m))
        = ms.map id := List.map_congr_left fun m hm =>
          (Net.udpDatagram_udpSend hsrc hdst (hsmall m hm)).2.2
      _ = ms := List.map_id ms
  · intro f hf
    obtain ⟨m, hm, rfl⟩ := List.mem_map.mp hf
    exact hmessage m hm

/-- `hello` and `hi`. -/
theorem typed_printed_two :
    Net.receiveAll Net.sampleInet (fun _ => 0)
        ((session (fun _ => (false, false)) 2 0
          ([[0x68, 0x65, 0x6c, 0x6c, 0x6f], [0x68, 0x69]].flatMap typed) []).filterMap
            (Outcome.frame? Net.samplePeer)) =
      Net.printed (fun _ => 0) [[0x68, 0x65, 0x6c, 0x6c, 0x6f], [0x68, 0x69]] :=
  typed_printed rfl rfl (show ∀ m ∈ [[0x68, 0x65, 0x6c, 0x6c, 0x6f], [0x68, 0x69]], Typable m by
    decide) _ [] _

end X64SmpOs.Prompt

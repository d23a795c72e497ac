import Coinkit.Network.Node
import Coinkit.Util.SignedMessage

/-!
# The server's broadcast

`network/server.go`. Two goroutines of a server meet at the buffered channel `outgoing`, of
capacity 10. After every message it hands the node, the processing goroutine encodes the
node's outgoing messages into lines, and `unsafeUpdateOutgoing` first clears the channel with
`getOutgoing`, then sends the batch. `broadcastIntermittently` receives a batch, looks with
`getOutgoing` for newer ones and keeps the newest, hands every peer the lines its last batch did
not hold, and makes the batch its `lastLines`; when its timer fires it hands out `lastLines`
again.

Every receive from the channel, in either `getOutgoing`, is a step of its own, so the two loops
interleave at every one of them. What a goroutine does between two channel operations touches
nothing the other one reads, and is one step: encoding the lines, or handing a batch of lines
to the peers. `step` moves one goroutine one step, or says why it cannot move; an interleaving
of the two goroutines is a run of it, and `Moves` lists what a step can do.

The server's `Send` calls are recorded in `requests`, in order; what the peers' clients do with
them is theirs. `latest` is no field of the Go server: it records the last batch the processing
goroutine sent, so that the properties below can name it.

## What is proved

- `outgoing_holds_one_batch`: the channel never holds more than one batch, so the processing
  goroutine's send never waits for room, and after the send its batch is alone in the channel;
- `quiescent_broadcasts_latest`: whenever both goroutines are between rounds and the channel is
  empty, the broadcaster's `lastLines` is the last batch the processing goroutine sent, and
  every line of it has been handed to every peer;
- `broadcaster_catches_up`: from every state where the processing goroutine is between rounds,
  the broadcaster alone gets to such a state in at most two steps.

`Server.Inv` carries all three. Its one real clause says where the newest batch is while the
processing goroutine is between rounds: alone in the channel, in the broadcaster's hands, or
already its `lastLines`. Neither goroutine can lose it: the processing goroutine only clears
the channel right before it sends a newer batch, and the broadcaster keeps the newest batch it
receives.

Not modelled: the `quit` channel (its `break` leaves only the `select`, and changes nothing
here), the timer's period, and the `currentBlock` signal.
-/

set_option autoImplicit false

namespace Coinkit.Network

/-- The capacity of `outgoing`: `make(chan []string, 10)`. -/
def outgoingCapacity : Nat := 10

/-- `scontains`: whether the list holds the line. -/
def scontains : List (List UInt8) → List UInt8 → Bool
  | [], _ => false
  | str :: list, s => str == s || scontains list s

@[simp]
theorem scontains_iff {list : List (List UInt8)} {s : List UInt8} :
    scontains list s = true ↔ s ∈ list := by
  induction list with
  | nil => simp [scontains]
  | cons str list ih =>
    simp only [scontains, Bool.or_eq_true, beq_iff_eq, ih, List.mem_cons]
    exact or_congr_left eq_comm

/-- The loop of `broadcastIntermittently` that keeps the lines of a new batch that `lastLines`
does not hold, in their order. -/
def changedLines (lastLines lines : List (List UInt8)) : List (List UInt8) :=
  lines.filter fun line => !scontains lastLines line

/-- A line of a new batch that is not a changed line was already in `lastLines`. -/
theorem mem_of_not_mem_changedLines {lastLines lines : List (List UInt8)} {line : List UInt8}
    (hline : line ∈ lines) (hchanged : line ∉ changedLines lastLines lines) : line ∈ lastLines := by
  simp only [changedLines, List.mem_filter, Bool.not_eq_eq_eq_not, Bool.not_true, not_and,
    Bool.not_eq_false, scontains_iff] at hchanged
  exact hchanged hline

/-- Where the processing goroutine is, as far as the channel goes. -/
inductive Processor
  /-- In the `select` of `processMessagesForever`, or in the node. -/
  | idle
  /-- In `unsafeUpdateOutgoing`, clearing the channel with `getOutgoing` before it sends
  `lines`. -/
  | clearing (lines : List (List UInt8))
  /-- At `s.outgoing <- lines`. -/
  | sending (lines : List (List UInt8))
  deriving DecidableEq, Repr

/-- Where `broadcastIntermittently` is. -/
inductive Broadcaster
  /-- In its `select`, waiting for a batch or for the timer. -/
  | waiting
  /-- In `getOutgoing` after a batch came in; `lines` is the newest batch received so far. -/
  | collecting (lines : List (List UInt8))
  deriving DecidableEq, Repr

/-- A step of one of the two goroutines. -/
inductive Action
  /-- The processing goroutine enters `unsafeUpdateOutgoing` with the node's outgoing
  messages. -/
  | update (out : List Message)
  /-- One round of the processing goroutine's `getOutgoing`. -/
  | clear
  /-- The processing goroutine's `s.outgoing <- lines`. -/
  | send
  /-- `case lines := <-s.outgoing` of `broadcastIntermittently`. -/
  | receive
  /-- One round of the broadcaster's `getOutgoing`; on an empty channel, the changed lines go
  out. -/
  | collect
  /-- `case <-timer.C`: the backup rebroadcast. -/
  | rebroadcast

/-- Why a goroutine cannot take the step. -/
inductive Blocked
  /-- The goroutine is not at that statement. -/
  | elsewhere
  /-- A send on a full channel waits. -/
  | full
  /-- A receive on an empty channel waits. -/
  | empty
  deriving DecidableEq, Repr

/-- The part of `Server` that the outgoing channel joins, with the two goroutines' places and
the broadcaster's local `lastLines`. -/
structure Server (π : Type) where
  /-- The batches in the channel, oldest first. -/
  outgoing : List (List (List UInt8))
  processor : Processor
  broadcaster : Broadcaster
  lastLines : List (List UInt8)
  /-- Every `peer.Send` of a line, in order. -/
  requests : List (π × List UInt8)
  broadcasted : Nat
  /-- The last batch the processing goroutine sent on the channel. -/
  latest : List (List UInt8)

namespace Server

variable {π : Type} (peers : List π)

/-- `NewServer` and the start of `broadcastIntermittently`: an empty channel, no batch yet. -/
def init : Server π := ⟨[], .idle, .waiting, [], [], 0, []⟩

/-- `broadcastLines`: every line goes to every peer, and counts once. -/
def broadcastLines (s : Server π) (lines : List (List UInt8)) : Server π :=
  lines.foldl (fun s line =>
    { s with requests := s.requests ++ peers.map (fun peer => (peer, line)),
             broadcasted := s.broadcasted + 1 }) s

/-- `broadcastLines` appends a request for each line and peer, and touches nothing else. -/
theorem broadcastLines_eq (lines : List (List UInt8)) :
    ∀ s : Server π, s.broadcastLines peers lines =
      { s with requests := s.requests ++ lines.flatMap (fun line => peers.map (fun peer => (peer, line))),
               broadcasted := s.broadcasted + lines.length } := by
  induction lines with
  | nil => intro s; simp [broadcastLines]
  | cons line lines ih =>
    intro s
    simp only [broadcastLines, List.foldl_cons] at ih ⊢
    rw [ih]
    simp only [List.flatMap_cons, List.append_assoc, List.length_cons]
    congr 1
    omega

@[simp] theorem broadcastLines_outgoing (s : Server π) (lines : List (List UInt8)) :
    (s.broadcastLines peers lines).outgoing = s.outgoing := by
  rw [broadcastLines_eq]

@[simp] theorem broadcastLines_processor (s : Server π) (lines : List (List UInt8)) :
    (s.broadcastLines peers lines).processor = s.processor := by
  rw [broadcastLines_eq]

@[simp] theorem broadcastLines_broadcaster (s : Server π) (lines : List (List UInt8)) :
    (s.broadcastLines peers lines).broadcaster = s.broadcaster := by
  rw [broadcastLines_eq]

@[simp] theorem broadcastLines_lastLines (s : Server π) (lines : List (List UInt8)) :
    (s.broadcastLines peers lines).lastLines = s.lastLines := by
  rw [broadcastLines_eq]

@[simp] theorem broadcastLines_latest (s : Server π) (lines : List (List UInt8)) :
    (s.broadcastLines peers lines).latest = s.latest := by
  rw [broadcastLines_eq]

/-- Every line of `lines` has been handed to every peer. -/
def SentToAll (s : Server π) (lines : List (List UInt8)) : Prop :=
  ∀ line ∈ lines, ∀ peer ∈ peers, (peer, line) ∈ s.requests

/-- What was handed out stays handed out when more requests follow. -/
theorem SentToAll.mono {s s' : Server π} {lines : List (List UInt8)} (h : s.SentToAll peers lines)
    (hreq : ∃ more, s'.requests = s.requests ++ more) : s'.SentToAll peers lines := by
  obtain ⟨more, hmore⟩ := hreq
  intro line hline peer hpeer
  rw [hmore]
  exact List.mem_append_left more (h line hline peer hpeer)

/-- After `broadcastLines`, every line it was given has been handed to every peer. -/
theorem sentToAll_broadcastLines (s : Server π) (lines : List (List UInt8)) :
    (s.broadcastLines peers lines).SentToAll peers lines := by
  intro line hline peer hpeer
  rw [broadcastLines_eq]
  exact List.mem_append_right _ (List.mem_flatMap.mpr ⟨line, hline, List.mem_map_of_mem hpeer⟩)

/-- `broadcastLines` only appends requests. -/
theorem SentToAll.broadcastLines {s : Server π} {old : List (List UInt8)}
    (h : s.SentToAll peers old) (lines : List (List UInt8)) :
    (s.broadcastLines peers lines).SentToAll peers old :=
  h.mono peers ⟨_, by rw [broadcastLines_eq]⟩

end Server

section Step

variable {π : Type} (peers : List π) (ed25519Sign : List UInt8 → List UInt8 → List UInt8)
  (encodeMessage : Message → List UInt8) (kp : KeyPair)

/-- The loop of `unsafeUpdateOutgoing`: each outgoing message signed with the server's key pair,
as a line. -/
def outgoingLines (out : List Message) : List (List UInt8) :=
  out.map fun m => signedMessageToLine (some (newSignedMessage ed25519Sign encodeMessage kp m))

open Server in
/-- One step of one goroutine. -/
def step (s : Server π) : Action → Except Blocked (Server π)
  | .update out =>
    match s.processor with
    | .idle => pure { s with processor := .clearing (outgoingLines ed25519Sign encodeMessage kp out) }
    | _ => throw .elsewhere
  | .clear =>
    match s.processor, s.outgoing with
    -- the processing goroutine's `getOutgoing` drops what it receives
    | .clearing _, _ :: rest => pure { s with outgoing := rest }
    | .clearing lines, [] => pure { s with processor := .sending lines }
    | _, _ => throw .elsewhere
  | .send =>
    match s.processor with
    | .sending lines =>
      if s.outgoing.length < outgoingCapacity then
        pure { s with outgoing := s.outgoing ++ [lines], processor := .idle, latest := lines }
      else throw .full
    | _ => throw .elsewhere
  | .receive =>
    match s.broadcaster, s.outgoing with
    | .waiting, lines :: rest => pure { s with outgoing := rest, broadcaster := .collecting lines }
    | .waiting, [] => throw .empty
    | .collecting _, _ => throw .elsewhere
  | .collect =>
    match s.broadcaster, s.outgoing with
    -- `if ok { lines = newerLines }`: the newest batch wins
    | .collecting _, newer :: rest =>
      pure { s with outgoing := rest, broadcaster := .collecting newer }
    | .collecting lines, [] =>
      pure { s.broadcastLines peers (changedLines s.lastLines lines) with
        lastLines := lines, broadcaster := .waiting }
    | .waiting, _ => throw .elsewhere
  | .rebroadcast =>
    match s.broadcaster with
    | .waiting => pure (s.broadcastLines peers s.lastLines)
    | .collecting _ => throw .elsewhere

/-- What a step can do: one constructor for each branch of `step` that moves. The lines the
processing goroutine starts with are left open. -/
inductive Moves : Server π → Server π → Prop
  | update {s : Server π} (lines : List (List UInt8)) (hp : s.processor = .idle) :
      Moves s { s with processor := .clearing lines }
  | clearDrop {s : Server π} {lines batch rest} (hp : s.processor = .clearing lines)
      (ho : s.outgoing = batch :: rest) : Moves s { s with outgoing := rest }
  | clearDone {s : Server π} {lines} (hp : s.processor = .clearing lines) (ho : s.outgoing = []) :
      Moves s { s with processor := .sending lines }
  | send {s : Server π} {lines} (hp : s.processor = .sending lines)
      (hroom : s.outgoing.length < outgoingCapacity) :
      Moves s { s with outgoing := s.outgoing ++ [lines], processor := .idle, latest := lines }
  | receive {s : Server π} {lines rest} (hb : s.broadcaster = .waiting)
      (ho : s.outgoing = lines :: rest) :
      Moves s { s with outgoing := rest, broadcaster := .collecting lines }
  | collectNewer {s : Server π} {lines newer rest} (hb : s.broadcaster = .collecting lines)
      (ho : s.outgoing = newer :: rest) :
      Moves s { s with outgoing := rest, broadcaster := .collecting newer }
  | collectDone {s : Server π} {lines} (hb : s.broadcaster = .collecting lines)
      (ho : s.outgoing = []) :
      Moves s { s.broadcastLines peers (changedLines s.lastLines lines) with
        lastLines := lines, broadcaster := .waiting }
  | rebroadcast {s : Server π} (hb : s.broadcaster = .waiting) :
      Moves s (s.broadcastLines peers s.lastLines)

/-- Every step that goes through is one of the `Moves`. -/
theorem moves_of_step {s s' : Server π} {a : Action}
    (h : step peers ed25519Sign encodeMessage kp s a = .ok s') : Moves peers s s' := by
  cases a with
  | update out =>
    simp only [step] at h
    split at h
    · cases h
      exact .update _ ‹_›
    · cases h
  | clear =>
    simp only [step] at h
    split at h
    · cases h
      exact .clearDrop ‹_› ‹_›
    · cases h
      exact .clearDone ‹_› ‹_›
    · cases h
  | send =>
    simp only [step] at h
    split at h
    · split at h
      · cases h
        exact .send ‹_› ‹_›
      · cases h
    · cases h
  | receive =>
    simp only [step] at h
    split at h
    · cases h
      exact .receive ‹_› ‹_›
    · cases h
    · cases h
  | collect =>
    simp only [step] at h
    split at h
    · cases h
      exact .collectNewer ‹_› ‹_›
    · cases h
      exact .collectDone ‹_› ‹_›
    · cases h
  | rebroadcast =>
    simp only [step] at h
    split at h
    · cases h
      exact .rebroadcast ‹_›
    · cases h

/-- `case lines := <-s.outgoing`. -/
theorem step_receive {s : Server π} {lines : List (List UInt8)} {rest : List (List (List UInt8))}
    (hb : s.broadcaster = .waiting) (ho : s.outgoing = lines :: rest) :
    step peers ed25519Sign encodeMessage kp s .receive =
      .ok { s with outgoing := rest, broadcaster := .collecting lines } := by
  simp only [step, hb, ho]
  rfl

/-- A round of the broadcaster's `getOutgoing` that finds a newer batch. -/
theorem step_collect_newer {s : Server π} {lines newer : List (List UInt8)}
    {rest : List (List (List UInt8))} (hb : s.broadcaster = .collecting lines)
    (ho : s.outgoing = newer :: rest) :
    step peers ed25519Sign encodeMessage kp s .collect =
      .ok { s with outgoing := rest, broadcaster := .collecting newer } := by
  simp only [step, hb, ho]
  rfl

/-- The round of the broadcaster's `getOutgoing` that finds the channel empty: the changed lines
go out. -/
theorem step_collect_done {s : Server π} {lines : List (List UInt8)}
    (hb : s.broadcaster = .collecting lines) (ho : s.outgoing = []) :
    step peers ed25519Sign encodeMessage kp s .collect =
      .ok { s.broadcastLines peers (changedLines s.lastLines lines) with
        lastLines := lines, broadcaster := .waiting } := by
  simp only [step, hb, ho]
  rfl

/-- Wherever the broadcaster is, it takes a batch that waits in the channel: by its receive
while it waits, by a round of its `getOutgoing` while it collects. -/
theorem step_take {s : Server π} {lines : List (List UInt8)} {rest : List (List (List UInt8))}
    (ho : s.outgoing = lines :: rest) :
    ∃ a, (a = .receive ∨ a = .collect) ∧ step peers ed25519Sign encodeMessage kp s a =
      .ok { s with outgoing := rest, broadcaster := .collecting lines } := by
  cases hb : s.broadcaster with
  | waiting => exact ⟨.receive, .inl rfl, step_receive peers ed25519Sign encodeMessage kp hb ho⟩
  | collecting held =>
    exact ⟨.collect, .inr rfl, step_collect_newer peers ed25519Sign encodeMessage kp hb ho⟩

end Step

/-! ## The invariant of every interleaving -/

namespace Server

variable {π : Type} (peers : List π)

/-- What holds in every state the two goroutines reach together. -/
structure Inv (s : Server π) : Prop where
  /-- The channel holds at most one batch. -/
  outgoing_le : s.outgoing.length ≤ 1
  /-- At its send, the processing goroutine has found the channel empty, and only it fills the
  channel. -/
  sending : ∀ lines, s.processor = .sending lines → s.outgoing = []
  /-- Between rounds of the processing goroutine, its last batch is alone in the channel, in
  the broadcaster's hands, or the broadcaster's `lastLines`. -/
  newest : s.processor = .idle → s.outgoing = [s.latest] ∨
    s.outgoing = [] ∧ (s.broadcaster = .collecting s.latest ∨
      s.broadcaster = .waiting ∧ s.lastLines = s.latest)
  /-- `lastLines` has been handed to every peer. -/
  sent : s.SentToAll peers s.lastLines

theorem inv_init : (init : Server π).Inv peers where
  outgoing_le := Nat.zero_le 1
  sending _ h := nomatch h
  newest _ := .inr ⟨rfl, .inr ⟨rfl, rfl⟩⟩
  sent := by simp [SentToAll, init]

/-- Either goroutine of the broadcaster that takes a batch off the channel holds the newest
one: the batch it takes is the processing goroutine's last, and the channel is left empty. -/
theorem Inv.take {s : Server π} {lines : List (List UInt8)} {rest : List (List (List UInt8))}
    (h : s.Inv peers) (ho : s.outgoing = lines :: rest) :
    ({ s with outgoing := rest, broadcaster := .collecting lines } : Server π).Inv peers := by
  refine ⟨?_, fun l hs => ?_, fun hs => ?_, h.sent⟩
  · have hle := h.outgoing_le
    rw [ho, List.length_cons] at hle
    dsimp only
    omega
  · rw [h.sending l hs] at ho
    cases ho
  · rcases h.newest hs with hq | ⟨hq, -⟩
    · rw [ho, List.cons_eq_cons] at hq
      obtain ⟨rfl, rfl⟩ := hq
      exact .inr ⟨rfl, .inl rfl⟩
    · rw [ho] at hq
      cases hq

/-- Every move keeps the invariant. -/
theorem Inv.moves {s s' : Server π} (h : s.Inv peers) (hm : Moves peers s s') : s'.Inv peers := by
  cases hm with
  | update lines hp =>
    exact ⟨h.outgoing_le, (fun _ hs => nomatch hs), (fun hs => nomatch hs), h.sent⟩
  | clearDrop hp ho =>
    have hle := h.outgoing_le
    rw [ho, List.length_cons] at hle
    refine ⟨by dsimp only; omega, fun _ hs => ?_, fun hs => ?_, h.sent⟩
    · rw [hp] at hs
      cases hs
    · rw [hp] at hs
      cases hs
  | clearDone hp ho =>
    exact ⟨h.outgoing_le, fun _ _ => ho, (fun hs => nomatch hs), h.sent⟩
  | @send lines hp hroom =>
    -- the channel was empty, so the batch is alone in it
    have ho := h.sending lines hp
    refine ⟨?_, (fun _ hs => nomatch hs), fun _ => .inl ?_, h.sent⟩
    · simp [ho]
    · simp [ho]
  | @receive lines rest hb ho => exact h.take peers ho
  | @collectNewer lines newer rest hb ho => exact h.take peers ho
  | @collectDone lines hb ho =>
    refine ⟨?_, fun l hs => ?_, fun hs => ?_, fun line hline peer hpeer => ?_⟩
    · simp [ho]
    · simpa using ho
    · -- with the channel empty, the batch in hand is the newest
      rcases h.newest (by simpa using hs) with hq | ⟨-, hc | ⟨hw, -⟩⟩
      · rw [ho] at hq
        cases hq
      · rw [hb, Broadcaster.collecting.injEq] at hc
        exact .inr ⟨by simpa using ho, .inr ⟨rfl, by simpa using hc⟩⟩
      · rw [hb] at hw
        cases hw
    · -- a line of the batch went out now, or was in `lastLines` and went out before
      by_cases hchanged : line ∈ changedLines s.lastLines lines
      · exact sentToAll_broadcastLines peers s _ line hchanged peer hpeer
      · exact h.sent.broadcastLines peers _ line
          (mem_of_not_mem_changedLines hline hchanged) peer hpeer
  | rebroadcast hb =>
    refine ⟨?_, fun l hs => ?_, fun hs => ?_, ?_⟩
    · simpa using h.outgoing_le
    · simpa using h.sending l (by simpa using hs)
    · simpa using h.newest (by simpa using hs)
    · simpa using h.sent.broadcastLines peers s.lastLines

end Server

section Runs

variable {π : Type} (peers : List π) (ed25519Sign : List UInt8 → List UInt8 → List UInt8)
  (encodeMessage : Message → List UInt8) (kp : KeyPair)

open Server

/-- The invariant holds in every state of every interleaving. -/
theorem inv_of_reachable {s : Server π}
    (hs : StepRun.Reachable (step peers ed25519Sign encodeMessage kp) init s) : s.Inv peers :=
  StepRun.Reachable.invariant (Inv peers) (inv_init peers)
    (fun _ _ _ h hstep => h.moves peers (moves_of_step peers ed25519Sign encodeMessage kp hstep)) hs

/-- At a state where both goroutines are between rounds and the channel is empty, the
broadcaster's `lastLines` is the newest batch, and it has gone to every peer. -/
theorem Server.Inv.quiescent {s : Server π} (h : s.Inv peers) (hp : s.processor = .idle)
    (hb : s.broadcaster = .waiting) (ho : s.outgoing = []) :
    s.lastLines = s.latest ∧ s.SentToAll peers s.latest := by
  rcases h.newest hp with hq | ⟨-, hc | ⟨-, hl⟩⟩
  · rw [ho] at hq
    cases hq
  · rw [hb] at hc
    cases hc
  · exact ⟨hl, hl ▸ h.sent⟩

/-- The channel never holds more than one batch: the processing goroutine's send never waits for
room, and after it the batch is alone in the channel. -/
theorem outgoing_holds_one_batch {s : Server π}
    (hs : StepRun.Reachable (step peers ed25519Sign encodeMessage kp) init s) :
    s.outgoing.length ≤ 1 ∧ ∀ lines, s.processor = .sending lines →
      ∃ s', step peers ed25519Sign encodeMessage kp s .send = .ok s' ∧
        s'.outgoing = [lines] ∧ s'.processor = .idle := by
  have h := inv_of_reachable peers ed25519Sign encodeMessage kp hs
  refine ⟨h.outgoing_le, fun lines hp => ?_⟩
  have ho := h.sending lines hp
  refine ⟨{ s with outgoing := s.outgoing ++ [lines], processor := .idle, latest := lines },
    ?_, by simp [ho], rfl⟩
  simp only [step, hp, ho, List.length_nil, outgoingCapacity]
  rfl

/-- After the processing goroutine has encoded one message and found the channel empty, its send
goes through. -/
theorem outgoing_holds_one_batch_after_update :
    let kp : KeyPair := ⟨⟨Vector.replicate 34 0⟩, []⟩
    let lines := outgoingLines (fun _ _ => []) (fun _ => [123, 125]) kp [.info ⟨1, ""⟩]
    let s : Server Nat := { init with processor := .sending lines }
    StepRun.Reachable (step [1, 2] (fun _ _ => []) (fun _ => [123, 125]) kp) init s ∧
      (s.outgoing.length ≤ 1 ∧ ∀ lines, s.processor = .sending lines →
        ∃ s', step [1, 2] (fun _ _ => []) (fun _ => [123, 125]) kp s .send = .ok s' ∧
          s'.outgoing = [lines] ∧ s'.processor = .idle) := by
  intro kp lines s
  have hs : StepRun.Reachable (step [1, 2] (fun _ _ => []) (fun _ => [123, 125]) kp) init s :=
    ⟨[.update [.info ⟨1, ""⟩], .clear], rfl⟩
  exact ⟨hs, outgoing_holds_one_batch [1, 2] _ _ _ hs⟩

/-- Whenever both goroutines are between rounds and the channel is empty, the broadcaster's
`lastLines` is the last batch the processing goroutine sent, and every line of it has been
handed to every peer. -/
theorem quiescent_broadcasts_latest {s : Server π}
    (hs : StepRun.Reachable (step peers ed25519Sign encodeMessage kp) init s)
    (hp : s.processor = .idle) (hb : s.broadcaster = .waiting) (ho : s.outgoing = []) :
    s.lastLines = s.latest ∧ s.SentToAll peers s.latest :=
  (inv_of_reachable peers ed25519Sign encodeMessage kp hs).quiescent peers hp hb ho

/-- One message's batch, sent, received and broadcast, has gone to both peers. -/
theorem quiescent_broadcasts_latest_after_one_batch :
    let kp : KeyPair := ⟨⟨Vector.replicate 34 0⟩, []⟩
    let lines := outgoingLines (fun _ _ => []) (fun _ => [123, 125]) kp [.info ⟨1, ""⟩]
    let s : Server Nat := ⟨[], .idle, .waiting, lines,
      lines.flatMap (fun line => [(1, line), (2, line)]), 1, lines⟩
    StepRun.Reachable (step [1, 2] (fun _ _ => []) (fun _ => [123, 125]) kp) init s ∧
      s.processor = .idle ∧ s.broadcaster = .waiting ∧ s.outgoing = [] ∧
      (s.lastLines = s.latest ∧ s.SentToAll [1, 2] s.latest) := by
  intro kp lines s
  have hs : StepRun.Reachable (step [1, 2] (fun _ _ => []) (fun _ => [123, 125]) kp) init s :=
    ⟨[.update [.info ⟨1, ""⟩], .clear, .send, .receive, .collect], rfl⟩
  exact ⟨hs, rfl, rfl, rfl, quiescent_broadcasts_latest [1, 2] _ _ _ hs rfl rfl rfl⟩

/-- The broadcaster's way to the newest batch while the processing goroutine is between rounds:
take it from the channel if it is there, and close the round. -/
theorem Server.Inv.catchUp {s : Server π} (h : s.Inv peers) (hp : s.processor = .idle) :
    ∃ (acts : List Action) (s' : Server π), acts.length ≤ 2 ∧ (∀ a ∈ acts, a = .receive ∨ a = .collect) ∧
      acts.foldlM (step peers ed25519Sign encodeMessage kp) s = .ok s' ∧
      s'.processor = .idle ∧ s'.broadcaster = .waiting ∧ s'.outgoing = [] ∧
      s'.latest = s.latest := by
  rcases h.newest hp with ho | ⟨ho, hc | ⟨hw, -⟩⟩
  · -- the newest batch waits in the channel: take it, then find the channel empty
    obtain ⟨a, ha, htake⟩ := step_take peers ed25519Sign encodeMessage kp ho
    refine ⟨[a, .collect], _, le_refl _, by simp [ha],
      StepRun.foldlM_cons_ok.mpr ⟨_, htake,
        StepRun.foldlM_cons_ok.mpr ⟨_, step_collect_done peers ed25519Sign encodeMessage kp rfl rfl, rfl⟩⟩,
      by simpa using hp, rfl, by simp, by simp⟩
  · -- the broadcaster holds it and finds the channel empty
    exact ⟨[.collect], _, by simp, by simp,
      StepRun.foldlM_cons_ok.mpr ⟨_, step_collect_done peers ed25519Sign encodeMessage kp hc ho, rfl⟩,
      by simpa using hp, rfl, by simpa using ho, by simp⟩
  · -- it is there already
    exact ⟨[], s, by simp, by simp, rfl, hp, hw, ho, rfl⟩

/-- From every state of an interleaving where the processing goroutine is between rounds, the
broadcaster alone gets, in at most two steps, to a state where it is between rounds too and the
channel is empty, its `lastLines` is the last batch the processing goroutine sent, and every
line of that batch has been handed to every peer. -/
theorem broadcaster_catches_up {s : Server π}
    (hs : StepRun.Reachable (step peers ed25519Sign encodeMessage kp) init s)
    (hp : s.processor = .idle) :
    ∃ (acts : List Action) (s' : Server π), acts.length ≤ 2 ∧ (∀ a ∈ acts, a = .receive ∨ a = .collect) ∧
      acts.foldlM (step peers ed25519Sign encodeMessage kp) s = .ok s' ∧
      s'.processor = .idle ∧ s'.broadcaster = .waiting ∧ s'.outgoing = [] ∧
      s'.lastLines = s.latest ∧ s'.SentToAll peers s.latest := by
  obtain ⟨acts, s', hlen, hacts, hrun, hp', hb', ho', hlatest⟩ :=
    (inv_of_reachable peers ed25519Sign encodeMessage kp hs).catchUp peers ed25519Sign
      encodeMessage kp hp
  have h' := inv_of_reachable peers ed25519Sign encodeMessage kp (hs.run hrun)
  obtain ⟨hl, hsent⟩ := h'.quiescent peers hp' hb' ho'
  rw [hlatest] at hl hsent
  exact ⟨acts, s', hlen, hacts, hrun, hp', hb', ho', hl, hsent⟩

/-- A batch just sent, with the broadcaster waiting, is broadcast in two steps. -/
theorem broadcaster_catches_up_after_send :
    let kp : KeyPair := ⟨⟨Vector.replicate 34 0⟩, []⟩
    let lines := outgoingLines (fun _ _ => []) (fun _ => [123, 125]) kp [.info ⟨1, ""⟩]
    let s : Server Nat := { init with outgoing := [lines], latest := lines }
    StepRun.Reachable (step [1, 2] (fun _ _ => []) (fun _ => [123, 125]) kp) init s ∧
      s.processor = .idle ∧
      ∃ (acts : List Action) (s' : Server Nat), acts.length ≤ 2 ∧
        (∀ a ∈ acts, a = .receive ∨ a = .collect) ∧
        acts.foldlM (step [1, 2] (fun _ _ => []) (fun _ => [123, 125]) kp) s = .ok s' ∧
        s'.processor = .idle ∧ s'.broadcaster = .waiting ∧ s'.outgoing = [] ∧
        s'.lastLines = s.latest ∧ s'.SentToAll [1, 2] s.latest := by
  intro kp lines s
  have hs : StepRun.Reachable (step [1, 2] (fun _ _ => []) (fun _ => [123, 125]) kp) init s :=
    ⟨[.update [.info ⟨1, ""⟩], .clear, .send], rfl⟩
  exact ⟨hs, rfl, broadcaster_catches_up [1, 2] _ _ _ hs rfl⟩

end Runs

end Coinkit.Network

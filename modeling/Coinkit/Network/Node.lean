import Coinkit.Consensus.Chain
import Coinkit.Currency.TransactionQueue

/-!
# A node

`network/node.go` and `network/history_message.go`. A node is a chain whose
value store is the node's transaction queue. It routes what the server hands
it: transactions and chunks to the queue, info requests to the queue or the
chain, and consensus messages to the chain; when the chain answers a peer that
is behind with an externalize message, the node sends the finalized chunk of
that slot along in a `HistoryMessage`.

`DecodeMessage` produces a pointer to a fresh struct of a registered type,
so the message the node is given is never nil itself, but the pointers
inside it can be: `Message.history` has the transaction message `T` and the
externalize message `E` as options. `Node.Handle` calls itself on both; a nil
`T` reaches `HandleTransactionMessage`, which checks for it, and a nil `E`
reaches `Chain.Handle`, which reads its slot.

The hash and the signature check of the queue are the parameters `sha3` and
`signatureValid`, as in the currency modules.
-/

set_option autoImplicit false

namespace Coinkit.Network

open Coinkit.Consensus Coinkit.Currency

/-- The messages a node is handed, one constructor per registered type. -/
inductive Message
  | nomination (m : NominationMessage)
  | ballot (m : BallotMessage)
  | transaction (m : TransactionMessage)
  | account (m : AccountMessage)
  | info (m : InfoMessage)
  /-- `HistoryMessage`: the slot, and the chunk and externalize message of
  that slot, either of which may be nil. -/
  | history (i : Int) (t : Option TransactionMessage) (e : Option ExternalizeMessage)

/-- A consensus message as a node's message. -/
def Message.ofChain : ChainMessage → Message
  | .info m => .info m
  | .nomination m => .nomination m
  | .ballot m => .ballot m

/-- `Node`. -/
structure Node where
  publicKey : String
  chain : Chain
  queue : TransactionQueue

namespace Node

variable (signatureValid : SignatureCheck) (sha3 : List UInt8 → List UInt8) (fuel : Nat)

/-- The queue as the chain's value store. -/
abbrev ops : ValueStore TransactionQueue := TransactionQueue.ops signatureValid sha3

/-- `NewNode(publicKey, qs)`. -/
def new (publicKey : String) (qs : QuorumSlice) : Except Fault Node := do
  let (chain, queue) ←
    Chain.newEmpty (ops signatureValid sha3) sha3 publicKey qs (newTransactionQueue publicKey)
  pure ⟨publicKey, chain, queue⟩

/-- `Slot()`. -/
def slot (n : Node) : Int := n.chain.slot

/-- The `TransactionMessage` case of `Handle`: when the queue learnt
something, the current block may nominate. -/
def handleTransaction (n : Node) (m : Option TransactionMessage) : Except Fault Node := do
  let (updated, queue) ← n.queue.handleTransactionMessage signatureValid sha3 m
  let n := { n with queue := queue }
  if updated then do
    let (chain, queue) ← n.chain.valueStoreUpdated (ops signatureValid sha3) n.queue
    pure { n with chain := chain, queue := queue }
  else pure n

/-- `handleChainMessage(sender, message)`: the chain's answer, with the
finalized chunk of its slot when it is an externalize message. -/
def handleChainMessage (n : Node) (sender : String) (message : ChainMessage) :
    Except Fault (Option Message × Node) := do
  let (response, chain, queue) ←
    n.chain.handle (ops signatureValid sha3) sha3 fuel sender message n.queue
  let n := { n with chain := chain, queue := queue }
  match response with
  | none => pure (none, n)
  | some e => do
    let t ← n.queue.oldChunkMessage sha3 e.i
    pure (some (.history e.i t (some e)), n)

/-- `Handle(sender, message)`: the answer to send back, if any. -/
def handle (n : Node) (sender : String) (message : Message) : Except Fault (Option Message × Node) :=
  if sender = n.publicKey then pure (none, n)
  else
    match message with
    | .history _ t e => do
      let n ← n.handleTransaction signatureValid sha3 t
      match e with
      -- `Chain.Handle` reads the slot of the nil message
      | none => .error Fault.nilDereference
      | some e => do
        let (_, n) ← n.handleChainMessage signatureValid sha3 fuel sender (.ballot (.externalize e))
        pure (none, n)
    | .account _ => pure (none, n)
    | .info m =>
      if m.account ≠ "" then pure ((n.queue.handleInfoMessage (some m)).map .account, n)
      else if m.i ≠ 0 then do
        let (response, chain, queue) ←
          n.chain.handle (ops signatureValid sha3) sha3 fuel sender (.info m) n.queue
        pure (response.map (fun e => .ballot (.externalize e)), { n with chain := chain, queue := queue })
      else pure (none, n)
    | .transaction m => do
      let n ← n.handleTransaction signatureValid sha3 (some m)
      pure (none, n)
    | .nomination m => n.handleChainMessage signatureValid sha3 fuel sender (.nomination m)
    | .ballot m => n.handleChainMessage signatureValid sha3 fuel sender (.ballot m)

/-- `OutgoingMessages()`: the queue's sharing message, if any, then the
chain's messages. -/
def outgoingMessages (n : Node) : Except Fault (List Message × Node) := do
  let sharing := n.queue.sharingMessage
  let (messages, chain, queue) ← n.chain.outgoingMessages (ops signatureValid sha3) n.queue
  pure ((sharing.map Message.transaction).toList ++ messages.map Message.ofChain,
    { n with chain := chain, queue := queue })

/-! ## What a node starts with, and what one message does to it -/

/-- `NewNode`: slot 1, empty lists, a fresh ballot state and an empty
queue. Nothing is pending, so the new block does not nominate; the only
thing the hash decides is the node's seed priority. -/
theorem new_ok_iff {publicKey : String} {qs : QuorumSlice} {n : Node} :
    Node.new signatureValid sha3 publicKey qs = .ok n ↔
      ∃ priority, seedPriority sha3 "" qs.members publicKey = .ok priority ∧
        n = ⟨publicKey, ⟨⟨1, ⟨[], [], [], ∅, publicKey, qs, 0, priority⟩, BallotState.new publicKey qs,
          none, qs, publicKey⟩, ∅, qs, publicKey⟩, newTransactionQueue publicKey⟩ := by
  have hsuggest := TransactionQueue.suggestValue_of_transactions_nil sha3
    (q := newTransactionQueue publicKey) rfl
  have hlast : (ops signatureValid sha3).last (newTransactionQueue publicKey) = "" := rfl
  unfold Node.new Chain.newEmpty Block.new NominationState.new
  rw [hlast]
  cases hp : seedPriority sha3 "" qs.members publicKey with
  | error e =>
    simp only [Except.error_bind]
    constructor
    · intro h
      cases h
    · rintro ⟨priority, h, -⟩
      cases h
  | ok priority =>
    simp only [Except.ok_bind, Except.pure_eq_ok,
      NominationState.maybeNominateNewValue_of_no_suggestion (ops signatureValid sha3) hsuggest]
    constructor
    · intro h
      cases h
      exact ⟨priority, rfl, rfl⟩
    · rintro ⟨priority', h, rfl⟩
      cases h
      rfl

/-- A peer's nomination message goes to the chain, and when the chain has
no answer the node has none either. -/
theorem handle_nomination_eq {n : Node} {sender : String} {m : NominationMessage} {c : Chain}
    {q : TransactionQueue} (hsender : sender ≠ n.publicKey)
    (hc : n.chain.handle (ops signatureValid sha3) sha3 fuel sender (.nomination m) n.queue =
      .ok (none, c, q)) :
    n.handle signatureValid sha3 fuel sender (.nomination m) = .ok (none, { n with chain := c, queue := q }) := by
  unfold handle handleChainMessage
  rw [if_neg hsender]
  dsimp only
  rw [hc, Except.ok_bind]
  rfl

/-! ## What one message can do to a node

Proofs about a node's run split `Handle` once, with `handle_cases`, and then reason about the
queue's and the chain's own steps. -/

/-- What the transaction case of `Handle` does: the queue takes the message and, when that
changed it, the current block looks at the store again. -/
theorem handleTransaction_cases {n n' : Node} {m : Option TransactionMessage}
    (hn : n.handleTransaction signatureValid sha3 m = .ok n') :
    ∃ updated q₁, n.queue.handleTransactionMessage signatureValid sha3 m = .ok (updated, q₁) ∧
      (n' = { n with queue := q₁ } ∨
        ∃ b q₂, n.chain.current.valueStoreUpdated (ops signatureValid sha3) q₁ = .ok (b, q₂) ∧
          n' = { n with chain := { n.chain with current := b }, queue := q₂ }) := by
  obtain ⟨⟨updated, q₁⟩, hq, hrest⟩ := Except.bind_eq_ok.mp hn
  refine ⟨updated, q₁, hq, ?_⟩
  dsimp only at hrest
  split_ifs at hrest
  · obtain ⟨⟨c, q₂⟩, hc, hrest⟩ := Except.bind_eq_ok.mp hrest
    cases hrest
    obtain ⟨⟨b, q₂'⟩, hb, hc'⟩ := Except.bind_eq_ok.mp hc
    cases hc'
    exact .inr ⟨b, _, hb, rfl⟩
  · cases hrest
    exact .inl rfl

/-- The chain handles a message from the sender on the node's queue, and the node takes the
chain and the queue it returns. -/
def ChainHandled (sender : String) (n n' : Node) : Prop :=
  ∃ message answer c q, n.chain.handle (ops signatureValid sha3) sha3 fuel sender message n.queue =
    .ok (answer, c, q) ∧ n' = { n with chain := c, queue := q }

theorem handleChainMessage_chainHandled {n n' : Node} {sender : String} {message : ChainMessage}
    {answer : Option Message}
    (hn : n.handleChainMessage signatureValid sha3 fuel sender message = .ok (answer, n')) :
    ChainHandled signatureValid sha3 fuel sender n n' := by
  obtain ⟨⟨response, c, q⟩, hc, hrest⟩ := Except.bind_eq_ok.mp hn
  refine ⟨message, response, c, q, hc, ?_⟩
  cases response with
  | none =>
    cases hrest
    rfl
  | some e =>
    -- the history message for a peer behind reads the finalized chunk, and changes nothing
    obtain ⟨t, -, hrest⟩ := Except.bind_eq_ok.mp hrest
    cases hrest
    rfl

/-- What `Handle` does to a node, whatever the sender and the message: nothing (its own message,
an account message, an account query or an info query for slot 0); the transaction case (a
transaction message); the transaction case and then the chain (a history message); or the chain
alone (an info query for a slot, a nomination or a ballot). -/
theorem handle_cases {n n' : Node} {sender : String} {message : Message} {answer : Option Message}
    (hn : n.handle signatureValid sha3 fuel sender message = .ok (answer, n')) :
    n' = n ∨ (∃ m, n.handleTransaction signatureValid sha3 m = .ok n') ∨
      (∃ m n₁, n.handleTransaction signatureValid sha3 m = .ok n₁ ∧
        ChainHandled signatureValid sha3 fuel sender n₁ n') ∨
      ChainHandled signatureValid sha3 fuel sender n n' := by
  unfold Node.handle at hn
  split_ifs at hn
  · cases hn
    exact .inl rfl
  cases message with
  | history i t e =>
    obtain ⟨n₁, hn₁, hrest⟩ := Except.bind_eq_ok.mp hn
    cases e with
    | none => cases hrest
    | some e =>
      obtain ⟨⟨r, n₂⟩, hn₂, hrest⟩ := Except.bind_eq_ok.mp hrest
      cases hrest
      exact .inr (.inr (.inl ⟨t, n₁, hn₁, handleChainMessage_chainHandled signatureValid sha3 fuel hn₂⟩))
  | account m =>
    cases hn
    exact .inl rfl
  | info m =>
    dsimp only at hn
    split_ifs at hn
    · cases hn
      exact .inl rfl
    · obtain ⟨⟨r, c, q⟩, hc, hrest⟩ := Except.bind_eq_ok.mp hn
      cases hrest
      exact .inr (.inr (.inr ⟨.info m, r, c, q, hc, rfl⟩))
    · cases hn
      exact .inl rfl
  | transaction m =>
    obtain ⟨n₁, hn₁, hrest⟩ := Except.bind_eq_ok.mp hn
    cases hrest
    exact .inr (.inl ⟨some m, hn₁⟩)
  | nomination m => exact .inr (.inr (.inr (handleChainMessage_chainHandled signatureValid sha3 fuel hn)))
  | ballot m => exact .inr (.inr (.inr (handleChainMessage_chainHandled signatureValid sha3 fuel hn)))

end Node

end Coinkit.Network

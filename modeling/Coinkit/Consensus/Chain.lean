import Coinkit.Consensus.Block

/-!
# The chain of blocks

`consensus/chain.go`: consensus on one block at a time. The chain works on
its current block and keeps every finished block by slot, to answer info
requests and to catch up peers that are behind.

A message for the current slot goes to the current block. Once that block is
done and the value store can finalize its value, the store finalizes it, the
block goes into the history, and a new block starts on the next slot. A
message for an older slot is answered with that block's externalize message,
unless it is an externalize message itself; a message for a later slot is
dropped.

`Handle` answers at most one message, always an externalize message, so the
model's answer is an `Option ExternalizeMessage`. The history's blocks all
have one: a block only enters the history once it is done.
-/

set_option autoImplicit false

namespace Coinkit.Consensus

/-- `Chain`, without its value store. -/
structure Chain where
  current : Block
  history : AList (fun _ : Int => Block)
  d : QuorumSlice
  publicKey : String

namespace Chain

variable {VS : Type} (ops : ValueStore VS) (sha3 : List UInt8 → List UInt8)

/-- `NewEmptyChain(publicKey, qs, vs)`: working on slot 1. -/
def newEmpty (publicKey : String) (qs : QuorumSlice) (vs : VS) : Except Fault (Chain × VS) := do
  let (current, vs) ← Block.new ops sha3 publicKey qs 1 vs
  pure (⟨current, ∅, qs, publicKey⟩, vs)

/-- `Slot()`. -/
def slot (c : Chain) : Int := c.current.slot

/-- After the current block handled a message: once it is done and its value
can be finalized, finalize it, keep it, and start the next slot. -/
def maybeAdvance (c : Chain) (vs : VS) : Except Fault (Chain × VS) :=
  match c.current.external with
  | some e =>
    if ops.canFinalize e.x vs then do
      let vs ← ops.finalize e.x vs
      let history := c.history.insert c.current.slot c.current
      let (current, vs) ← Block.new ops sha3 c.publicKey c.d (c.current.slot + 1) vs
      pure ({ c with current := current, history := history }, vs)
    else pure (c, vs)
  | none => pure (c, vs)

/-- The answer to a message for an old or a later slot. The log line of a
catch-up reads the old block's externalize message. -/
def catchUp (c : Chain) (slot : Int) (message : ChainMessage) : Except Fault (Option ExternalizeMessage) :=
  match message with
  | .ballot (.externalize _) => pure none
  | _ =>
    match c.history.lookup slot with
    | none => pure none
    | some old =>
      match old.external with
      | some e => pure (some e)
      | none => .error Fault.nilDereference

/-- `Handle(sender, message)`: the answer to send back, if any. -/
def handle (fuel : Nat) (c : Chain) (sender : String) (message : ChainMessage) (vs : VS) :
    Except Fault (Option ExternalizeMessage × Chain × VS) :=
  if sender = c.publicKey then pure (none, c, vs)
  else
    let slot := message.slot
    if slot = 0 then .error (.fatal "slot should not be zero in %s")
    else
      match message with
      | .info _ => pure ((c.history.lookup slot).bind (·.external), c, vs)
      | _ =>
        if slot = c.current.slot then do
          let (current, vs) ← c.current.handle ops fuel sender message vs
          let (c, vs) ← { c with current := current }.maybeAdvance ops sha3 vs
          pure (none, c, vs)
        else do
          let answer ← c.catchUp slot message
          pure (answer, c, vs)

/-- `ValueStoreUpdated()`. -/
def valueStoreUpdated (c : Chain) (vs : VS) : Except Fault (Chain × VS) := do
  let (current, vs) ← c.current.valueStoreUpdated ops vs
  pure ({ c with current := current }, vs)

/-- `OutgoingMessages()`: the current block's, then the previous block's
externalize message. -/
def outgoingMessages (c : Chain) (vs : VS) : Except Fault (List ChainMessage × Chain × VS) := do
  let (answer, current, vs) ← c.current.outgoingMessages ops vs
  let c := { c with current := current }
  match c.history.lookup (c.current.slot - 1) with
  | none => pure (answer, c, vs)
  | some prev => do
    let (more, prev, vs) ← prev.outgoingMessages ops vs
    pure (answer ++ more, { c with history := c.history.insert (c.current.slot - 1) prev }, vs)

/-! ## What one message does to a chain -/

/-- A peer's message for slot 0 stops the program. -/
theorem handle_slot_zero (fuel : Nat) {c : Chain} {sender : String} (hsender : sender ≠ c.publicKey)
    {message : ChainMessage} (hslot : message.slot = 0) (vs : VS) :
    c.handle ops sha3 fuel sender message vs = .error (.fatal "slot should not be zero in %s") := by
  unfold handle
  rw [if_neg hsender]
  dsimp only
  rw [if_pos hslot]

/-- A peer's consensus message for the current slot goes to the current
block; while that block is not done, nothing else happens and there is no
answer. -/
theorem handle_current (fuel : Nat) {c : Chain} {sender : String} {message : ChainMessage}
    {vs vs' : VS} {b : Block} (hsender : sender ≠ c.publicKey) (hinfo : ∀ m, message ≠ .info m)
    (hslot0 : message.slot ≠ 0) (hslot : message.slot = c.current.slot)
    (hb : c.current.handle ops fuel sender message vs = .ok (b, vs')) (hdone : b.external = none) :
    c.handle ops sha3 fuel sender message vs = .ok (none, { c with current := b }, vs') := by
  have hadvance : ({ c with current := b } : Chain).maybeAdvance ops sha3 vs' =
      .ok ({ c with current := b }, vs') := by
    unfold maybeAdvance
    rw [hdone]
    rfl
  unfold handle
  rw [if_neg hsender]
  dsimp only
  rw [if_neg hslot0]
  cases message with
  | info m => exact absurd rfl (hinfo m)
  | nomination m =>
    dsimp only
    rw [if_pos hslot, hb, Except.ok_bind]
    dsimp only
    rw [hadvance, Except.ok_bind]
    rfl
  | ballot m =>
    dsimp only
    rw [if_pos hslot, hb, Except.ok_bind]
    dsimp only
    rw [hadvance, Except.ok_bind]
    rfl

end Chain

end Coinkit.Consensus

import Coinkit.Consensus.BallotState
import Coinkit.Lib.Run

/-!
# One block of the chain

`consensus/block.go`: the consensus on the value of one slot. A block holds a
nomination state and a ballot state, and once the ballot state externalizes,
the externalize message that is all a finished block keeps to catch others
up.

The block's value store is shared with the chain and, in a node, is the
transaction queue; as elsewhere it is an argument `vs` of the calls that
reach it, and its new state is returned. The ballot state's pointer to the
nomination state is the block's own `nState`, passed along.

`Chain.Handle` and `Block.Handle` take any `util.Message`. What reaches them
from a node is an info request, a nomination message or a ballot message:
`ChainMessage`. A block logs and drops an info request, its "unrecognized
message".
-/

set_option autoImplicit false

namespace Coinkit.Consensus

/-- The messages the consensus is handed. -/
inductive ChainMessage
  | info (m : InfoMessage)
  | nomination (m : NominationMessage)
  | ballot (m : BallotMessage)

/-- `Slot()` of the message. -/
def ChainMessage.slot : ChainMessage → Int
  | .info m => m.slot
  | .nomination m => m.i
  | .ballot m => m.slot

/-- `Block`, without its value store. -/
structure Block where
  slot : Int
  nState : NominationState
  bState : BallotState
  external : Option ExternalizeMessage
  d : QuorumSlice
  publicKey : String

namespace Block

variable {VS : Type} (ops : ValueStore VS)

/-- `NewBlock(publicKey, qs, slot, vs)`: a fresh nomination state that
nominates right away if it is its turn, and a fresh ballot state. -/
def new (sha3 : List UInt8 → List UInt8) (publicKey : String) (qs : QuorumSlice) (slot : Int)
    (vs : VS) : Except Fault (Block × VS) := do
  let nState ← NominationState.new ops sha3 publicKey qs vs
  let (_, nState, vs) ← nState.maybeNominateNewValue ops vs
  pure (⟨slot, nState, BallotState.new publicKey qs, none, qs, publicKey⟩, vs)

/-- `AssertValid()`: the checks of both states, and that an externalized
block has its externalize message. `BallotState.AssertValid` also remembers
the ballot. -/
def assertValid (b : Block) : Except Fault Block := do
  b.nState.assertValid
  let bState ← b.bState.assertValid
  if bState.phase = .externalize ∧ b.external = none then
    .error (.fatal "this block has externalized but block.external is not set")
  else pure { b with bState := bState }

def done (b : Block) : Bool := b.external.isSome

/-- `ValueStoreUpdated()`. -/
def valueStoreUpdated (b : Block) (vs : VS) : Except Fault (Block × VS) := do
  let (_, nState, vs) ← b.nState.maybeNominateNewValue ops vs
  pure ({ b with nState := nState }, vs)

/-- `OutgoingMessages()`: the externalize message once there is one;
before, the nomination message, blank or not, and the ballot message once
there is a ballot, starting one when there is none. -/
def outgoingMessages (b : Block) (vs : VS) : Except Fault (List ChainMessage × Block × VS) :=
  match b.external with
  | some e => pure ([.ballot (.externalize e)], b, vs)
  | none => do
    let answer := [ChainMessage.nomination (b.nState.message b.slot b.d)]
    let (bState, vs) ← if b.bState.b = none then do
        let (_, bState, vs) ← b.bState.goToNextBallot ops b.nState vs
        pure (bState, vs)
      else pure (b.bState, vs)
    let b := { b with bState := bState }
    if b.bState.hasMessage then do
      let m ← b.bState.message b.slot b.d
      pure (answer ++ [.ballot m], b, vs)
    else pure (answer, b, vs)

/-- The type switch of `Handle`: a nomination message goes to the nomination
state, which may then nominate; a ballot message to the ballot state. -/
def dispatch (fuel : Nat) (b : Block) (sender : String) (message : ChainMessage) (vs : VS) :
    Except Fault (Block × VS) :=
  match message with
  | .nomination m => do
    let nState ← b.nState.handle ops sender m vs
    let (_, nState, vs) ← nState.maybeNominateNewValue ops vs
    pure ({ b with nState := nState }, vs)
  | .ballot m => do
    let (bState, vs) ← b.bState.handle ops b.nState fuel sender m vs
    pure ({ b with bState := bState }, vs)
  -- `log.Printf("unrecognized message: %v", m)`
  | .info _ => pure (b, vs)

/-- Once the ballot state externalizes, keep its message. `Message` in the
externalize phase is an externalize message, so the type assertion
`.(*ExternalizeMessage)` holds; the model still says what it would do. -/
def keepExternal (b : Block) : Except Fault Block :=
  if b.bState.phase = .externalize ∧ b.external = none then do
    let m ← b.bState.message b.slot b.d
    match m with
    | .externalize e => pure { b with external := some e }
    | _ => .error (.panic "interface conversion: util.Message is not *consensus.ExternalizeMessage")
  else pure b

/-- `Handle(sender, message)`: our own messages coming back are ignored. -/
def handle (fuel : Nat) (b : Block) (sender : String) (message : ChainMessage) (vs : VS) :
    Except Fault (Block × VS) :=
  if sender = b.publicKey then pure (b, vs)
  else do
    let (b, vs) ← b.dispatch ops fuel sender message vs
    let b ← b.keepExternal
    let b ← b.assertValid
    pure (b, vs)

/-! ## What one message does to a block -/

theorem keepExternal_of_phase {b : Block} (h : b.bState.phase ≠ .externalize) :
    b.keepExternal = .ok b := by
  unfold keepExternal
  rw [if_neg fun h' => h h'.1]
  rfl

theorem assertValid_eq {b : Block} {bState : BallotState} (hn : b.nState.assertValid = .ok ())
    (hb : b.bState.assertValid = .ok bState) (hphase : bState.phase ≠ .externalize) :
    b.assertValid = .ok { b with bState := bState } := by
  unfold assertValid
  rw [hn, Except.ok_bind, hb, Except.ok_bind, if_neg fun h => hphase h.1]
  rfl

/-- A peer's nomination message moves the nomination state, which may then
nominate. While the ballot state has not externalized, the only other change
is `AssertValid`'s, which remembers the ballot. -/
theorem handle_nomination_eq (fuel : Nat) {b : Block} {sender : String} {m : NominationMessage}
    {vs vs' : VS} {nState nState' : NominationState} {nominated : Bool} {bState : BallotState}
    (hsender : sender ≠ b.publicKey) (hphase : b.bState.phase ≠ .externalize)
    (hn : b.nState.handle ops sender m vs = .ok nState)
    (hnominate : nState.maybeNominateNewValue ops vs = .ok (nominated, nState', vs'))
    (hvalid : nState'.assertValid = .ok ()) (hb : b.bState.assertValid = .ok bState)
    (hphase' : bState.phase ≠ .externalize) :
    b.handle ops fuel sender (.nomination m) vs =
      .ok ({ b with nState := nState', bState := bState }, vs') := by
  have hdispatch : b.dispatch ops fuel sender (.nomination m) vs = .ok ({ b with nState := nState' }, vs') := by
    simp only [dispatch, hn, hnominate, Except.ok_bind]
    rfl
  have hkeep : ({ b with nState := nState' } : Block).keepExternal = .ok { b with nState := nState' } :=
    keepExternal_of_phase hphase
  have hassert := assertValid_eq (b := { b with nState := nState' }) hvalid hb hphase'
  unfold handle
  rw [if_neg hsender, hdispatch, Except.ok_bind]
  dsimp only
  rw [hkeep, Except.ok_bind, hassert, Except.ok_bind]
  rfl

end Block

end Coinkit.Consensus

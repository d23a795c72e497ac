import Coinkit.Consensus.Chain

/-!
# What the consensus does to its value store

The consensus reaches its value store through six calls. Four of them only read it
(`CanFinalize`, `Last`, `ValidateValue`) or are made once a block is done (`Finalize`). The
other two, `Combine` and `SuggestValue`, are called from deep inside the nomination and ballot
code, any number of times.

`ValueStore.Frame ops R` says that a preorder `R` on the store's states holds from before to
after every `Combine` and every `SuggestValue`. Then `R` holds from before to after every
function of the consensus that threads the store and does not finalize: predicting a value,
nominating, the ballot state's `Handle` with its loop, and a block's `NewBlock`, `Handle`,
`ValueStoreUpdated` and `OutgoingMessages` (`Block.handle_frame`, `Block.outgoingMessages_frame`).
Which relation is of interest is the store's business; the transaction queue's is that only its
chunks change, each cached under its hash.

The same lemmas say that a block keeps its slot, and that the externalize message it keeps is for
its slot (`Block.ExternalAtSlot`). A chain's `Handle` either leaves chain and store as they were
and answers from its history, or hands the message to the current block, and then maybe
finalizes the block's value, files the block by its slot and starts the next slot
(`Chain.handle_cases`, `Chain.maybeAdvance_cases`); its `OutgoingMessages` files the previous
block again (`Chain.outgoingMessages_cases`).
-/

set_option autoImplicit false

namespace Coinkit.Consensus

open Except

/-- A preorder on the store's states that `Combine` and `SuggestValue` establish. -/
structure ValueStore.Frame {VS : Type} (ops : ValueStore VS) (R : VS → VS → Prop) : Prop where
  refl : ∀ vs, R vs vs
  trans : ∀ {vs₁ vs₂ vs₃}, R vs₁ vs₂ → R vs₂ vs₃ → R vs₁ vs₃
  combine : ∀ {l vs x vs'}, ops.combine l vs = .ok (x, vs') → R vs vs'
  suggestValue : ∀ {vs r vs'}, ops.suggestValue vs = .ok (r, vs') → R vs vs'

/-! ## The externalize message a block keeps -/

/-- The externalize message a block keeps, if any, is for the block's own slot. -/
def Block.ExternalAtSlot (b : Block) : Prop := ∀ e, b.external = some e → e.i = b.slot

/-- A block with the slot and the externalize message of another keeps its invariant. -/
theorem Block.ExternalAtSlot.of_eq {b b' : Block} (h : b.ExternalAtSlot) (hslot : b'.slot = b.slot)
    (hext : b'.external = b.external) : b'.ExternalAtSlot := fun e he => by
  rw [hslot]
  exact h e (hext ▸ he)

/-- A ballot state's externalize message carries the slot it is asked for. -/
theorem BallotState.message_meets (s : BallotState) (slot : Int) (qs : QuorumSlice) :
    (s.message slot qs).Meets (fun _ => True) (fun m => ∀ e, m = .externalize e → e.i = slot) := by
  unfold BallotState.message
  cases s.b with
  | none => trivial
  | some b =>
    dsimp only
    cases s.phase with
    | prepare => exact meets_pure fun _ h => nomatch h
    | confirm => exact meets_pure fun _ h => nomatch h
    | externalize =>
      refine meets_pure fun e h => ?_
      cases h
      rfl
    | invalid => trivial

namespace Block

/-- `keepExternal` keeps the slot, and the message it keeps is the ballot state's for that slot. -/
theorem keepExternal_meets (b : Block) :
    b.keepExternal.Meets (fun _ => True)
      (fun b' => b'.slot = b.slot ∧ (b.ExternalAtSlot → b'.ExternalAtSlot)) := by
  unfold keepExternal
  split_ifs
  · refine (b.bState.message_meets b.slot b.d).bind fun m hm => ?_
    cases m with
    | externalize e =>
      refine meets_pure ⟨rfl, fun _ e' he' => ?_⟩
      cases he'
      exact hm e rfl
    | prepare _ => trivial
    | confirm _ => trivial
  · exact meets_pure ⟨rfl, id⟩

theorem assertValid_meets (b : Block) :
    b.assertValid.Meets (fun _ => True) (fun b' => b'.slot = b.slot ∧ b'.external = b.external) := by
  unfold assertValid
  refine (meets_trivial _).bind fun _ _ => ?_
  refine (meets_trivial _).bind fun bState _ => ?_
  split_ifs
  · trivial
  · exact meets_pure ⟨rfl, rfl⟩

end Block

section Frame

variable {VS : Type} {ops : ValueStore VS} {R : VS → VS → Prop} (hF : ops.Frame R)
include hF

/-! ## The nomination state -/

namespace NominationState

theorem predictValue_frame (ns : NominationState) (vs : VS) :
    (ns.predictValue ops vs).Meets (fun _ => True) (fun r => R vs r.2) := by
  have hcomb : ∀ l, (ops.combine l vs).Meets (fun _ => True) (fun r => R vs r.2) := by
    intro l
    cases h : ops.combine l vs with
    | error f => trivial
    | ok r => exact hF.combine h
  unfold predictValue
  split_ifs
  · exact hcomb _
  · exact hcomb _
  · exact hcomb _
  · exact meets_error trivial

theorem maybeNominateNewValue_frame (ns : NominationState) (vs : VS) :
    (ns.maybeNominateNewValue ops vs).Meets (fun _ => True) (fun r => R vs r.2.2) := by
  unfold maybeNominateNewValue
  split_ifs
  · exact meets_pure (hF.refl vs)
  · exact meets_pure (hF.refl vs)
  · have hsuggest : (ops.suggestValue vs).Meets (fun _ => True) (fun r => R vs r.2) := by
      cases h : ops.suggestValue vs with
      | error f => trivial
      | ok r => exact hF.suggestValue h
    refine hsuggest.bind fun r hr => ?_
    obtain ⟨⟨v, ok⟩, vs'⟩ := r
    dsimp only
    split_ifs
    · exact meets_pure hr
    · exact meets_pure hr

end NominationState

/-! ## The ballot state -/

namespace BallotState

variable (ns : NominationState)

theorem goToNextBallot_frame (s : BallotState) (vs : VS) :
    (s.goToNextBallot ops ns vs).Meets (fun _ => True) (fun r => R vs r.2.2) := by
  unfold goToNextBallot
  cases s.z with
  | some z => exact (meets_trivial _).bind fun _ _ => meets_pure (hF.refl vs)
  | none =>
    dsimp only
    split_ifs
    · exact meets_pure (hF.refl vs)
    · refine (ns.predictValue_frame hF vs).bind fun r hr => ?_
      exact (meets_trivial _).bind fun _ _ => meets_pure hr

theorem checkForBlockedBallot_frame (s : BallotState) (vs : VS) :
    (s.checkForBlockedBallot ops ns vs).Meets (fun _ => True) (fun r => R vs r.2.2) := by
  unfold checkForBlockedBallot
  cases s.b with
  | none => exact meets_pure (hF.refl vs)
  | some b =>
    dsimp only
    split_ifs
    · exact meets_pure (hF.refl vs)
    · exact goToNextBallot_frame hF ns s vs

theorem checkIfStale_frame (s : BallotState) (vs : VS) :
    (s.checkIfStale ops ns vs).Meets (fun _ => True) (fun r => R vs r.2) := by
  unfold checkIfStale handleStaleQuorum
  dsimp only
  split_ifs
  · cases s.b with
    | none => exact meets_pure (hF.refl vs)
    | some b =>
      dsimp only
      split_ifs
      · exact meets_pure (hF.refl vs)
      · exact (goToNextBallot_frame hF ns _ vs).bind fun r hr => meets_pure hr
  · exact meets_pure (hF.refl vs)

/-- The loop of `Handle`, round by round. -/
theorem handleLoop_frame (message : BallotMessage) :
    ∀ (fuel : Nat) (s : BallotState) (vs : VS),
      (handleLoop ops ns message fuel s vs).Meets (fun _ => True) (fun r => R vs r.2)
  | 0, _, _ => meets_error trivial
  | fuel + 1, s, vs => by
    unfold handleLoop
    refine (meets_trivial _).bind fun s₁ _ => ?_
    refine (checkForBlockedBallot_frame hF ns s₁ vs).bind fun r hr => ?_
    split_ifs
    · exact (handleLoop_frame message fuel r.2.1 r.2.2).mono fun _ h => hF.trans hr h
    · exact meets_pure hr

theorem handle_frame (fuel : Nat) (s : BallotState) (node : String) (message : BallotMessage)
    (vs : VS) : (s.handle ops ns fuel node message vs).Meets (fun _ => True) (fun r => R vs r.2) := by
  unfold handle
  split_ifs
  · exact checkIfStale_frame hF ns _ vs
  · exact handleLoop_frame hF ns message fuel _ vs

end BallotState

/-! ## Blocks -/

namespace Block

theorem new_frame (sha3 : List UInt8 → List UInt8) (publicKey : String) (qs : QuorumSlice)
    (slot : Int) (vs : VS) :
    (Block.new ops sha3 publicKey qs slot vs).Meets (fun _ => True)
      (fun r => R vs r.2 ∧ r.1.slot = slot ∧ r.1.external = none) := by
  unfold Block.new
  refine (meets_trivial _).bind fun nState _ => ?_
  exact (nState.maybeNominateNewValue_frame hF vs).bind fun r hr => meets_pure ⟨hr, rfl, rfl⟩

theorem valueStoreUpdated_frame (b : Block) (vs : VS) :
    (b.valueStoreUpdated ops vs).Meets (fun _ => True)
      (fun r => R vs r.2 ∧ r.1.slot = b.slot ∧ r.1.external = b.external) := by
  unfold valueStoreUpdated
  exact (b.nState.maybeNominateNewValue_frame hF vs).bind fun r hr => meets_pure ⟨hr, rfl, rfl⟩

theorem dispatch_frame (fuel : Nat) (b : Block) (sender : String) (message : ChainMessage) (vs : VS) :
    (b.dispatch ops fuel sender message vs).Meets (fun _ => True)
      (fun r => R vs r.2 ∧ r.1.slot = b.slot ∧ r.1.external = b.external) := by
  cases message with
  | nomination m =>
    refine (meets_trivial _).bind fun nState _ => ?_
    exact (nState.maybeNominateNewValue_frame hF vs).bind fun r hr => meets_pure ⟨hr, rfl, rfl⟩
  | ballot m =>
    exact (b.bState.handle_frame hF b.nState fuel sender m vs).bind fun r hr =>
      meets_pure ⟨hr, rfl, rfl⟩
  | info m => exact meets_pure ⟨hF.refl vs, rfl, rfl⟩

/-- `Handle` of a block: the store as `Combine` and `SuggestValue` leave it, the slot kept, and an
externalize message, once kept, for that slot. -/
theorem handle_frame (fuel : Nat) (b : Block) (sender : String) (message : ChainMessage) (vs : VS) :
    (b.handle ops fuel sender message vs).Meets (fun _ => True)
      (fun r => R vs r.2 ∧ r.1.slot = b.slot ∧ (b.ExternalAtSlot → r.1.ExternalAtSlot)) := by
  unfold handle
  split_ifs
  · exact meets_pure ⟨hF.refl vs, rfl, id⟩
  · refine (b.dispatch_frame hF fuel sender message vs).bind fun r hr => ?_
    obtain ⟨b₁, vs₁⟩ := r
    obtain ⟨hvs, hslot₁, hext₁⟩ := hr
    refine (b₁.keepExternal_meets).bind fun b₂ h₂ => ?_
    refine (b₂.assertValid_meets).bind fun b₃ h₃ => meets_pure ⟨hvs, ?_, fun hb => ?_⟩
    · rw [h₃.1, h₂.1, hslot₁]
    · -- `dispatch` leaves the block's slot and external as they were
      exact (h₂.2 (hb.of_eq hslot₁ hext₁)).of_eq h₃.1 h₃.2

/-- `OutgoingMessages` of a block: the store as `Combine` and `SuggestValue` leave it when a first
ballot is started, the slot and the externalize message kept. -/
theorem outgoingMessages_frame (b : Block) (vs : VS) :
    (b.outgoingMessages ops vs).Meets (fun _ => True)
      (fun r => R vs r.2.2 ∧ r.2.1.slot = b.slot ∧ r.2.1.external = b.external) := by
  unfold outgoingMessages
  split
  · exact meets_pure ⟨hF.refl vs, rfl, rfl⟩
  · -- the `do` block carries its rest into both branches of the first-ballot test
    dsimp only
    split
    · refine (b.bState.goToNextBallot_frame hF b.nState vs).bind fun r hr => ?_
      rw [pure_bind]
      split
      · exact (meets_trivial _).bind fun _ _ => meets_pure ⟨hr, rfl, rfl⟩
      · exact meets_pure ⟨hr, rfl, rfl⟩
    · rw [pure_bind]
      split
      · exact (meets_trivial _).bind fun _ _ => meets_pure ⟨hF.refl vs, rfl, rfl⟩
      · exact meets_pure ⟨hF.refl vs, rfl, rfl⟩

end Block

end Frame

/-- A done block sends its externalize message and changes nothing. -/
theorem Block.outgoingMessages_of_external {VS : Type} (ops : ValueStore VS) {b : Block}
    {e : ExternalizeMessage} (he : b.external = some e) (vs : VS) :
    b.outgoingMessages ops vs = .ok ([.ballot (.externalize e)], b, vs) := by
  unfold Block.outgoingMessages
  rw [he]
  rfl

/-! ## The chain -/

namespace Chain

variable {VS : Type} {ops : ValueStore VS} {sha3 : List UInt8 → List UInt8}

/-- Everything `maybeAdvance` can do: nothing, or finalize the current block's value, file the
block under its slot and start a block on the next slot. -/
theorem maybeAdvance_cases {c c' : Chain} {vs vs' : VS} (h : c.maybeAdvance ops sha3 vs = .ok (c', vs')) :
    (c' = c ∧ vs' = vs) ∨
      ∃ e vs₁ b, c.current.external = some e ∧ ops.canFinalize e.x vs = true ∧
        ops.finalize e.x vs = .ok vs₁ ∧
        Block.new ops sha3 c.publicKey c.d (c.current.slot + 1) vs₁ = .ok (b, vs') ∧
        c' = { c with current := b, history := c.history.insert c.current.slot c.current } := by
  unfold maybeAdvance at h
  cases he : c.current.external with
  | none =>
    rw [he] at h
    cases h
    exact .inl ⟨rfl, rfl⟩
  | some e =>
    rw [he] at h
    dsimp only at h
    by_cases hfin : ops.canFinalize e.x vs = true
    · rw [if_pos hfin] at h
      obtain ⟨vs₁, h₁, h₂⟩ := Except.bind_eq_ok.mp h
      obtain ⟨⟨b, vs₂⟩, h₃, h₄⟩ := Except.bind_eq_ok.mp h₂
      cases h₄
      exact .inr ⟨e, vs₁, b, rfl, hfin, h₁, h₃, rfl⟩
    · rw [if_neg hfin] at h
      cases h
      exact .inl ⟨rfl, rfl⟩

/-- A catch-up answer is the externalize message of the block the history has for the slot. -/
theorem catchUp_answer {c : Chain} {slot : Int} {message : ChainMessage}
    {answer : Option ExternalizeMessage} (h : c.catchUp slot message = .ok answer) :
    ∀ e, answer = some e → ∃ old, c.history.lookup slot = some old ∧ old.external = some e := by
  unfold catchUp at h
  split at h
  · cases h
    exact fun _ he => nomatch he
  · split at h
    · cases h
      exact fun _ he => nomatch he
    · rename_i old hold
      split at h
      · rename_i e' he'
        cases h
        rintro e ⟨⟩
        exact ⟨old, hold, he'⟩
      · cases h

/-- Everything `Handle` of a chain can do: leave chain and store as they were, answering with the
externalize message the history has for the message's slot, if any; or, with no answer, hand the
message to the current block and then maybe advance. -/
theorem handle_cases {fuel : Nat} {c c' : Chain} {sender : String} {message : ChainMessage}
    {vs vs' : VS} {answer : Option ExternalizeMessage}
    (h : c.handle ops sha3 fuel sender message vs = .ok (answer, c', vs')) :
    (c' = c ∧ vs' = vs ∧
      ∀ e, answer = some e → ∃ old, c.history.lookup message.slot = some old ∧ old.external = some e) ∨
    (answer = none ∧ ∃ b vs₁, c.current.handle ops fuel sender message vs = .ok (b, vs₁) ∧
      ({ c with current := b } : Chain).maybeAdvance ops sha3 vs₁ = .ok (c', vs')) := by
  unfold handle at h
  by_cases hsender : sender = c.publicKey
  · rw [if_pos hsender] at h
    cases h
    exact .inl ⟨rfl, rfl, fun _ he => nomatch he⟩
  rw [if_neg hsender] at h
  dsimp only at h
  by_cases h0 : message.slot = 0
  · rw [if_pos h0] at h
    cases h
  rw [if_neg h0] at h
  cases message with
  | info m =>
    cases h
    refine .inl ⟨rfl, rfl, fun e he => ?_⟩
    obtain ⟨old, hold, hext⟩ := Option.bind_eq_some_iff.mp he
    exact ⟨old, hold, hext⟩
  | nomination m | ballot m =>
    dsimp only at h
    split at h
    · obtain ⟨⟨b, vs₁⟩, h₁, h₂⟩ := Except.bind_eq_ok.mp h
      obtain ⟨⟨c₁, vs₂⟩, h₃, h₄⟩ := Except.bind_eq_ok.mp h₂
      cases h₄
      exact .inr ⟨rfl, b, vs₁, h₁, h₃⟩
    · obtain ⟨a, h₁, h₂⟩ := Except.bind_eq_ok.mp h
      cases h₂
      exact .inl ⟨rfl, rfl, catchUp_answer h₁⟩

/-- Everything `OutgoingMessages` of a chain can do: the current block's, and then the previous
block's, filed again under its slot. -/
theorem outgoingMessages_cases {c c' : Chain} {vs vs' : VS} {messages : List ChainMessage}
    (h : c.outgoingMessages ops vs = .ok (messages, c', vs')) :
    ∃ answer b vs₁, c.current.outgoingMessages ops vs = .ok (answer, b, vs₁) ∧
      ((c' = { c with current := b } ∧ vs' = vs₁) ∨
        ∃ prev more prev', c.history.lookup (b.slot - 1) = some prev ∧
          prev.outgoingMessages ops vs₁ = .ok (more, prev', vs') ∧
          c' = { c with current := b, history := c.history.insert (b.slot - 1) prev' }) := by
  obtain ⟨⟨answer, b, vs₁⟩, h₁, h₂⟩ := Except.bind_eq_ok.mp h
  refine ⟨answer, b, vs₁, h₁, ?_⟩
  dsimp only at h₂
  split at h₂
  · cases h₂
    exact .inl ⟨rfl, rfl⟩
  · rename_i prev hprev
    obtain ⟨⟨more, prev', vs₂⟩, h₃, h₄⟩ := Except.bind_eq_ok.mp h₂
    cases h₄
    exact .inr ⟨prev, more, prev', hprev, h₃, rfl⟩

end Chain

end Coinkit.Consensus

import Coinkit.Consensus.Cluster

/-!
# The value store with a log of its predictions

Validity speaks of "some earlier `PredictValue` call", a fact about the
history of a run that no state of the Go program records. The model adds it
as a ghost: `ValueStore.logged ops` is the store `ops` together with the list
of every value its `Combine` returned. In the consensus code `Combine` has
one caller, `PredictValue`, so the list holds the values predicted so far,
in order.

The log is written and never read. The `_logged` lemmas show it, function by
function up to the runs of a cluster: forgetting the log of a run with the
logged store gives the run with `ops`.
-/

set_option autoImplicit false

namespace Coinkit.Consensus

open Except

variable {VS : Type}

/-- `ops` with a log of every value `Combine` answered. -/
def ValueStore.logged (ops : ValueStore VS) : ValueStore (VS × List SlotValue) where
  combine list s := do
    let (x, vs) ← ops.combine list s.1
    pure (x, vs, s.2 ++ [x])
  canFinalize v s := ops.canFinalize v s.1
  finalize v s := do
    let vs ← ops.finalize v s.1
    pure (vs, s.2)
  last s := ops.last s.1
  suggestValue s := do
    let (r, vs) ← ops.suggestValue s.1
    pure (r, vs, s.2)
  validateValue v s := ops.validateValue v s.1

/-- A result whose last part is the logged store's state, without the log. -/
def forget {α : Type} (r : α × (VS × List SlotValue)) : α × VS := (r.1, r.2.1)

namespace ValueStore

variable (ops : ValueStore VS)

theorem logged_combine_eq (l : List SlotValue) (vs : VS) (log : List SlotValue) :
    ops.logged.combine l (vs, log) = (fun r => (r.1, r.2, log ++ [r.1])) <$> ops.combine l vs := by
  show (ops.combine l vs >>= fun r => pure (r.1, r.2, log ++ [r.1])) = _
  cases ops.combine l vs <;> rfl

theorem logged_suggestValue_eq (vs : VS) (log : List SlotValue) :
    ops.logged.suggestValue (vs, log) = (fun r => (r.1, r.2, log)) <$> ops.suggestValue vs := by
  show (ops.suggestValue vs >>= fun r => pure (r.1, r.2, log)) = _
  cases ops.suggestValue vs <;> rfl

/-- The log is a record: `Combine` appends its answer, and nothing takes an
entry off. -/
theorem logged_records : ops.logged.Records (fun s x => x ∈ s.2) where
  combine_known {l s x s'} h := by
    obtain ⟨vs, log⟩ := s
    rw [logged_combine_eq] at h
    obtain ⟨r, -, hr⟩ := exists_of_map_eq_ok h
    cases hr
    exact List.mem_append_right _ (List.mem_singleton_self _)
  combine_remembers {l s x s'} h y hy := by
    obtain ⟨vs, log⟩ := s
    rw [logged_combine_eq] at h
    obtain ⟨r, -, hr⟩ := exists_of_map_eq_ok h
    cases hr
    exact List.mem_append_left _ hy
  suggestValue_remembers {s r s'} h y hy := by
    obtain ⟨vs, log⟩ := s
    rw [logged_suggestValue_eq] at h
    obtain ⟨r, -, hr⟩ := exists_of_map_eq_ok h
    cases hr
    exact hy

theorem combine_logged (l : List SlotValue) (vs : VS) (log : List SlotValue) :
    forget <$> ops.logged.combine l (vs, log) = ops.combine l vs := by
  rw [logged_combine_eq]
  cases ops.combine l vs <;> rfl

end ValueStore

/-! ## The log is a ghost -/

namespace NominationState

variable (ops : ValueStore VS) (ns : NominationState) (vs : VS) (log : List SlotValue)

theorem predictValue_logged :
    forget <$> ns.predictValue ops.logged (vs, log) = ns.predictValue ops vs := by
  unfold predictValue
  split_ifs
  · exact ops.combine_logged _ vs log
  · exact ops.combine_logged _ vs log
  · exact ops.combine_logged _ vs log
  · rfl

theorem maybeNominateNewValue_logged :
    Prod.map id forget <$> ns.maybeNominateNewValue ops.logged (vs, log) =
      ns.maybeNominateNewValue ops vs := by
  unfold maybeNominateNewValue
  split_ifs
  · rfl
  · rfl
  · rw [ops.logged_suggestValue_eq]
    cases ops.suggestValue vs with
    | error e => rfl
    | ok r =>
      obtain ⟨⟨v, ok⟩, vs'⟩ := r
      show Prod.map id forget <$> (if !ok then _ else _) = if !ok then _ else _
      split_ifs <;> rfl

/-- `MaybeNominateNewValue` never combines, so the log stays as it was. -/
theorem maybeNominateNewValue_logged_eq :
    ns.maybeNominateNewValue ops.logged (vs, log) =
      (fun r => (r.1, r.2.1, r.2.2, log)) <$> ns.maybeNominateNewValue ops vs := by
  unfold maybeNominateNewValue
  split_ifs
  · rfl
  · rfl
  · rw [ops.logged_suggestValue_eq]
    cases ops.suggestValue vs with
    | error e => rfl
    | ok r =>
      obtain ⟨⟨v, ok⟩, vs'⟩ := r
      cases ok <;> rfl

end NominationState

namespace BallotState

variable (ops : ValueStore VS) (ns : NominationState)

theorem goToNextBallot_logged (s : BallotState) (vs : VS) (log : List SlotValue) :
    Prod.map id forget <$> s.goToNextBallot ops.logged ns (vs, log) =
      s.goToNextBallot ops ns vs := by
  unfold goToNextBallot
  cases s.z with
  | some z =>
    dsimp only
    cases s.moveToBallot z <;> rfl
  | none =>
    dsimp only
    split_ifs
    · rfl
    · refine map_bind_of (ns.predictValue_logged ops vs log) fun r => ?_
      obtain ⟨x, vs', log'⟩ := r
      show Prod.map id forget <$> (s.moveToBallot x >>= fun s => pure (true, s, vs', log')) =
        s.moveToBallot x >>= fun s => pure (true, s, vs')
      cases s.moveToBallot x <;> rfl

theorem checkForBlockedBallot_logged (s : BallotState) (vs : VS) (log : List SlotValue) :
    Prod.map id forget <$> s.checkForBlockedBallot ops.logged ns (vs, log) =
      s.checkForBlockedBallot ops ns vs := by
  unfold checkForBlockedBallot
  cases s.b with
  | none => rfl
  | some b =>
    dsimp only
    split_ifs
    · rfl
    · exact goToNextBallot_logged ops ns s vs log

theorem checkIfStale_logged (s : BallotState) (vs : VS) (log : List SlotValue) :
    forget <$> s.checkIfStale ops.logged ns (vs, log) = s.checkIfStale ops ns vs := by
  unfold checkIfStale handleStaleQuorum
  dsimp only
  split_ifs
  · cases s.b with
    | none => rfl
    | some b =>
      dsimp only
      split_ifs
      · rfl
      · refine map_bind_of (goToNextBallot_logged ops ns _ vs log) fun r => ?_
        rfl
  · rfl

theorem handleLoop_logged (message : BallotMessage) :
    ∀ (fuel : Nat) (s : BallotState) (vs : VS) (log : List SlotValue),
      forget <$> handleLoop ops.logged ns message fuel s (vs, log) =
        handleLoop ops ns message fuel s vs
  | 0, _, _, _ => rfl
  | fuel + 1, s, vs, log => by
    unfold handleLoop
    cases s.investigateMessage message with
    | error e => rfl
    | ok s₁ =>
      simp only [Except.ok_bind]
      refine map_bind_of (checkForBlockedBallot_logged ops ns s₁ vs log) fun r => ?_
      obtain ⟨more, s₂, vs', log'⟩ := r
      cases more
      · rfl
      · exact handleLoop_logged message fuel s₂ vs' log'

theorem handle_logged (fuel : Nat) (s : BallotState) (node : String) (message : BallotMessage)
    (vs : VS) (log : List SlotValue) :
    forget <$> s.handle ops.logged ns fuel node message (vs, log) = s.handle ops ns fuel node message vs := by
  unfold handle
  split_ifs
  · exact checkIfStale_logged ops ns _ vs log
  · exact handleLoop_logged ops ns message fuel _ vs log

end BallotState

namespace Block

variable (ops : ValueStore VS)

/-- `NewBlock` never combines, so the log stays as it was. -/
theorem new_logged (sha3 : List UInt8 → List UInt8) (publicKey : String) (qs : QuorumSlice)
    (slot : Int) (vs : VS) (log : List SlotValue) :
    Block.new ops.logged sha3 publicKey qs slot (vs, log) =
      (fun r => (r.1, r.2, log)) <$> Block.new ops sha3 publicKey qs slot vs := by
  unfold Block.new
  show (NominationState.new ops sha3 publicKey qs vs >>= _) = _
  cases NominationState.new ops sha3 publicKey qs vs with
  | error e => rfl
  | ok nState =>
    simp only [Except.ok_bind]
    rw [nState.maybeNominateNewValue_logged_eq ops vs log]
    cases nState.maybeNominateNewValue ops vs <;> rfl

theorem handle_logged (fuel : Nat) (b : Block) (sender : String) (message : ChainMessage) (vs : VS)
    (log : List SlotValue) :
    forget <$> b.handle ops.logged fuel sender message (vs, log) = b.handle ops fuel sender message vs := by
  unfold handle
  split_ifs
  · rfl
  have hdispatch : forget <$> b.dispatch ops.logged fuel sender message (vs, log) =
      b.dispatch ops fuel sender message vs := by
    cases message with
    | nomination m =>
      show forget <$> (b.nState.handle ops sender m vs >>= _) = b.nState.handle ops sender m vs >>= _
      cases b.nState.handle ops sender m vs with
      | error e => rfl
      | ok nState =>
        simp only [Except.ok_bind]
        refine map_bind_of (nState.maybeNominateNewValue_logged ops vs log) fun r => ?_
        rfl
    | ballot m =>
      refine map_bind_of (b.bState.handle_logged ops b.nState fuel sender m vs log) fun r => ?_
      rfl
    | info m => rfl
  refine map_bind_of hdispatch fun r => ?_
  obtain ⟨b₁, vs', log'⟩ := r
  show forget <$> (b₁.keepExternal >>= _) = b₁.keepExternal >>= _
  cases b₁.keepExternal with
  | error e => rfl
  | ok b₂ =>
    show forget <$> (b₂.assertValid >>= _) = b₂.assertValid >>= _
    cases b₂.assertValid <;> rfl

theorem outgoingMessages_logged (b : Block) (vs : VS) (log : List SlotValue) :
    Prod.map id forget <$> b.outgoingMessages ops.logged (vs, log) = b.outgoingMessages ops vs := by
  unfold outgoingMessages
  cases b.external with
  | some e => rfl
  | none =>
    dsimp only
    split_ifs
    · refine map_bind_of (b.bState.goToNextBallot_logged ops b.nState vs log) fun r => ?_
      obtain ⟨more, bState, vs', log'⟩ := r
      show Prod.map id forget <$> (if bState.hasMessage = true then _ else _) =
        if bState.hasMessage = true then _ else _
      split_ifs
      · show Prod.map id forget <$> (bState.message b.slot b.d >>= _) = bState.message b.slot b.d >>= _
        cases bState.message b.slot b.d <;> rfl
      · rfl
    · show Prod.map id forget <$> (if b.bState.hasMessage = true then _ else _) =
        if b.bState.hasMessage = true then _ else _
      split_ifs
      · show Prod.map id forget <$> (b.bState.message b.slot b.d >>= _) =
          b.bState.message b.slot b.d >>= _
        cases b.bState.message b.slot b.d <;> rfl
      · rfl

end Block


namespace Cluster

variable (ops : ValueStore VS) (fuel : Nat)

/-- The cluster without the logs. -/
def erase (c : Cluster (VS × List SlotValue)) : Cluster VS := forget ∘ c

/-- The cluster with every store's log empty. -/
def withLog (c : Cluster VS) : Cluster (VS × List SlotValue) := fun k => ((c k).1, (c k).2, [])

theorem erase_withLog (c : Cluster VS) : erase (withLog c) = c := rfl

theorem blockSend_logged (c : Cluster (VS × List SlotValue)) (source target : String) :
    erase <$> c.blockSend ops.logged fuel source target =
      (erase c).blockSend ops fuel source target := by
  unfold blockSend
  split_ifs
  · rfl
  refine map_bind_of (Block.outgoingMessages_logged ops (c source).1 (c source).2.1 (c source).2.2)
    fun r => ?_
  obtain ⟨messages, b, vs, log⟩ := r
  show erase <$> messages.foldlM _ (Function.update c source (b, vs, log)) =
    messages.foldlM _ (Function.update (erase c) source (b, vs))
  rw [show Function.update (erase c) source (b, vs) = erase (Function.update c source (b, vs, log))
    by unfold erase; rw [Function.comp_update]; rfl]
  -- the deliveries, one message at a time
  generalize Function.update c source (b, vs, log) = c'
  induction messages generalizing c' with
  | nil => rfl
  | cons m ms ih =>
    simp only [List.foldlM_cons]
    refine map_bind_of ?_ fun c'' => ih c''
    refine map_bind_of (Block.handle_logged ops fuel (c' target).1 b.publicKey m (c' target).2.1
      (c' target).2.2) fun r => ?_
    show (pure (erase (Function.update c' target r)) : Except Fault (Cluster VS)) =
      pure (Function.update (erase c') target (forget r))
    rw [erase, Function.comp_update]
    rfl

/-- Forgetting the logs of a run of the logged cluster gives the run of the
cluster. -/
theorem run_logged (c : Cluster (VS × List SlotValue)) (schedule : List (String × String)) :
    erase <$> c.run ops.logged fuel schedule = (erase c).run ops fuel schedule := by
  unfold run
  induction schedule generalizing c with
  | nil => rfl
  | cons e es ih =>
    simp only [List.foldlM_cons]
    exact map_bind_of (blockSend_logged ops fuel c e.1 e.2) fun c' => ih c'

/-- The values some node of `keys` has predicted. -/
def Predicted (keys : List String) (c : Cluster (VS × List SlotValue)) : SlotValue → Prop :=
  Known (fun s x => x ∈ s.2) keys c

/-- Validity of the consensus among blocks. Take any run of a cluster whose
nodes start with `NewBlock` on their own stores, over any schedule of
deliveries among them. Run it again with every store logging what its
`PredictValue` returns, from empty logs: it goes the same way, and in the
cluster it reaches, every value a block has externalized, and every value of
a ballot message a block sends next, is one that some node predicted before. -/
theorem cluster_values_predicted (ops : ValueStore VS) (sha3 : List UInt8 → List UInt8)
    (fuel : Nat) (qs : QuorumSlice) (keys : List String) (stores : String → VS) (c₀ c : Cluster VS)
    (schedule : List (String × String))
    (hstart : ∀ k ∈ keys, Block.new ops sha3 k qs 1 (stores k) = .ok (c₀ k))
    (hsched : ∀ e ∈ schedule, e.1 ∈ keys ∧ e.2 ∈ keys) (hrun : c₀.run ops fuel schedule = .ok c) :
    ∃ logged : Cluster (VS × List SlotValue),
      (withLog c₀).run ops.logged fuel schedule = .ok logged ∧ erase logged = c ∧
      ∀ k ∈ keys, (∀ e, (c k).1.external = some e → Predicted keys logged e.x) ∧
        ∀ messages b s, (logged k).1.outgoingMessages ops.logged (logged k).2 = .ok (messages, b, s) →
          ∀ m, ChainMessage.ballot m ∈ messages →
            m.Sourced (Predicted keys (Function.update logged k (b, s))) := by
  have hrec := ops.logged_records
  have hstart' : ∀ k ∈ keys, Block.new ops.logged sha3 k qs 1 (stores k, []) = .ok (withLog c₀ k) := by
    intro k hk
    rw [Block.new_logged, hstart k hk]
    rfl
  -- the logged run goes the way the run went
  have hmap := run_logged ops fuel (withLog c₀) schedule
  rw [erase_withLog, hrun] at hmap
  obtain ⟨logged, hlogged, herase⟩ := exists_of_map_eq_ok hmap
  have hinv : logged.Inv (fun s x => x ∈ s.2) keys :=
    (run_inv hrec (start_inv hrec sha3 qs hstart') hsched).of_ok hlogged
  refine ⟨logged, hlogged, herase, fun k hk => ⟨fun e he => ?_, fun messages b s hout m hm => ?_⟩⟩
  · rw [← herase] at he
    exact (hinv.sourced k hk).external e he
  · have h := (Block.outgoingMessages_keeps (hrec.union (KnownElsewhere (fun s x => x ∈ s.2) keys logged k))
      (hinv.block k hk) (hinv.sourced_at hk)).of_ok hout
    exact BallotMessage.Sourced.mono (fun _ hx => (known_update_iff hk).mpr hx) (h.1 _ hm)

end Cluster

end Coinkit.Consensus

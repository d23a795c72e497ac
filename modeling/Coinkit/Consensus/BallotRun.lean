import Coinkit.Consensus.BallotInvariant

/-!
# Runs of the ballot state

A ballot state is driven by `Handle` of a peer's message, by the ballot bump
that `Block.OutgoingMessages` makes through `GoToNextBallot`, by
`CheckIfStale`, and by `AssertValid`. Each input carries the nomination
state and the value store's state at that moment; `Handle` also carries the
fuel that bounds its loop.

From `NewBallotState`, as long as no peer speaks with our own key, every run
keeps `Inv`, so `AssertValid` passes at every point the run reaches and the
two protocol fatals of the prepare steps are never raised.

The confirm phase is another matter. `MaybeAcceptAsCommitted` can enter it
with `cn = 0`, when our ballot already had the committed value, and nothing
stops `GoToNextBallot` from later moving our ballot to another value: the
run at the end of this module does both.
-/

set_option autoImplicit false

namespace Coinkit.Consensus

/-- What drives a ballot state, with the nomination state and the value
store's state at the time. -/
inductive BallotInput (VS : Type) where
  | handle (node : String) (message : BallotMessage) (ns : NominationState) (vs : VS)
  | goToNextBallot (ns : NominationState) (vs : VS)
  | checkIfStale (ns : NominationState) (vs : VS)
  | assertValid

/-- The node a handled message comes from. -/
def BallotInput.sender {VS : Type} : BallotInput VS → Option String
  | .handle node _ _ _ => some node
  | _ => none

/-- The input is not a message sent under the key `key`. -/
def BallotInput.FromPeer {VS : Type} (key : String) (x : BallotInput VS) : Prop :=
  x.sender ≠ some key

instance {VS : Type} (key : String) : DecidablePred (@BallotInput.FromPeer VS key) :=
  fun x => inferInstanceAs (Decidable (x.sender ≠ some key))

namespace BallotState

open Except

variable {VS : Type} (ops : ValueStore VS) (fuel : Nat)

/-- One input of a run. -/
def step (s : BallotState) : BallotInput VS → Except Fault BallotState
  | .handle node message ns vs => do
    let r ← s.handle ops ns fuel node message vs
    pure r.1
  | .goToNextBallot ns vs => do
    let r ← s.goToNextBallot ops ns vs
    pure r.2.1
  | .checkIfStale ns vs => do
    let r ← s.checkIfStale ops ns vs
    pure r.1
  | .assertValid => s.assertValid

/-- `NewBallotState` satisfies the invariant: nothing is set yet. -/
theorem new_inv (publicKey : String) (qs : QuorumSlice) : (new publicKey qs).Inv where
  phase_ne_invalid := by
    show Phase.prepare ≠ .invalid
    decide
  cn_nonneg := le_refl 0
  cn_le_hn := le_refl 0
  b_pos _ h := by cases h
  b_of_cn h := absurd rfl h
  pair _ h := by cases h
  self_unknown := rfl
  commit_live _ h := absurd rfl h
  z_of_cn _ h := absurd rfl h
  z_prepared _ _ h := by cases h
  z_none _ _ h := absurd rfl h
  last_le _ _ h := by cases h

section Run

variable (hcombine : ∀ l vs f, ops.combine l vs = .error f → Safe f)
include hcombine

/-- Every input from a peer keeps the invariant, only moves forward, and
raises no protocol fatal. -/
theorem step_meets {s : BallotState} (hs : s.Inv) {x : BallotInput VS}
    (hx : x.FromPeer s.publicKey) : (s.step ops fuel x).Meets Safe (Next s) := by
  cases x with
  | handle node message ns vs =>
    have hnode : node ≠ s.publicKey := fun h => hx (congrArg some h)
    exact (handle_meets ops ns Safe (fun _ h => h) hcombine fuel hs hnode message vs).bind
      fun r h => meets_pure h
  | goToNextBallot ns vs =>
    exact (goToNextBallot_meets ops ns Safe (fun _ h => h) hcombine hs vs).bind fun r h => meets_pure h
  | checkIfStale ns vs =>
    exact (checkIfStale_meets ops ns Safe (fun _ h => h) hcombine hs vs).bind fun r h => meets_pure h
  | assertValid =>
    obtain ⟨s', h, hnext⟩ := assertValid_next hs
    show s.assertValid.Meets Safe (Next s)
    rw [h]
    exact meets_ok hnext

/-- A run of inputs from peers keeps the invariant, only moves forward, and
raises no protocol fatal. -/
theorem run_meets {s : BallotState} (hs : s.Inv) (xs : List (BallotInput VS))
    (hxs : ∀ x ∈ xs, x.FromPeer s.publicKey) :
    (xs.foldlM (step ops fuel) s).Meets Safe (Next s) := by
  refine StepRun.foldlM_meets (Next s) (BallotInput.FromPeer s.publicKey) Safe ?_ xs hxs
    (Next.refl hs)
  intro t x hx ht
  -- the key never changes, so the input is from a peer of `t` as well
  have hx' : x.FromPeer t.publicKey := by
    rw [ht.2.publicKey]
    exact hx
  exact (step_meets ops fuel hcombine ht.1 hx').mono fun t' h => ht.trans h

/-- A run that extends another goes on from where the other stopped. -/
theorem run_prefix_next {s₀ t t' : BallotState} (hs₀ : s₀.Inv) {ys xs : List (BallotInput VS)}
    (hxs : ∀ x ∈ xs, x.FromPeer s₀.publicKey) (hpre : ys <+: xs)
    (ht : ys.foldlM (step ops fuel) s₀ = .ok t) (ht' : xs.foldlM (step ops fuel) s₀ = .ok t') :
    Next t t' := by
  obtain ⟨rest, rfl⟩ := hpre
  obtain ⟨u, hu, hrest⟩ := StepRun.foldlM_append_ok.mp ht'
  rw [ht] at hu
  cases hu
  have hnext : Next s₀ t :=
    (run_meets ops fuel hcombine hs₀ ys fun x hx => hxs x (List.mem_append_left _ hx)).of_ok ht
  have hrest_peer : ∀ x ∈ rest, x.FromPeer t.publicKey := by
    intro x hx
    rw [hnext.2.publicKey]
    exact hxs x (List.mem_append_right _ hx)
  exact (run_meets ops fuel hcombine hnext.1 rest hrest_peer).of_ok hrest

/-- From `NewBallotState`, every run of peers' messages, ballot bumps,
staleness checks and `AssertValid` either fails with a fault that is none of
the two `log.Fatal`s of the prepare steps, or reaches a state where
`AssertValid` passes: `cn ≤ hn`, `p` and `p'` have different values, and in
the prepare phase, while we vote to commit, no accepted-prepared ballot of
another value reaches `hn`. Between a point of the run and a later one in the
prepare phase, the ballot number never goes down. -/
theorem ballot_reachable_valid (publicKey : String) (qs : QuorumSlice)
    (xs : List (BallotInput VS)) (hpeers : ∀ x ∈ xs, x.FromPeer publicKey) :
    (xs.foldlM (step ops fuel) (new publicKey qs)).Meets Safe (fun s =>
        (∃ s', s.assertValid = .ok s') ∧ s.cn ≤ s.hn ∧
          (∀ p q, s.p = some p → s.pPrime = some q → p.x ≠ q.x) ∧
          (s.phase = .prepare → s.cn ≠ 0 → ∀ b, s.b = some b → ¬ s.AbortsPrepared s.hn b.x)) ∧
      ∀ ys s s', ys <+: xs → ys.foldlM (step ops fuel) (new publicKey qs) = .ok s →
        xs.foldlM (step ops fuel) (new publicKey qs) = .ok s' → s'.phase = .prepare →
        ∀ b, s.b = some b → ∃ b', s'.b = some b' ∧ b.n ≤ b'.n := by
  have hs₀ := new_inv publicKey qs
  refine ⟨(run_meets ops fuel hcombine hs₀ xs hpeers).mono fun s hnext => ?_, ?_⟩
  · have hs := hnext.1
    obtain ⟨s', hs', -⟩ := assertValid_next hs
    refine ⟨⟨s', hs'⟩, hs.cn_le_hn, fun p q hp hq => ?_, hs.commit_live⟩
    obtain ⟨p', hp', hne, -⟩ := hs.pair q hq
    rw [hp] at hp'
    cases hp'
    exact fun h => hne h.symm
  · intro ys s s' hpre hs hs' hphase b hb
    have hnext := run_prefix_next ops fuel hcombine hs₀ hpeers hpre hs hs'
    exact hnext.2.ballot (by rw [hphase]; decide) b hb

end Run

/-- Two peers' confirm messages for `x` form a blocking set, so the node
accepts the commit of `x` and enters the confirm phase; its own ballot
already has the value `x`, so `MaybeAcceptAsCommitted` keeps `cn = 0` and
leaves `z` unset. Three peers then repeat their messages three times each,
a stale quorum, and on the last repeat `HandleStaleQuorum` goes to the next
ballot, with the value the nomination state now predicts. The node's confirm
message then carries a value that nobody accepted as committed. -/
theorem confirm_retargets_on_stale_quorum :
    let qs : QuorumSlice := ⟨["A", "B", "C", "D", "E"], 4⟩
    let ns₁ : NominationState := ⟨["x"], [], [], ∅, "A", qs, 0, 0⟩
    let ns₂ : NominationState := ⟨["x", "y"], [], [], ∅, "A", qs, 0, 0⟩
    let vs := newTestValueStore 0
    let commit : BallotMessage := .confirm ⟨1, "x", 0, 5, 5, qs⟩
    let prepare : BallotMessage := .prepare ⟨1, 1, "x", 0, "", 0, "", 0, 0, qs⟩
    let xs : List (BallotInput TestValueStore) :=
      [.goToNextBallot ns₁ vs, .handle "B" commit ns₁ vs, .handle "C" commit ns₁ vs]
    let ys : List (BallotInput TestValueStore) :=
      .handle "D" prepare ns₁ vs :: List.replicate 3 (.handle "B" commit ns₁ vs) ++
        List.replicate 3 (.handle "C" commit ns₁ vs) ++ List.replicate 2 (.handle "D" prepare ns₁ vs)
    ∃ s₁ s₂ s₃, xs.foldlM (step TestValueStore.ops 2) (new "A" qs) = .ok s₁ ∧
      s₁.phase = .confirm ∧ s₁.cn = 0 ∧ s₁.b = some ⟨1, "x"⟩ ∧ s₁.z = none ∧
      ys.foldlM (step TestValueStore.ops 2) s₁ = .ok s₂ ∧
      s₂.phase = .confirm ∧ s₂.b = some ⟨1, "x"⟩ ∧ s₂.m.lookup "D" = some prepare ∧
      s₂.step TestValueStore.ops 2 (.handle "D" prepare ns₂ vs) = .ok s₃ ∧
      s₃.phase = .confirm ∧ s₃.b = some ⟨2, "x,y"⟩ ∧
      s₃.message 1 qs = .ok (.confirm ⟨1, "x,y", 5, 2, 5, qs⟩) := by
  exact ⟨_, _, _, rfl, rfl, rfl, rfl, rfl, rfl, rfl, rfl, rfl, rfl, rfl, rfl, rfl⟩

/-- Two peers' confirm messages accepting the commit of `(2, x)` put the node
in the confirm phase with `cn = hn = 2`. Two more peers then accept the commit
of `(1, x)`, a blocking set, and the node lowers `cn` to 1 and keeps `hn`.
Its confirm message changes only in `Cn`, which `Compare` does not read, so
the two messages compare equal, and a peer that stored the first discards the
second as stale. -/
theorem confirm_lowered_cn_compares_equal :
    let qs : QuorumSlice := ⟨["A", "B", "C", "D", "E"], 4⟩
    let ns : NominationState := ⟨[], [], [], ∅, "A", qs, 0, 0⟩
    let vs := newTestValueStore 0
    let xs : List (BallotInput TestValueStore) :=
      [.handle "D" (.confirm ⟨1, "x", 2, 2, 2, qs⟩) ns vs, .handle "E" (.confirm ⟨1, "x", 2, 2, 2, qs⟩) ns vs]
    let ys : List (BallotInput TestValueStore) :=
      [.handle "B" (.confirm ⟨1, "x", 1, 1, 1, qs⟩) ns vs, .handle "C" (.confirm ⟨1, "x", 1, 1, 1, qs⟩) ns vs]
    ∃ s₁ s₂ peer, xs.foldlM (step TestValueStore.ops 2) (new "A" qs) = .ok s₁ ∧
      s₁.message 1 qs = .ok (.confirm ⟨1, "x", 2, 2, 2, qs⟩) ∧
      ys.foldlM (step TestValueStore.ops 2) s₁ = .ok s₂ ∧
      s₂.message 1 qs = .ok (.confirm ⟨1, "x", 2, 1, 2, qs⟩) ∧
      Consensus.compare (.confirm ⟨1, "x", 2, 2, 2, qs⟩) (.confirm ⟨1, "x", 2, 1, 2, qs⟩) = 0 ∧
      (new "B" qs).step TestValueStore.ops 2 (.handle "A" (.confirm ⟨1, "x", 2, 2, 2, qs⟩) ns vs) =
        .ok peer ∧
      (peer.step TestValueStore.ops 2 (.handle "A" (.confirm ⟨1, "x", 2, 1, 2, qs⟩) ns vs)).map
        (·.m.lookup "A") = .ok (some (.confirm ⟨1, "x", 2, 2, 2, qs⟩)) := by
  exact ⟨_, _, _, rfl, rfl, rfl, rfl, rfl, rfl, rfl⟩

end BallotState

end Coinkit.Consensus

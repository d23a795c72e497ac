import Coinkit.Consensus.BallotRun

/-!
# The loop of `Handle`

`Handle` stores a newer peer message, investigates the values it carries, and
then asks `CheckForBlockedBallot` whether the peers that could never vote for
our ballot form a blocking set; if they do, it goes to the next ballot and
starts over. Go puts no bound on this loop.

Once a node has externalized, investigating a value other than its own
changes nothing: the prepare steps run only in the prepare phase,
`MaybeAcceptAsCommitted` stops at the externalize phase, and
`MaybeConfirmAsCommitted` only confirms our own value. A confirm or
externalize message of another value can never vote for our ballot, whatever
its number. So when such peers form a blocking set, each round moves our
ballot one number up to `z` and leaves everything else as it was, and the
loop never returns (`handleLoop_runs_out`). Four peer messages bring a node
there.
-/

set_option autoImplicit false

namespace Coinkit.Consensus

namespace BallotState

/-! ## Investigating another value after externalizing -/

section Externalized

variable {s : BallotState} (hphase : s.phase = .externalize) {b : Ballot} (hb : s.b = some b)
  {y : SlotValue} (hy : b.x ≠ y)
include hphase hb hy

/-- None of the four steps moves an externalized state on another value. -/
theorem investigateBallot_externalized (n : Int) : s.investigateBallot n y = .ok s := by
  have hne : s.phase ≠ .prepare := by
    rw [hphase]
    decide
  have h₁ : s.maybeAcceptAsPrepared n y = .ok (false, s) := by
    unfold maybeAcceptAsPrepared
    rw [if_pos hne]
    rfl
  have h₂ : s.maybeConfirmAsPrepared n y = .ok (false, s) := by
    unfold maybeConfirmAsPrepared
    rw [if_pos hne]
    rfl
  have h₃ : s.maybeAcceptAsCommitted n y = (false, s) := by
    unfold maybeAcceptAsCommitted
    rw [if_pos hphase]
  have h₄ : s.maybeConfirmAsCommitted n y = (false, s) := by
    have hother : (s.b.all fun b => b.x != y) = true := by
      rw [hb]
      simpa using hy
    unfold maybeConfirmAsCommitted
    rw [if_neg hne, if_pos hother]
  unfold investigateBallot
  split_ifs
  · rfl
  · simp only [h₁, Except.ok_bind, h₂, h₃, h₄, Except.pure_eq_ok]

theorem investigateRange_externalized (count : Nat) (i : Int) :
    investigateRange y s i count = .ok s := by
  induction count generalizing i with
  | zero => rfl
  | succ count ih =>
    simp only [investigateRange, investigateBallot_externalized hphase hb hy i, Except.ok_bind]
    exact ih (i + 1)

/-- Investigating another value, over every relevant ballot and then our own,
leaves an externalized state as it was. -/
theorem investigateValue_externalized {r : Int × Int} (hr : s.relevantRange y = .ok r) :
    s.investigateValue y = .ok s := by
  unfold investigateValue
  rw [hr, Except.ok_bind]
  simp only [investigateRange_externalized hphase hb hy, Except.ok_bind, hb]
  split_ifs
  all_goals first
    | exact investigateBallot_externalized hphase hb hy _
    | rfl

end Externalized

/-! ## A blocked ballot moves to `z` -/

section Blocked

variable {VS : Type} (ops : ValueStore VS) (ns : NominationState)

/-- With `z` set and a vote to commit already cast, `CheckForBlockedBallot`
of a blocked ballot moves to the next number with the value `z`, and to
nothing else. -/
theorem checkForBlockedBallot_of_blocked {s : BallotState} {b : Ballot} (hb : s.b = some b)
    {z : SlotValue} (hz : s.z = some z) (hcn : s.cn ≠ 0)
    (hblock : s.d.blockedBy (s.nodesWhere [] fun m => !m.couldEverVoteFor b.n b.x) = true)
    (vs : VS) :
    s.checkForBlockedBallot ops ns vs = .ok (true, { s with b := some ⟨b.n + 1, z⟩ }, vs) := by
  have hmove : s.moveToBallot z = .ok { s with b := some ⟨b.n + 1, z⟩ } := by
    unfold moveToBallot
    simp only [hb, nextNumber]
    rw [if_neg fun h => hcn h.1]
    rfl
  unfold checkForBlockedBallot goToNextBallot
  simp only [hb, hblock, Bool.not_true, Bool.false_eq_true, if_false, hz, hmove, Except.ok_bind]
  rfl

/-- An externalized node with `z` and a vote to commit, to which peers that
can never vote for its value form a blocking set at every ballot number,
never returns from handling an externalize message of another value: each
round leaves everything but the ballot as it was, and moves the ballot one
number up. -/
theorem handleLoop_runs_out {s : BallotState} (hphase : s.phase = .externalize) {x : SlotValue}
    (hz : s.z = some x) (hcn : s.cn ≠ 0) {e : ExternalizeMessage} (hy : x ≠ e.x)
    {r : Int × Int} (hr : s.relevantRange e.x = .ok r)
    (hblock : ∀ n, s.d.blockedBy (s.nodesWhere [] fun m => !m.couldEverVoteFor n x) = true)
    (vs : VS) :
    ∀ fuel n, handleLoop ops ns (.externalize e) fuel { s with b := some ⟨n, x⟩ } vs = .error .fuel := by
  -- the states of the loop: `s` with its ballot at some number
  let I : BallotState × VS → Prop := fun p => ∃ n, p = ({ s with b := some ⟨n, x⟩ }, vs)
  have hround : ∀ fuel p, I p → ∃ p', I p' ∧
      handleLoop ops ns (.externalize e) (fuel + 1) p.1 p.2 =
        handleLoop ops ns (.externalize e) fuel p'.1 p'.2 := by
    rintro fuel _ ⟨n, rfl⟩
    have hinvestigate : ({ s with b := some ⟨n, x⟩ } : BallotState).investigateMessage (.externalize e) =
        .ok { s with b := some ⟨n, x⟩ } :=
      investigateValue_externalized (s := { s with b := some ⟨n, x⟩ }) (b := ⟨n, x⟩) hphase rfl hy hr
    have hblocked := checkForBlockedBallot_of_blocked ops ns (s := { s with b := some ⟨n, x⟩ })
      (b := ⟨n, x⟩) rfl hz hcn (hblock n) vs
    refine ⟨({ s with b := some ⟨n + 1, x⟩ }, vs), ⟨n + 1, rfl⟩, ?_⟩
    simp only [handleLoop, hinvestigate, Except.ok_bind, hblocked, if_true]
  intro fuel n
  exact @StepRun.fuel_runs_out (BallotState × VS) (BallotState × VS) Fault
    (fun fuel p => handleLoop ops ns (.externalize e) fuel p.1 p.2) .fuel I (fun _ => rfl) hround fuel _
    ⟨n, rfl⟩

/-- `Handle` of a new peer's externalize message of another value, at an
externalized node with `z` and a vote to commit: with the message stored,
peers that can never vote for our value block our slice at every number, so
the loop never returns. -/
theorem handle_runs_out {s : BallotState} (hphase : s.phase = .externalize) {n₀ : Int}
    {x : SlotValue} (hb : s.b = some ⟨n₀, x⟩) (hz : s.z = some x) (hcn : s.cn ≠ 0) {node : String}
    (hnode : s.m.lookup node = none) {e : ExternalizeMessage} (hy : x ≠ e.x) {r : Int × Int}
    (hr : ({ s with m := s.m.insert node (.externalize e) } : BallotState).relevantRange e.x = .ok r)
    (hblock : ∀ n, s.d.blockedBy (({ s with m := s.m.insert node (.externalize e) } : BallotState).nodesWhere
      [] fun m => !m.couldEverVoteFor n x) = true) (vs : VS) (fuel : Nat) :
    s.handle ops ns fuel node (.externalize e) vs = .error .fuel := by
  obtain ⟨phase, b, last, p, pPrime, cn, hn, z, m, stale, publicKey, d⟩ := s
  dsimp only at hphase hb hz hcn hnode hr hblock
  subst hb
  unfold handle
  rw [hnode]
  exact handleLoop_runs_out ops ns (s := ⟨phase, some ⟨n₀, x⟩, last, p, pPrime, cn, hn, z,
    m.insert node (.externalize e), stale.insert node 0, publicKey, d⟩) hphase hz hcn hy hr hblock vs
    fuel n₀

end Blocked

/-- A node with slice "3 of A, B, C, D" externalizes `x` once D and B confirm
its commit. B then switches to externalizing `y`, which changes nothing, and
C sends the same: B and C can never vote for `x`, and two of the four block
the slice. From then on `Handle` of C's message moves the ballot of `x` up
forever and never returns, whatever the fuel. -/
theorem externalized_handle_never_returns :
    let qs : QuorumSlice := ⟨["A", "B", "C", "D"], 3⟩
    let ns : NominationState := ⟨[], [], [], ∅, "A", qs, 0, 0⟩
    let vs := newTestValueStore 0
    let xs : List (BallotInput TestValueStore) :=
      [.handle "D" (.confirm ⟨1, "x", 1, 1, 1, qs⟩) ns vs, .handle "B" (.confirm ⟨1, "x", 1, 1, 1, qs⟩) ns vs,
        .handle "B" (.externalize ⟨1, "y", 1, 1, qs⟩) ns vs]
    ∃ s, xs.foldlM (step TestValueStore.ops 2) (new "A" qs) = .ok s ∧ s.phase = .externalize ∧
      s.b = some ⟨1, "x"⟩ ∧
      ∀ fuel, s.step TestValueStore.ops fuel (.handle "C" (.externalize ⟨1, "y", 1, 1, qs⟩) ns vs) =
        .error .fuel := by
  refine ⟨⟨.externalize, some ⟨1, "x"⟩, none, some ⟨1, "x"⟩, none, 1, 1, some "x",
    ((∅ : AList _).insert "D" (.confirm ⟨1, "x", 1, 1, 1, ⟨["A", "B", "C", "D"], 3⟩⟩)).insert "B"
      (.externalize ⟨1, "y", 1, 1, ⟨["A", "B", "C", "D"], 3⟩⟩),
    ((∅ : AList _).insert "D" 0).insert "B" 0, "A", ⟨["A", "B", "C", "D"], 3⟩⟩,
    rfl, rfl, rfl, fun fuel => ?_⟩
  rw [step, handle_runs_out TestValueStore.ops _ rfl rfl rfl (by decide) rfl (by decide) rfl (fun _ => rfl)]
  rfl

end BallotState

end Coinkit.Consensus

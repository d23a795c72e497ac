import Coinkit.Consensus.BallotMessage
import Coinkit.Consensus.Nomination

/-!
# The ballot state

`consensus/ballot_state.go`: the balloting half of SCP. The state holds the
ballot `b` the node works on, the two highest incompatible ballots `p` and
`p'` it accepts as prepared, the commit range `[cn, hn]`, the value `z` for
the next ballot, and the latest message of every peer.

The federated-voting steps each ask one question about one ballot `(n, x)`
and may move the state:

- `MaybeAcceptAsPrepared`: a quorum votes or accepts `(n, x)` as prepared, or
  a blocking set accepts it; `p` and `p'` move, and a vote to commit that the
  new `p` aborts is dropped;
- `MaybeConfirmAsPrepared`: a quorum accepts it; `hn` and `z` move, and the
  node may start voting to commit;
- `MaybeAcceptAsCommitted` and `MaybeConfirmAsCommitted`: the same for
  commits, moving the phase to `Confirm` and then `Externalize`.

`Handle` stores a newer peer message and investigates every ballot it could
affect, then moves to the next ballot as long as a blocking set could never
vote for ours. That outer loop has no bound in Go, so the model runs it with
fuel.

The state reads the nomination state only through `HasNomination` and
`PredictValue`, when `GoToNextBallot` needs a value; that nomination state
and the value store are arguments of the calls that reach it, and the value
store's new state is returned. Go iterates `M` in a random order; the model
iterates the entries of the `AList`, and every answer here depends on the
peers collected, not on their order.
-/

set_option autoImplicit false

namespace Coinkit.Consensus

/-- `BallotState`, without its pointer to the nomination state. -/
structure BallotState where
  phase : Phase
  b : Option Ballot
  last : Option Ballot
  p : Option Ballot
  pPrime : Option Ballot
  cn : Int
  hn : Int
  z : Option SlotValue
  m : AList (fun _ : String => BallotMessage)
  stale : AList (fun _ : String => Int)
  publicKey : String
  d : QuorumSlice

namespace BallotState

/-- `NewBallotState(publicKey, qs, nState)`. -/
def new (publicKey : String) (qs : QuorumSlice) : BallotState :=
  ⟨.prepare, none, none, none, none, 0, 0, none, ∅, ∅, publicKey, qs⟩

/-- The state as a `QuorumFinder`: our own slice, and the one each peer's
latest message carries. -/
def quorumFinder (s : BallotState) : QuorumFinder :=
  ⟨fun node => if node = s.publicKey then some s.d else (s.m.lookup node).map (·.quorumSlice),
    s.publicKey⟩

/-- A loop over `M` that collects, after `init`, the peers whose latest
message satisfies `pred`. -/
def nodesWhere (s : BallotState) (init : List String) (pred : BallotMessage → Bool) :
    List String :=
  s.m.entries.foldl (fun acc e => if pred e.2 then acc ++ [e.1] else acc) init

/-- A loop over `M` that collects the peers that vote or accept, after
`init`, and those that accept. -/
def tally (s : BallotState) (init : List String) (accept vote : BallotMessage → Bool) :
    List String × List String :=
  s.m.entries.foldl
    (fun acc e =>
      if accept e.2 then (acc.1 ++ [e.1], acc.2 ++ [e.1])
      else if vote e.2 then (acc.1 ++ [e.1], acc.2)
      else acc)
    (init, [])

/-- The prepare-phase answer of `AcceptedAbort(n, x)`: `p` or `p'` is a
ballot of number at least `n` with another value. -/
def preparedAbort (s : BallotState) (n : Int) (x : SlotValue) : Bool :=
  s.p.any (fun p => decide (p.n ≥ n) && p.x != x) ||
    s.pPrime.any (fun p => decide (p.n ≥ n) && p.x != x)

/-- `AcceptedAbort(n, x)`: after the prepare phase everything but `b.x` is
aborted. -/
def acceptedAbort (s : BallotState) (n : Int) (x : SlotValue) : Except Fault Bool :=
  if s.phase ≠ .prepare then
    match s.b with
    | some b => pure (x != b.x)
    | none => .error Fault.nilDereference
  else pure (s.preparedAbort n x)

/-! ## Federated voting on one ballot -/

/-- The update of `p` and `p'` in `MaybeAcceptAsPrepared` once `ballot` is
accepted as prepared: they stay the top two incompatible accepted ballots. -/
def acceptPrepared (s : BallotState) (ballot : Ballot) : Except Fault BallotState :=
  match s.p with
  | none => pure { s with p := some ballot }
  | some p =>
    if p.x = ballot.x then
      if ballot.n ≤ p.n then .error (.fatal "should have short circuited already")
      else pure { s with p := some ballot }
    else if ballot.n ≥ p.n then pure { s with pPrime := some p, p := some ballot }
    -- the short circuits leave only a ballot above `p'` here
    else pure { s with pPrime := some ballot }

/-- `MaybeAcceptAsPrepared(n, x)`: whether the state changed. -/
def maybeAcceptAsPrepared (s : BallotState) (n : Int) (x : SlotValue) :
    Except Fault (Bool × BallotState) :=
  if s.phase ≠ .prepare then pure (false, s)
  else if n = 0 then pure (false, s)
  -- we already accept it as prepared
  else if s.p.any (fun p => decide (p.n ≥ n) && p.x == x) then pure (false, s)
  else if s.pPrime.any (fun p => decide (p.n ≥ n) && p.x == x) then pure (false, s)
  -- an old ballot number
  else if s.pPrime.any (fun p => decide (p.n ≥ n)) then pure (false, s)
  else
    let own := if s.b.any (fun b => decide (b.n ≥ n) && b.x == x) then [s.publicKey] else []
    let votes := s.tally own (·.acceptAsPrepared n x) (·.voteToPrepare n x)
    if !meetsQuorum s.quorumFinder votes.1 && !s.d.blockedBy votes.2 then pure (false, s)
    else do
      let s ← s.acceptPrepared ⟨n, x⟩
      if s.cn ≠ 0 ∧ s.hn ≠ 0 then
        match s.b with
        | none => .error Fault.nilDereference
        | some b => do
          let abort ← s.acceptedAbort s.hn b.x
          pure (true, if abort then { s with cn := 0 } else s)
      else pure (true, s)

/-- `MaybeConfirmAsPrepared(n, x)`: whether the state changed. -/
def maybeConfirmAsPrepared (s : BallotState) (n : Int) (x : SlotValue) :
    Except Fault (Bool × BallotState) :=
  if s.phase ≠ .prepare then pure (false, s)
  -- we already confirmed a better ballot as prepared
  else if s.hn > n then pure (false, s)
  else if s.hn = n ∧ (s.z = none ∨ s.z = some x) then pure (false, s)
  else
    let ballot : Ballot := ⟨n, x⟩
    let own := if gtecompat s.p (some ballot) || gtecompat s.pPrime (some ballot) then
      [s.publicKey] else []
    let accepted := s.nodesWhere own (·.acceptAsPrepared n x)
    if !meetsQuorum s.quorumFinder accepted then pure (false, s)
    -- two ballots of this number are confirmed prepared: all of them are aborted
    else if s.hn = n then pure (true, { s with cn := 0, z := none })
    else do
      let contradiction ←
        if s.cn > 0 then
          match s.b with
          | some b => pure (x != b.x)
          | none => .error Fault.nilDereference
        else pure false
      if contradiction then
        .error (.fatal "we are voting to commit but must confirm a contradiction")
      else
        let b := s.b.getD ballot
        let s := { s with hn := n, z := some x, b := some b }
        if s.cn = 0 ∧ x = b.x then
          if gteincompat s.p (some ballot) || gteincompat s.pPrime (some ballot) then pure (true, s)
          else if b.n > n then pure (true, s)
          else pure (true, { s with cn := b.n })
        else pure (true, s)

/-- `MaybeAcceptAsCommitted(n, x)`: whether the state changed. -/
def maybeAcceptAsCommitted (s : BallotState) (n : Int) (x : SlotValue) : Bool × BallotState :=
  if s.phase = .externalize then (false, s)
  else if s.phase = .confirm ∧ s.cn ≤ n ∧ n ≤ s.hn then (false, s)
  else
    let own := if s.phase = .prepare ∧ s.b.any (fun b => b.x == x) ∧ s.cn ≠ 0 ∧ s.cn ≤ n ∧
        n ≤ s.hn then [s.publicKey] else []
    let votes := s.tally own (·.acceptAsCommitted n x) (·.voteToCommit n x)
    if !meetsQuorum s.quorumFinder votes.1 && !s.d.blockedBy votes.2 then (false, s)
    else
      let s := { s with phase := .confirm }
      -- a commit of another value replaces the target; one of ours widens the range
      if s.b.all (fun b => b.x != x) then
        (true, { s with b := some ⟨n, x⟩, cn := n, hn := n, z := some x })
      else (true, { s with cn := if n < s.cn then n else s.cn, hn := if n > s.hn then n else s.hn })

/-- `MaybeConfirmAsCommitted(n, x)`: whether the state changed. -/
def maybeConfirmAsCommitted (s : BallotState) (n : Int) (x : SlotValue) : Bool × BallotState :=
  if s.phase = .prepare then (false, s)
  else if s.b.all (fun b => b.x != x) then (false, s)
  -- we already confirmed this commit
  else if s.phase ≠ .confirm ∧ s.cn ≤ n ∧ n ≤ s.hn then (false, s)
  else
    let own := if s.phase = .confirm ∧ s.cn ≤ n ∧ n ≤ s.hn then [s.publicKey] else []
    let accepted := s.nodesWhere own (·.acceptAsCommitted n x)
    if !meetsQuorum s.quorumFinder accepted then (false, s)
    else if s.phase = .confirm then (true, { s with phase := .externalize, cn := n, hn := n })
    else (true, { s with cn := if n < s.cn then n else s.cn, hn := if n > s.hn then n else s.hn })

/-! ## Moving to the next ballot -/

section Next

variable {VS : Type} (ops : ValueStore VS) (ns : NominationState)

/-- The number `GoToNextBallot` gives the next ballot: one past `b`, or 1. -/
def nextNumber : Option Ballot → Int
  | none => 1
  | some b => b.n + 1

/-- The end of `GoToNextBallot` once the value `x` is chosen: the next
ballot, and with it maybe a vote to commit at once. -/
def moveToBallot (s : BallotState) (x : SlotValue) : Except Fault BallotState := do
  let n := nextNumber s.b
  let s := { s with b := some ⟨n, x⟩ }
  if s.cn = 0 ∧ s.hn ≥ n then do
    let abort ← s.acceptedAbort s.hn x
    pure (if !abort then { s with cn := n } else s)
  else pure s

/-- `GoToNextBallot()`: whether there was a value for the next ballot. The
value is `z`, or the nomination state's prediction. -/
def goToNextBallot (s : BallotState) (vs : VS) : Except Fault (Bool × BallotState × VS) :=
  match s.z with
  | some z => do
    let s ← s.moveToBallot z
    pure (true, s, vs)
  | none =>
    if !ns.hasNomination then pure (false, s, vs)
    else do
      let (x, vs) ← ns.predictValue ops vs
      let s ← s.moveToBallot x
      pure (true, s, vs)

/-- `CheckForBlockedBallot()`: move on when a blocking set could never vote
for our ballot. -/
def checkForBlockedBallot (s : BallotState) (vs : VS) :
    Except Fault (Bool × BallotState × VS) :=
  match s.b with
  | none => pure (false, s, vs)
  | some b =>
    let blockers := s.nodesWhere [] (fun m => !m.couldEverVoteFor b.n b.x)
    if !s.d.blockedBy blockers then pure (false, s, vs)
    else s.goToNextBallot ops ns vs

/-- `HandleStaleQuorum()`: move on unless a blocking set is behind us. -/
def handleStaleQuorum (s : BallotState) (vs : VS) : Except Fault (Bool × BallotState × VS) :=
  match s.b with
  | none => pure (false, s, vs)
  | some b =>
    let behind := s.nodesWhere [] (fun m => decide (m.ballotNumber < b.n))
    if s.d.blockedBy behind then pure (false, s, vs)
    else s.goToNextBallot ops ns vs

/-- `CheckIfStale()`: when a quorum has sent us three duplicates each, forget
the counts and handle the stale quorum. -/
def checkIfStale (s : BallotState) (vs : VS) : Except Fault (BallotState × VS) :=
  let stale := s.stale.entries.foldl (fun acc e => if e.2 ≥ 3 then acc ++ [e.1] else acc)
    [s.publicKey]
  if meetsQuorum s.quorumFinder stale then do
    let r ← { s with stale := ∅ }.handleStaleQuorum ops ns vs
    pure (r.2.1, r.2.2)
  else pure (s, vs)

end Next

/-! ## Investigating ballots -/

/-- `InvestigateBallot(n, x)`: steps 1-8 of the processing algorithm. -/
def investigateBallot (s : BallotState) (n : Int) (x : SlotValue) : Except Fault BallotState :=
  if n < 1 then pure s
  else do
    let r ← s.maybeAcceptAsPrepared n x
    let r ← r.2.maybeConfirmAsPrepared n x
    let s := (r.2.maybeAcceptAsCommitted n x).2
    pure (s.maybeConfirmAsCommitted n x).2

/-- `count` rounds of the loop `for i := min; i <= max; i++`, from `i`. -/
def investigateRange (x : SlotValue) : BallotState → Int → Nat → Except Fault BallotState
  | s, _, 0 => pure s
  | s, i, count + 1 => do
    let s ← s.investigateBallot i x
    investigateRange x s (i + 1) count

/-- `RelevantRange(x)`: the hull of the ranges the peers talk about. -/
def relevantRange (s : BallotState) (x : SlotValue) : Except Fault (Int × Int) :=
  s.m.entries.foldlM
    (fun (acc : Int × Int) e => do
      let r ← e.2.relevantRange x
      pure (rangeUnion acc.1 acc.2 r.1 r.2))
    (0, 0)

/-- The descending walk of `MaxActionableBallotNumber` over the distinct
numbers, adding the peers whose `MaxN` is each in turn. -/
def maxActionableFrom (s : BallotState) : List Int → List String → Int
  | [], _ => 0
  | n :: numbers, above =>
    let above := above ++ (s.m.entries.filter (fun e => e.2.maxN = n)).map (·.1)
    if s.d.blockedBy above then n else s.maxActionableFrom numbers above

/-- `MaxActionableBallotNumber()`: the highest number a blocking set talks
about. -/
def maxActionableBallotNumber (s : BallotState) : Int :=
  s.maxActionableFrom ((s.m.entries.map (·.2.maxN)).dedup.insertionSort (fun a b => b ≤ a)) []

/-- `InvestigateValue(x)`: every relevant and actionable ballot of `x`, then
our own ballot's number if the loop stopped below it. -/
def investigateValue (s : BallotState) (x : SlotValue) : Except Fault BallotState := do
  let (lo, hi) ← s.relevantRange x
  let maxActionable := s.maxActionableBallotNumber
  let hi := if hi > maxActionable then maxActionable else hi
  let count := (hi - lo + 1).toNat
  let s ← investigateRange x s lo count
  -- the loop variable after the loop
  let i := lo + count
  match s.b with
  | some b => if i ≤ b.n then s.investigateBallot b.n x else pure s
  | none => pure s

/-- `InvestigateValues(values...)`: each distinct value once. -/
def investigateValues (s : BallotState) (values : List SlotValue) : Except Fault BallotState := do
  let r ← values.foldlM
    (fun (acc : List SlotValue × BallotState) value =>
      if hasSlotValue acc.1 value then pure acc
      else do
        let s ← acc.2.investigateValue value
        pure (acc.1 ++ [value], s))
    ([], s)
  pure r.2

/-- The investigation `Handle` runs for a message, by its type. -/
def investigateMessage (s : BallotState) : BallotMessage → Except Fault BallotState
  | .prepare m => s.investigateValues [m.bx, m.px, m.ppx]
  | .confirm m => s.investigateValue m.x
  | .externalize m => s.investigateValue m.x

section Handle

variable {VS : Type} (ops : ValueStore VS) (ns : NominationState)

/-- The outer loop of `Handle`, with `fuel` rounds: investigate, then go on
while our ballot is blocked. -/
def handleLoop (message : BallotMessage) : Nat → BallotState → VS → Except Fault (BallotState × VS)
  | 0, _, _ => .error .fuel
  | fuel + 1, s, vs => do
    let s ← s.investigateMessage message
    let r ← s.checkForBlockedBallot ops ns vs
    if r.1 then handleLoop message fuel r.2.1 r.2.2 else pure (r.2.1, r.2.2)

/-- `Handle(node, message)`: a message that is not newer than the stored
one only counts as stale. -/
def handle (fuel : Nat) (s : BallotState) (node : String) (message : BallotMessage) (vs : VS) :
    Except Fault (BallotState × VS) :=
  if (s.m.lookup node).any (fun old => decide (Consensus.compare old message ≥ 0)) then
    { s with stale := s.stale.insert node ((s.stale.lookup node).getD 0 + 1) }.checkIfStale ops ns vs
  else handleLoop ops ns message fuel { s with stale := s.stale.insert node 0, m := s.m.insert node message } vs

end Handle

/-! ## Checks and messages -/

def hasMessage (s : BallotState) : Bool := s.b.isSome

/-- `AssertValid()`: the four checks, then remember `b` for the next
monotonicity check. -/
def assertValid (s : BallotState) : Except Fault BallotState :=
  if s.cn > s.hn then .error (.fatal "c should be <= h")
  else if (match s.p, s.pPrime with
      | some p, some q => p.x == q.x
      | _, _ => false) then .error (.fatal "p and p prime should not be compatible")
  else
    match s.b with
    | some b =>
      if s.phase = .prepare then
        if s.p.any (fun p => b.x != p.x && s.cn != 0 && decide (s.hn ≤ p.n)) then
          .error (.fatal "the vote to commit should have been aborted")
        else if s.pPrime.any (fun p => b.x != p.x && s.cn != 0 && decide (s.hn ≤ p.n)) then
          .error (.fatal "the vote to commit should have been aborted")
        else if s.last.any (fun l => b.x != l.x && decide (l.n > b.n)) then
          .error (.fatal "monotonicity violation")
        else pure { s with last := some b }
      else pure s
    | none => pure s

/-- `Message(slot, qs)`: our state as the message of our phase. -/
def message (s : BallotState) (slot : Int) (qs : QuorumSlice) : Except Fault BallotMessage :=
  match s.b with
  | none => .error (.panic "coding error")
  | some b =>
    match s.phase with
    | .prepare =>
      pure (.prepare ⟨slot, b.n, b.x, (s.p.map (·.n)).getD 0, (s.p.map (·.x)).getD "",
        (s.pPrime.map (·.n)).getD 0, (s.pPrime.map (·.x)).getD "", s.cn, s.hn, qs⟩)
    | .confirm => pure (.confirm ⟨slot, b.x, (s.p.map (·.n)).getD 0, s.cn, s.hn, qs⟩)
    | .externalize => pure (.externalize ⟨slot, b.x, s.cn, s.hn, qs⟩)
    | .invalid => .error (.panic "code flow should not get here")

/-! ## The peers a loop collects -/

theorem nodesWhere_eq (s : BallotState) (init : List String) (pred : BallotMessage → Bool) :
    s.nodesWhere init pred = init ++ (s.m.entries.filter (fun e => pred e.2)).map (·.1) := by
  unfold nodesWhere
  generalize s.m.entries = l
  induction l generalizing init with
  | nil => simp
  | cons e l ih =>
    rw [List.foldl_cons, ih]
    by_cases h : pred e.2 = true
    · simp [h]
    · simp [h]

theorem tally_eq (s : BallotState) (init : List String) (accept vote : BallotMessage → Bool) :
    s.tally init accept vote =
      (init ++ (s.m.entries.filter (fun e => accept e.2 || vote e.2)).map (·.1),
        (s.m.entries.filter (fun e => accept e.2)).map (·.1)) := by
  unfold tally
  suffices h : ∀ (l : List (Sigma fun _ : String => BallotMessage)) (acc : List String × List String),
      l.foldl (fun acc e =>
        if accept e.2 then (acc.1 ++ [e.1], acc.2 ++ [e.1])
        else if vote e.2 then (acc.1 ++ [e.1], acc.2)
        else acc) acc =
        (acc.1 ++ (l.filter (fun e => accept e.2 || vote e.2)).map (·.1),
          acc.2 ++ (l.filter (fun e => accept e.2)).map (·.1)) by
    simpa using h s.m.entries (init, [])
  intro l
  induction l with
  | nil => simp
  | cons e l ih =>
    intro acc
    rw [List.foldl_cons, ih]
    by_cases ha : accept e.2 = true
    · simp [ha]
    · by_cases hv : vote e.2 = true
      · simp [ha, hv]
      · simp [ha, hv]

/-- A peer in a collected list has a stored message that qualifies. -/
theorem mem_nodesWhere {s : BallotState} {init : List String} {pred : BallotMessage → Bool}
    {node : String} :
    node ∈ s.nodesWhere init pred ↔ node ∈ init ∨ ∃ m, s.m.lookup node = some m ∧ pred m = true := by
  rw [nodesWhere_eq, List.mem_append]
  apply or_congr_right
  simp only [List.mem_map, List.mem_filter]
  constructor
  · rintro ⟨⟨a, m⟩, ⟨he, hp⟩, rfl⟩
    exact ⟨m, AList.mem_lookup_iff.mpr he, hp⟩
  · rintro ⟨m, hm, hp⟩
    exact ⟨⟨node, m⟩, ⟨AList.mem_lookup_iff.mp hm, hp⟩, rfl⟩

/-- A node without a stored message is in a tally only through `init`. -/
theorem mem_tally_fst_of_lookup_none {s : BallotState} {init : List String}
    {accept vote : BallotMessage → Bool} {node : String} (hnode : s.m.lookup node = none)
    (h : node ∈ (s.tally init accept vote).1) : node ∈ init := by
  rw [tally_eq] at h
  rcases List.mem_append.mp h with h | h
  · exact h
  · obtain ⟨⟨a, m⟩, hm, rfl⟩ := List.mem_map.mp h
    rw [AList.mem_lookup_iff.mpr (List.mem_filter.mp hm).1] at hnode
    cases hnode

theorem mem_nodesWhere_of_lookup_none {s : BallotState} {init : List String}
    {pred : BallotMessage → Bool} {node : String} (hnode : s.m.lookup node = none)
    (h : node ∈ s.nodesWhere init pred) : node ∈ init := by
  rcases mem_nodesWhere.mp h with h | ⟨m, hm, -⟩
  · exact h
  · rw [hnode] at hm
    cases hm

end BallotState

end Coinkit.Consensus

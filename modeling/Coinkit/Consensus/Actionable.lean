import Mathlib.Order.Bounds.Defs
import Mathlib.Data.List.Sort
import Coinkit.Consensus.BallotState

/-!
# The ballot numbers `InvestigateValue` acts on

A peer can put any number it likes in its messages. `InvestigateValue(x)` investigates every
ballot of `x` in the range the peers talk about, so a peer that inflates its numbers could make a
node investigate millions of ballots. The range is clamped at `MaxActionableBallotNumber()`,
which walks the distinct `MaxN` of the stored messages from the highest down, adds the peers of
each number in turn, and stops at the first number where the peers so far block our slice.

**The law** (`maxActionableBallotNumber_isGreatest`): the walk returns the greatest `n` such that
the peers whose message has `MaxN ≥ n` (`nodesAtLeast`) block the slice, or 0 when there is no
such `n`. It holds because `BlockedBy` reads its nodes only through membership and grows with
them, and because the set of peers at least `n` changes only at the numbers the walk visits.

`InvestigateValue(x)` is then a run of `InvestigateBallot` over a list of numbers, each at most
the actionable maximum or our own ballot number from before (`investigateValue_eq_calls`): the
loop visits numbers up to the clamped top, and moves our ballot only to ballots it visits, so the
extra call after it is at the old ballot number. And a set of peers that does not block cannot
lift the actionable maximum above every number the other peers send
(`maxActionable_le_of_not_blocking`).

**What it does not establish.** Nothing here bounds the lower end of the range: `RelevantRange`
starts at the least number any peer talks about, and `InvestigateBallot` ignores the numbers
below 1.
-/

set_option autoImplicit false

namespace Coinkit.Consensus

open Except

namespace BallotState

variable (s : BallotState)

/-! ## The peers at least a number -/

/-- The peers whose message has `MaxN ≥ n`: the sets among which `MaxActionableBallotNumber`
looks for a blocking one. -/
def nodesAtLeast (n : Int) : List String :=
  s.nodesWhere [] fun m => decide (n ≤ m.maxN)

/-- The numbers at which the peers at least the number block our slice. -/
def blockingNumbers : Set Int :=
  {n | s.d.blockedBy (s.nodesAtLeast n) = true}

variable {s}

theorem mem_nodesAtLeast {n : Int} {z : String} :
    z ∈ s.nodesAtLeast n ↔ ∃ m, s.m.lookup z = some m ∧ n ≤ m.maxN := by
  unfold nodesAtLeast
  rw [mem_nodesWhere]
  simp

/-- The peers `MaxActionableBallotNumber` adds at the number `n`. -/
theorem mem_peersAt {n : Int} {z : String} :
    z ∈ (s.m.entries.filter fun e => decide (e.2.maxN = n)).map (·.1) ↔
      ∃ m, s.m.lookup z = some m ∧ m.maxN = n := by
  have h : (s.m.entries.filter fun e => decide (e.2.maxN = n)).map (·.1) =
      s.nodesWhere [] fun m => decide (m.maxN = n) := by
    rw [nodesWhere_eq]
    rfl
  rw [h, mem_nodesWhere]
  simp

/-- Every stored message's `MaxN` is among the numbers the walk visits. -/
theorem maxN_mem_numbers {z : String} {m : BallotMessage} (hm : s.m.lookup z = some m) :
    m.maxN ∈ (s.m.entries.map (·.2.maxN)).dedup.insertionSort (fun a b => b ≤ a) := by
  rw [List.mem_insertionSort, List.mem_dedup, List.mem_map]
  exact ⟨⟨z, m⟩, AList.mem_lookup_iff.mp hm, rfl⟩

/-- The numbers the walk visits go strictly down. -/
theorem numbers_desc (s : BallotState) :
    ((s.m.entries.map (·.2.maxN)).dedup.insertionSort (fun a b => b ≤ a)).Pairwise (· > ·) := by
  have hsorted := List.pairwise_insertionSort (fun a b : Int => b ≤ a)
    (s.m.entries.map (·.2.maxN)).dedup
  have hnodup := ((List.perm_insertionSort (fun a b : Int => b ≤ a)
    (s.m.entries.map (·.2.maxN)).dedup).nodup_iff).mpr (List.nodup_dedup _)
  exact (hsorted.and hnodup).imp fun h => lt_of_le_of_ne h.1 (Ne.symm h.2)

/-! ## The descending walk -/

/-- What the walk of `maxActionableFrom` keeps over the numbers still to visit: they go down,
the peers collected so far are those above all of them, every peer's number is still to come or
above them all, and no number above them all is blocking. -/
structure WalkInv (s : BallotState) (numbers : List Int) (above : List String) : Prop where
  desc : numbers.Pairwise (· > ·)
  above : ∀ z, z ∈ above ↔ ∃ m, s.m.lookup z = some m ∧ ∀ k ∈ numbers, k < m.maxN
  listed : ∀ z m, s.m.lookup z = some m → m.maxN ∈ numbers ∨ ∀ k ∈ numbers, k < m.maxN
  unblocked : ∀ n, (∀ k ∈ numbers, k < n) → n ∉ s.blockingNumbers

theorem walkInv_start (s : BallotState) :
    WalkInv s ((s.m.entries.map (·.2.maxN)).dedup.insertionSort (fun a b => b ≤ a)) [] := by
  refine ⟨numbers_desc s, fun z => ?_, fun z m hm => .inl (maxN_mem_numbers hm), fun n hn => ?_⟩
  · -- no peer is above its own number
    simp only [List.not_mem_nil, false_iff, not_exists, not_and]
    exact fun m hm hall => lt_irrefl _ (hall _ (maxN_mem_numbers hm))
  · simp only [blockingNumbers, Set.mem_ofPred_eq, Bool.not_eq_true]
    refine s.d.blockedBy_of_forall_not_mem fun z hz => ?_
    obtain ⟨m, hm, hle⟩ := mem_nodesAtLeast.mp hz
    exact absurd (hn _ (maxN_mem_numbers hm)) (not_lt.mpr hle)

section Step

variable {k : Int} {numbers : List Int} {above : List String}

/-- A peer's number is at least the next number exactly when it is above all that come after. -/
theorem WalkInv.le_iff (h : WalkInv s (k :: numbers) above) {z : String} {m : BallotMessage}
    (hm : s.m.lookup z = some m) : k ≤ m.maxN ↔ ∀ j ∈ numbers, j < m.maxN := by
  have hdesc := List.pairwise_cons.mp h.desc
  constructor
  · exact fun hk j hj => lt_of_lt_of_le (hdesc.1 j hj) hk
  · intro hall
    rcases h.listed z m hm with hmem | habove
    · rcases List.mem_cons.mp hmem with heq | hrest
      · exact le_of_eq heq.symm
      · exact absurd (hall _ hrest) (lt_irrefl _)
    · exact le_of_lt (habove k List.mem_cons_self)

/-- After the peers of the next number, the walk holds the peers at least that number. -/
theorem WalkInv.mem_next (h : WalkInv s (k :: numbers) above) (z : String) :
    z ∈ above ++ (s.m.entries.filter fun e => decide (e.2.maxN = k)).map (·.1) ↔
      z ∈ s.nodesAtLeast k := by
  rw [List.mem_append, h.above, mem_peersAt, mem_nodesAtLeast]
  constructor
  · rintro (⟨m, hm, hall⟩ | ⟨m, hm, rfl⟩)
    · exact ⟨m, hm, le_of_lt (hall k List.mem_cons_self)⟩
    · exact ⟨m, hm, le_refl _⟩
  · rintro ⟨m, hm, hk⟩
    rcases lt_or_eq_of_le hk with hlt | heq
    · refine .inl ⟨m, hm, fun j hj => ?_⟩
      rcases List.mem_cons.mp hj with rfl | hrest
      · exact hlt
      · exact (h.le_iff hm).mp hk j hrest
    · exact .inr ⟨m, hm, heq.symm⟩

/-- A number not yet blocking hands the walk on to the numbers after it. -/
theorem WalkInv.next (h : WalkInv s (k :: numbers) above)
    (hk : s.d.blockedBy (above ++ (s.m.entries.filter fun e => decide (e.2.maxN = k)).map (·.1)) =
      false) :
    WalkInv s numbers (above ++ (s.m.entries.filter fun e => decide (e.2.maxN = k)).map (·.1)) := by
  refine ⟨(List.pairwise_cons.mp h.desc).2, fun z => ?_, fun z m hm => ?_, fun n hn => ?_⟩
  · rw [h.mem_next, mem_nodesAtLeast]
    exact exists_congr fun m => and_congr_right fun hm => h.le_iff hm
  · rcases h.listed z m hm with hmem | habove
    · rcases List.mem_cons.mp hmem with heq | hrest
      · exact .inr fun j hj => heq ▸ (List.pairwise_cons.mp h.desc).1 j hj
      · exact .inl hrest
    · exact .inr fun j hj => habove j (List.mem_cons_of_mem k hj)
  · rcases lt_or_ge k n with hlt | hle
    · -- above every number of the walk so far
      refine h.unblocked n fun j hj => ?_
      rcases List.mem_cons.mp hj with rfl | hrest
      · exact hlt
      · exact hn j hrest
    · -- between the next numbers nothing changes: the peers at least `n` are those at least `k`
      have hsame : ∀ z, z ∈ s.nodesAtLeast n ↔ z ∈ s.nodesAtLeast k := by
        intro z
        simp only [mem_nodesAtLeast]
        refine exists_congr fun m => and_congr_right fun hm => ⟨fun hnm => ?_, le_trans hle⟩
        by_contra hkm
        have hall := (h.le_iff hm).not.mp hkm
        exact hall fun j hj => lt_of_lt_of_le (hn j hj) hnm
      simp only [blockingNumbers, Set.mem_ofPred_eq, s.d.blockedBy_congr hsame,
        ← s.d.blockedBy_congr (h.mem_next), hk, Bool.false_eq_true, not_false_eq_true]

end Step

/-- The walk returns the greatest blocking number, or 0 when no number blocks. Induction on the
numbers still to visit, carried by `WalkInv`. -/
theorem maxActionableFrom_spec :
    ∀ (numbers : List Int) (above : List String), WalkInv s numbers above →
      IsGreatest s.blockingNumbers (s.maxActionableFrom numbers above) ∨
        (s.blockingNumbers = ∅ ∧ s.maxActionableFrom numbers above = 0)
  | [], above, h => by
    refine .inr ⟨Set.eq_empty_of_forall_notMem fun n => h.unblocked n ?_, rfl⟩
    simp
  | k :: numbers, above, h => by
    unfold maxActionableFrom
    dsimp only
    by_cases hk : s.d.blockedBy
        (above ++ (s.m.entries.filter fun e => decide (e.2.maxN = k)).map (·.1)) = true
    · -- the first blocking number: every number above it was passed unblocked
      rw [if_pos hk]
      refine .inl ⟨?_, fun n hn => ?_⟩
      · simpa only [blockingNumbers, Set.mem_ofPred_eq, s.d.blockedBy_congr h.mem_next] using hk
      · by_contra hlt
        refine h.unblocked n (fun j hj => ?_) hn
        rcases List.mem_cons.mp hj with rfl | hrest
        · exact lt_of_not_ge hlt
        · exact lt_trans ((List.pairwise_cons.mp h.desc).1 j hrest) (lt_of_not_ge hlt)
    · rw [if_neg hk]
      exact maxActionableFrom_spec numbers _ (h.next (Bool.eq_false_iff.mpr hk))

variable (s)

/-- `MaxActionableBallotNumber()` is the greatest `n` at which the peers whose message has
`MaxN ≥ n` block our slice, or 0 when no `n` does. -/
theorem maxActionableBallotNumber_isGreatest :
    IsGreatest s.blockingNumbers s.maxActionableBallotNumber ∨
      (s.blockingNumbers = ∅ ∧ s.maxActionableBallotNumber = 0) :=
  maxActionableFrom_spec _ [] (walkInv_start s)

/-- Of four members with threshold 3, two block. B sends a huge number alone, C and D send 2: the
walk passes B's number unblocked and stops at 2. -/
example : ({ new "A" ⟨["A", "B", "C", "D"], 3⟩ with
    m := (((∅ : AList fun _ : String => BallotMessage).insert "B"
      (.externalize ⟨1, "x", 1, 1000000, ⟨["A", "B", "C", "D"], 3⟩⟩)).insert "C"
      (.externalize ⟨1, "x", 1, 2, ⟨["A", "B", "C", "D"], 3⟩⟩)).insert "D"
      (.externalize ⟨1, "x", 1, 2, ⟨["A", "B", "C", "D"], 3⟩⟩) } : BallotState).maxActionableBallotNumber =
    2 := by
  decide

/-- Peers that do not block cannot lift the actionable maximum: either it is 0, or some other
peer's message has a number at least as high. -/
theorem maxActionable_le_of_not_blocking {P : List String} (hP : s.d.blockedBy P = false) :
    s.maxActionableBallotNumber = 0 ∨
      ∃ node m, s.m.lookup node = some m ∧ node ∉ P ∧ s.maxActionableBallotNumber ≤ m.maxN := by
  rcases maxActionableBallotNumber_isGreatest s with ⟨hblock, -⟩ | ⟨-, h0⟩
  · -- the blocking peers at the maximum are not all in `P`
    have hout : ¬ ∀ z ∈ s.nodesAtLeast s.maxActionableBallotNumber, z ∈ P := fun hsub => by
      rw [s.d.blockedBy_mono hsub hblock] at hP
      cases hP
    simp only [not_forall] at hout
    obtain ⟨z, hz, hzP⟩ := hout
    obtain ⟨m, hm, hle⟩ := mem_nodesAtLeast.mp hz
    exact .inr ⟨z, m, hm, hzP, hle⟩
  · exact .inl h0

/-! ## The calls of `InvestigateBallot` -/

/-- The numbers `for i := lo; ...; i++` visits in `count` rounds. -/
def loopNumbers (i : Int) : Nat → List Int
  | 0 => []
  | count + 1 => i :: loopNumbers (i + 1) count

theorem mem_loopNumbers {n : Int} : ∀ {i : Int} {count : Nat},
    n ∈ loopNumbers i count ↔ i ≤ n ∧ n < i + count
  | _, 0 => by simp [loopNumbers]
  | i, count + 1 => by
    rw [loopNumbers, List.mem_cons, mem_loopNumbers]
    omega

/-- The loop of `InvestigateValue` is a run of `InvestigateBallot` over the numbers it visits. -/
theorem investigateRange_eq_foldlM (x : SlotValue) :
    ∀ (count : Nat) (s : BallotState) (i : Int),
      investigateRange x s i count = (loopNumbers i count).foldlM (fun s n => s.investigateBallot n x) s
  | 0, _, _ => rfl
  | count + 1, s, i => by
    simp only [investigateRange, loopNumbers, List.foldlM_cons, investigateRange_eq_foldlM x count]

variable {s}

/-! ### What the four steps do to our ballot -/

section Ballot

variable {n : Int} {x : SlotValue}

theorem acceptPrepared_ballot {ballot : Ballot} {s' : BallotState}
    (h : s.acceptPrepared ballot = .ok s') : s'.b = s.b := by
  unfold acceptPrepared at h
  split at h
  · cases h
    rfl
  · split_ifs at h <;> cases h <;> rfl

theorem maybeAcceptAsPrepared_ballot {r : Bool × BallotState}
    (h : s.maybeAcceptAsPrepared n x = .ok r) : r.2.b = s.b := by
  refine Meets.of_ok (E := fun _ => True) (P := fun r : Bool × BallotState => r.2.b = s.b) ?_ h
  unfold maybeAcceptAsPrepared
  -- the short circuits return the state as it was
  refine meets_ite_pure rfl fun _ => ?_
  refine meets_ite_pure rfl fun _ => ?_
  refine meets_ite_pure rfl fun _ => ?_
  refine meets_ite_pure rfl fun _ => ?_
  refine meets_ite_pure rfl fun _ => ?_
  dsimp only
  generalize (if s.b.any (fun b => decide (b.n ≥ n) && b.x == x) = true then [s.publicKey]
    else []) = own
  refine meets_ite_pure rfl fun _ => ?_
  have hacc : (s.acceptPrepared ⟨n, x⟩).Meets (fun _ => True) (fun s₁ => s₁.b = s.b) := by
    cases h₁ : s.acceptPrepared ⟨n, x⟩ with
    | error f => trivial
    | ok s₁ => exact acceptPrepared_ballot h₁
  refine hacc.bind fun s₁ hs₁ => ?_
  split_ifs
  · split
    · trivial
    · -- dropping the vote leaves the ballot
      refine (meets_trivial _).bind fun abort _ => meets_pure ?_
      split_ifs <;> exact hs₁
  · exact meets_pure hs₁

theorem maybeConfirmAsPrepared_ballot {r : Bool × BallotState}
    (h : s.maybeConfirmAsPrepared n x = .ok r) : r.2.b = s.b ∨ r.2.b = some ⟨n, x⟩ := by
  refine Meets.of_ok (E := fun _ => True)
    (P := fun r : Bool × BallotState => r.2.b = s.b ∨ r.2.b = some ⟨n, x⟩) ?_ h
  unfold maybeConfirmAsPrepared
  -- the short circuits return the state as it was
  refine meets_ite_pure (.inl rfl) fun _ => ?_
  refine meets_ite_pure (.inl rfl) fun _ => ?_
  refine meets_ite_pure (.inl rfl) fun _ => ?_
  dsimp only
  -- no quorum confirms `(n, x)`; or two values are confirmed at `hn`, and only the vote goes
  refine meets_ite_pure (.inl rfl) fun _ => ?_
  refine meets_ite_pure (.inl rfl) fun _ => ?_
  -- past the check for a contradiction, every result takes the ballot `s.b.getD (n, x)`
  have hb : (some (s.b.getD ⟨n, x⟩)) = s.b ∨ some (s.b.getD ⟨n, x⟩) = some ⟨n, x⟩ := by
    cases s.b with
    | none => exact .inr rfl
    | some b => exact .inl rfl
  -- the `do` block carries its rest into each way the test for a contradiction is computed
  split
  · split
    · refine (meets_trivial _).bind fun contradiction _ => ?_
      split_ifs
      all_goals first
        | exact meets_pure hb
        | trivial
    · trivial
  · refine (meets_trivial _).bind fun contradiction _ => ?_
    split_ifs
    all_goals first
      | exact meets_pure hb
      | trivial

theorem maybeAcceptAsCommitted_ballot :
    (s.maybeAcceptAsCommitted n x).2.b = s.b ∨ (s.maybeAcceptAsCommitted n x).2.b = some ⟨n, x⟩ := by
  unfold maybeAcceptAsCommitted
  dsimp only
  split_ifs
  all_goals first
    | exact .inl rfl
    | exact .inr rfl

theorem maybeConfirmAsCommitted_ballot : (s.maybeConfirmAsCommitted n x).2.b = s.b := by
  unfold maybeConfirmAsCommitted
  dsimp only
  split_ifs <;> rfl

/-- `InvestigateBallot(n, x)` keeps our ballot or moves it to `(n, x)`. -/
theorem investigateBallot_ballot {s' : BallotState} (h : s.investigateBallot n x = .ok s') :
    s'.b = s.b ∨ s'.b = some ⟨n, x⟩ := by
  unfold investigateBallot at h
  split_ifs at h
  · cases h
    exact .inl rfl
  obtain ⟨r₁, h₁, h⟩ := Except.bind_eq_ok.mp h
  obtain ⟨r₂, h₂, h⟩ := Except.bind_eq_ok.mp h
  cases h
  rw [maybeConfirmAsCommitted_ballot]
  rcases maybeAcceptAsCommitted_ballot (s := r₂.2) (n := n) (x := x) with h₃ | h₃
  · rw [h₃, ← maybeAcceptAsPrepared_ballot h₁]
    exact maybeConfirmAsPrepared_ballot h₂
  · exact .inr h₃

end Ballot

/-- A run of `InvestigateBallot` over some numbers leaves our ballot, or moves it to one of
those numbers. -/
theorem foldlM_investigateBallot_ballot {x : SlotValue} {ns : List Int} {s' : BallotState}
    (h : ns.foldlM (fun s n => s.investigateBallot n x) s = .ok s') :
    s'.b = s.b ∨ ∃ j ∈ ns, s'.b = some ⟨j, x⟩ := by
  refine StepRun.foldlM_invariant_of (fun t : BallotState => t.b = s.b ∨ ∃ j ∈ ns, t.b = some ⟨j, x⟩)
    (· ∈ ns) (fun t a t' ha ht hstep => ?_) ns (fun _ h => h) (.inl rfl) h
  rcases investigateBallot_ballot hstep with hkeep | hmove
  · rw [hkeep]
    exact ht
  · exact .inr ⟨a, ha, hmove⟩

variable (s)

/-- `InvestigateValue(x)` runs `InvestigateBallot` over a list of numbers, after a successful
`RelevantRange`, and each of them is at most the actionable maximum or is our ballot number from
before. -/
theorem investigateValue_eq_calls (x : SlotValue) :
    ∃ ns : List Int, (∀ n ∈ ns, n ≤ s.maxActionableBallotNumber ∨ ∃ b, s.b = some b ∧ n = b.n) ∧
      s.investigateValue x =
        s.relevantRange x >>= fun _ => ns.foldlM (fun s n => s.investigateBallot n x) s := by
  unfold investigateValue
  cases hr : s.relevantRange x with
  | error e => exact ⟨[], by simp, rfl⟩
  | ok r =>
    obtain ⟨lo, hi⟩ := r
    simp only [Except.ok_bind]
    have hclamp : (if hi > s.maxActionableBallotNumber then s.maxActionableBallotNumber else hi) ≤
        s.maxActionableBallotNumber := by
      split_ifs <;> omega
    generalize (if hi > s.maxActionableBallotNumber then s.maxActionableBallotNumber else hi) = top
      at hclamp ⊢
    -- the loop visits `lo, ..., top`, all at most the actionable maximum
    have hloop : ∀ n ∈ loopNumbers lo (top - lo + 1).toNat, n ≤ s.maxActionableBallotNumber := by
      intro n hn
      have := mem_loopNumbers.mp hn
      omega
    rw [investigateRange_eq_foldlM]
    cases hrun : (loopNumbers lo (top - lo + 1).toNat).foldlM (fun s n => s.investigateBallot n x) s with
    | error e => exact ⟨_, fun n hn => .inl (hloop n hn), by rw [hrun]; rfl⟩
    | ok s₁ =>
      rw [Except.ok_bind]
      cases hb : s₁.b with
      | none => exact ⟨_, fun n hn => .inl (hloop n hn), by rw [hrun]; rfl⟩
      | some b =>
        by_cases hcall : lo + ((top - lo + 1).toNat : Int) ≤ b.n
        · -- the loop stopped below our ballot, so the loop never moved it
          have hb₀ : s.b = some b := by
            rcases foldlM_investigateBallot_ballot hrun with hkeep | ⟨j, hj, hmove⟩
            · rw [← hkeep, hb]
            · rw [hb] at hmove
              cases hmove
              have := mem_loopNumbers.mp hj
              dsimp only at hcall
              omega
          refine ⟨loopNumbers lo (top - lo + 1).toNat ++ [b.n], fun n hn => ?_, ?_⟩
          · rcases List.mem_append.mp hn with hn | hn
            · exact .inl (hloop n hn)
            · exact .inr ⟨b, hb₀, List.mem_singleton.mp hn⟩
          · simp only [List.foldlM_append, hrun, Except.ok_bind, List.foldlM_cons, List.foldlM_nil,
              bind_pure, if_pos hcall]
        · refine ⟨_, fun n hn => .inl (hloop n hn), ?_⟩
          simp only [hrun, if_neg hcall, Except.pure_eq_ok]

/-- What the actionable maximum is and what it bounds: it is the greatest blocking number, or 0
when none blocks; `InvestigateValue(x)` calls `InvestigateBallot` only up to it or at our ballot
number; and peers that do not block cannot lift it above every number the others send. -/
theorem investigateValue_actionable_range :
    (IsGreatest s.blockingNumbers s.maxActionableBallotNumber ∨
      (s.blockingNumbers = ∅ ∧ s.maxActionableBallotNumber = 0)) ∧
    (∀ x, ∃ ns : List Int,
      (∀ n ∈ ns, n ≤ s.maxActionableBallotNumber ∨ ∃ b, s.b = some b ∧ n = b.n) ∧
        s.investigateValue x =
          s.relevantRange x >>= fun _ => ns.foldlM (fun s n => s.investigateBallot n x) s) ∧
    ∀ P : List String, s.d.blockedBy P = false →
      s.maxActionableBallotNumber = 0 ∨
        ∃ node m, s.m.lookup node = some m ∧ node ∉ P ∧ s.maxActionableBallotNumber ≤ m.maxN :=
  ⟨maxActionableBallotNumber_isGreatest s, investigateValue_eq_calls s,
    fun _ hP => maxActionable_le_of_not_blocking s hP⟩

end BallotState

end Coinkit.Consensus

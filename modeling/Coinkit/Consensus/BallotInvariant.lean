import Coinkit.Consensus.BallotState
import Coinkit.Lib.Run

/-!
# What every reachable ballot state satisfies

`AssertValid` checks that `cn ≤ hn`, that `p` and `p'` are incompatible,
that in the prepare phase no accepted-prepared ballot of another value
reaches `hn` while we vote to commit, and that `b` has not gone down. Two
`log.Fatal`s inside the prepare steps are meant to be unreachable as well.

None of this follows step by step from the checked conditions alone. The
inductive strengthening `Inv` adds what the steps rely on:

- `p'` sits below `p` with another value (`PairValid`), so two ballots of
  one number with different values accepted as prepared force both `p` and
  `p'` up to that number (`BothReach`), and then every value is aborted;
- while we vote to commit, `z` is our ballot's value (`z_of_cn`), so moving
  to the next ballot keeps the value we vote for;
- `z` is a value we accept as prepared at `hn`, unless everything at `hn` is
  aborted (`z_prepared`); with no `z`, everything at `hn` is aborted
  (`z_none`), so the nomination state's prediction never starts a vote.

Nothing in `Inv` depends on the peers' messages: the steps are safe
whatever the peers send, as long as no peer speaks with our own key.

Every step is stated as a postcondition that covers errors (`Except.Meets`):
it keeps `Inv`, it only moves forward (`Grows`: the phase never goes back,
and in the prepare phase the ballot number never goes down), and the only
errors it can raise are not the two protocol fatals (`Safe`).
-/

set_option autoImplicit false

namespace Coinkit.Consensus

namespace BallotState

open Except

/-! ## The pair `p`, `p'` -/

/-- `p` or `p'` is a ballot of number at least `n` with value `v`: we accept
`(n, v)` as prepared. -/
def AcceptsPrepared (s : BallotState) (n : Int) (v : SlotValue) : Prop :=
  (∃ p, s.p = some p ∧ n ≤ p.n ∧ p.x = v) ∨ ∃ q, s.pPrime = some q ∧ n ≤ q.n ∧ q.x = v

/-- `p` or `p'` is a ballot of number at least `n` with another value than
`v`: we accept the abort of `(n, v)`. -/
def AbortsPrepared (s : BallotState) (n : Int) (v : SlotValue) : Prop :=
  (∃ p, s.p = some p ∧ n ≤ p.n ∧ p.x ≠ v) ∨ ∃ q, s.pPrime = some q ∧ n ≤ q.n ∧ q.x ≠ v

/-- Both `p` and `p'` reach `n`. -/
def BothReach (s : BallotState) (n : Int) : Prop :=
  ∃ p q, s.p = some p ∧ s.pPrime = some q ∧ n ≤ p.n ∧ n ≤ q.n

/-- `p'` is below `p` and has another value. -/
def PairValid (s : BallotState) : Prop :=
  ∀ q, s.pPrime = some q → ∃ p, s.p = some p ∧ q.x ≠ p.x ∧ q.n ≤ p.n

theorem any_ballot_iff {o : Option Ballot} {f : Ballot → Bool} :
    o.any f = true ↔ ∃ b, o = some b ∧ f b = true := by
  cases o <;> simp

theorem preparedAbort_iff {s : BallotState} {n : Int} {x : SlotValue} :
    s.preparedAbort n x = true ↔ s.AbortsPrepared n x := by
  simp only [preparedAbort, AbortsPrepared, Bool.or_eq_true, any_ballot_iff, Bool.and_eq_true,
    decide_eq_true_eq, bne_iff_ne, ne_eq, ge_iff_le]

theorem gtecompat_some_iff {o : Option Ballot} {n : Int} {x : SlotValue} :
    gtecompat o (some ⟨n, x⟩) = true ↔ ∃ b, o = some b ∧ n ≤ b.n ∧ b.x = x := by
  cases o with
  | none => simp [gtecompat]
  | some b => simp [gtecompat, not_lt]

theorem gteincompat_some_iff {o : Option Ballot} {n : Int} {x : SlotValue} :
    gteincompat o (some ⟨n, x⟩) = true ↔ ∃ b, o = some b ∧ n ≤ b.n ∧ b.x ≠ x := by
  cases o with
  | none => simp [gteincompat]
  | some b => simp [gteincompat, not_lt]

/-- Our own acceptance in `MaybeConfirmAsPrepared` is `AcceptsPrepared`. -/
theorem own_gtecompat_iff {s : BallotState} {n : Int} {x : SlotValue} :
    (gtecompat s.p (some ⟨n, x⟩) || gtecompat s.pPrime (some ⟨n, x⟩)) = true ↔
      s.AcceptsPrepared n x := by
  rw [Bool.or_eq_true, gtecompat_some_iff, gtecompat_some_iff]
  rfl

/-- The abort test of `MaybeConfirmAsPrepared` is `AbortsPrepared`. -/
theorem own_gteincompat_iff {s : BallotState} {n : Int} {x : SlotValue} :
    (gteincompat s.p (some ⟨n, x⟩) || gteincompat s.pPrime (some ⟨n, x⟩)) = true ↔
      s.AbortsPrepared n x := by
  rw [Bool.or_eq_true, gteincompat_some_iff, gteincompat_some_iff]
  rfl

/-- When both `p` and `p'` reach `n`, every ballot of number `n` is aborted:
one of the two has another value. -/
theorem abortsPrepared_of_bothReach {s : BallotState} (hpair : s.PairValid) {n : Int}
    (h : s.BothReach n) (x : SlotValue) : s.AbortsPrepared n x := by
  obtain ⟨p, q, hp, hq, hnp, hnq⟩ := h
  obtain ⟨p', hp', hqp, -⟩ := hpair q hq
  rw [hp] at hp'
  cases hp'
  by_cases hx : p.x = x
  · exact .inr ⟨q, hq, hnq, by rw [← hx]; exact hqp⟩
  · exact .inl ⟨p, hp, hnp, hx⟩

/-- Accepting two values as prepared at one number needs both of the pair. -/
theorem bothReach_of_acceptsPrepared {s : BallotState} {n : Int} {v x : SlotValue}
    (hv : s.AcceptsPrepared n v) (hx : s.AcceptsPrepared n x) (hne : v ≠ x) : s.BothReach n := by
  rcases hv with ⟨p, hp, hnp, rfl⟩ | ⟨q, hq, hnq, rfl⟩
  · rcases hx with ⟨p', hp', -, rfl⟩ | ⟨q, hq, hnq, rfl⟩
    · rw [hp] at hp'
      cases hp'
      exact absurd rfl hne
    · exact ⟨p, q, hp, hq, hnp, hnq⟩
  · rcases hx with ⟨p, hp, hnp, rfl⟩ | ⟨q', hq', -, rfl⟩
    · exact ⟨p, q, hp, hq, hnp, hnq⟩
    · rw [hq] at hq'
      cases hq'
      exact absurd rfl hne

/-- Aborts only get fewer as the number grows. -/
theorem abortsPrepared_of_le {s : BallotState} {n n' : Int} {x : SlotValue} (hle : n ≤ n')
    (h : s.AbortsPrepared n' x) : s.AbortsPrepared n x := by
  rcases h with ⟨p, hp, hn, hx⟩ | ⟨q, hq, hn, hx⟩
  · exact .inl ⟨p, hp, le_trans hle hn, hx⟩
  · exact .inr ⟨q, hq, le_trans hle hn, hx⟩

/-- A value accepted as prepared above a live vote to commit is the value
voted for. -/
theorem eq_of_acceptsPrepared {s : BallotState} {n h : Int} {x y : SlotValue}
    (hacc : s.AcceptsPrepared n x) (hlive : ¬ s.AbortsPrepared h y) (hle : h ≤ n) : x = y := by
  by_contra hne
  apply hlive
  rcases hacc with ⟨p, hp, hn, rfl⟩ | ⟨q, hq, hn, rfl⟩
  · exact .inl ⟨p, hp, le_trans hle hn, hne⟩
  · exact .inr ⟨q, hq, le_trans hle hn, hne⟩

/-! ## Accepting a ballot as prepared -/

/-- What the update of `p` and `p'` does once the short circuits have
passed: it returns, touches nothing else, keeps the pair valid, keeps both
of the pair at their heights, and keeps every acceptance or replaces it by
both of the pair reaching its number. -/
theorem acceptPrepared_spec {s : BallotState} {n : Int} {x : SlotValue}
    (hp : ¬ ∃ p, s.p = some p ∧ n ≤ p.n ∧ p.x = x)
    (hq : ¬ ∃ q, s.pPrime = some q ∧ n ≤ q.n) (hpair : s.PairValid) :
    ∃ s₁, s.acceptPrepared ⟨n, x⟩ = .ok s₁ ∧ (∃ p q, s₁ = { s with p := p, pPrime := q }) ∧
      s₁.PairValid ∧ (∀ h, s.BothReach h → s₁.BothReach h) ∧
      ∀ h v, s.AcceptsPrepared h v → s₁.AcceptsPrepared h v ∨ s₁.BothReach h := by
  unfold acceptPrepared
  cases hsp : s.p with
  | none =>
    -- with no `p` there is no `p'` either, and nothing is accepted
    have hq' : s.pPrime = none := by
      cases hsq : s.pPrime with
      | none => rfl
      | some q =>
        obtain ⟨p, hp', -⟩ := hpair q hsq
        rw [hsp] at hp'
        cases hp'
    refine ⟨_, rfl, ⟨_, _, rfl⟩, ?_, ?_, ?_⟩
    · intro q hq''
      rw [show ({ s with p := some ⟨n, x⟩ } : BallotState).pPrime = s.pPrime from rfl, hq'] at hq''
      cases hq''
    · rintro h ⟨p, q, hp', -⟩
      rw [hsp] at hp'
      cases hp'
    · rintro h v (⟨p, hp', -⟩ | ⟨q, hq'', -⟩)
      · rw [hsp] at hp'
        cases hp'
      · rw [hq'] at hq''
        cases hq''
  | some p =>
    dsimp only
    by_cases hx : p.x = x
    · -- a higher ballot of the value of `p` replaces `p`
      have hlt : p.n < n := by
        by_contra hle
        exact hp ⟨p, hsp, by omega, hx⟩
      rw [if_pos hx, if_neg (by omega)]
      refine ⟨_, rfl, ⟨_, _, rfl⟩, ?_, ?_, ?_⟩
      · intro q hq'
        obtain ⟨p', hp', hqx, hqn⟩ := hpair q hq'
        rw [hsp] at hp'
        cases hp'
        exact ⟨⟨n, x⟩, rfl, by rw [← hx]; exact hqx, by dsimp only; omega⟩
      · rintro h ⟨p', q, hp', hq', hnp, hnq⟩
        rw [hsp] at hp'
        cases hp'
        exact ⟨⟨n, x⟩, q, rfl, hq', by dsimp only; omega, hnq⟩
      · rintro h v (⟨p', hp', hnp, rfl⟩ | ⟨q, hq', hnq, rfl⟩)
        · rw [hsp] at hp'
          cases hp'
          exact .inl (.inl ⟨⟨n, x⟩, rfl, by dsimp only; omega, hx.symm⟩)
        · exact .inl (.inr ⟨q, hq', hnq, rfl⟩)
    · rw [if_neg hx]
      by_cases hge : n ≥ p.n
      · -- a higher ballot of another value pushes `p` down to `p'`
        rw [if_pos hge]
        refine ⟨_, rfl, ⟨_, _, rfl⟩, ?_, ?_, ?_⟩
        · intro q hq'
          cases hq'
          exact ⟨⟨n, x⟩, rfl, hx, hge⟩
        · rintro h ⟨p', q, hp', hq', hnp, hnq⟩
          rw [hsp] at hp'
          cases hp'
          exact ⟨⟨n, x⟩, p, rfl, rfl, by dsimp only; omega, hnp⟩
        · rintro h v (⟨p', hp', hnp, rfl⟩ | ⟨q, hq', hnq, rfl⟩)
          · rw [hsp] at hp'
            cases hp'
            exact .inl (.inr ⟨p, rfl, hnp, rfl⟩)
          · obtain ⟨p', hp', hqx, hqn⟩ := hpair q hq'
            rw [hsp] at hp'
            cases hp'
            by_cases hv : x = q.x
            · exact .inl (.inl ⟨⟨n, x⟩, rfl, by dsimp only; omega, hv⟩)
            · exact .inr ⟨⟨n, x⟩, p, rfl, rfl, by dsimp only; omega, by omega⟩
      · -- a ballot between `p'` and `p` of another value replaces `p'`
        rw [if_neg hge]
        have habove : ∀ q, s.pPrime = some q → q.n < n := by
          intro q hq'
          by_contra hle
          exact hq ⟨q, hq', by omega⟩
        refine ⟨_, rfl, ⟨_, _, rfl⟩, ?_, ?_, ?_⟩
        · intro q hq'
          cases hq'
          exact ⟨p, rfl, Ne.symm hx, by dsimp only; omega⟩
        · rintro h ⟨p', q, hp', hq', hnp, hnq⟩
          have := habove q hq'
          rw [hsp] at hp'
          cases hp'
          exact ⟨p, ⟨n, x⟩, rfl, rfl, hnp, by dsimp only; omega⟩
        · rintro h v (⟨p', hp', hnp, rfl⟩ | ⟨q, hq', hnq, rfl⟩)
          · rw [hsp] at hp'
            cases hp'
            exact .inl (.inl ⟨p, rfl, hnp, rfl⟩)
          · have hqn := habove q hq'
            by_cases hv : x = q.x
            · exact .inl (.inr ⟨⟨n, x⟩, rfl, by dsimp only; omega, hv⟩)
            · rw [hsp] at *
              exact .inr ⟨p, ⟨n, x⟩, rfl, rfl, by omega, by dsimp only; omega⟩

/-! ## The invariant, the faults, and moving forward -/

/-- The inductive strengthening of `AssertValid`. The fields after
`self_unknown` constrain the prepare phase only. -/
structure Inv (s : BallotState) : Prop where
  phase_ne_invalid : s.phase ≠ .invalid
  cn_nonneg : 0 ≤ s.cn
  cn_le_hn : s.cn ≤ s.hn
  b_pos : ∀ b, s.b = some b → 1 ≤ b.n
  b_of_cn : s.cn ≠ 0 → ∃ b, s.b = some b
  pair : s.PairValid
  self_unknown : s.m.lookup s.publicKey = none
  commit_live : s.phase = .prepare → s.cn ≠ 0 → ∀ b, s.b = some b → ¬ s.AbortsPrepared s.hn b.x
  z_of_cn : s.phase = .prepare → s.cn ≠ 0 → ∀ b, s.b = some b → s.z = some b.x
  z_prepared : s.phase = .prepare → ∀ v, s.z = some v → s.AcceptsPrepared s.hn v ∨ s.BothReach s.hn
  z_none : s.phase = .prepare → s.z = none → s.hn ≠ 0 → s.BothReach s.hn
  last_le : s.phase = .prepare → ∀ l, s.last = some l → ∃ b, s.b = some b ∧ l.n ≤ b.n

/-- Faults other than the two `log.Fatal`s of the prepare steps. -/
def Safe (f : Fault) : Prop :=
  f ≠ .fatal "should have short circuited already" ∧
    f ≠ .fatal "we are voting to commit but must confirm a contradiction"

theorem safe_panic (message : String) : Safe (.panic message) := by
  constructor <;> simp

theorem safe_fuel : Safe .fuel := by
  constructor <;> simp

/-- The phase never goes back, the key never changes, and while we are
still preparing the ballot number never goes down. Stated with the phases'
numbers so that it composes without knowing the middle state. -/
structure Grows (s s' : BallotState) : Prop where
  publicKey : s'.publicKey = s.publicKey
  phase : s.phase.toInt ≤ s'.phase.toInt
  ballot : s'.phase.toInt ≤ 1 → ∀ b, s.b = some b → ∃ b', s'.b = some b' ∧ b.n ≤ b'.n

theorem Grows.refl (s : BallotState) : Grows s s :=
  ⟨rfl, le_refl _, fun _ b hb => ⟨b, hb, le_refl _⟩⟩

theorem Grows.trans {s₁ s₂ s₃ : BallotState} (h₁ : Grows s₁ s₂) (h₂ : Grows s₂ s₃) :
    Grows s₁ s₃ := by
  refine ⟨h₂.publicKey.trans h₁.publicKey, le_trans h₁.phase h₂.phase, fun hle b hb => ?_⟩
  obtain ⟨b₂, hb₂, hn₂⟩ := h₁.ballot (le_trans h₂.phase hle) b hb
  obtain ⟨b₃, hb₃, hn₃⟩ := h₂.ballot hle b₂ hb₂
  exact ⟨b₃, hb₃, le_trans hn₂ hn₃⟩

/-- A step that keeps the key and the phase and does not lower the ballot
grows. -/
theorem Grows.of_ballot {s s' : BallotState} (hkey : s'.publicKey = s.publicKey)
    (hphase : s'.phase = s.phase) (hb : ∀ b, s.b = some b → ∃ b', s'.b = some b' ∧ b.n ≤ b'.n) :
    Grows s s' :=
  ⟨hkey, le_of_eq (congrArg Phase.toInt hphase.symm), fun _ => hb⟩

theorem Grows.of_keep {s s' : BallotState} (hkey : s'.publicKey = s.publicKey)
    (hphase : s'.phase = s.phase) (hb : ∀ b, s.b = some b → s'.b = some b) : Grows s s' :=
  Grows.of_ballot hkey hphase fun b h => ⟨b, hb b h, le_refl _⟩

/-- A step into a later phase grows. -/
theorem Grows.of_later {s s' : BallotState} (hkey : s'.publicKey = s.publicKey)
    (hphase : s.phase.toInt ≤ s'.phase.toInt) (hlater : 1 < s'.phase.toInt) : Grows s s' :=
  ⟨hkey, hphase, fun h => absurd h (not_le.mpr hlater)⟩

/-- What every step establishes: the invariant after it, and growth. -/
def Next (s s' : BallotState) : Prop := s'.Inv ∧ Grows s s'

theorem Next.refl {s : BallotState} (hs : s.Inv) : Next s s := ⟨hs, Grows.refl s⟩

theorem Next.trans {s₁ s₂ s₃ : BallotState} (h₁ : Next s₁ s₂) (h₂ : Next s₂ s₃) : Next s₁ s₃ :=
  ⟨h₂.1, h₁.2.trans h₂.2⟩

/-! ## Who is in a quorum we meet -/

theorem mem_ite_singleton {c : Prop} [Decidable c] {a k : String} (h : a ∈ (if c then [k] else [])) :
    c := by
  split_ifs at h with hc
  · exact hc
  · cases h

/-- We are in every quorum we meet, and no peer speaks with our key, so our
own vote is what put us in. -/
theorem self_mem_of_meetsQuorum_nodesWhere {s : BallotState} (hs : s.Inv) {init : List String}
    {pred : BallotMessage → Bool} (h : meetsQuorum s.quorumFinder (s.nodesWhere init pred) = true) :
    s.publicKey ∈ init :=
  mem_nodesWhere_of_lookup_none hs.self_unknown (meetsQuorum_mem_self h)

theorem self_mem_of_meetsQuorum_tally {s : BallotState} (hs : s.Inv) {init : List String}
    {accept vote : BallotMessage → Bool}
    (h : meetsQuorum s.quorumFinder (s.tally init accept vote).1 = true) : s.publicKey ∈ init :=
  mem_tally_fst_of_lookup_none hs.self_unknown (meetsQuorum_mem_self h)

/-! ## The prepare steps -/

/-- The state after `p` and `p'` move, with the vote to commit kept or
dropped, keeps the invariant when a kept vote is not aborted. -/
theorem Inv.acceptPrepared {s : BallotState} (hs : s.Inv) {p' q' : Option Ballot}
    (hpair : PairValid { s with p := p', pPrime := q' })
    (hboth : ∀ h, s.BothReach h → BothReach { s with p := p', pPrime := q' } h)
    (haccs : ∀ h v, s.AcceptsPrepared h v →
      AcceptsPrepared { s with p := p', pPrime := q' } h v ∨ BothReach { s with p := p', pPrime := q' } h)
    {c : Int} (hc : c = s.cn ∨ c = 0)
    (hlive : s.phase = .prepare → c ≠ 0 → ∀ b, s.b = some b →
      ¬ AbortsPrepared { s with p := p', pPrime := q' } s.hn b.x) :
    Inv { s with p := p', pPrime := q', cn := c } := by
  have hcn : c ≠ 0 → c = s.cn := fun h => hc.resolve_right h
  refine ⟨hs.phase_ne_invalid, ?_, ?_, hs.b_pos, fun h => hs.b_of_cn (hcn h ▸ h), hpair,
    hs.self_unknown, hlive, fun hp h b hb => hs.z_of_cn hp (hcn h ▸ h) b hb, ?_, ?_, hs.last_le⟩
  · rcases hc with rfl | rfl
    · exact hs.cn_nonneg
    · exact le_refl 0
  · rcases hc with rfl | rfl
    · exact hs.cn_le_hn
    · exact le_trans hs.cn_nonneg hs.cn_le_hn
  · intro hp v hz
    rcases hs.z_prepared hp v hz with h | h
    · exact haccs _ v h
    · exact .inr (hboth _ h)
  · intro hp hz hh
    exact hboth _ (hs.z_none hp hz hh)

theorem acceptedAbort_eq {s : BallotState} {b : Ballot} (hb : s.b = some b) (n : Int)
    (x : SlotValue) :
    s.acceptedAbort n x = .ok (if s.phase ≠ .prepare then x != b.x else s.preparedAbort n x) := by
  unfold acceptedAbort
  split_ifs
  · rw [hb]
    rfl
  · rfl

/-- `MaybeAcceptAsPrepared` keeps the invariant and never reaches its
`log.Fatal`. -/
theorem maybeAcceptAsPrepared_meets {s : BallotState} (hs : s.Inv) (n : Int) (x : SlotValue) :
    (s.maybeAcceptAsPrepared n x).Meets Safe (fun r => Next s r.2) := by
  unfold maybeAcceptAsPrepared
  -- the short circuits return the state as it was
  refine meets_ite_pure (Next.refl hs) fun hphase => ?_
  refine meets_ite_pure (Next.refl hs) fun _ => ?_
  refine meets_ite_pure (Next.refl hs) fun hp => ?_
  refine meets_ite_pure (Next.refl hs) fun _ => ?_
  refine meets_ite_pure (Next.refl hs) fun hq' => ?_
  dsimp only
  -- whether we vote ourselves does not matter to what the step keeps
  generalize (if s.b.any (fun b => decide (b.n ≥ n) && b.x == x) = true then [s.publicKey]
    else []) = own
  refine meets_ite_pure (Next.refl hs) fun _ => ?_
  have hprep : s.phase = .prepare := not_not.mp hphase
  have hp₁ : ¬ ∃ p, s.p = some p ∧ n ≤ p.n ∧ p.x = x := by
    rintro ⟨p, hsp, hn, hx⟩
    exact hp (any_ballot_iff.mpr ⟨p, hsp, by simp [hn, hx]⟩)
  have hq₁ : ¬ ∃ q, s.pPrime = some q ∧ n ≤ q.n := by
    rintro ⟨q, hsq, hn⟩
    exact hq' (any_ballot_iff.mpr ⟨q, hsq, by simp [hn]⟩)
  obtain ⟨s₁, hacc, ⟨p', q', rfl⟩, hpair, hboth, haccs⟩ := acceptPrepared_spec hp₁ hq₁ hs.pair
  rw [hacc, Except.ok_bind]
  obtain ⟨phase, b, last, p, pPrime, cn, hn, z, m, stale, publicKey, d⟩ := s
  dsimp only at hprep ⊢
  subst hprep
  by_cases hc : cn ≠ 0 ∧ hn ≠ 0
  · rw [if_pos hc]
    obtain ⟨b, rfl⟩ := hs.b_of_cn hc.1
    simp only [acceptedAbort, ne_eq, not_true_eq_false, if_false, Except.pure_eq_ok,
      Except.ok_bind]
    split_ifs with habort
    · -- aborted: the vote is dropped
      exact meets_pure ⟨hs.acceptPrepared hpair hboth haccs (.inr rfl) fun _ h => absurd rfl h,
        Grows.of_keep rfl rfl fun _ h => h⟩
    · -- not aborted: the vote stays
      refine meets_pure ⟨hs.acceptPrepared hpair hboth haccs (.inl rfl) fun _ _ b' hb' => ?_,
        Grows.of_keep rfl rfl fun _ h => h⟩
      cases hb'
      exact fun h => habort (preparedAbort_iff.mpr h)
  · rw [if_neg hc]
    refine meets_pure ⟨hs.acceptPrepared hpair hboth haccs (.inl rfl) fun _ hcn => ?_,
      Grows.of_keep rfl rfl fun _ h => h⟩
    have hhn : hn ≠ 0 := by have := hs.cn_nonneg; have := hs.cn_le_hn; dsimp only at *; omega
    exact absurd ⟨hcn, hhn⟩ hc

/-- The state after a ballot `(n, x)` above `hn` is confirmed prepared, with
the vote to commit kept or started, keeps the invariant. -/
theorem Inv.confirmPrepared {s : BallotState} (hs : s.Inv) {n : Int} {x : SlotValue} (hn1 : 1 ≤ n)
    (hlt : s.hn < n) (hown : s.AcceptsPrepared n x) (hkeep : 0 < s.cn → ∀ b, s.b = some b → b.x = x)
    {c : Int} (hc : c = s.cn ∨ (s.cn = 0 ∧ x = (s.b.getD ⟨n, x⟩).x ∧ (s.b.getD ⟨n, x⟩).n ≤ n ∧
      ¬ s.AbortsPrepared n x ∧ c = (s.b.getD ⟨n, x⟩).n)) :
    Inv { s with hn := n, z := some x, b := some (s.b.getD ⟨n, x⟩), cn := c } := by
  have hbpos : 1 ≤ (s.b.getD ⟨n, x⟩).n := by
    cases hb : s.b with
    | none => exact hn1
    | some b => exact hs.b_pos b hb
  -- a kept vote is for our ballot, which is then the old one
  have hkept : c ≠ 0 → c = s.cn → ∃ b, s.b = some b ∧ b.x = x ∧ s.b.getD ⟨n, x⟩ = b := by
    intro hc0 hcs
    obtain ⟨b, hb⟩ := hs.b_of_cn (hcs ▸ hc0)
    have := hs.cn_nonneg
    exact ⟨b, hb, hkeep (by omega) b hb, by rw [hb]; rfl⟩
  refine ⟨hs.phase_ne_invalid, ?_, ?_, ?_, fun _ => ⟨_, rfl⟩, hs.pair, hs.self_unknown, ?_, ?_, ?_,
    fun _ h => absurd h (by simp), ?_⟩
  · rcases hc with rfl | ⟨-, -, -, -, rfl⟩
    · exact hs.cn_nonneg
    · exact le_trans zero_le_one hbpos
  · rcases hc with rfl | ⟨-, -, hle, -, rfl⟩
    · exact le_trans hs.cn_le_hn (le_of_lt hlt)
    · exact hle
  · intro b hb
    cases hb
    exact hbpos
  · -- the vote to commit is live at the new `hn`
    intro hp hc0 b hb
    cases hb
    rcases hc with hcs | ⟨-, hx, -, habort, -⟩
    · obtain ⟨b₀, hb₀, hx₀, heq⟩ := hkept hc0 hcs
      rw [heq]
      exact fun h => hs.commit_live hp (hcs ▸ hc0) b₀ hb₀ (abortsPrepared_of_le (le_of_lt hlt) h)
    · rw [← hx]
      exact habort
  · intro hp hc0 b hb
    cases hb
    rcases hc with hcs | ⟨-, hx, -⟩
    · obtain ⟨b₀, -, hx₀, heq⟩ := hkept hc0 hcs
      rw [heq, hx₀]
    · rw [← hx]
  · intro hp v hv
    cases hv
    exact .inl hown
  · intro hp l hl
    obtain ⟨b, hb, hle⟩ := hs.last_le hp l hl
    exact ⟨b, by rw [hb]; rfl, hle⟩

/-- `MaybeConfirmAsPrepared` keeps the invariant and never reaches its
`log.Fatalf`: a quorum accepting `(n, x)` includes us, so `p` or `p'`
accepts it, and a vote to commit another value would be aborted by it. -/
theorem maybeConfirmAsPrepared_meets {s : BallotState} (hs : s.Inv) {n : Int} (hn1 : 1 ≤ n)
    (x : SlotValue) : (s.maybeConfirmAsPrepared n x).Meets Safe (fun r => Next s r.2) := by
  unfold maybeConfirmAsPrepared
  -- the short circuits return the state as it was
  refine meets_ite_pure (Next.refl hs) fun hphase => ?_
  have hprep : s.phase = .prepare := not_not.mp hphase
  refine meets_ite_pure (Next.refl hs) fun hgt => ?_
  refine meets_ite_pure (Next.refl hs) fun heq => ?_
  dsimp only
  generalize hown : (if (gtecompat s.p (some ⟨n, x⟩) || gtecompat s.pPrime (some ⟨n, x⟩)) = true
    then [s.publicKey] else []) = own
  generalize haccepted : s.nodesWhere own (fun m => m.acceptAsPrepared n x) = accepted
  by_cases hno : meetsQuorum s.quorumFinder accepted = true
  swap
  · simp only [hno, Bool.not_false, if_true]
    exact meets_pure (Next.refl hs)
  simp only [hno, Bool.not_true, Bool.false_eq_true, if_false]
  -- the quorum includes us, so we accept `(n, x)` ourselves
  have hacc : s.AcceptsPrepared n x := by
    rw [← haccepted] at hno
    have hmem := self_mem_of_meetsQuorum_nodesWhere hs hno
    rw [← hown] at hmem
    exact own_gtecompat_iff.mp (mem_ite_singleton hmem)
  by_cases hhn : s.hn = n
  · -- two values confirmed prepared at `hn`: every ballot there is aborted
    rw [if_pos hhn]
    refine meets_pure ⟨⟨hs.phase_ne_invalid, le_refl 0, ?_, hs.b_pos, fun h => absurd rfl h,
      hs.pair, hs.self_unknown, fun _ h => absurd rfl h, fun _ h => absurd rfl h,
      fun _ v hv => absurd hv (by simp), fun hp _ _ => ?_, hs.last_le⟩,
      Grows.of_keep rfl rfl fun _ h => h⟩
    · have := hs.cn_nonneg
      have := hs.cn_le_hn
      dsimp only
      omega
    · obtain ⟨v, hv⟩ : ∃ v, s.z = some v := by
        cases hz : s.z with
        | none => exact absurd ⟨hhn, .inl hz⟩ heq
        | some v => exact ⟨v, rfl⟩
      have hvx : v ≠ x := fun h => heq ⟨hhn, .inr (h ▸ hv)⟩
      rcases hs.z_prepared hprep v hv with hv' | hboth
      · rw [hhn] at hv'
        exact hhn ▸ bothReach_of_acceptsPrepared hv' hacc hvx
      · exact hboth
  rw [if_neg hhn]
  have hlt : s.hn < n := by omega
  -- a vote to commit is for `x`: another value would be aborted by what we accept
  have hkeep : 0 < s.cn → ∀ b, s.b = some b → b.x = x := fun hcn b hb =>
    (eq_of_acceptsPrepared hacc (hs.commit_live hprep (by omega) b hb) (le_of_lt hlt)).symm
  obtain ⟨phase, b, last, p, pPrime, cn, hn, z, m, stale, publicKey, d⟩ := s
  dsimp only at hkeep hlt ⊢
  by_cases hcn : cn > 0
  · rw [if_pos hcn]
    obtain ⟨b, rfl⟩ := hs.b_of_cn (by dsimp only; omega)
    have hbx : (x != b.x) = false := by rw [hkeep hcn b rfl]; exact bne_self_eq_false x
    simp only [Except.pure_eq_ok, Except.ok_bind, hbx, Bool.false_eq_true, if_false]
    rw [if_neg (fun h => by omega)]
    exact meets_pure ⟨hs.confirmPrepared hn1 hlt hacc hkeep (.inl rfl),
      Grows.of_keep rfl rfl fun _ h => h⟩
  rw [if_neg hcn]
  simp only [Except.pure_eq_ok, Except.ok_bind, Bool.false_eq_true, if_false]
  have hgrow : ∀ b' : Ballot, b = some b' → some (b.getD ⟨n, x⟩) = some b' :=
    fun _ h => by rw [h]; rfl
  split_ifs with h0 hinc hbn
  · exact meets_pure ⟨hs.confirmPrepared hn1 hlt hacc hkeep (.inl rfl), Grows.of_keep rfl rfl hgrow⟩
  · exact meets_pure ⟨hs.confirmPrepared hn1 hlt hacc hkeep (.inl rfl), Grows.of_keep rfl rfl hgrow⟩
  · -- we start voting to commit our ballot
    have habort : ¬ AbortsPrepared ⟨phase, b, last, p, pPrime, cn, hn, z, m, stale, publicKey, d⟩ n x :=
      fun h => hinc (own_gteincompat_iff.mpr h)
    exact meets_pure ⟨hs.confirmPrepared hn1 hlt hacc hkeep
      (.inr ⟨h0.1, h0.2, not_lt.mp hbn, habort, rfl⟩), Grows.of_keep rfl rfl hgrow⟩
  · exact meets_pure ⟨hs.confirmPrepared hn1 hlt hacc hkeep (.inl rfl), Grows.of_keep rfl rfl hgrow⟩

/-! ## The commit steps -/

theorem Phase.toInt_le_two {phase : Phase} (h : phase ≠ .externalize) : phase.toInt ≤ 2 := by
  cases phase <;> simp_all [Phase.toInt]

theorem Phase.toInt_le_three (phase : Phase) : phase.toInt ≤ 3 := by
  cases phase <;> simp [Phase.toInt]

/-- Past the prepare phase only the first fields of `Inv` say anything. -/
theorem Inv.of_not_prepare {s : BallotState} (hphase : s.phase ≠ .prepare)
    (hvalid : s.phase ≠ .invalid) (h0 : 0 ≤ s.cn) (h1 : s.cn ≤ s.hn)
    (hb : ∀ b, s.b = some b → 1 ≤ b.n) (hcb : s.cn ≠ 0 → ∃ b, s.b = some b) (hpair : s.PairValid)
    (hself : s.m.lookup s.publicKey = none) : s.Inv :=
  ⟨hvalid, h0, h1, hb, hcb, hpair, hself, fun h => absurd h hphase, fun h => absurd h hphase,
    fun h => absurd h hphase, fun h => absurd h hphase, fun h => absurd h hphase⟩

theorem exists_of_not_all {b : Option Ballot} {f : Ballot → Bool} (h : ¬ b.all f = true) :
    ∃ b₀, b = some b₀ := by
  cases b with
  | none => exact absurd rfl h
  | some b₀ => exact ⟨b₀, rfl⟩

/-- `MaybeAcceptAsCommitted` keeps the invariant. -/
theorem maybeAcceptAsCommitted_next {s : BallotState} (hs : s.Inv) {n : Int} (hn1 : 1 ≤ n)
    (x : SlotValue) : Next s (s.maybeAcceptAsCommitted n x).2 := by
  unfold maybeAcceptAsCommitted
  by_cases hext : s.phase = .externalize
  · rw [if_pos hext]
    exact Next.refl hs
  rw [if_neg hext]
  by_cases hin : s.phase = .confirm ∧ s.cn ≤ n ∧ n ≤ s.hn
  · rw [if_pos hin]
    exact Next.refl hs
  rw [if_neg hin]
  dsimp only
  generalize s.tally (if s.phase = .prepare ∧ (s.b.any fun b => b.x == x) = true ∧ s.cn ≠ 0 ∧
    s.cn ≤ n ∧ n ≤ s.hn then [s.publicKey] else []) (fun m => m.acceptAsCommitted n x)
    (fun m => m.voteToCommit n x) = votes
  have hgrow : ∀ s' : BallotState, s'.publicKey = s.publicKey → s'.phase = .confirm → Grows s s' :=
    fun s' hkey hphase => Grows.of_later hkey (hphase ▸ Phase.toInt_le_two hext)
      (hphase ▸ by decide)
  by_cases hno : (!meetsQuorum s.quorumFinder votes.1 && !s.d.blockedBy votes.2) = true
  · rw [if_pos hno]
    exact Next.refl hs
  rw [if_neg hno]
  by_cases hrep : s.b.all (fun b => b.x != x) = true
  · rw [if_pos hrep]
    -- a commit of another value starts a new ballot; one of ours widens the range
    refine ⟨Inv.of_not_prepare (fun h => nomatch h) (fun h => nomatch h)
      (show (0 : Int) ≤ n by omega) (le_refl n) (fun b hb => ?_) (fun _ => ⟨_, rfl⟩) hs.pair
      hs.self_unknown, hgrow _ rfl rfl⟩
    cases hb
    exact hn1
  · rw [if_neg hrep]
    obtain ⟨b₀, hb₀⟩ := exists_of_not_all hrep
    have h0 := hs.cn_nonneg
    have h1 := hs.cn_le_hn
    refine ⟨Inv.of_not_prepare (fun h => nomatch h) (fun h => nomatch h) ?_ ?_ hs.b_pos
      (fun _ => ⟨b₀, hb₀⟩) hs.pair hs.self_unknown, hgrow _ rfl rfl⟩
    · show 0 ≤ if n < s.cn then n else s.cn
      split_ifs <;> omega
    · show (if n < s.cn then n else s.cn) ≤ if n > s.hn then n else s.hn
      split_ifs <;> omega

/-- `MaybeConfirmAsCommitted` keeps the invariant. -/
theorem maybeConfirmAsCommitted_next {s : BallotState} (hs : s.Inv) {n : Int} (hn1 : 1 ≤ n)
    (x : SlotValue) : Next s (s.maybeConfirmAsCommitted n x).2 := by
  unfold maybeConfirmAsCommitted
  by_cases hprep : s.phase = .prepare
  · rw [if_pos hprep]
    exact Next.refl hs
  rw [if_neg hprep]
  by_cases hall : s.b.all (fun b => b.x != x) = true
  · rw [if_pos hall]
    exact Next.refl hs
  rw [if_neg hall]
  obtain ⟨b₀, hb₀⟩ := exists_of_not_all hall
  by_cases hdone : s.phase ≠ .confirm ∧ s.cn ≤ n ∧ n ≤ s.hn
  · rw [if_pos hdone]
    exact Next.refl hs
  rw [if_neg hdone]
  dsimp only
  generalize s.nodesWhere (if s.phase = .confirm ∧ s.cn ≤ n ∧ n ≤ s.hn then [s.publicKey] else [])
    (fun m => m.acceptAsCommitted n x) = accepted
  by_cases hno : (!meetsQuorum s.quorumFinder accepted) = true
  · rw [if_pos hno]
    exact Next.refl hs
  rw [if_neg hno]
  by_cases hconf : s.phase = .confirm
  · rw [if_pos hconf]
    exact ⟨Inv.of_not_prepare (fun h => nomatch h) (fun h => nomatch h)
      (show (0 : Int) ≤ n by omega) (le_refl n) hs.b_pos (fun _ => ⟨b₀, hb₀⟩) hs.pair
      hs.self_unknown, Grows.of_later rfl (Phase.toInt_le_three _)
        (show (1 : Int) < Phase.externalize.toInt by decide)⟩
  · rw [if_neg hconf]
    have h0 := hs.cn_nonneg
    have h1 := hs.cn_le_hn
    refine ⟨Inv.of_not_prepare hprep hs.phase_ne_invalid ?_ ?_ hs.b_pos (fun _ => ⟨b₀, hb₀⟩)
      hs.pair hs.self_unknown, Grows.of_keep rfl rfl fun _ h => h⟩
    · show 0 ≤ if n < s.cn then n else s.cn
      split_ifs <;> omega
    · show (if n < s.cn then n else s.cn) ≤ if n > s.hn then n else s.hn
      split_ifs <;> omega

/-! ## Moving to the next ballot -/

/-- The state on a higher ballot whose value is `z` if there is one, with
the vote to commit kept, or started where nothing aborts it, keeps the
invariant. -/
theorem Inv.nextBallot {s : BallotState} (hs : s.Inv) {b : Ballot} (hbn : 1 ≤ b.n)
    (habove : ∀ b₀, s.b = some b₀ → b₀.n < b.n) (hx : ∀ z, s.z = some z → b.x = z) {c : Int}
    (hc : c = s.cn ∨ (s.cn = 0 ∧ c = b.n ∧ b.n ≤ s.hn ∧
      (s.phase = .prepare → ¬ s.AbortsPrepared s.hn b.x))) :
    Inv { s with b := some b, cn := c } := by
  refine ⟨hs.phase_ne_invalid, ?_, ?_, ?_, fun _ => ⟨b, rfl⟩, hs.pair, hs.self_unknown, ?_, ?_,
    hs.z_prepared, hs.z_none, ?_⟩
  · rcases hc with rfl | ⟨-, rfl, -⟩
    · exact hs.cn_nonneg
    · show 0 ≤ b.n
      omega
  · rcases hc with rfl | ⟨-, rfl, hle, -⟩
    · exact hs.cn_le_hn
    · exact hle
  · intro b' hb'
    cases hb'
    exact hbn
  · -- a kept vote is for the old value, which is `z`, which is the new value
    intro hp hc0 b' hb'
    cases hb'
    rcases hc with rfl | ⟨-, rfl, -, hlive⟩
    · obtain ⟨b₀, hb₀⟩ := hs.b_of_cn hc0
      have hz := hs.z_of_cn hp hc0 b₀ hb₀
      rw [hx _ hz]
      exact hs.commit_live hp hc0 b₀ hb₀
    · exact hlive hp
  · intro hp hc0 b' hb'
    cases hb'
    show s.z = some b.x
    rcases hc with rfl | ⟨h0, rfl, hle, hlive⟩
    · obtain ⟨b₀, hb₀⟩ := hs.b_of_cn hc0
      have hz := hs.z_of_cn hp hc0 b₀ hb₀
      rw [hz, hx _ hz]
    · cases hz : s.z with
      | some z => rw [hx z hz]
      | none =>
        -- with no `z` everything at `hn` is aborted, so no vote can start
        have hhn : s.hn ≠ 0 := by omega
        exact absurd (abortsPrepared_of_bothReach hs.pair (hs.z_none hp hz hhn) b.x) (hlive hp)
  · intro hp l hl
    obtain ⟨b₀, hb₀, hle⟩ := hs.last_le hp l hl
    exact ⟨b, rfl, le_trans hle (le_of_lt (habove b₀ hb₀))⟩

theorem nextNumber_spec {s : BallotState} (hs : s.Inv) :
    1 ≤ nextNumber s.b ∧ ∀ b₀, s.b = some b₀ → b₀.n < nextNumber s.b := by
  cases hb : s.b with
  | none => exact ⟨le_refl 1, fun _ h => by cases h⟩
  | some b₀ =>
    have := hs.b_pos b₀ hb
    refine ⟨by dsimp only [nextNumber]; omega, fun b₁ h => ?_⟩
    cases h
    dsimp only [nextNumber]
    omega

/-- Moving to the next ballot with the value `z`, if there is one, keeps the
invariant and raises the ballot. -/
theorem moveToBallot_meets {s : BallotState} (hs : s.Inv) {x : SlotValue}
    (hx : ∀ z, s.z = some z → x = z) : (s.moveToBallot x).Meets Safe (Next s) := by
  obtain ⟨hbn, habove⟩ := nextNumber_spec hs
  unfold moveToBallot
  dsimp only
  generalize nextNumber s.b = nn at hbn habove ⊢
  have hgrow : ∀ c : Int, Grows s { s with b := some ⟨nn, x⟩, cn := c } := fun _ =>
    Grows.of_ballot rfl rfl fun b₀ hb₀ => ⟨_, rfl, le_of_lt (habove b₀ hb₀)⟩
  have hinv := fun c hc => hs.nextBallot (b := ⟨nn, x⟩) (c := c) hbn habove hx hc
  split_ifs with hc
  · rw [acceptedAbort_eq (s := { s with b := some ⟨nn, x⟩ }) (b := ⟨nn, x⟩) rfl, Except.ok_bind]
    by_cases hphase : s.phase = .prepare
    · rw [if_neg (not_not.mpr hphase)]
      split_ifs with habort
      · -- nothing aborts the new ballot: we vote to commit it
        have habort₁ : ({ s with b := some ⟨nn, x⟩ } : BallotState).preparedAbort s.hn x = false := by
          simpa using habort
        -- the answer reads only `p` and `p'`, which the move leaves alone
        have habort' : s.preparedAbort s.hn x = false := habort₁
        have hlive : ¬ s.AbortsPrepared s.hn x := fun h => by
          have h' := preparedAbort_iff.mpr h
          rw [habort'] at h'
          cases h'
        exact meets_pure ⟨hinv nn (.inr ⟨hc.1, rfl, hc.2, fun _ => hlive⟩), hgrow nn⟩
      · exact meets_pure ⟨hinv s.cn (.inl rfl), hgrow s.cn⟩
    · rw [if_pos hphase]
      simp only [bne_self_eq_false, Bool.not_false, if_true]
      exact meets_pure ⟨hinv nn (.inr ⟨hc.1, rfl, hc.2, fun h => absurd h hphase⟩), hgrow nn⟩
  · exact meets_pure ⟨hinv s.cn (.inl rfl), hgrow s.cn⟩

/-- Forgetting the stale counts changes nothing `Inv` reads. -/
theorem Inv.with_stale {s : BallotState} (hs : s.Inv) (stale : AList (fun _ : String => Int)) :
    Inv { s with stale := stale } :=
  ⟨hs.phase_ne_invalid, hs.cn_nonneg, hs.cn_le_hn, hs.b_pos, hs.b_of_cn, hs.pair, hs.self_unknown,
    hs.commit_live, hs.z_of_cn, hs.z_prepared, hs.z_none, hs.last_le⟩

/-- Storing a peer's message changes nothing `Inv` reads but `M`, where our
own key stays absent. -/
theorem Inv.insert_peer {s : BallotState} (hs : s.Inv) {node : String} (hnode : node ≠ s.publicKey)
    (stale : AList (fun _ : String => Int)) (message : BallotMessage) :
    Inv { s with stale := stale, m := s.m.insert node message } :=
  ⟨hs.phase_ne_invalid, hs.cn_nonneg, hs.cn_le_hn, hs.b_pos, hs.b_of_cn, hs.pair,
    (AList.lookup_insert_ne (Ne.symm hnode)).trans hs.self_unknown, hs.commit_live, hs.z_of_cn, hs.z_prepared,
    hs.z_none, hs.last_le⟩

section Next

/- The errors allowed are any `E` that allows the safe faults and every
failure of `Combine`: the store is the caller's. -/
variable {VS : Type} (ops : ValueStore VS) (ns : NominationState) (E : Fault → Prop)
  (hsafe : ∀ f, Safe f → E f) (hcombine : ∀ l vs f, ops.combine l vs = .error f → E f)
include hsafe hcombine

theorem predictValue_meets (vs : VS) : (ns.predictValue ops vs).Meets E (fun _ => True) := by
  have hcomb : ∀ l, (ops.combine l vs).Meets E (fun _ => True) := by
    intro l
    cases h : ops.combine l vs with
    | error f => exact hcombine l vs f h
    | ok r => trivial
  unfold NominationState.predictValue
  split_ifs
  · exact hcomb _
  · exact hcomb _
  · exact hcomb _
  · exact meets_error (hsafe _ (safe_panic _))

/-- `GoToNextBallot` keeps the invariant, whatever the nomination state
predicts. -/
theorem goToNextBallot_meets {s : BallotState} (hs : s.Inv) (vs : VS) :
    (s.goToNextBallot ops ns vs).Meets E (fun r => Next s r.2.1) := by
  unfold goToNextBallot
  cases hz : s.z with
  | some z =>
    exact ((moveToBallot_meets hs fun z' h => by rw [hz] at h; cases h; rfl).mono_error hsafe).bind
      fun s' h => meets_pure h
  | none =>
    dsimp only
    split_ifs
    · exact meets_pure (Next.refl hs)
    · refine (predictValue_meets ops ns E hsafe hcombine vs).bind fun r _ => ?_
      exact ((moveToBallot_meets hs fun z' h => by rw [hz] at h; cases h).mono_error hsafe).bind
        fun s' h => meets_pure h

theorem checkForBlockedBallot_meets {s : BallotState} (hs : s.Inv) (vs : VS) :
    (s.checkForBlockedBallot ops ns vs).Meets E (fun r => Next s r.2.1) := by
  unfold checkForBlockedBallot
  cases s.b with
  | none => exact meets_pure (Next.refl hs)
  | some b =>
    dsimp only
    split_ifs
    · exact meets_pure (Next.refl hs)
    · exact goToNextBallot_meets ops ns E hsafe hcombine hs vs

theorem handleStaleQuorum_meets {s : BallotState} (hs : s.Inv) (vs : VS) :
    (s.handleStaleQuorum ops ns vs).Meets E (fun r => Next s r.2.1) := by
  unfold handleStaleQuorum
  cases s.b with
  | none => exact meets_pure (Next.refl hs)
  | some b =>
    dsimp only
    split_ifs
    · exact meets_pure (Next.refl hs)
    · exact goToNextBallot_meets ops ns E hsafe hcombine hs vs

theorem checkIfStale_meets {s : BallotState} (hs : s.Inv) (vs : VS) :
    (s.checkIfStale ops ns vs).Meets E (fun r => Next s r.1) := by
  unfold checkIfStale
  dsimp only
  split_ifs
  · have h₁ : Next s { s with stale := ∅ } := ⟨hs.with_stale ∅, Grows.of_keep rfl rfl fun _ h => h⟩
    exact (handleStaleQuorum_meets ops ns E hsafe hcombine h₁.1 vs).bind
      fun r hr => meets_pure (h₁.trans hr)
  · exact meets_pure (Next.refl hs)

end Next

/-! ## Investigating -/

theorem investigateBallot_meets {s : BallotState} (hs : s.Inv) (n : Int) (x : SlotValue) :
    (s.investigateBallot n x).Meets Safe (Next s) := by
  unfold investigateBallot
  split_ifs with hn
  · exact meets_pure (Next.refl hs)
  · refine (maybeAcceptAsPrepared_meets hs n x).bind fun r₁ h₁ => ?_
    refine (maybeConfirmAsPrepared_meets h₁.1 (by omega) x).bind fun r₂ h₂ => ?_
    have h₃ := maybeAcceptAsCommitted_next h₂.1 (show 1 ≤ n by omega) x
    have h₄ := maybeConfirmAsCommitted_next h₃.1 (show 1 ≤ n by omega) x
    exact meets_pure ((h₁.trans h₂).trans (h₃.trans h₄))

/-- The ballot loop of `InvestigateValue`, one ballot at a time. -/
theorem investigateRange_meets (x : SlotValue) :
    ∀ (count : Nat) {s : BallotState} (i : Int), s.Inv →
      (investigateRange x s i count).Meets Safe (Next s)
  | 0, s, _, hs => meets_pure (Next.refl hs)
  | count + 1, s, i, hs => by
    unfold investigateRange
    exact (investigateBallot_meets hs i x).bind fun s₁ h₁ =>
      (investigateRange_meets x count (i + 1) h₁.1).mono fun s₂ h₂ => h₁.trans h₂

/-- `MakeRange` fails only by its panic. -/
theorem makeRange_meets (numbers : List Int) : (makeRange numbers).Meets Safe (fun _ => True) := by
  unfold makeRange
  refine StepRun.foldlM_meets (fun _ => True) (fun _ => True) Safe ?_ numbers (fun _ _ => trivial)
    trivial
  intro acc n _ _
  split_ifs
  · exact meets_error (safe_panic _)
  · exact meets_pure trivial

theorem BallotMessage.relevantRange_meets (m : BallotMessage) (x : SlotValue) :
    (m.relevantRange x).Meets Safe (fun _ => True) := by
  cases m with
  | prepare m =>
    dsimp only [BallotMessage.relevantRange, PrepareMessage.relevantRange]
    -- the tests on the values only choose which range is reported
    split_ifs <;> first
      | exact (makeRange_meets _).bind fun _ _ => meets_pure trivial
      | exact meets_pure trivial
  | confirm m =>
    dsimp only [BallotMessage.relevantRange, ConfirmMessage.relevantRange]
    split_ifs
    · exact makeRange_meets _
    · exact meets_pure trivial
  | externalize m =>
    dsimp only [BallotMessage.relevantRange, ExternalizeMessage.relevantRange]
    split_ifs
    · exact makeRange_meets _
    · exact meets_pure trivial

theorem relevantRange_meets (s : BallotState) (x : SlotValue) :
    (s.relevantRange x).Meets Safe (fun _ => True) := by
  unfold relevantRange
  refine StepRun.foldlM_meets (fun _ => True) (fun _ => True) Safe ?_ s.m.entries
    (fun _ _ => trivial) trivial
  intro acc e _ _
  exact (BallotMessage.relevantRange_meets e.2 x).bind fun _ _ => meets_pure trivial

theorem investigateValue_meets {s : BallotState} (hs : s.Inv) (x : SlotValue) :
    (s.investigateValue x).Meets Safe (Next s) := by
  unfold investigateValue
  refine (relevantRange_meets s x).bind fun r _ => ?_
  obtain ⟨lo, hi⟩ := r
  dsimp only
  generalize (if hi > s.maxActionableBallotNumber then s.maxActionableBallotNumber else hi) = hi
  refine (investigateRange_meets x _ lo hs).bind fun s₁ h₁ => ?_
  cases s₁.b with
  | none => exact meets_pure h₁
  | some b =>
    dsimp only
    split_ifs
    · exact (investigateBallot_meets h₁.1 b.n x).mono fun s₂ h₂ => h₁.trans h₂
    · exact meets_pure h₁

theorem investigateValues_meets {s : BallotState} (hs : s.Inv) (values : List SlotValue) :
    (s.investigateValues values).Meets Safe (Next s) := by
  unfold investigateValues
  refine (StepRun.foldlM_meets (fun acc : List SlotValue × BallotState => Next s acc.2)
    (fun _ => True) Safe ?_ values (fun _ _ => trivial) (Next.refl hs)).bind
    fun r hr => meets_pure hr
  intro acc value _ hacc
  split_ifs
  · exact meets_pure hacc
  · exact (investigateValue_meets hacc.1 value).bind fun s' h' => meets_pure (hacc.trans h')

theorem investigateMessage_meets {s : BallotState} (hs : s.Inv) (message : BallotMessage) :
    (s.investigateMessage message).Meets Safe (Next s) := by
  cases message with
  | prepare m => exact investigateValues_meets hs _
  | confirm m => exact investigateValue_meets hs _
  | externalize m => exact investigateValue_meets hs _

/-! ## Handling a message -/

section Handle

variable {VS : Type} (ops : ValueStore VS) (ns : NominationState) (E : Fault → Prop)
  (hsafe : ∀ f, Safe f → E f) (hcombine : ∀ l vs f, ops.combine l vs = .error f → E f)
include hsafe hcombine

theorem handleLoop_meets (message : BallotMessage) :
    ∀ (fuel : Nat) {s : BallotState} (vs : VS), s.Inv →
      (handleLoop ops ns message fuel s vs).Meets E (fun r => Next s r.1)
  | 0, _, _, _ => meets_error (hsafe _ safe_fuel)
  | fuel + 1, s, vs, hs => by
    unfold handleLoop
    refine ((investigateMessage_meets hs message).mono_error hsafe).bind fun s₁ h₁ => ?_
    refine (checkForBlockedBallot_meets ops ns E hsafe hcombine h₁.1 vs).bind fun r h₂ => ?_
    split_ifs
    · exact (handleLoop_meets message fuel r.2.2 h₂.1).mono fun r' h₃ => (h₁.trans h₂).trans h₃
    · exact meets_pure (h₁.trans h₂)

/-- `Handle` of a peer's message keeps the invariant. -/
theorem handle_meets (fuel : Nat) {s : BallotState} (hs : s.Inv) {node : String}
    (hnode : node ≠ s.publicKey) (message : BallotMessage) (vs : VS) :
    (s.handle ops ns fuel node message vs).Meets E (fun r => Next s r.1) := by
  unfold handle
  split_ifs
  · have h₁ : Next s { s with stale := s.stale.insert node ((s.stale.lookup node).getD 0 + 1) } :=
      ⟨hs.with_stale _, Grows.of_keep rfl rfl fun _ h => h⟩
    exact (checkIfStale_meets ops ns E hsafe hcombine h₁.1 vs).mono fun r h => h₁.trans h
  · have h₁ : Next s { s with stale := s.stale.insert node 0, m := s.m.insert node message } :=
      ⟨hs.insert_peer hnode _ message, Grows.of_keep rfl rfl fun _ h => h⟩
    exact (handleLoop_meets ops ns E hsafe hcombine message fuel vs h₁.1).mono fun r h => h₁.trans h

end Handle

/-! ## The checks `AssertValid` makes -/

/-- Under the invariant `AssertValid` passes, and remembering the ballot
keeps the invariant. -/
theorem assertValid_next {s : BallotState} (hs : s.Inv) : ∃ s', s.assertValid = .ok s' ∧ Next s s' := by
  obtain ⟨phase, b, last, p, pPrime, cn, hn, z, m, stale, publicKey, d⟩ := s
  unfold assertValid
  dsimp only
  rw [if_neg (not_lt.mpr hs.cn_le_hn)]
  split_ifs with hpq hprep
  · -- `p'` has another value than `p`
    exfalso
    split at hpq
    · rename_i p q
      obtain ⟨p', hp', hne, -⟩ := hs.pair q rfl
      cases hp'
      exact hne (beq_iff_eq.mp hpq).symm
    · cases hpq
  · subst hprep
    cases b with
    | none => exact ⟨_, rfl, Next.refl hs⟩
    | some b =>
      dsimp only
      -- the three prepare-phase checks are the fields `commit_live` and `last_le`
      have hlive : cn ≠ 0 → ¬ AbortsPrepared ⟨.prepare, some b, last, p, pPrime, cn, hn, z, m, stale,
          publicKey, d⟩ hn b.x := fun h => hs.commit_live rfl h b rfl
      have h₁ : p.any (fun p => b.x != p.x && cn != 0 && decide (hn ≤ p.n)) = false := by
        cases p with
        | none => rfl
        | some p =>
          by_cases hx : b.x = p.x
          · simp [hx]
          by_cases hc : cn = 0
          · simp [hc]
          have hlt : ¬ hn ≤ p.n := fun hle => hlive hc (.inl ⟨p, rfl, hle, fun e => hx e.symm⟩)
          simp [hlt]
      have h₂ : pPrime.any (fun p => b.x != p.x && cn != 0 && decide (hn ≤ p.n)) = false := by
        cases pPrime with
        | none => rfl
        | some q =>
          by_cases hx : b.x = q.x
          · simp [hx]
          by_cases hc : cn = 0
          · simp [hc]
          have hlt : ¬ hn ≤ q.n := fun hle => hlive hc (.inr ⟨q, rfl, hle, fun e => hx e.symm⟩)
          simp [hlt]
      have h₃ : last.any (fun l => b.x != l.x && decide (l.n > b.n)) = false := by
        cases last with
        | none => rfl
        | some l =>
          obtain ⟨b', hb', hle⟩ := hs.last_le rfl l rfl
          cases hb'
          simp only [Option.any_some, Bool.and_eq_false_iff, decide_eq_false_iff_not, not_lt]
          exact .inr hle
      rw [if_neg (by rw [h₁]; exact Bool.false_ne_true), if_neg (by rw [h₂]; exact Bool.false_ne_true),
        if_neg (by rw [h₃]; exact Bool.false_ne_true)]
      refine ⟨_, rfl, ⟨hs.phase_ne_invalid, hs.cn_nonneg, hs.cn_le_hn, hs.b_pos, hs.b_of_cn, hs.pair,
        hs.self_unknown, hs.commit_live, hs.z_of_cn, hs.z_prepared, hs.z_none,
        fun _ l hl => ?_⟩, Grows.of_keep rfl rfl fun _ h => h⟩
      cases hl
      exact ⟨b, rfl, le_refl _⟩
  · cases b with
    | none => exact ⟨_, rfl, Next.refl hs⟩
    | some b => exact ⟨_, rfl, Next.refl hs⟩

end BallotState

end Coinkit.Consensus

import Coinkit.Consensus.BallotRun
import Coinkit.Consensus.Block

/-!
# Where ballot values come from

SCP's validity: a value a node votes for, accepts or externalizes is one some
node got from `PredictValue`, never one made up. A ballot state takes values
in three ways:

- `GoToNextBallot` moves to `z`, or to the nomination state's prediction;
- `MaybeAcceptAsPrepared`, `MaybeConfirmAsPrepared` and
  `MaybeAcceptAsCommitted` take the value of the ballot they investigate,
  once a quorum that includes us, or a blocking set of peers, accepts it;
- `Handle` stores a peer's message.

So the invariant is relative to a set `known` of values. A state is
`Sourced` when its ballot, `p`, `p'`, `z` and the values of every stored
message are known. A quorum we meet contains us, and no peer speaks with our
key (`Inv.self_unknown`), so a quorum's acceptance is our own and its value is
already in our state; a blocking set is never empty, so one of its peers
accepts the value in a stored message.

Which values are known is a matter of the value store: `ValueStore.Records`
says that `known vs` holds what `Combine` answered, and that nothing is
forgotten. Every step that may reach the store then takes a state sourced by
what the store knew to one sourced by what it knows afterwards.
-/

set_option autoImplicit false

namespace Coinkit.Consensus

open Except

/-! ## What a store knows -/

section Records

variable {VS : Type}

/-- Everything `known` at `vs` is still known at `vs'`. -/
def Remembers (known : VS → SlotValue → Prop) (vs vs' : VS) : Prop :=
  ∀ x, known vs x → known vs' x

theorem Remembers.refl (known : VS → SlotValue → Prop) (vs : VS) : Remembers known vs vs :=
  fun _ h => h

theorem Remembers.trans {known : VS → SlotValue → Prop} {vs₁ vs₂ vs₃ : VS}
    (h₁ : Remembers known vs₁ vs₂) (h₂ : Remembers known vs₂ vs₃) : Remembers known vs₁ vs₃ :=
  fun x h => h₂ x (h₁ x h)

/-- `known` is a record of values that the store keeps: what `Combine`
answers is on it afterwards, and `Combine` and `SuggestValue` take nothing
off it. -/
structure ValueStore.Records (ops : ValueStore VS) (known : VS → SlotValue → Prop) : Prop where
  combine_known : ∀ {l vs x vs'}, ops.combine l vs = .ok (x, vs') → known vs' x
  combine_remembers : ∀ {l vs x vs'}, ops.combine l vs = .ok (x, vs') → Remembers known vs vs'
  suggestValue_remembers : ∀ {vs r vs'}, ops.suggestValue vs = .ok (r, vs') → Remembers known vs vs'

/-- A record stays one when the values of `K`, known elsewhere, are added. -/
theorem ValueStore.Records.union {ops : ValueStore VS} {known : VS → SlotValue → Prop}
    (hrec : ops.Records known) (K : SlotValue → Prop) :
    ops.Records (fun vs x => K x ∨ known vs x) where
  combine_known h := .inr (hrec.combine_known h)
  combine_remembers h x := Or.imp_right (hrec.combine_remembers h x)
  suggestValue_remembers h x := Or.imp_right (hrec.suggestValue_remembers h x)

variable {ops : ValueStore VS} {known : VS → SlotValue → Prop}

/-- `PredictValue` answers with a value the store knows afterwards. -/
theorem NominationState.predictValue_known (hrec : ops.Records known) (ns : NominationState)
    (vs : VS) : (ns.predictValue ops vs).Meets (fun _ => True)
      (fun r => known r.2 r.1 ∧ Remembers known vs r.2) := by
  have hcomb : ∀ l, (ops.combine l vs).Meets (fun _ => True)
      (fun r => known r.2 r.1 ∧ Remembers known vs r.2) := by
    intro l
    cases h : ops.combine l vs with
    | error f => trivial
    | ok r => exact ⟨hrec.combine_known h, hrec.combine_remembers h⟩
  unfold NominationState.predictValue
  split_ifs
  · exact hcomb _
  · exact hcomb _
  · exact hcomb _
  · exact meets_error trivial

theorem NominationState.maybeNominateNewValue_remembers (hrec : ops.Records known)
    (ns : NominationState) (vs : VS) :
    (ns.maybeNominateNewValue ops vs).Meets (fun _ => True) (fun r => Remembers known vs r.2.2) := by
  unfold NominationState.maybeNominateNewValue
  split_ifs
  · exact meets_pure (Remembers.refl known vs)
  · exact meets_pure (Remembers.refl known vs)
  · have hsuggest : (ops.suggestValue vs).Meets (fun _ => True) (fun r => Remembers known vs r.2) := by
      cases h : ops.suggestValue vs with
      | error f => trivial
      | ok r => exact hrec.suggestValue_remembers h
    refine hsuggest.bind fun r hr => ?_
    obtain ⟨⟨v, ok⟩, vs'⟩ := r
    dsimp only
    split_ifs
    · exact meets_pure hr
    · exact meets_pure hr

end Records

/-! ## Messages and states whose values are known -/

/-- A ballot message whose values are known: the value of its ballot, those
of its accepted-prepared ballots that have a number, and the value it
confirms or externalizes. -/
def BallotMessage.Sourced (known : SlotValue → Prop) : BallotMessage → Prop
  | .prepare m => known m.bx ∧ (0 < m.pn → known m.px) ∧ (0 < m.ppn → known m.ppx)
  | .confirm m => known m.x
  | .externalize m => known m.x

namespace BallotMessage

variable {known known' : SlotValue → Prop}

theorem Sourced.mono (h : ∀ x, known x → known' x) {m : BallotMessage} (hm : m.Sourced known) :
    m.Sourced known' := by
  cases m with
  | prepare m => exact ⟨h _ hm.1, fun hn => h _ (hm.2.1 hn), fun hn => h _ (hm.2.2 hn)⟩
  | confirm m => exact h _ hm
  | externalize m => exact h _ hm

/-- A message that accepts a ballot `(n, x)` with `n ≥ 1` as prepared has
`x` among its values. -/
theorem Sourced.known_of_acceptAsPrepared {m : BallotMessage} (hm : m.Sourced known) {n : Int}
    (hn1 : 1 ≤ n) {x : SlotValue} (h : m.acceptAsPrepared n x = true) : known x := by
  cases m with
  | prepare m =>
    obtain ⟨-, hpx, hppx⟩ := hm
    simp only [acceptAsPrepared, PrepareMessage.acceptAsPrepared] at h
    split_ifs at h with hp hpp
    · rw [← hp]
      apply hpx
      have := of_decide_eq_true h
      omega
    · rw [← hpp]
      apply hppx
      have := of_decide_eq_true h
      omega
  | confirm m =>
    rw [← beq_iff_eq.mp h]
    exact hm
  | externalize m =>
    rw [← beq_iff_eq.mp h]
    exact hm

/-- A message that accepts a commit of `x` has `x` as its value. -/
theorem Sourced.known_of_acceptAsCommitted {m : BallotMessage} (hm : m.Sourced known) {n : Int}
    {x : SlotValue} (h : m.acceptAsCommitted n x = true) : known x := by
  cases m with
  | prepare m =>
    simp only [acceptAsCommitted, Bool.false_eq_true] at h
  | confirm m =>
    simp only [acceptAsCommitted, ConfirmMessage.acceptAsCommitted, Bool.and_eq_true,
      beq_iff_eq] at h
    rw [← h.1.1]
    exact hm
  | externalize m =>
    simp only [acceptAsCommitted, ExternalizeMessage.acceptAsCommitted, Bool.and_eq_true,
      beq_iff_eq] at h
    rw [h.1]
    exact hm

end BallotMessage

/-- A ballot state whose values are known: its ballot, `p`, `p'`, `z`, and
the values of every peer message it stores. -/
structure BallotState.Sourced (known : SlotValue → Prop) (s : BallotState) : Prop where
  b : ∀ b, s.b = some b → known b.x
  p : ∀ p, s.p = some p → known p.x
  pPrime : ∀ q, s.pPrime = some q → known q.x
  z : ∀ v, s.z = some v → known v
  m : ∀ node message, s.m.lookup node = some message → message.Sourced known

namespace BallotState

section Known

variable {known known' : SlotValue → Prop}

theorem Sourced.mono {s : BallotState} (hs : s.Sourced known) (h : ∀ x, known x → known' x) :
    s.Sourced known' :=
  ⟨fun b hb => h _ (hs.b b hb), fun p hp => h _ (hs.p p hp), fun q hq => h _ (hs.pPrime q hq),
    fun v hv => h _ (hs.z v hv), fun node message hm => (hs.m node message hm).mono h⟩

/-- Only the ballot, `p`, `p'`, `z` and `M` matter. -/
theorem Sourced.congr {s s' : BallotState} (hs : s.Sourced known) (hb : s'.b = s.b)
    (hp : s'.p = s.p) (hq : s'.pPrime = s.pPrime) (hz : s'.z = s.z) (hm : s'.m = s.m) :
    s'.Sourced known :=
  ⟨fun b h => hs.b b (hb.symm.trans h), fun p h => hs.p p (hp.symm.trans h),
    fun q h => hs.pPrime q (hq.symm.trans h), fun v h => hs.z v (hz.symm.trans h),
    fun node message h => hs.m node message (hm ▸ h)⟩

theorem new_sourced (publicKey : String) (qs : QuorumSlice) : (new publicKey qs).Sourced known where
  b _ h := by cases h
  p _ h := by cases h
  pPrime _ h := by cases h
  z _ h := by cases h
  m _ _ h := by cases h

/-- Storing a message whose values are known. -/
theorem Sourced.insert {s : BallotState} (hs : s.Sourced known) {node : String}
    {message : BallotMessage} (hmsg : message.Sourced known) (stale : AList (fun _ : String => Int)) :
    Sourced known { s with stale := stale, m := s.m.insert node message } := by
  refine ⟨hs.b, hs.p, hs.pPrime, hs.z, fun k m' hk => ?_⟩
  change (s.m.insert node message).lookup k = some m' at hk
  by_cases hkn : k = node
  · subst hkn
    rw [AList.lookup_insert] at hk
    cases hk
    exact hmsg
  · exact hs.m k m' (by rwa [AList.lookup_insert_ne hkn] at hk)

/-- What `p` or `p'` accepts as prepared is known. -/
theorem Sourced.known_of_acceptsPrepared {s : BallotState} (hs : s.Sourced known) {n : Int}
    {x : SlotValue} (h : s.AcceptsPrepared n x) : known x := by
  rcases h with ⟨p, hp, -, rfl⟩ | ⟨q, hq, -, rfl⟩
  · exact hs.p p hp
  · exact hs.pPrime q hq

/-- A blocking set of peers that accept has a peer whose stored message
accepts. -/
theorem Sourced.known_of_blockedBy {s : BallotState} (hs : s.Sourced known) {init : List String}
    {accept vote : BallotMessage → Bool} {x : SlotValue}
    (hx : ∀ m : BallotMessage, m.Sourced known → accept m = true → known x)
    (h : s.d.blockedBy (s.tally init accept vote).2 = true) : known x := by
  obtain ⟨node, hnode⟩ := QuorumSlice.exists_mem_of_blockedBy h
  rw [tally_eq] at hnode
  obtain ⟨⟨k, message⟩, hmem, -⟩ := List.mem_map.mp hnode
  obtain ⟨hentry, haccept⟩ := List.mem_filter.mp hmem
  exact hx message (hs.m k message (AList.mem_lookup_iff.mpr hentry)) haccept

/-- The test of the federated-voting steps: neither a quorum nor a blocking
set failed, so one of them holds. -/
theorem quorum_or_blocked {q blocked : Bool} (h : ¬ (!q && !blocked) = true) :
    q = true ∨ blocked = true := by
  cases q <;> cases blocked <;> simp_all

/-! ## Federated voting on one ballot -/

theorem acceptPrepared_sourced {s : BallotState} (hs : s.Sourced known) {ballot : Ballot}
    (hx : known ballot.x) : (s.acceptPrepared ballot).Meets (fun _ => True) (Sourced known) := by
  unfold acceptPrepared
  cases hp : s.p with
  | none => exact meets_pure ⟨hs.b, fun _ h => (by cases h; exact hx), hs.pPrime, hs.z, hs.m⟩
  | some p =>
    dsimp only
    split_ifs
    · exact meets_error trivial
    · exact meets_pure ⟨hs.b, fun _ h => (by cases h; exact hx), hs.pPrime, hs.z, hs.m⟩
    · exact meets_pure ⟨hs.b, fun _ h => (by cases h; exact hx),
        fun _ h => (by cases h; exact hs.p p hp), hs.z, hs.m⟩
    · exact meets_pure ⟨hs.b, fun _ h => (by cases h; exact hs.p p hp),
        fun _ h => (by cases h; exact hx), hs.z, hs.m⟩

/-- `MaybeAcceptAsPrepared` only accepts a known value. -/
theorem maybeAcceptAsPrepared_sourced {s : BallotState} (hs : s.Inv) (hsrc : s.Sourced known)
    {n : Int} (hn1 : 1 ≤ n) (x : SlotValue) :
    (s.maybeAcceptAsPrepared n x).Meets (fun _ => True) (fun r => r.2.Sourced known) := by
  unfold maybeAcceptAsPrepared
  -- the short circuits return the state as it was
  refine meets_ite_pure hsrc fun _ => ?_
  refine meets_ite_pure hsrc fun _ => ?_
  refine meets_ite_pure hsrc fun _ => ?_
  refine meets_ite_pure hsrc fun _ => ?_
  refine meets_ite_pure hsrc fun _ => ?_
  dsimp only
  generalize hown : (if s.b.any (fun b => decide (b.n ≥ n) && b.x == x) = true then [s.publicKey]
    else []) = own
  refine meets_ite_pure hsrc fun hno => ?_
  have hx : known x := by
    rcases quorum_or_blocked hno with hquorum | hblocked
    · have hmem := self_mem_of_meetsQuorum_tally hs hquorum
      rw [← hown] at hmem
      obtain ⟨b, hb, hbx⟩ := any_ballot_iff.mp (mem_ite_singleton hmem)
      simp only [Bool.and_eq_true, beq_iff_eq] at hbx
      rw [← hbx.2]
      exact hsrc.b b hb
    · exact hsrc.known_of_blockedBy (fun m hm h => hm.known_of_acceptAsPrepared hn1 h) hblocked
  refine (acceptPrepared_sourced hsrc hx).bind fun s₁ hsrc₁ => ?_
  split_ifs
  · cases hb : s₁.b with
    | none => exact meets_error trivial
    | some b =>
      refine (meets_trivial _).bind fun abort _ => meets_pure ?_
      split_ifs
      · exact hsrc₁.congr hb.symm rfl rfl rfl rfl
      · exact hsrc₁
  · exact meets_pure hsrc₁

/-- `MaybeConfirmAsPrepared` only confirms a value we accept, which is
known. -/
theorem maybeConfirmAsPrepared_sourced {s : BallotState} (hs : s.Inv) (hsrc : s.Sourced known)
    (n : Int) (x : SlotValue) :
    (s.maybeConfirmAsPrepared n x).Meets (fun _ => True) (fun r => r.2.Sourced known) := by
  unfold maybeConfirmAsPrepared
  -- the short circuits return the state as it was
  refine meets_ite_pure hsrc fun _ => ?_
  refine meets_ite_pure hsrc fun _ => ?_
  refine meets_ite_pure hsrc fun _ => ?_
  dsimp only
  generalize hown : (if (gtecompat s.p (some ⟨n, x⟩) || gtecompat s.pPrime (some ⟨n, x⟩)) = true
    then [s.publicKey] else []) = own
  generalize haccepted : s.nodesWhere own (fun m => m.acceptAsPrepared n x) = accepted
  by_cases hno : meetsQuorum s.quorumFinder accepted = true
  swap
  · simp only [hno, Bool.not_false, if_true]
    exact meets_pure hsrc
  simp only [hno, Bool.not_true, Bool.false_eq_true, if_false]
  have hx : known x := by
    rw [← haccepted] at hno
    have hmem := self_mem_of_meetsQuorum_nodesWhere hs hno
    rw [← hown] at hmem
    exact hsrc.known_of_acceptsPrepared (own_gtecompat_iff.mp (mem_ite_singleton hmem))
  by_cases hhn : s.hn = n
  · rw [if_pos hhn]
    exact meets_pure ⟨hsrc.b, hsrc.p, hsrc.pPrime, fun _ h => (by cases h), hsrc.m⟩
  rw [if_neg hhn]
  -- every state the step ends in has our ballot or `(n, x)`, and `z = x`
  have hnew : ∀ (c : Int) (b₀ : Ballot), known b₀.x →
      Sourced known { s with hn := n, z := some x, b := some b₀, cn := c } :=
    fun _ _ hb₀ => ⟨fun _ hb => (by cases hb; exact hb₀), hsrc.p, hsrc.pPrime,
      fun _ hv => (by cases hv; exact hx), hsrc.m⟩
  have hgetD : known (s.b.getD ⟨n, x⟩).x := by
    cases hsb : s.b with
    | none => exact hx
    | some b₀ => exact hsrc.b b₀ hsb
  by_cases hcn : s.cn > 0
  · rw [if_pos hcn]
    cases hsb : s.b with
    | none => exact meets_error trivial
    | some b₀ =>
      simp only [Except.pure_eq_ok, Except.ok_bind]
      split_ifs
      all_goals first | exact meets_error trivial | exact meets_ok (hnew _ _ (hsrc.b b₀ hsb))
  · rw [if_neg hcn]
    simp only [Except.pure_eq_ok, Except.ok_bind]
    split_ifs
    all_goals first | exact meets_error trivial | exact meets_ok (hnew _ _ hgetD)

/-- `MaybeAcceptAsCommitted` only moves to a value that a quorum with us or
a blocking set of peers accepts as committed. -/
theorem maybeAcceptAsCommitted_sourced {s : BallotState} (hs : s.Inv) (hsrc : s.Sourced known)
    (n : Int) (x : SlotValue) : (s.maybeAcceptAsCommitted n x).2.Sourced known := by
  unfold maybeAcceptAsCommitted
  by_cases hext : s.phase = .externalize
  · rw [if_pos hext]
    exact hsrc
  rw [if_neg hext]
  by_cases hin : s.phase = .confirm ∧ s.cn ≤ n ∧ n ≤ s.hn
  · rw [if_pos hin]
    exact hsrc
  rw [if_neg hin]
  dsimp only
  generalize hown : (if s.phase = .prepare ∧ (s.b.any fun b => b.x == x) = true ∧ s.cn ≠ 0 ∧
    s.cn ≤ n ∧ n ≤ s.hn then [s.publicKey] else []) = own
  generalize hvotes : s.tally own (fun m => m.acceptAsCommitted n x)
    (fun m => m.voteToCommit n x) = votes
  by_cases hno : (!meetsQuorum s.quorumFinder votes.1 && !s.d.blockedBy votes.2) = true
  · rw [if_pos hno]
    exact hsrc
  rw [if_neg hno]
  by_cases hrep : s.b.all (fun b => b.x != x) = true
  · rw [if_pos hrep]
    have hx : known x := by
      rcases quorum_or_blocked hno with hquorum | hblocked
      · rw [← hvotes] at hquorum
        have hmem := self_mem_of_meetsQuorum_tally hs hquorum
        rw [← hown] at hmem
        obtain ⟨b, hb, hbx⟩ := any_ballot_iff.mp (mem_ite_singleton hmem).2.1
        rw [← beq_iff_eq.mp hbx]
        exact hsrc.b b hb
      · rw [← hvotes] at hblocked
        exact hsrc.known_of_blockedBy (fun m hm h => hm.known_of_acceptAsCommitted h) hblocked
    exact ⟨fun _ h => (by cases h; exact hx), hsrc.p, hsrc.pPrime, fun _ h => (by cases h; exact hx),
      hsrc.m⟩
  · rw [if_neg hrep]
    exact hsrc.congr rfl rfl rfl rfl rfl

/-- `MaybeConfirmAsCommitted` moves only the phase and the commit range. -/
theorem maybeConfirmAsCommitted_sourced {s : BallotState} (hsrc : s.Sourced known) (n : Int)
    (x : SlotValue) : (s.maybeConfirmAsCommitted n x).2.Sourced known := by
  unfold maybeConfirmAsCommitted
  dsimp only
  split_ifs
  all_goals exact hsrc.congr rfl rfl rfl rfl rfl

/-! ## Investigating -/

theorem investigateBallot_sourced {s : BallotState} (hs : s.Inv) (hsrc : s.Sourced known)
    (n : Int) (x : SlotValue) :
    (s.investigateBallot n x).Meets (fun _ => True) (Sourced known) := by
  unfold investigateBallot
  split_ifs with hn
  · exact meets_pure hsrc
  · have hn1 : 1 ≤ n := by omega
    refine ((maybeAcceptAsPrepared_meets hs n x).and
      (maybeAcceptAsPrepared_sourced hs hsrc hn1 x)).bind fun r₁ h₁ => ?_
    refine ((maybeConfirmAsPrepared_meets h₁.1.1 hn1 x).and
      (maybeConfirmAsPrepared_sourced h₁.1.1 h₁.2 n x)).bind fun r₂ h₂ => ?_
    apply meets_pure
    exact maybeConfirmAsCommitted_sourced (maybeAcceptAsCommitted_sourced h₂.1.1 h₂.2 n x) n x

theorem investigateRange_sourced (x : SlotValue) :
    ∀ (count : Nat) {s : BallotState} (i : Int), s.Inv → s.Sourced known →
      (investigateRange x s i count).Meets (fun _ => True) (Sourced known)
  | 0, s, _, _, hsrc => meets_pure hsrc
  | count + 1, s, i, hs, hsrc => by
    unfold investigateRange
    exact ((investigateBallot_meets hs i x).and (investigateBallot_sourced hs hsrc i x)).bind
      fun s₁ h₁ => investigateRange_sourced x count (i + 1) h₁.1.1 h₁.2

theorem investigateValue_sourced {s : BallotState} (hs : s.Inv) (hsrc : s.Sourced known)
    (x : SlotValue) : (s.investigateValue x).Meets (fun _ => True) (Sourced known) := by
  unfold investigateValue
  refine (meets_trivial _).bind fun r _ => ?_
  obtain ⟨lo, hi⟩ := r
  dsimp only
  generalize (if hi > s.maxActionableBallotNumber then s.maxActionableBallotNumber else hi) = hi
  refine ((investigateRange_meets x _ lo hs).and
    (investigateRange_sourced x _ lo hs hsrc)).bind fun s₁ h₁ => ?_
  cases s₁.b with
  | none => exact meets_pure h₁.2
  | some b =>
    dsimp only
    split_ifs
    · exact investigateBallot_sourced h₁.1.1 h₁.2 b.n x
    · exact meets_pure h₁.2

theorem investigateValues_sourced {s : BallotState} (hs : s.Inv) (hsrc : s.Sourced known)
    (values : List SlotValue) :
    (s.investigateValues values).Meets (fun _ => True) (Sourced known) := by
  unfold investigateValues
  refine (StepRun.foldlM_meets (fun acc : List SlotValue × BallotState => acc.2.Inv ∧
    acc.2.Sourced known) (fun _ => True) (fun _ => True) ?_ values (fun _ _ => trivial)
    ⟨hs, hsrc⟩).bind fun r hr => meets_pure hr.2
  intro acc value _ hacc
  split_ifs
  · exact meets_pure hacc
  · refine ((investigateValue_meets hacc.1 value).and
      (investigateValue_sourced hacc.1 hacc.2 value)).bind fun s' h' => ?_
    exact meets_pure ⟨h'.1.1, h'.2⟩

theorem investigateMessage_sourced {s : BallotState} (hs : s.Inv) (hsrc : s.Sourced known)
    (message : BallotMessage) :
    (s.investigateMessage message).Meets (fun _ => True) (Sourced known) := by
  cases message with
  | prepare m => exact investigateValues_sourced hs hsrc _
  | confirm m => exact investigateValue_sourced hs hsrc _
  | externalize m => exact investigateValue_sourced hs hsrc _

/-- `AssertValid` only remembers the ballot. -/
theorem assertValid_sourced {s : BallotState} (hsrc : s.Sourced known) :
    s.assertValid.Meets (fun _ => True) (Sourced known) := by
  unfold assertValid
  cases hb : s.b with
  | none =>
    split_ifs
    all_goals first | exact meets_error trivial | exact meets_pure hsrc
  | some b =>
    dsimp only
    split_ifs
    all_goals first
      | exact meets_error trivial
      | exact meets_pure hsrc
      | exact meets_pure (hsrc.congr hb.symm rfl rfl rfl rfl)

/-- The message of a state carries the state's values. -/
theorem message_sourced {s : BallotState} (hsrc : s.Sourced known) (slot : Int)
    (qs : QuorumSlice) : (s.message slot qs).Meets (fun _ => True) (BallotMessage.Sourced known) := by
  unfold message
  cases hb : s.b with
  | none => exact meets_error trivial
  | some b =>
    dsimp only
    have hbx := hsrc.b b hb
    cases s.phase with
    | prepare =>
      refine meets_pure ⟨hbx, fun hpn => ?_, fun hppn => ?_⟩
      · cases hp : s.p with
        | none => simp [hp] at hpn
        | some p => exact hsrc.p p hp
      · cases hq : s.pPrime with
        | none => simp [hq] at hppn
        | some q => exact hsrc.pPrime q hq
    | confirm => exact meets_pure hbx
    | externalize => exact meets_pure hbx
    | invalid => exact meets_error trivial

theorem moveToBallot_sourced {s : BallotState} (hsrc : s.Sourced known)
    {x : SlotValue} (hx : known x) : (s.moveToBallot x).Meets (fun _ => True) (Sourced known) := by
  unfold moveToBallot
  dsimp only
  have hnew : ∀ c : Int, Sourced known { s with b := some ⟨nextNumber s.b, x⟩, cn := c } :=
    fun _ => ⟨fun _ h => (by cases h; exact hx), hsrc.p, hsrc.pPrime, hsrc.z, hsrc.m⟩
  split_ifs
  · refine (meets_trivial _).bind fun abort _ => meets_pure ?_
    split_ifs
    · exact hnew _
    · exact hnew _
  · exact meets_pure (hnew _)

end Known

/-! ## Moving to the next ballot -/

section Next

variable {VS : Type} {ops : ValueStore VS} (ns : NominationState) {known : VS → SlotValue → Prop}
  (hrec : ops.Records known)
include hrec

/-- `GoToNextBallot` moves to `z` or to a prediction, both known. -/
theorem goToNextBallot_sourced {s : BallotState} {vs : VS} (hsrc : s.Sourced (known vs)) :
    (s.goToNextBallot ops ns vs).Meets (fun _ => True)
      (fun r => r.2.1.Sourced (known r.2.2) ∧ Remembers known vs r.2.2) := by
  unfold goToNextBallot
  cases hz : s.z with
  | some z =>
    exact (moveToBallot_sourced hsrc (hsrc.z z hz)).bind
      fun s' h => meets_pure ⟨h, Remembers.refl known vs⟩
  | none =>
    dsimp only
    split_ifs
    · exact meets_pure ⟨hsrc, Remembers.refl known vs⟩
    · refine (ns.predictValue_known hrec vs).bind fun r hr => ?_
      exact (moveToBallot_sourced (hsrc.mono hr.2) hr.1).bind fun s' h => meets_pure ⟨h, hr.2⟩

theorem checkForBlockedBallot_sourced {s : BallotState} {vs : VS} (hsrc : s.Sourced (known vs)) :
    (s.checkForBlockedBallot ops ns vs).Meets (fun _ => True)
      (fun r => r.2.1.Sourced (known r.2.2) ∧ Remembers known vs r.2.2) := by
  unfold checkForBlockedBallot
  cases s.b with
  | none => exact meets_pure ⟨hsrc, Remembers.refl known vs⟩
  | some b =>
    dsimp only
    split_ifs
    · exact meets_pure ⟨hsrc, Remembers.refl known vs⟩
    · exact goToNextBallot_sourced ns hrec hsrc

theorem checkIfStale_sourced {s : BallotState} {vs : VS} (hsrc : s.Sourced (known vs)) :
    (s.checkIfStale ops ns vs).Meets (fun _ => True)
      (fun r => r.1.Sourced (known r.2) ∧ Remembers known vs r.2) := by
  unfold checkIfStale handleStaleQuorum
  dsimp only
  split_ifs
  · cases hb : s.b with
    | none => exact meets_pure ⟨hsrc.congr hb.symm rfl rfl rfl rfl, Remembers.refl known vs⟩
    | some b =>
      dsimp only
      split_ifs
      · exact meets_pure ⟨hsrc.congr hb.symm rfl rfl rfl rfl, Remembers.refl known vs⟩
      · refine (goToNextBallot_sourced ns hrec ?_).bind fun r hr => ?_
        · exact hsrc.congr hb.symm rfl rfl rfl rfl
        · exact meets_pure hr
  · exact meets_pure ⟨hsrc, Remembers.refl known vs⟩

/-- The loop of `Handle`, round by round: the invariant's lemma keeps us on
states where a quorum's acceptance is our own. -/
theorem handleLoop_sourced (message : BallotMessage) :
    ∀ (fuel : Nat) {s : BallotState} {vs : VS}, s.Inv → s.Sourced (known vs) →
      (handleLoop ops ns message fuel s vs).Meets (fun _ => True)
        (fun r => r.1.Sourced (known r.2) ∧ Remembers known vs r.2)
  | 0, _, _, _, _ => meets_error trivial
  | fuel + 1, s, vs, hs, hsrc => by
    unfold handleLoop
    refine ((investigateMessage_meets hs message).and
      (investigateMessage_sourced hs hsrc message)).bind fun s₁ h₁ => ?_
    refine ((checkForBlockedBallot_meets ops ns (fun _ => True) (fun _ _ => trivial)
      (fun _ _ _ _ => trivial) h₁.1.1 vs).and (checkForBlockedBallot_sourced ns hrec h₁.2)).bind
      fun r h₂ => ?_
    split_ifs
    · exact (handleLoop_sourced message fuel h₂.1.1 h₂.2.1).mono
        fun r' h => ⟨h.1, h₂.2.2.trans h.2⟩
    · exact meets_pure h₂.2

/-- `Handle` of a peer's message whose values are known keeps the state's
values known. -/
theorem handle_sourced (fuel : Nat) {s : BallotState} (hs : s.Inv) {node : String}
    (hnode : node ≠ s.publicKey) {message : BallotMessage} {vs : VS}
    (hmsg : message.Sourced (known vs)) (hsrc : s.Sourced (known vs)) :
    (s.handle ops ns fuel node message vs).Meets (fun _ => True)
      (fun r => r.1.Sourced (known r.2) ∧ Remembers known vs r.2) := by
  unfold handle
  split_ifs
  · exact checkIfStale_sourced ns hrec (hsrc.congr rfl rfl rfl rfl rfl)
  · exact handleLoop_sourced ns hrec message fuel (hs.insert_peer hnode _ message)
      (hsrc.insert hmsg _)

end Next

end BallotState

/-! ## Blocks -/

/-- A consensus message whose ballot values are known; nomination messages
and info requests carry none. -/
def ChainMessage.Sourced (known : SlotValue → Prop) : ChainMessage → Prop
  | .ballot m => m.Sourced known
  | _ => True

theorem ChainMessage.Sourced.mono {known known' : SlotValue → Prop} (h : ∀ x, known x → known' x)
    {m : ChainMessage} (hm : m.Sourced known) : m.Sourced known' := by
  cases m with
  | ballot m => exact BallotMessage.Sourced.mono h hm
  | nomination m => trivial
  | info m => trivial

namespace Block

/-- What a block keeps along a run: the ballot state's invariant, under the
block's own key. -/
structure Inv (b : Block) : Prop where
  ballot : b.bState.Inv
  key : b.bState.publicKey = b.publicKey

/-- A block whose ballot state's values and externalized value are known. -/
structure Sourced (known : SlotValue → Prop) (b : Block) : Prop where
  ballot : b.bState.Sourced known
  external : ∀ e, b.external = some e → known e.x

theorem Sourced.mono {known known' : SlotValue → Prop} {b : Block} (hb : b.Sourced known)
    (h : ∀ x, known x → known' x) : b.Sourced known' :=
  ⟨hb.ballot.mono h, fun e he => h _ (hb.external e he)⟩

/-- What a step of a block keeps: the invariant and the key, and values known
at the store's new state, which remembers all that the old one knew. -/
structure Keeps {VS : Type} (known : VS → SlotValue → Prop) (b : Block) (vs : VS) (r : Block × VS) :
    Prop where
  inv : r.1.Inv
  key : r.1.publicKey = b.publicKey
  sourced : r.1.Sourced (known r.2)
  remembers : Remembers known vs r.2

section Step

variable {VS : Type} {ops : ValueStore VS} {known : VS → SlotValue → Prop}

theorem Keeps.refl {b : Block} (hb : b.Inv) {vs : VS} (hsrc : b.Sourced (known vs)) :
    Keeps known b vs (b, vs) :=
  ⟨hb, rfl, hsrc, Remembers.refl known vs⟩

/-- The nomination message and the ballot messages an unfinished block
sends. -/
theorem sends_sourced {known : SlotValue → Prop} {n : NominationMessage} {ms : List ChainMessage}
    (h : ∀ m ∈ ms, m.Sourced known) : ∀ m ∈ [ChainMessage.nomination n] ++ ms, m.Sourced known := by
  intro m hm
  rcases List.mem_append.mp hm with hm | hm
  · rw [List.mem_singleton.mp hm]
    trivial
  · exact h m hm

theorem new_keeps (hrec : ops.Records known) (sha3 : List UInt8 → List UInt8) (publicKey : String)
    (qs : QuorumSlice) (slot : Int) (vs : VS) :
    (Block.new ops sha3 publicKey qs slot vs).Meets (fun _ => True)
      (fun r => r.1.Inv ∧ r.1.publicKey = publicKey ∧ r.1.Sourced (known r.2)) := by
  unfold Block.new
  refine (meets_trivial _).bind fun nState _ => ?_
  refine (nState.maybeNominateNewValue_remembers hrec vs).bind fun r _ => ?_
  exact meets_pure ⟨⟨BallotState.new_inv publicKey qs, rfl⟩, rfl,
    ⟨BallotState.new_sourced publicKey qs, fun _ h => (by cases h)⟩⟩

/-- The type switch of `Handle`: a nomination message only reaches the
store through `SuggestValue`, a ballot message goes through the ballot
state's `Handle`. -/
theorem dispatch_keeps (hrec : ops.Records known) (fuel : Nat) {b : Block} (hb : b.Inv)
    {sender : String} (hsender : sender ≠ b.publicKey) {message : ChainMessage} {vs : VS}
    (hmsg : message.Sourced (known vs)) (hsrc : b.Sourced (known vs)) :
    (b.dispatch ops fuel sender message vs).Meets (fun _ => True) (Keeps known b vs) := by
  cases message with
  | nomination m =>
    refine (meets_trivial _).bind fun nState _ => ?_
    refine (nState.maybeNominateNewValue_remembers hrec vs).bind fun r hr => ?_
    exact meets_pure ⟨⟨hb.ballot, hb.key⟩, rfl, ⟨hsrc.ballot.mono hr, fun e he => hr _ (hsrc.external e he)⟩, hr⟩
  | ballot m =>
    have hnode : sender ≠ b.bState.publicKey := hb.key ▸ hsender
    refine ((BallotState.handle_meets ops b.nState (fun _ => True) (fun _ _ => trivial)
      (fun _ _ _ _ => trivial) fuel hb.ballot hnode m vs).and
      (BallotState.handle_sourced b.nState hrec fuel hb.ballot hnode hmsg hsrc.ballot)).bind
      fun r h => ?_
    exact meets_pure ⟨⟨h.1.1, h.1.2.publicKey.trans hb.key⟩, rfl,
      ⟨h.2.1, fun e he => h.2.2 _ (hsrc.external e he)⟩, h.2.2⟩
  | info m => exact meets_pure (Keeps.refl hb hsrc)

/-- `keepExternal` copies the ballot state's externalize message, whose
value is the ballot's. -/
theorem keepExternal_sourced {known : SlotValue → Prop} {b : Block} (hsrc : b.Sourced known) :
    b.keepExternal.Meets (fun _ => True)
      (fun b' => b'.Sourced known ∧ b'.bState = b.bState ∧ b'.publicKey = b.publicKey) := by
  unfold keepExternal
  split_ifs
  · refine (BallotState.message_sourced hsrc.ballot b.slot b.d).bind fun m hm => ?_
    cases m with
    | prepare m => exact meets_error trivial
    | confirm m => exact meets_error trivial
    | externalize e => exact meets_pure ⟨⟨hsrc.ballot, fun _ h => (by cases h; exact hm)⟩, rfl, rfl⟩
  · exact meets_pure ⟨hsrc, rfl, rfl⟩

theorem assertValid_sourced {known : SlotValue → Prop} {b : Block} (hb : b.bState.Inv)
    (hsrc : b.Sourced known) :
    b.assertValid.Meets (fun _ => True) (fun b' => b'.bState.Inv ∧
      b'.bState.publicKey = b.bState.publicKey ∧ b'.publicKey = b.publicKey ∧ b'.Sourced known) := by
  obtain ⟨s', hs', hnext⟩ := BallotState.assertValid_next hb
  have hsrc' := (BallotState.assertValid_sourced hsrc.ballot).of_ok hs'
  unfold assertValid
  refine (meets_trivial _).bind fun _ _ => ?_
  rw [hs', Except.ok_bind]
  split_ifs
  · exact meets_error trivial
  · exact meets_pure ⟨hnext.1, hnext.2.publicKey, rfl, ⟨hsrc', hsrc.external⟩⟩

/-- `Handle` of a message whose values are known: every block step keeps the
invariant and the key, and takes values only from what the stores know. -/
theorem handle_keeps (hrec : ops.Records known) (fuel : Nat) {b : Block} (hb : b.Inv)
    {sender : String} {message : ChainMessage} {vs : VS} (hmsg : message.Sourced (known vs))
    (hsrc : b.Sourced (known vs)) :
    (b.handle ops fuel sender message vs).Meets (fun _ => True) (Keeps known b vs) := by
  unfold handle
  split_ifs with hsender
  · exact meets_pure (Keeps.refl hb hsrc)
  refine (dispatch_keeps hrec fuel hb hsender hmsg hsrc).bind fun r h => ?_
  obtain ⟨b₁, vs₁⟩ := r
  refine (keepExternal_sourced h.sourced).bind fun b₂ h₂ => ?_
  refine (assertValid_sourced ?_ h₂.1).bind fun b₃ h₃ => ?_
  · rw [h₂.2.1]
    exact h.inv.ballot
  have hkey : b₃.bState.publicKey = b₃.publicKey := calc
    b₃.bState.publicKey = b₁.bState.publicKey := by rw [h₃.2.1, h₂.2.1]
    _ = b₁.publicKey := h.inv.key
    _ = b₃.publicKey := by rw [h₃.2.2.1, h₂.2.2]
  exact meets_pure ⟨⟨h₃.1, hkey⟩, h₃.2.2.1.trans (h₂.2.2.trans h.key), h₃.2.2.2, h.remembers⟩

/-- The end of `OutgoingMessages` once the ballot state is settled: the
nomination message, and the ballot state's message when it has one. -/
theorem answer_keeps {b : Block} {bState : BallotState} {vs vs' : VS}
    (hkeep : Keeps known b vs (⟨b.slot, b.nState, bState, none, b.d, b.publicKey⟩, vs')) :
    (if bState.hasMessage then do
        let m ← bState.message b.slot b.d
        pure ([ChainMessage.nomination (b.nState.message b.slot b.d)] ++ [.ballot m],
          (⟨b.slot, b.nState, bState, none, b.d, b.publicKey⟩ : Block), vs')
      else pure ([ChainMessage.nomination (b.nState.message b.slot b.d)],
        (⟨b.slot, b.nState, bState, none, b.d, b.publicKey⟩ : Block), vs') :
        Except Fault (List ChainMessage × Block × VS)).Meets (fun _ => True)
      (fun r => (∀ m ∈ r.1, m.Sourced (known r.2.2)) ∧ Keeps known b vs r.2) := by
  split_ifs
  · refine (BallotState.message_sourced hkeep.sourced.ballot b.slot b.d).bind fun m hm => ?_
    refine meets_pure ⟨sends_sourced fun m' hm' => ?_, hkeep⟩
    rw [List.mem_singleton.mp hm']
    exact hm
  · refine meets_pure ⟨fun m hm => ?_, hkeep⟩
    rw [List.mem_singleton.mp hm]
    trivial

/-- `OutgoingMessages`: the externalize message once there is one, else the
nomination message and the message of the ballot state, moved to a first
ballot when it had none. Every ballot value sent is known. -/
theorem outgoingMessages_keeps (hrec : ops.Records known) {b : Block} (hb : b.Inv) {vs : VS}
    (hsrc : b.Sourced (known vs)) :
    (b.outgoingMessages ops vs).Meets (fun _ => True)
      (fun r => (∀ m ∈ r.1, m.Sourced (known r.2.2)) ∧ Keeps known b vs r.2) := by
  unfold outgoingMessages
  cases hext : b.external with
  | some e =>
    refine meets_pure ⟨fun m hm => ?_, Keeps.refl hb hsrc⟩
    rw [List.mem_singleton.mp hm]
    exact hsrc.external e hext
  | none =>
    dsimp only
    by_cases hnone : b.bState.b = none
    · rw [if_pos hnone]
      refine ((BallotState.goToNextBallot_meets ops b.nState (fun _ => True) (fun _ _ => trivial)
        (fun _ _ _ _ => trivial) hb.ballot vs).and
        (BallotState.goToNextBallot_sourced b.nState hrec hsrc.ballot)).bind fun r h => ?_
      have hkeep : Keeps known b vs (⟨b.slot, b.nState, r.2.1, none, b.d, b.publicKey⟩, r.2.2) :=
        ⟨⟨h.1.1, h.1.2.publicKey.trans hb.key⟩, rfl, ⟨h.2.1, fun _ h => (by cases h)⟩, h.2.2⟩
      simp only [Except.pure_eq_ok, Except.ok_bind]
      exact answer_keeps hkeep
    · rw [if_neg hnone]
      have hkeep : Keeps known b vs (⟨b.slot, b.nState, b.bState, none, b.d, b.publicKey⟩, vs) :=
        ⟨⟨hb.ballot, hb.key⟩, rfl, ⟨hsrc.ballot, fun _ h => (by cases h)⟩, Remembers.refl known vs⟩
      simp only [Except.pure_eq_ok, Except.ok_bind]
      exact answer_keeps hkeep

end Step

end Block

end Coinkit.Consensus

import Coinkit.Consensus.SeedSort
import Coinkit.Consensus.Quorum
import Coinkit.Consensus.Value
import Coinkit.Lib.Run

/-!
# The nomination state

`consensus/nomination_state.go` and `consensus/nomination_message.go`. A node
nominates values in three growing lists: `X`, the values it voted to
nominate, `Y`, those it accepted as nominated, and `Z`, those whose
nomination it confirmed. It keeps the last message of every peer in `N`.

The state's value store is not a field here: the operations that use it take
the store's operations `ops` and its current state `vs`, and return the new
state where the store changes (`SuggestValue`, `Combine`).

`Handle` learns from a message only when its lists are longer than those of
the stored message from the same node: a message with a shorter list is
stale, one with both lengths equal is a repeat. The values past the stored
lengths are touched: new nominations that validate go into `X`, and
`MaybeAdvance` runs on every touched value.

`MaybeAdvance` ranges over the Go map `N`; the lists of nodes it builds are
only ever read as sets (`meetsQuorum_iff`, `atLeast_iff`), so the model's
order of the entries stands for any order.

## What is proved

The spec of `MaybeAdvance` (`maybeAdvance_spec`): it only appends `v` to `Y`
when `v` is new there, and only appends it to `Z` when it is new there and
in `Y` afterwards. The second half is where `meetsQuorum_mono` is needed: a
quorum of acceptors is in particular a quorum of voters, so confirming
without accepting is impossible. From it, `Handle` and the other operations
keep the lists duplicate-free with `Z ⊆ Y`, and only append to them.
-/

set_option autoImplicit false

namespace Coinkit.Consensus

/-- `NominationMessage`. -/
structure NominationMessage where
  i : Int
  nom : List SlotValue
  acc : List SlotValue
  d : QuorumSlice
  deriving DecidableEq, Repr

/-- `NominationState`, without its value store. -/
structure NominationState where
  x : List SlotValue
  y : List SlotValue
  z : List SlotValue
  n : AList (fun _ : String => NominationMessage)
  publicKey : String
  d : QuorumSlice
  received : Int
  priority : Int

namespace NominationState

variable {VS : Type} (ops : ValueStore VS)

/-- `NewNominationState(publicKey, qs, vs)`: the priority is our place in the
members sorted by a hash seeded with the last value. -/
def new (sha3 : List UInt8 → List UInt8) (publicKey : String) (qs : QuorumSlice) (vs : VS) :
    Except Fault NominationState := do
  let priority ← seedPriority sha3 (ops.last vs) qs.members publicKey
  pure ⟨[], [], [], ∅, publicKey, qs, 0, priority⟩

def hasNomination (s : NominationState) : Bool := s.x.length > 0

def nominateNewValue (s : NominationState) (v : SlotValue) : NominationState :=
  if s.hasNomination then s else { s with x := [v] }

/-- `MaybeNominateNewValue()`: whether we nominated, and the new states. -/
def maybeNominateNewValue (s : NominationState) (vs : VS) :
    Except Fault (Bool × NominationState × VS) :=
  if s.x.length > 0 then pure (false, s, vs)
  else if s.d.threshold * s.priority > s.received then pure (false, s, vs)
  else do
    let ((v, ok), vs) ← ops.suggestValue vs
    if !ok then pure (false, s, vs) else pure (true, s.nominateNewValue v, vs)

/-- `PredictValue()`: the combination of the most advanced nonempty list. -/
def predictValue (s : NominationState) (vs : VS) : Except Fault (SlotValue × VS) :=
  if s.z.length > 0 then ops.combine s.z vs
  else if s.y.length > 0 then ops.combine s.y vs
  else if s.x.length > 0 then ops.combine s.x vs
  else .error (.panic "PredictValue was called when HasNomination was false")

/-- The state as a `QuorumFinder`: our own slice, and the one each stored
message carries. -/
def quorumFinder (s : NominationState) : QuorumFinder :=
  ⟨fun node => if node = s.publicKey then some s.d else (s.n.lookup node).map (·.d), s.publicKey⟩

def assertValid (s : NominationState) : Except Fault Unit := do
  assertNoDupes s.x
  assertNoDupes s.y
  assertNoDupes s.z

/-- One stored message in the count of `MaybeAdvance`: a node that accepted
`v` voted for it too. -/
def tallyVote (v : SlotValue) (acc : List String × List String)
    (e : Σ _ : String, NominationMessage) : List String × List String :=
  if hasSlotValue e.2.acc v then (acc.1 ++ [e.1], acc.2 ++ [e.1])
  else if hasSlotValue e.2.nom v then (acc.1 ++ [e.1], acc.2)
  else acc

/-- The nodes that voted for or accepted `v`, and those that accepted it:
we first, then every stored message. -/
def votes (s : NominationState) (v : SlotValue) : List String × List String :=
  s.n.entries.foldl (tallyVote v)
    (if hasSlotValue s.x v then [s.publicKey] else [],
      if hasSlotValue s.y v then [s.publicKey] else [])

/-- The accepting half of `MaybeAdvance`: a value accepted and not yet in
`Y` goes in, and we count as one of its acceptors. -/
def acceptValue (s : NominationState) (v : SlotValue) (accept : Bool) (accepted : List String) :
    Except Fault (Bool × NominationState × List String) :=
  if accept && !hasSlotValue s.y v then do
    assertNoDupes s.y
    let s' := { s with y := s.y ++ [v] }
    assertNoDupes s'.y
    pure (true, s', accepted ++ [s.publicKey])
  else pure (false, s, accepted)

/-- `MaybeAdvance(v)`: accept `v` when a quorum voted for or accepted it or a
blocking set accepted it; confirm it when a quorum accepted it. -/
def maybeAdvance (s : NominationState) (v : SlotValue) : Except Fault (Bool × NominationState) :=
  if hasSlotValue s.z v then pure (false, s)
  else do
    let accept := meetsQuorum s.quorumFinder (s.votes v).1 || s.d.blockedBy (s.votes v).2
    let (changed, s', accepted) ← s.acceptValue v accept (s.votes v).2
    if meetsQuorum s'.quorumFinder accepted then pure (true, { s' with z := s'.z ++ [v] })
    else pure (changed, s')

/-- `MaybeAdvance` as `Handle` calls it, its answer dropped. -/
def advance (s : NominationState) (v : SlotValue) : Except Fault NominationState := do
  let r ← s.maybeAdvance v
  pure r.2

/-- The lengths of the lists of the message stored for `node`. -/
def oldLengths (s : NominationState) (node : String) : Nat × Nat :=
  match s.n.lookup node with
  | some old => (old.nom.length, old.acc.length)
  | none => (0, 0)

/-- Whether `Handle` learns from `m`: no list is shorter than the stored
one's, and not both have the stored lengths. -/
def isNews (s : NominationState) (node : String) (m : NominationMessage) : Bool :=
  !(m.nom.length < (s.oldLengths node).1) && !(m.acc.length < (s.oldLengths node).2) &&
    !(m.nom.length = (s.oldLengths node).1 && m.acc.length = (s.oldLengths node).2)

/-- Append a value to a list unless it is there. -/
def appendNew (t : List SlotValue) (v : SlotValue) : List SlotValue :=
  if hasSlotValue t v then t else t ++ [v]

/-- The values of `m` past the stored lengths, nominated ones first, each
once: what `Handle` passes to `MaybeAdvance`. -/
def touched (s : NominationState) (node : String) (m : NominationMessage) : List SlotValue :=
  ((m.nom.drop (s.oldLengths node).1) ++ (m.acc.drop (s.oldLengths node).2)).foldl appendNew []

/-- Support the new nominations that are not in `X` and validate. -/
def supportNominations (s : NominationState) (vs : VS) (values : List SlotValue) :
    NominationState :=
  values.foldl
    (fun s value =>
      if !hasSlotValue s.x value && ops.validateValue value vs then { s with x := s.x ++ [value] }
      else s)
    s

/-- `Handle(node, m)`. -/
def handle (s : NominationState) (node : String) (m : NominationMessage) (vs : VS) :
    Except Fault NominationState :=
  let s := { s with received := s.received + 1 }
  if !s.isNews node m then pure s
  else
    let s' := { s with n := s.n.insert node m }.supportNominations ops vs
      (m.nom.drop (s.oldLengths node).1)
    (s.touched node m).foldlM advance s'

/-- `Message(slot, qs)`. -/
def message (s : NominationState) (slot : Int) (qs : QuorumSlice) : NominationMessage :=
  ⟨slot, s.x, s.y, qs⟩

/-! ## The invariant of the lists -/

/-- What `AssertValid` checks, and `Z ⊆ Y`. -/
structure Inv (s : NominationState) : Prop where
  x_nodup : s.x.Nodup
  y_nodup : s.y.Nodup
  z_nodup : s.z.Nodup
  z_subset : ∀ v ∈ s.z, v ∈ s.y

/-- The lists of `s'` extend those of `s`. -/
def Grows (s s' : NominationState) : Prop := s.x <+: s'.x ∧ s.y <+: s'.y ∧ s.z <+: s'.z

theorem Grows.refl (s : NominationState) : Grows s s :=
  ⟨List.prefix_refl _, List.prefix_refl _, List.prefix_refl _⟩

theorem Grows.trans {s₁ s₂ s₃ : NominationState} (h₁ : Grows s₁ s₂) (h₂ : Grows s₂ s₃) :
    Grows s₁ s₃ :=
  ⟨h₁.1.trans h₂.1, h₁.2.1.trans h₂.2.1, h₁.2.2.trans h₂.2.2⟩

/-- `AssertValid` never fails on a state of the invariant. -/
theorem assertValid_ok {s : NominationState} (hs : s.Inv) : s.assertValid = .ok () := by
  simp only [assertValid, assertNoDupes_ok hs.x_nodup, assertNoDupes_ok hs.y_nodup,
    assertNoDupes_ok hs.z_nodup, Except.ok_bind]

/-! ## `MaybeAdvance` -/

/-- Every acceptor counted is a voter counted, or ourselves when `v` is
already in `Y`. -/
theorem votes_accepted (s : NominationState) (v : SlotValue) :
    ∀ node ∈ (s.votes v).2, (node = s.publicKey ∧ v ∈ s.y) ∨ node ∈ (s.votes v).1 := by
  unfold votes
  generalize hinit : (if hasSlotValue s.x v then [s.publicKey] else [],
    if hasSlotValue s.y v then [s.publicKey] else []) = init
  have hstart : ∀ node ∈ init.2, (node = s.publicKey ∧ v ∈ s.y) ∨ node ∈ init.1 := by
    subst hinit
    intro node hnode
    by_cases hy : hasSlotValue s.y v = true
    · rw [if_pos hy, List.mem_singleton] at hnode
      exact .inl ⟨hnode, hasSlotValue_iff.mp hy⟩
    · rw [if_neg hy] at hnode
      exact absurd hnode List.not_mem_nil
  clear hinit
  induction s.n.entries generalizing init with
  | nil => exact hstart
  | cons e es ih =>
    apply ih
    intro node hnode
    unfold tallyVote at hnode ⊢
    split_ifs at hnode ⊢
    · rcases List.mem_append.mp hnode with h | h
      · rcases hstart node h with h | h
        · exact .inl h
        · exact .inr (List.mem_append_left _ h)
      · exact .inr (List.mem_append_right _ h)
    · rcases hstart node hnode with h | h
      · exact .inl h
      · exact .inr (List.mem_append_left _ h)
    · exact hstart node hnode

theorem acceptValue_spec {s s' : NominationState} {v : SlotValue} {accept : Bool}
    {accepted accepted' : List String} {changed : Bool}
    (h : s.acceptValue v accept accepted = .ok (changed, s', accepted')) :
    (s' = s ∧ accepted' = accepted ∧ (accept = true → v ∈ s.y)) ∨
      (accept = true ∧ v ∉ s.y ∧ s' = { s with y := s.y ++ [v] } ∧
        accepted' = accepted ++ [s.publicKey]) := by
  unfold acceptValue at h
  by_cases hnew : (accept && !hasSlotValue s.y v) = true
  · rw [if_pos hnew] at h
    simp only [Bool.and_eq_true, Bool.not_eq_true'] at hnew
    obtain ⟨u, -, hrest⟩ := Except.bind_eq_ok.mp h
    obtain ⟨u', -, hrest'⟩ := Except.bind_eq_ok.mp hrest
    cases hrest'
    refine .inr ⟨hnew.1, fun hv => ?_, rfl, rfl⟩
    rw [← hasSlotValue_iff, hnew.2] at hv
    cases hv
  · rw [if_neg hnew] at h
    cases h
    refine .inl ⟨rfl, rfl, fun ha => ?_⟩
    simp only [ha, Bool.true_and, Bool.not_eq_true', Bool.not_eq_false] at hnew
    exact hasSlotValue_iff.mp (by simpa using hnew)

theorem acceptValue_ok {s : NominationState} (hy : s.y.Nodup) (v : SlotValue) (accept : Bool)
    (accepted : List String) : ∃ r, s.acceptValue v accept accepted = .ok r := by
  unfold acceptValue
  by_cases hnew : (accept && !hasSlotValue s.y v) = true
  · rw [if_pos hnew]
    have hv : v ∉ s.y := by
      simp only [Bool.and_eq_true, Bool.not_eq_true'] at hnew
      rw [← hasSlotValue_iff, hnew.2]
      exact Bool.false_ne_true
    have hy' : (s.y ++ [v]).Nodup := List.nodup_append.mpr
      ⟨hy, List.nodup_singleton v, fun a ha b hb => by
        rw [List.mem_singleton] at hb
        rintro rfl
        exact hv (hb ▸ ha)⟩
    simp only [assertNoDupes_ok hy, assertNoDupes_ok hy', Except.ok_bind]
    exact ⟨_, rfl⟩
  · rw [if_neg hnew]
    exact ⟨_, rfl⟩

/-- Everything `MaybeAdvance` can do: only `Y` and `Z` change, `v` goes into
`Y` only when it is new there, and into `Z` only when it is new there and in
`Y` afterwards. -/
theorem maybeAdvance_spec {s s' : NominationState} {v : SlotValue} {changed : Bool}
    (h : s.maybeAdvance v = .ok (changed, s')) :
    (∃ y z, s' = { s with y := y, z := z }) ∧
      (s'.y = s.y ∨ (v ∉ s.y ∧ s'.y = s.y ++ [v])) ∧
      (s'.z = s.z ∨ (v ∉ s.z ∧ v ∈ s'.y ∧ s'.z = s.z ++ [v])) := by
  unfold maybeAdvance at h
  by_cases hz : hasSlotValue s.z v = true
  · rw [if_pos hz] at h
    cases h
    exact ⟨⟨s.y, s.z, rfl⟩, .inl rfl, .inl rfl⟩
  rw [if_neg hz] at h
  obtain ⟨⟨changed₁, s₁, accepted⟩, hacc, hconf⟩ := Except.bind_eq_ok.mp h
  have hvz : v ∉ s.z := fun hv => hz (hasSlotValue_iff.mpr hv)
  -- `v` is in `Y` after the accepting half whenever a quorum accepted it
  have hconfirmed : meetsQuorum s₁.quorumFinder accepted = true → v ∈ s₁.y := by
    intro hq
    rcases acceptValue_spec hacc with ⟨rfl, rfl, hnotacc⟩ | ⟨-, -, rfl, -⟩
    · by_cases hy : v ∈ s₁.y
      · exact hy
      · have hvoters : meetsQuorum s₁.quorumFinder (s₁.votes v).1 = true := by
          refine meetsQuorum_mono hq fun node hnode => ?_
          rcases votes_accepted s₁ v node hnode with ⟨-, hv⟩ | h
          · exact absurd hv hy
          · exact h
        exact hnotacc (by simp [hvoters])
    · exact List.mem_append_right _ (List.mem_singleton_self v)
  have hframe₁ : ∃ y, s₁ = { s with y := y } ∧ (y = s.y ∨ (v ∉ s.y ∧ y = s.y ++ [v])) := by
    rcases acceptValue_spec hacc with ⟨rfl, -, -⟩ | ⟨-, hvy, rfl, -⟩
    · exact ⟨s₁.y, rfl, .inl rfl⟩
    · exact ⟨_, rfl, .inr ⟨hvy, rfl⟩⟩
  obtain ⟨y, rfl, hy⟩ := hframe₁
  dsimp only at hconf
  split_ifs at hconf with hq
  · cases hconf
    exact ⟨⟨y, s.z ++ [v], rfl⟩, hy, .inr ⟨hvz, hconfirmed hq, rfl⟩⟩
  · cases hconf
    exact ⟨⟨y, s.z, rfl⟩, hy, .inl rfl⟩

/-- `MaybeAdvance` keeps the invariant and only appends. -/
theorem maybeAdvance_inv {s s' : NominationState} {v : SlotValue} {changed : Bool}
    (hs : s.Inv) (h : s.maybeAdvance v = .ok (changed, s')) : s'.Inv ∧ Grows s s' := by
  obtain ⟨⟨y, z, rfl⟩, hy, hz⟩ := maybeAdvance_spec h
  have hy' : y.Nodup ∧ s.y <+: y ∧ ∀ w ∈ s.y, w ∈ y := by
    rcases hy with rfl | ⟨hvy, rfl⟩
    · exact ⟨hs.y_nodup, List.prefix_refl _, fun w hw => hw⟩
    · exact ⟨List.nodup_append.mpr ⟨hs.y_nodup, List.nodup_singleton v, fun a ha b hb => by
          rw [List.mem_singleton] at hb
          rintro rfl
          exact hvy (hb ▸ ha)⟩,
        List.prefix_append _ _, fun w hw => List.mem_append_left _ hw⟩
  obtain ⟨hynodup, hyprefix, hysub⟩ := hy'
  rcases hz with rfl | ⟨hvz, hvy, rfl⟩
  · exact ⟨⟨hs.x_nodup, hynodup, hs.z_nodup, fun w hw => hysub w (hs.z_subset w hw)⟩,
      ⟨List.prefix_refl _, hyprefix, List.prefix_refl _⟩⟩
  · refine ⟨⟨hs.x_nodup, hynodup, ?_, ?_⟩, ⟨List.prefix_refl _, hyprefix, List.prefix_append _ _⟩⟩
    · exact List.nodup_append.mpr ⟨hs.z_nodup, List.nodup_singleton v, fun a ha b hb => by
        rw [List.mem_singleton] at hb
        rintro rfl
        exact hvz (hb ▸ ha)⟩
    · intro w hw
      rcases List.mem_append.mp hw with hw | hw
      · exact hysub w (hs.z_subset w hw)
      · rw [List.mem_singleton] at hw
        exact hw ▸ hvy

/-- `MaybeAdvance` never reaches its `AssertNoDupes` failures. -/
theorem maybeAdvance_ok {s : NominationState} (hs : s.Inv) (v : SlotValue) :
    ∃ r, s.maybeAdvance v = .ok r := by
  unfold maybeAdvance
  by_cases hz : hasSlotValue s.z v = true
  · rw [if_pos hz]
    exact ⟨_, rfl⟩
  rw [if_neg hz]
  obtain ⟨⟨changed, s₁, accepted⟩, hacc⟩ := acceptValue_ok hs.y_nodup v
    (meetsQuorum s.quorumFinder (s.votes v).1 || s.d.blockedBy (s.votes v).2) (s.votes v).2
  dsimp only
  rw [hacc, Except.ok_bind]
  split_ifs
  · exact ⟨_, rfl⟩
  · exact ⟨_, rfl⟩

theorem advance_inv {s s' : NominationState} {v : SlotValue} (hs : s.Inv)
    (h : s.advance v = .ok s') : s'.Inv ∧ Grows s s' ∧ s'.n = s.n ∧ s'.x = s.x := by
  obtain ⟨⟨changed, s₁⟩, hm, hpure⟩ := Except.bind_eq_ok.mp h
  cases hpure
  obtain ⟨⟨y, z, rfl⟩, -, -⟩ := maybeAdvance_spec hm
  exact ⟨(maybeAdvance_inv hs hm).1, (maybeAdvance_inv hs hm).2, rfl, rfl⟩

/-! ## `Handle` -/

/-- Counting a message changes nothing `Handle` reads. -/
@[simp] theorem oldLengths_received (s : NominationState) (r : Int) (node : String) :
    ({ s with received := r } : NominationState).oldLengths node = s.oldLengths node := rfl

@[simp] theorem isNews_received (s : NominationState) (r : Int) (node : String)
    (m : NominationMessage) :
    ({ s with received := r } : NominationState).isNews node m = s.isNews node m := rfl

@[simp] theorem touched_received (s : NominationState) (r : Int) (node : String)
    (m : NominationMessage) :
    ({ s with received := r } : NominationState).touched node m = s.touched node m := rfl

/-- Supporting nominations only appends new values to `X`. -/
theorem supportNominations_spec (s : NominationState) (vs : VS) :
    ∀ values : List SlotValue, ∃ x, s.supportNominations ops vs values = { s with x := x } ∧
      s.x <+: x ∧ (s.x.Nodup → x.Nodup) := by
  intro values
  induction values generalizing s with
  | nil => exact ⟨s.x, rfl, List.prefix_refl _, id⟩
  | cons value values ih =>
    unfold supportNominations
    rw [List.foldl_cons]
    by_cases hnew : (!hasSlotValue s.x value && ops.validateValue value vs) = true
    · rw [if_pos hnew]
      obtain ⟨x, hx, hpre, hnodup⟩ := ih { s with x := s.x ++ [value] }
      refine ⟨x, hx, (List.prefix_append _ _).trans hpre, fun hs => hnodup ?_⟩
      have hv : value ∉ s.x := by
        simp only [Bool.and_eq_true, Bool.not_eq_true'] at hnew
        rw [← hasSlotValue_iff, hnew.1]
        exact Bool.false_ne_true
      exact List.nodup_append.mpr ⟨hs, List.nodup_singleton value, fun a ha b hb => by
        rw [List.mem_singleton] at hb
        rintro rfl
        exact hv (hb ▸ ha)⟩
    · rw [if_neg hnew]
      exact ih s

/-- The loop of `MaybeAdvance` calls keeps the invariant, only appends, and
leaves `N` and `X` alone. -/
theorem advance_loop {s s' : NominationState} (hs : s.Inv) :
    ∀ {vs : List SlotValue}, vs.foldlM advance s = .ok s' →
      s'.Inv ∧ Grows s s' ∧ s'.n = s.n ∧ s'.x = s.x := by
  intro vs h
  let I : NominationState → Prop := fun t => t.Inv ∧ Grows s t ∧ t.n = s.n ∧ t.x = s.x
  refine StepRun.foldlM_invariant I ?_ vs ⟨hs, Grows.refl s, rfl, rfl⟩ h
  rintro t v t' ⟨ht, hgrow, hn, hx⟩ hstep
  obtain ⟨ht', hgrow', hn', hx'⟩ := advance_inv ht hstep
  exact ⟨ht', hgrow.trans hgrow', hn'.trans hn, hx'.trans hx⟩

/-- `MaybeAdvance` calls leave `N` alone. -/
theorem advance_loop_n {s s' : NominationState} {vs : List SlotValue}
    (h : vs.foldlM advance s = .ok s') : s'.n = s.n := by
  refine StepRun.foldlM_invariant (fun t => t.n = s.n) ?_ vs rfl h
  intro t v t' ht hstep
  obtain ⟨⟨changed, t₁⟩, hm, hpure⟩ := Except.bind_eq_ok.mp hstep
  cases hpure
  obtain ⟨⟨y, z, rfl⟩, -, -⟩ := maybeAdvance_spec hm
  exact ht

/-- Everything `Handle` can do: a message that is not news is only counted;
news is stored, its new nominations supported, and its touched values
advanced. -/
theorem handle_cases {s s' : NominationState} {node : String} {m : NominationMessage} {vs : VS}
    (h : s.handle ops node m vs = .ok s') :
    (s.isNews node m = false ∧ s' = { s with received := s.received + 1 }) ∨
      (s.isNews node m = true ∧ ∃ x, s.x <+: x ∧ (s.x.Nodup → x.Nodup) ∧
        (s.touched node m).foldlM advance
          { s with received := s.received + 1, n := s.n.insert node m, x := x } = .ok s') := by
  unfold handle at h
  dsimp only at h
  simp only [isNews_received, oldLengths_received, touched_received] at h
  by_cases hnews : s.isNews node m = true
  · simp only [hnews, Bool.not_true, Bool.false_eq_true, if_false] at h
    obtain ⟨x, hx, hpre, hnodup⟩ := supportNominations_spec ops
      { s with received := s.received + 1, n := s.n.insert node m } vs
      (m.nom.drop (s.oldLengths node).1)
    rw [hx] at h
    exact .inr ⟨hnews, x, hpre, hnodup, h⟩
  · simp only [Bool.not_eq_true] at hnews
    simp only [hnews, Bool.not_false, if_true] at h
    cases h
    exact .inl ⟨hnews, rfl⟩

/-- `Handle` stores the message exactly when it is news. -/
theorem handle_n {s s' : NominationState} {node : String} {m : NominationMessage} {vs : VS}
    (h : s.handle ops node m vs = .ok s') :
    s'.n = if s.isNews node m then s.n.insert node m else s.n := by
  rcases handle_cases ops h with ⟨hnews, rfl⟩ | ⟨hnews, x, -, -, hloop⟩
  · simp [hnews]
  · rw [advance_loop_n hloop, if_pos hnews]

/-- `Handle` keeps the invariant and only appends to the lists. -/
theorem handle_spec {s s' : NominationState} {node : String} {m : NominationMessage} {vs : VS}
    (hs : s.Inv) (h : s.handle ops node m vs = .ok s') : s'.Inv ∧ Grows s s' := by
  rcases handle_cases ops h with ⟨-, rfl⟩ | ⟨-, x, hpre, hnodup, hloop⟩
  · exact ⟨⟨hs.x_nodup, hs.y_nodup, hs.z_nodup, hs.z_subset⟩, Grows.refl s⟩
  · have hs₂ : Inv { s with received := s.received + 1, n := s.n.insert node m, x := x } :=
      ⟨hnodup hs.x_nodup, hs.y_nodup, hs.z_nodup, hs.z_subset⟩
    obtain ⟨hs', hgrow, -, -⟩ := advance_loop hs₂ hloop
    exact ⟨hs', ⟨hpre.trans hgrow.1, hgrow.2.1, hgrow.2.2⟩⟩

@[simp]
theorem nominateNewValue_n (s : NominationState) (v : SlotValue) :
    (s.nominateNewValue v).n = s.n := by
  unfold nominateNewValue
  split_ifs <;> rfl

/-- Nominating only ever starts an empty `X`. -/
theorem nominateNewValue_spec (s : NominationState) (v : SlotValue) (hs : s.Inv) :
    (s.nominateNewValue v).Inv ∧ Grows s (s.nominateNewValue v) ∧
      (s.nominateNewValue v).n = s.n := by
  unfold nominateNewValue hasNomination
  by_cases hx : s.x.length > 0
  · rw [if_pos (by simpa using hx)]
    exact ⟨hs, Grows.refl s, rfl⟩
  · rw [if_neg (by simpa using hx)]
    have hnil : s.x = [] := List.eq_nil_of_length_eq_zero (by omega)
    refine ⟨⟨List.nodup_singleton v, hs.y_nodup, hs.z_nodup, hs.z_subset⟩,
      ⟨?_, List.prefix_refl _, List.prefix_refl _⟩, rfl⟩
    rw [hnil]
    exact List.nil_prefix

/-- `MaybeNominateNewValue` leaves `N` alone. -/
theorem maybeNominateNewValue_n {s s' : NominationState} {vs vs' : VS} {b : Bool}
    (h : s.maybeNominateNewValue ops vs = .ok (b, s', vs')) : s'.n = s.n := by
  unfold maybeNominateNewValue at h
  split_ifs at h
  · cases h
    rfl
  · cases h
    rfl
  · obtain ⟨⟨⟨v, ok⟩, vs₁⟩, -, hrest⟩ := Except.bind_eq_ok.mp h
    dsimp only at hrest
    split_ifs at hrest
    · cases hrest
      rfl
    · cases hrest
      exact nominateNewValue_n s v

theorem maybeNominateNewValue_spec {s s' : NominationState} {vs vs' : VS} {b : Bool}
    (hs : s.Inv) (h : s.maybeNominateNewValue ops vs = .ok (b, s', vs')) :
    s'.Inv ∧ Grows s s' ∧ s'.n = s.n := by
  unfold maybeNominateNewValue at h
  split_ifs at h with hx hturn
  · cases h
    exact ⟨hs, Grows.refl s, rfl⟩
  · cases h
    exact ⟨hs, Grows.refl s, rfl⟩
  · obtain ⟨⟨⟨v, ok⟩, vs₁⟩, -, hrest⟩ := Except.bind_eq_ok.mp h
    dsimp only at hrest
    split_ifs at hrest
    · cases hrest
      exact ⟨hs, Grows.refl s, rfl⟩
    · cases hrest
      exact nominateNewValue_spec s v hs

/-- With nothing to suggest from the value store, `MaybeNominateNewValue`
changes nothing, whether or not it is our turn. -/
theorem maybeNominateNewValue_of_no_suggestion {s : NominationState} {vs : VS} {v : SlotValue}
    (h : ops.suggestValue vs = .ok ((v, false), vs)) :
    s.maybeNominateNewValue ops vs = .ok (false, s, vs) := by
  unfold maybeNominateNewValue
  split_ifs
  · rfl
  · rfl
  · rw [h]
    rfl

end NominationState

end Coinkit.Consensus

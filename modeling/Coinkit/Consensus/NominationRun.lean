import Coinkit.Consensus.Nomination

/-!
# Runs of the nomination state, and what a receiver keeps

A nomination state is driven by three kinds of calls: `Handle` of a peer's
message, `MaybeNominateNewValue`, and `NominateNewValue`. A run is a list of
such inputs, each carrying the value store's state at that moment.

On the sending side, every run keeps the lists duplicate-free with `Z ⊆ Y`
and only appends to them, so the messages a node emits along a run form a
chain: of any two, both lists of one are prefixes of the other's.

On the receiving side, `Handle` tells news from a repeat by the lengths of
the lists alone. Over a chain that is enough: whatever subset of a sender's
messages a receiver handles, in whatever order and with repeats, the lists it
stores for the sender are the longest it has handled, and every value of
every handled message has been passed to `MaybeAdvance`. A receiver stores
nothing, though, while every message it has handled has both lists empty:
such a message has the lengths of "nothing stored" and counts as a repeat.
-/

set_option autoImplicit false

namespace Coinkit.Consensus

/-- What drives a nomination state, with the value store's state at the
time. -/
inductive NominationInput (VS : Type) where
  | handle (node : String) (m : NominationMessage) (vs : VS)
  | maybeNominateNewValue (vs : VS)
  | nominateNewValue (v : SlotValue)

namespace NominationState

variable {VS : Type} (ops : ValueStore VS)

/-- One input of a run. -/
def step (s : NominationState) : NominationInput VS → Except Fault NominationState
  | .handle node m vs => s.handle ops node m vs
  | .maybeNominateNewValue vs => do
    let r ← s.maybeNominateNewValue ops vs
    pure r.2.1
  | .nominateNewValue v => pure (s.nominateNewValue v)

/-- Every step keeps the invariant and only appends to the lists. -/
theorem step_spec {s s' : NominationState} {x : NominationInput VS} (hs : s.Inv)
    (h : s.step ops x = .ok s') : s'.Inv ∧ Grows s s' := by
  cases x with
  | handle node m vs => exact handle_spec ops hs h
  | maybeNominateNewValue vs =>
    obtain ⟨⟨b, s₁, vs₁⟩, hm, hpure⟩ := Except.bind_eq_ok.mp h
    cases hpure
    obtain ⟨hs₁, hgrow, -⟩ := maybeNominateNewValue_spec ops hs hm
    exact ⟨hs₁, hgrow⟩
  | nominateNewValue v =>
    cases h
    exact ⟨(nominateNewValue_spec s v hs).1, (nominateNewValue_spec s v hs).2.1⟩

/-- Along every run the lists stay duplicate-free with `Z ⊆ Y` and only
grow by appending. -/
theorem run_spec {s s' : NominationState} (hs : s.Inv) (xs : List (NominationInput VS))
    (h : xs.foldlM (step ops) s = .ok s') : s'.Inv ∧ Grows s s' := by
  have hI : ∀ t, xs.foldlM (step ops) s = .ok t → t.Inv :=
    fun t ht => StepRun.foldlM_invariant Inv (fun _ _ _ ht hstep => (step_spec ops ht hstep).1)
      xs hs ht
  refine ⟨hI s' h, ?_⟩
  exact StepRun.foldlM_rel Inv Grows Grows.refl (fun _ _ _ h₁ h₂ => h₁.trans h₂)
    (fun _ _ _ ht hstep => step_spec ops ht hstep) xs hs h

/-- The messages a node emits along the run `xs` from `s₀`: its message at
any point the run reaches, for any slot and slice. -/
def Emitted (s₀ : NominationState) (xs : List (NominationInput VS)) (m : NominationMessage) :
    Prop :=
  ∃ ys s i qs, ys <+: xs ∧ ys.foldlM (step ops) s₀ = .ok s ∧ m = s.message i qs

/-- Both lists of `m` are prefixes of those of `m'`. -/
def Below (m m' : NominationMessage) : Prop := m.nom <+: m'.nom ∧ m.acc <+: m'.acc

/-- A run that extends another goes on from where the other stopped, so the
later state has grown from the earlier one. -/
theorem run_prefix_grows {s₀ t t' : NominationState} (hs₀ : s₀.Inv)
    {as bs : List (NominationInput VS)} (hpre : as <+: bs)
    (ht : as.foldlM (step ops) s₀ = .ok t) (ht' : bs.foldlM (step ops) s₀ = .ok t') :
    t'.Inv ∧ Grows t t' := by
  obtain ⟨rest, rfl⟩ := hpre
  obtain ⟨u, hu, hrest⟩ := StepRun.foldlM_append_ok.mp ht'
  rw [ht] at hu
  cases hu
  exact run_spec ops (run_spec ops hs₀ as ht).1 rest hrest

theorem below_message {s s' : NominationState} (h : Grows s s') (i i' : Int)
    (qs qs' : QuorumSlice) : Below (s.message i qs) (s'.message i' qs') :=
  ⟨h.1, h.2.1⟩

/-- The messages emitted along a run form a chain. -/
theorem emitted_chain {s₀ : NominationState} (hs₀ : s₀.Inv) {xs : List (NominationInput VS)}
    {m m' : NominationMessage} (hm : Emitted ops s₀ xs m) (hm' : Emitted ops s₀ xs m') :
    Below m m' ∨ Below m' m := by
  obtain ⟨ys, s, i, qs, hys, hrun, rfl⟩ := hm
  obtain ⟨ys', s', i', qs', hys', hrun', rfl⟩ := hm'
  -- of two prefixes of one run, one extends the other
  rcases List.prefix_or_prefix_of_prefix hys hys' with h | h
  · exact .inl (below_message (run_prefix_grows ops hs₀ h hrun hrun').2 i i' qs qs')
  · exact .inr (below_message (run_prefix_grows ops hs₀ h hrun' hrun).2 i' i qs' qs)

/-! ## The receiver -/

/-- The lists stored for `node`, empty when nothing is stored. -/
def storedLists (s : NominationState) (node : String) : List SlotValue × List SlotValue :=
  match s.n.lookup node with
  | some o => (o.nom, o.acc)
  | none => ([], [])

/-- The messages from `node` a run handles. -/
def handledFrom (node : String) : List (NominationInput VS) → List NominationMessage
  | [] => []
  | .handle n m _ :: xs => if n = node then m :: handledFrom node xs else handledFrom node xs
  | _ :: xs => handledFrom node xs

/-- The values one input passes to `MaybeAdvance` for a message from `node`. -/
def stepTouched (s : NominationState) (node : String) : NominationInput VS → List SlotValue
  | .handle n m _ => if n = node ∧ s.isNews n m = true then s.touched n m else []
  | _ => []

/-- The values a run passes to `MaybeAdvance` for messages from `node`. -/
def touchedFrom (node : String) : NominationState → List (NominationInput VS) → List SlotValue
  | _, [] => []
  | s, x :: xs =>
    s.stepTouched node x ++
      match s.step ops x with
      | .ok s' => touchedFrom node s' xs
      | .error _ => []

theorem mem_foldl_appendNew :
    ∀ (l t : List SlotValue) (v : SlotValue), v ∈ t ∨ v ∈ l → v ∈ l.foldl appendNew t := by
  intro l
  induction l with
  | nil =>
    intro t v h
    rcases h with h | h
    · exact h
    · exact absurd h List.not_mem_nil
  | cons w l ih =>
    intro t v h
    apply ih
    rcases h with h | h
    · left
      unfold appendNew
      split_ifs
      · exact h
      · exact List.mem_append_left _ h
    · rcases List.mem_cons.mp h with rfl | h
      · left
        unfold appendNew
        split_ifs with hw
        · exact hasSlotValue_iff.mp hw
        · exact List.mem_append_right _ (List.mem_singleton_self v)
      · exact .inr h

/-- Every value past the stored lengths is touched. -/
theorem mem_touched {s : NominationState} {node : String} {m : NominationMessage} {v : SlotValue}
    (h : v ∈ m.nom.drop (s.oldLengths node).1 ∨ v ∈ m.acc.drop (s.oldLengths node).2) :
    v ∈ s.touched node m := by
  unfold touched
  apply mem_foldl_appendNew
  right
  rcases h with h | h
  · exact List.mem_append_left _ h
  · exact List.mem_append_right _ h

theorem storedLists_of_lookup {s : NominationState} {node : String} {o : NominationMessage}
    (h : s.n.lookup node = some o) : s.storedLists node = (o.nom, o.acc) := by
  simp only [storedLists, h]

theorem storedLists_of_lookup_none {s : NominationState} {node : String}
    (h : s.n.lookup node = none) : s.storedLists node = ([], []) := by
  simp only [storedLists, h]

theorem handledFrom_cons (node : String) (x : NominationInput VS) (xs : List (NominationInput VS)) :
    handledFrom node (x :: xs) = handledFrom node [x] ++ handledFrom node xs := by
  cases x with
  | handle n m vs =>
    by_cases hn : n = node
    · simp [handledFrom, hn]
    · simp [handledFrom, hn]
  | maybeNominateNewValue vs => rfl
  | nominateNewValue v => rfl

theorem oldLengths_eq (s : NominationState) (node : String) :
    s.oldLengths node = ((s.storedLists node).1.length, (s.storedLists node).2.length) := by
  unfold oldLengths storedLists
  cases s.n.lookup node <;> rfl

/-- What a receiver keeps about the sender `node`, over the messages `H` it
has handled from it, which are all in the chain `M`, and the values `L` it
has passed to `MaybeAdvance` for them. -/
structure Receiver (node : String) (M : NominationMessage → Prop) (s : NominationState)
    (H : List NominationMessage) (L : List SlotValue) : Prop where
  stored : ∀ o, s.n.lookup node = some o → o ∈ H ∧ M o
  below : ∀ m ∈ H, m.nom <+: (s.storedLists node).1 ∧ m.acc <+: (s.storedLists node).2
  logged : ∀ v, v ∈ (s.storedLists node).1 ∨ v ∈ (s.storedLists node).2 → v ∈ L

/-- A receiver that has stored nothing for `node` knows nothing about it. -/
theorem Receiver.start {node : String} {M : NominationMessage → Prop} {s : NominationState}
    (h : s.n.lookup node = none) : Receiver node M s [] [] := by
  refine ⟨fun o ho => ?_, fun m hm => absurd hm List.not_mem_nil, fun v hv => ?_⟩
  · rw [h] at ho
    cases ho
  · rw [storedLists_of_lookup_none h] at hv
    simp at hv

section Receiver

variable {node : String} {M : NominationMessage → Prop}
  (hchain : ∀ m m', M m → M m' → Below m m' ∨ Below m' m)
include hchain

/-- A message of the chain is news exactly when it is not below what is
stored; news is stored, and a repeat or a stale message is below it. -/
theorem isNews_iff_not_below {s : NominationState} {m : NominationMessage} (hm : M m)
    (hstored : ∀ o, s.n.lookup node = some o → M o) :
    (s.isNews node m = true →
        (s.storedLists node).1 <+: m.nom ∧ (s.storedLists node).2 <+: m.acc) ∧
      (s.isNews node m = false →
        m.nom <+: (s.storedLists node).1 ∧ m.acc <+: (s.storedLists node).2) := by
  have hlen := oldLengths_eq s node
  unfold isNews
  rw [hlen]
  cases hlook : s.n.lookup node with
  | none =>
    simp only [storedLists, hlook, List.length_nil]
    refine ⟨fun _ => ⟨List.nil_prefix, List.nil_prefix⟩, fun hnews => ?_⟩
    -- with nothing stored, only two empty lists are not news
    simp only [Nat.not_lt_zero, decide_false, Bool.not_false, Bool.true_and, Bool.not_eq_false',
      Bool.and_eq_true, decide_eq_true_eq] at hnews
    rw [List.length_eq_zero_iff.mp hnews.1, List.length_eq_zero_iff.mp hnews.2]
    exact ⟨List.nil_prefix, List.nil_prefix⟩
  | some o =>
    simp only [storedLists, hlook]
    rcases hchain m o hm (hstored o hlook) with ⟨hnom, hacc⟩ | ⟨hnom, hacc⟩
    · -- `m` is below the stored message: its lengths are no longer
      have h₁ := hnom.length_le
      have h₂ := hacc.length_le
      refine ⟨fun hnews => ?_, fun _ => ⟨hnom, hacc⟩⟩
      simp only [Bool.and_eq_true, Bool.not_eq_true', decide_eq_false_iff_not, Nat.not_lt,
        Bool.and_eq_false_imp, decide_eq_true_eq] at hnews
      have heq₁ : m.nom.length = o.nom.length := by omega
      have heq₂ : m.acc.length = o.acc.length := by omega
      exact absurd (hnews.2 heq₁) (by omega)
    · -- the stored message is below `m`: a repeat has the same lists
      refine ⟨fun _ => ⟨hnom, hacc⟩, fun hnews => ?_⟩
      have h₁ := hnom.length_le
      have h₂ := hacc.length_le
      have hsame : m.nom.length = o.nom.length ∧ m.acc.length = o.acc.length := by
        simp only [Bool.and_eq_false_iff, Bool.not_eq_false', decide_eq_true_eq,
          Bool.and_eq_true] at hnews
        omega
      rw [hnom.eq_of_length hsame.1.symm, hacc.eq_of_length hsame.2.symm]
      exact ⟨List.prefix_refl _, List.prefix_refl _⟩

/-- One input keeps what the receiver knows. -/
theorem Receiver.next {s s' : NominationState} {H : List NominationMessage} {L : List SlotValue}
    (hr : Receiver node M s H L) {x : NominationInput VS}
    (hx : ∀ m ∈ handledFrom node [x], M m) (h : s.step ops x = .ok s') :
    Receiver node M s' (H ++ handledFrom node [x]) (L ++ s.stepTouched node x) := by
  have hsame : s'.n = s.n → Receiver node M s' H L := by
    intro hn
    have hlook : s'.storedLists node = s.storedLists node := by
      unfold storedLists
      rw [hn]
    exact ⟨fun o ho => hr.stored o (hn ▸ ho), fun m hm => hlook ▸ hr.below m hm,
      fun v hv => hr.logged v (hlook ▸ hv)⟩
  cases x with
  | handle n m vs =>
    have hn := handle_n ops h
    by_cases hnode : n = node
    · subst hnode
      have hm : M m := hx m (by simp [handledFrom])
      simp only [handledFrom, stepTouched, if_true, true_and]
      obtain ⟨hnews, hbelow⟩ := isNews_iff_not_below hchain hm (fun o ho => (hr.stored o ho).2)
      cases hnewsv : s.isNews n m with
      | true =>
        -- the message is stored: it is the new top of the chain
        rw [hnewsv, if_pos rfl] at hn
        obtain ⟨hnom, hacc⟩ := hnews hnewsv
        have hlook : s'.storedLists n = (m.nom, m.acc) := by
          simp only [storedLists, hn, AList.lookup_insert]
        rw [if_pos rfl]
        refine ⟨fun o ho => ?_, fun m' hm' => ?_, fun v hv => ?_⟩
        · rw [hn, AList.lookup_insert] at ho
          cases ho
          exact ⟨List.mem_append_right _ (List.mem_singleton_self _), hm⟩
        · rw [hlook]
          rcases List.mem_append.mp hm' with hm' | hm'
          · exact ⟨(hr.below m' hm').1.trans hnom, (hr.below m' hm').2.trans hacc⟩
          · rw [List.mem_singleton] at hm'
            subst hm'
            exact ⟨List.prefix_refl _, List.prefix_refl _⟩
        · rw [hlook] at hv
          -- a value of the stored part was logged before; the rest is touched now
          have hsplit : ∀ {l l' : List SlotValue}, l <+: l' → v ∈ l' → v ∈ l ∨ v ∈ l'.drop l.length := by
            intro l l' hpre hvl
            obtain ⟨t, rfl⟩ := hpre
            rw [List.drop_left]
            exact List.mem_append.mp hvl
          have hold := oldLengths_eq s n
          rcases hv with hv | hv
          · rcases hsplit hnom hv with hv | hv
            · exact List.mem_append_left _ (hr.logged v (.inl hv))
            · exact List.mem_append_right _ (mem_touched (.inl (by rw [hold]; exact hv)))
          · rcases hsplit hacc hv with hv | hv
            · exact List.mem_append_left _ (hr.logged v (.inr hv))
            · exact List.mem_append_right _ (mem_touched (.inr (by rw [hold]; exact hv)))
      | false =>
        -- a repeat or a stale message: below what is stored, nothing new
        rw [hnewsv] at hn
        simp only [Bool.false_eq_true, if_false] at hn
        simp only [Bool.false_eq_true, if_false, List.append_nil]
        have hr' := hsame hn
        refine ⟨fun o ho => ?_, fun m' hm' => ?_, hr'.logged⟩
        · exact ⟨List.mem_append_left _ (hr'.stored o ho).1, (hr'.stored o ho).2⟩
        · have hlook : s'.storedLists n = s.storedLists n := by
            unfold storedLists
            rw [hn]
          rcases List.mem_append.mp hm' with hm' | hm'
          · exact hr'.below m' hm'
          · rw [List.mem_singleton] at hm'
            subst hm'
            rw [hlook]
            exact hbelow hnewsv
    · have hlook : s'.n.lookup node = s.n.lookup node := by
        rw [hn]
        split_ifs
        · exact AList.lookup_insert_ne (Ne.symm hnode)
        · rfl
      have hlists : s'.storedLists node = s.storedLists node := by
        unfold storedLists
        rw [hlook]
      simp only [handledFrom, hnode, if_false, stepTouched, false_and, List.append_nil]
      exact ⟨fun o ho => hr.stored o (hlook ▸ ho), fun m hm => hlists ▸ hr.below m hm,
        fun v hv => hr.logged v (hlists ▸ hv)⟩
  | maybeNominateNewValue vs =>
    obtain ⟨⟨b, s₁, vs₁⟩, hm, hpure⟩ := Except.bind_eq_ok.mp h
    cases hpure
    simpa [handledFrom, stepTouched] using hsame (maybeNominateNewValue_n ops hm)
  | nominateNewValue v =>
    cases h
    simpa [handledFrom, stepTouched] using hsame (nominateNewValue_n s v)

/-- The receiver's knowledge over a whole run, one input at a time. -/
theorem Receiver.run {s s' : NominationState} {H : List NominationMessage} {L : List SlotValue}
    (hr : Receiver node M s H L) {xs : List (NominationInput VS)}
    (hx : ∀ m ∈ handledFrom node xs, M m) (h : xs.foldlM (step ops) s = .ok s') :
    Receiver node M s' (H ++ handledFrom node xs) (L ++ touchedFrom ops node s xs) := by
  induction xs generalizing s H L with
  | nil =>
    cases h
    simpa [handledFrom, touchedFrom] using hr
  | cons x xs ih =>
    obtain ⟨s₁, hstep, hrest⟩ := StepRun.foldlM_cons_ok.mp h
    rw [handledFrom_cons] at hx ⊢
    have hr₁ := Receiver.next ops hchain hr (fun m hm => hx m (List.mem_append_left _ hm)) hstep
    have hr' := ih hr₁ (fun m hm => hx m (List.mem_append_right _ hm)) hrest
    simp only [List.append_assoc] at hr'
    simp only [touchedFrom, hstep]
    exact hr'

end Receiver

/-- A sender's lists only grow along its runs, so the messages it emits form
a chain. A receiver that starts with nothing stored for the sender and then
handles any of those messages, in any order and with repeats, amid any other
inputs, keeps the longest lists it has handled: a handled message that every
other handled message is below, or nothing while every handled message has
both lists empty. Every value of every handled message has been passed to
`MaybeAdvance`. -/
theorem receiver_keeps_longest {s₀ r₀ r : NominationState} {A : String}
    {xs ys : List (NominationInput VS)} (hs₀ : s₀.Inv) (hfresh : r₀.n.lookup A = none)
    (hsent : ∀ m ∈ handledFrom A ys, Emitted ops s₀ xs m)
    (hrecv : ys.foldlM (step ops) r₀ = .ok r) :
    (∀ (as bs : List (NominationInput VS)) (t t' : NominationState), as <+: bs →
        as.foldlM (step ops) s₀ = .ok t → bs.foldlM (step ops) s₀ = .ok t' →
        t'.Inv ∧ Grows t t') ∧
      (∀ m m', Emitted ops s₀ xs m → Emitted ops s₀ xs m' → Below m m' ∨ Below m' m) ∧
      (∀ o, r.n.lookup A = some o → o ∈ handledFrom A ys ∧ ∀ m ∈ handledFrom A ys, Below m o) ∧
      (r.n.lookup A = none → ∀ m ∈ handledFrom A ys, m.nom = [] ∧ m.acc = []) ∧
      (∀ m ∈ handledFrom A ys, ∀ v, v ∈ m.nom ∨ v ∈ m.acc → v ∈ touchedFrom ops A r₀ ys) := by
  have hchain : ∀ m m', Emitted ops s₀ xs m → Emitted ops s₀ xs m' → Below m m' ∨ Below m' m :=
    fun _ _ hm hm' => emitted_chain ops hs₀ hm hm'
  have hr := Receiver.run ops hchain (Receiver.start hfresh) hsent hrecv
  simp only [List.nil_append] at hr
  refine ⟨fun _ _ _ _ hpre ht ht' => run_prefix_grows ops hs₀ hpre ht ht', hchain,
    fun o ho => ⟨(hr.stored o ho).1, fun m hm => ?_⟩, fun hnone m hm => ?_, fun m hm v hv => ?_⟩
  · have hbelow := hr.below m hm
    rw [storedLists_of_lookup ho] at hbelow
    exact hbelow
  · have hbelow := hr.below m hm
    rw [storedLists_of_lookup_none hnone] at hbelow
    exact ⟨List.prefix_nil.mp hbelow.1, List.prefix_nil.mp hbelow.2⟩
  · -- a handled value lies in the stored lists, which are all logged
    apply hr.logged
    rcases hv with hv | hv
    · exact .inl ((hr.below m hm).1.subset hv)
    · exact .inr ((hr.below m hm).2.subset hv)

/-- `A` nominates `v` and then `w`, and `B`, fresh, handles `A`'s second message, then its first,
then its second again: out of order and duplicated, and `B` keeps the second, the longest. -/
theorem receiver_keeps_longest_reordered :
    let qs : QuorumSlice := ⟨["A", "B"], 2⟩
    let sA : NominationState := ⟨[], [], [], ∅, "A", qs, 0, 0⟩
    let rB : NominationState := ⟨[], [], [], ∅, "B", qs, 0, 0⟩
    let xs : List (NominationInput TestValueStore) := [.nominateNewValue "v", .nominateNewValue "w"]
    let m₁ : NominationMessage := (sA.nominateNewValue "v").message 1 qs
    let m₂ : NominationMessage := ((sA.nominateNewValue "v").nominateNewValue "w").message 1 qs
    let ys := [NominationInput.handle "A" m₂ (newTestValueStore 0),
      .handle "A" m₁ (newTestValueStore 0), .handle "A" m₂ (newTestValueStore 0)]
    ∃ r, ys.foldlM (step TestValueStore.ops) rB = .ok r ∧ r.n.lookup "A" = some m₂ ∧
      (∀ (as bs : List (NominationInput TestValueStore)) (t t' : NominationState), as <+: bs →
          as.foldlM (step TestValueStore.ops) sA = .ok t →
          bs.foldlM (step TestValueStore.ops) sA = .ok t' → t'.Inv ∧ Grows t t') ∧
        (∀ m m', Emitted TestValueStore.ops sA xs m → Emitted TestValueStore.ops sA xs m' →
          Below m m' ∨ Below m' m) ∧
        (∀ o, r.n.lookup "A" = some o →
          o ∈ handledFrom "A" ys ∧ ∀ m ∈ handledFrom "A" ys, Below m o) ∧
        (r.n.lookup "A" = none → ∀ m ∈ handledFrom "A" ys, m.nom = [] ∧ m.acc = []) ∧
        (∀ m ∈ handledFrom "A" ys, ∀ v, v ∈ m.nom ∨ v ∈ m.acc →
          v ∈ touchedFrom TestValueStore.ops "A" rB ys) := by
  intro qs sA rB xs m₁ m₂ ys
  obtain ⟨r, hrecv, hstored⟩ : ∃ r, ys.foldlM (step TestValueStore.ops) rB = .ok r ∧
      r.n.lookup "A" = some m₂ := ⟨_, rfl, rfl⟩
  have hs₀ : sA.Inv := ⟨List.nodup_nil, List.nodup_nil, List.nodup_nil, List.nil_subset _⟩
  -- the second message is the whole run's, the first that of its first input
  have hsent : ∀ m ∈ handledFrom "A" ys, Emitted TestValueStore.ops sA xs m := by
    intro m hm
    simp only [ys, handledFrom, if_true, List.mem_cons, List.not_mem_nil, or_false] at hm
    rcases hm with rfl | rfl | rfl
    · exact ⟨xs, _, 1, qs, List.prefix_refl xs, rfl, rfl⟩
    · exact ⟨[.nominateNewValue "v"], _, 1, qs, ⟨[.nominateNewValue "w"], rfl⟩, rfl, rfl⟩
    · exact ⟨xs, _, 1, qs, List.prefix_refl xs, rfl, rfl⟩
  exact ⟨r, hrecv, hstored, receiver_keeps_longest TestValueStore.ops hs₀ rfl hsent hrecv⟩

/-- A fresh sender's first message has both lists empty, and a fresh
receiver that handles it stores nothing for the sender. -/
theorem receiver_skips_blank_message :
    let qs : QuorumSlice := ⟨["A", "B"], 2⟩
    let sA : NominationState := ⟨[], [], [], ∅, "A", qs, 0, 0⟩
    let rB : NominationState := ⟨[], [], [], ∅, "B", qs, 0, 0⟩
    let ys := [NominationInput.handle "A" (sA.message 1 qs) (newTestValueStore 0)]
    Emitted TestValueStore.ops sA [] (sA.message 1 qs) ∧
      ∃ r, ys.foldlM (step TestValueStore.ops) rB = .ok r ∧
        handledFrom "A" ys = [sA.message 1 qs] ∧ r.n.lookup "A" = none := by
  intro qs sA rB ys
  exact ⟨⟨[], sA, 1, qs, List.prefix_refl _, rfl, rfl⟩, _, rfl, rfl, rfl⟩


end NominationState

end Coinkit.Consensus

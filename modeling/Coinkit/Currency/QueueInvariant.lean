import Coinkit.Currency.TransactionQueue

/-!
# The transaction-queue invariant

Every state the queue reaches from `NewTransactionQueue`, after initial
`SetBalance` calls and any sequence of its operations, is `Valid`: every
cached chunk hashes to its key and validates against the accounts, every
queued transaction validates, and the queue is within `QueueLimit`. As
`Finalize` only panics on an unknown chunk or one that does not validate, it
never panics on a value `CanFinalize` accepts.

The operations are the steps of `QueueStep`, taken with any arguments;
an operation that panics reaches no state. Each step lemma is a case
analysis over the spec lemma of its operation; the one new fact is that the
accounts change only in `Finalize`, which empties the cache and revalidates
the tree against the new accounts.
-/

set_option autoImplicit false

namespace Coinkit.Currency

open Coinkit.Consensus

namespace TransactionQueue

variable (signatureValid : SignatureCheck) (sha3 : List UInt8 → List UInt8)

/-- The queue invariant. -/
structure Valid (q : TransactionQueue) : Prop where
  chunk_hash : ∀ v c, q.chunks.lookup v = some c → c.hash sha3 = .ok v
  chunk_valid : ∀ v c, q.chunks.lookup v = some c →
    q.accounts.validateChunk signatureValid (some c) = true
  queued_valid : ∀ t ∈ q.set.values, q.validate signatureValid (some t) = true
  size_le : q.size ≤ queueLimit

variable {signatureValid sha3}

/-- A new tree over the same accounts keeps the invariant when each member
was a member or validates, and the tree is within the limit. -/
theorem Valid.with_set {q : TransactionQueue} (hq : Valid signatureValid sha3 q)
    {set : TreeSet priorityFirst}
    (hmem : ∀ x ∈ set.values, x ∈ q.set.values ∨ q.validate signatureValid (some x) = true)
    (hsize : set.size ≤ queueLimit) : Valid signatureValid sha3 { q with set := set } where
  chunk_hash := hq.chunk_hash
  chunk_valid := hq.chunk_valid
  queued_valid x hx := (hmem x hx).elim (hq.queued_valid x) id
  size_le := hsize

/-- One more cached chunk keeps the invariant when it hashes to its key and
validates. -/
theorem Valid.insert_chunk {q : TransactionQueue} (hq : Valid signatureValid sha3 q)
    {key : SlotValue} {c : LedgerChunk} (hhash : c.hash sha3 = .ok key)
    (hvalid : q.accounts.validateChunk signatureValid (some c) = true) :
    Valid signatureValid sha3 { q with chunks := q.chunks.insert key c } := by
  have hlookup : ∀ v c', (q.chunks.insert key c).lookup v = some c' →
      q.chunks.lookup v = some c' ∨ (v = key ∧ c' = c) := by
    intro v c' h
    by_cases hv : v = key
    · subst hv
      rw [AList.lookup_insert] at h
      cases h
      exact .inr ⟨rfl, rfl⟩
    · rw [AList.lookup_insert_ne hv] at h
      exact .inl h
  refine ⟨fun v c' h => ?_, fun v c' h => ?_, hq.queued_valid, hq.size_le⟩
  · rcases hlookup v c' h with h | ⟨rfl, rfl⟩
    · exact hq.chunk_hash v c' h
    · exact hhash
  · rcases hlookup v c' h with h | ⟨rfl, rfl⟩
    · exact hq.chunk_valid v c' h
    · exact hvalid

/-- The transactions of a cached chunk are there and verify. -/
theorem Valid.chunk_verify {q : TransactionQueue} (hq : Valid signatureValid sha3 q) :
    ∀ v c, q.chunks.lookup v = some c → ∀ t ∈ c.transactions,
      ∃ s, t = some s ∧ s.verify signatureValid = true := by
  intro v c hc
  have hok : (q.accounts.processChunk signatureValid (some c)).1 = true := by
    rw [← AccountMap.validateChunk_eq]
    exact hq.chunk_valid v c hc
  exact AccountMap.verify_of_processChunk signatureValid hok

/-- The queued transactions verify. -/
theorem Valid.queued_verify {q : TransactionQueue} (hq : Valid signatureValid sha3 q) :
    ∀ t ∈ q.transactions, t.verify signatureValid = true :=
  fun t ht => ((validate_some_iff signatureValid q t).mp (hq.queued_valid t ht)).1

/-! ## Each operation keeps the invariant -/

theorem Valid.add {q q' : TransactionQueue} (hq : Valid signatureValid sha3 q)
    {t : Option SignedTransaction} {b : Bool} (h : q.add signatureValid t = .ok (b, q')) :
    Valid signatureValid sha3 q' := by
  obtain ⟨hframe, hmem, hsize⟩ := add_spec signatureValid h
  rw [hframe]
  exact hq.with_set hmem (hsize hq.size_le)

theorem Valid.remove {q : TransactionQueue} (hq : Valid signatureValid sha3 q)
    (t : Option SignedTransaction) : Valid signatureValid sha3 (q.remove t) := by
  obtain ⟨hframe, hsub⟩ := remove_spec q t
  rw [hframe]
  refine hq.with_set (fun x hx => .inl (hsub.subset hx)) ?_
  exact le_trans hsub.length_le hq.size_le

theorem Valid.revalidate {q : TransactionQueue} (hq : Valid signatureValid sha3 q) :
    Valid signatureValid sha3 (q.revalidate signatureValid) := by
  obtain ⟨⟨set, hframe⟩, hsub, hmem⟩ := revalidate_spec signatureValid q
  rw [hframe] at hsub hmem ⊢
  exact hq.with_set (fun x hx => .inr (hmem x hx)) (le_trans hsub.length_le hq.size_le)

/-- Both loops of `HandleTransactionMessage` keep the invariant: the first
adds, the second learns chunks that hash to their key and validate. -/
theorem Valid.handleTransactionMessage {q q' : TransactionQueue} (hq : Valid signatureValid sha3 q)
    {m : Option TransactionMessage} {b : Bool}
    (h : q.handleTransactionMessage signatureValid sha3 m = .ok (b, q')) :
    Valid signatureValid sha3 q' := by
  cases m with
  | none =>
    cases h
    exact hq
  | some m =>
    obtain ⟨acc, hadd, hlearn⟩ := Except.bind_eq_ok.mp h
    let I : Bool × TransactionQueue → Prop := fun acc => Valid signatureValid sha3 acc.2
    have hacc : I acc := by
      refine StepRun.foldlM_invariant I ?_ m.transactions hq hadd
      intro a t a' ha hstep
      unfold addStep at hstep
      split_ifs at hstep
      · cases hstep
        exact ha
      · exact Valid.add ha hstep
    refine StepRun.foldlM_invariant I ?_ m.chunks.entries hacc hlearn
    intro a e a' ha hstep
    obtain ⟨hframe, hnew⟩ := learnChunk_spec signatureValid sha3 hstep
    have hI : I a := ha
    show Valid signatureValid sha3 a'.2
    rw [hframe]
    refine ⟨fun v c hc => ?_, fun v c hc => ?_, hI.queued_valid, hI.size_le⟩
    · rcases hnew v c hc with hc | ⟨hhash, -⟩
      · exact hI.chunk_hash v c hc
      · exact hhash
    · rcases hnew v c hc with hc | ⟨-, hvalid⟩
      · exact hI.chunk_valid v c hc
      · exact hvalid

theorem Valid.suggestValue {q q' : TransactionQueue} (hq : Valid signatureValid sha3 q)
    {r : SlotValue × Bool} (h : q.suggestValue sha3 = .ok (r, q')) :
    Valid signatureValid sha3 q' := by
  obtain rfl | ⟨c, hhash, hvalid, rfl⟩ :=
    suggestValue_cases signatureValid sha3 hq.queued_verify h
  · exact hq
  · exact hq.insert_chunk hhash hvalid

theorem Valid.combine {q q' : TransactionQueue} (hq : Valid signatureValid sha3 q)
    {list : List SlotValue} {value : SlotValue} (h : q.combine sha3 list = .ok (value, q')) :
    Valid signatureValid sha3 q' := by
  obtain rfl | ⟨c, hhash, hvalid, rfl⟩ :=
    combine_cases signatureValid sha3 hq.chunk_verify h
  · exact hq
  · exact hq.insert_chunk hhash hvalid

/-- After `Finalize` the cache is empty and the tree is revalidated against
the new accounts, so the invariant holds whatever the accounts became. -/
theorem Valid.finalize {q q' : TransactionQueue} (hq : Valid signatureValid sha3 q)
    {v : SlotValue} (h : q.finalize signatureValid v = .ok q') :
    Valid signatureValid sha3 q' := by
  obtain ⟨chunk, accounts, -, -, rfl⟩ := finalize_cases signatureValid h
  let r : TransactionQueue :=
    { q with
      oldChunks := q.oldChunks.insert q.slot chunk
      accounts := accounts
      last := v
      chunks := ∅
      slot := q.slot + 1 }
  obtain ⟨⟨set, hframe⟩, hsub, hmem⟩ := revalidate_spec signatureValid r
  rw [hframe] at hsub hmem ⊢
  refine ⟨fun w c hc => ?_, fun w c hc => ?_, hmem, le_trans hsub.length_le hq.size_le⟩
  · rw [AList.lookup_empty] at hc
    cases hc
  · rw [AList.lookup_empty] at hc
    cases hc

/-! ## Every reachable queue -/

/-- The operations of the queue, with any arguments, that return. -/
inductive QueueStep (signatureValid : SignatureCheck) (sha3 : List UInt8 → List UInt8) :
    TransactionQueue → TransactionQueue → Prop
  | add {q q' : TransactionQueue} {t : Option SignedTransaction} {b : Bool} :
    q.add signatureValid t = .ok (b, q') → QueueStep signatureValid sha3 q q'
  | remove (q : TransactionQueue) (t : Option SignedTransaction) :
    QueueStep signatureValid sha3 q (q.remove t)
  | handleTransactionMessage {q q' : TransactionQueue} {m : Option TransactionMessage} {b : Bool} :
    q.handleTransactionMessage signatureValid sha3 m = .ok (b, q') →
      QueueStep signatureValid sha3 q q'
  | suggestValue {q q' : TransactionQueue} {r : SlotValue × Bool} :
    q.suggestValue sha3 = .ok (r, q') → QueueStep signatureValid sha3 q q'
  | combine {q q' : TransactionQueue} {list : List SlotValue} {value : SlotValue} :
    q.combine sha3 list = .ok (value, q') → QueueStep signatureValid sha3 q q'
  | revalidate (q : TransactionQueue) : QueueStep signatureValid sha3 q (q.revalidate signatureValid)
  | finalize {q q' : TransactionQueue} {v : SlotValue} :
    q.finalize signatureValid v = .ok q' → QueueStep signatureValid sha3 q q'

/-- A new queue after `SetBalance` calls. -/
def initialQueue (publicKey : String) (balances : List (String × UInt64)) : TransactionQueue :=
  balances.foldl (fun q b => q.setBalance b.1 b.2) (newTransactionQueue publicKey)

theorem Valid.step {q q' : TransactionQueue} (hq : Valid signatureValid sha3 q)
    (h : QueueStep signatureValid sha3 q q') : Valid signatureValid sha3 q' := by
  cases h with
  | add h => exact hq.add h
  | remove t => exact hq.remove t
  | handleTransactionMessage h => exact hq.handleTransactionMessage h
  | suggestValue h => exact hq.suggestValue h
  | combine h => exact hq.combine h
  | revalidate => exact hq.revalidate
  | finalize h => exact hq.finalize h

/-- `SetBalance` touches neither the cache nor the tree, so the initial
queue has neither. -/
theorem initialQueue_empty (publicKey : String) (balances : List (String × UInt64)) :
    (initialQueue publicKey balances).chunks = ∅ ∧ (initialQueue publicKey balances).set.values = [] := by
  unfold initialQueue
  generalize hq : newTransactionQueue publicKey = q
  have hstart : q.chunks = ∅ ∧ q.set.values = [] := by
    subst hq
    exact ⟨rfl, rfl⟩
  clear hq
  induction balances generalizing q with
  | nil => exact hstart
  | cons b bs ih => exact ih _ hstart

theorem valid_initialQueue (publicKey : String) (balances : List (String × UInt64)) :
    Valid signatureValid sha3 (initialQueue publicKey balances) := by
  obtain ⟨hchunks, hset⟩ := initialQueue_empty publicKey balances
  refine ⟨fun v c hc => ?_, fun v c hc => ?_, fun t ht => ?_, ?_⟩
  · rw [hchunks, AList.lookup_empty] at hc
    cases hc
  · rw [hchunks, AList.lookup_empty] at hc
    cases hc
  · rw [hset] at ht
    exact absurd ht List.not_mem_nil
  · simp [size, TreeSet.size, hset]

/-- Every queue reachable from a new queue after initial `SetBalance` calls
is valid: each cached chunk is keyed by its hash and validates against the
accounts, each queued transaction verifies and validates, and the queue is
within `QueueLimit`. So `Finalize` returns on every value `CanFinalize`
accepts. -/
theorem queue_reachable_valid (publicKey : String) (balances : List (String × UInt64))
    {q : TransactionQueue}
    (h : Relation.ReflTransGen (QueueStep signatureValid sha3) (initialQueue publicKey balances) q) :
    (∀ v c, q.chunks.lookup v = some c →
        c.hash sha3 = .ok v ∧ q.accounts.validateChunk signatureValid (some c) = true) ∧
      (∀ t ∈ q.transactions, t.verify signatureValid = true ∧
        ∃ tx, t.transaction = some tx ∧ q.accounts.validate tx = true) ∧
      q.size ≤ queueLimit ∧
      ∀ v, q.canFinalize v = true → ∃ q', q.finalize signatureValid v = .ok q' := by
  have hq : Valid signatureValid sha3 q := by
    induction h with
    | refl => exact valid_initialQueue publicKey balances
    | tail _ hstep ih => exact ih.step hstep
  refine ⟨fun v c hc => ⟨hq.chunk_hash v c hc, hq.chunk_valid v c hc⟩,
    fun t ht => (validate_some_iff signatureValid q t).mp (hq.queued_valid t ht), hq.size_le, ?_⟩
  intro v hv
  obtain ⟨c, hc⟩ := Option.isSome_iff_exists.mp hv
  exact finalize_ok signatureValid hc (hq.chunk_valid v c hc)

/-- A queue where alice holds 100, after alice's payment of 10 to bob is added and
`SuggestValue` builds a chunk of it and caches it under its hash: the queue holds the payment and
the chunk, whose key can be finalized. -/
theorem queue_reachable_valid_after_suggestion :
    ∃ q₁ q₂ r, (initialQueue "A" [("alice", 100)]).add (fun _ _ => true)
        (some ⟨some ⟨"alice", 1, "bob", 10, 1⟩, "s1"⟩) = .ok (true, q₁) ∧
      q₁.suggestValue (fun _ => [1]) = .ok (r, q₂) ∧
      Relation.ReflTransGen (QueueStep (fun _ _ => true) (fun _ => [1]))
        (initialQueue "A" [("alice", 100)]) q₂ ∧
      q₂.transactions ≠ [] ∧ q₂.canFinalize r.1 = true ∧
      (∀ v c, q₂.chunks.lookup v = some c →
          c.hash (fun _ => [1]) = .ok v ∧
            q₂.accounts.validateChunk (fun _ _ => true) (some c) = true) ∧
        (∀ t ∈ q₂.transactions, t.verify (fun _ _ => true) = true ∧
          ∃ tx, t.transaction = some tx ∧ q₂.accounts.validate tx = true) ∧
        q₂.size ≤ queueLimit ∧
        ∀ v, q₂.canFinalize v = true → ∃ q', q₂.finalize (fun _ _ => true) v = .ok q' := by
  obtain ⟨⟨added, q₁⟩, h₁, hadded⟩ := Except.bind_eq_ok.mp (show
    ((initialQueue "A" [("alice", 100)]).add (fun _ _ => true)
        (some ⟨some ⟨"alice", 1, "bob", 10, 1⟩, "s1"⟩) >>= fun r => pure r.1) = .ok true by
    decide +kernel)
  cases hadded
  obtain ⟨⟨r, q₂⟩, h₂, hcached⟩ := Except.bind_eq_ok.mp (show
    (q₁.suggestValue (fun _ => [1]) >>= fun p =>
      pure (decide (p.2.transactions ≠ [] ∧ p.2.canFinalize p.1.1 = true))) = .ok true by
    cases h₁
    decide +kernel)
  have hrun : Relation.ReflTransGen (QueueStep (fun _ _ => true) (fun _ => [1]))
      (initialQueue "A" [("alice", 100)]) q₂ :=
    .tail (.single (QueueStep.add h₁)) (QueueStep.suggestValue h₂)
  obtain ⟨hnonempty, hfin⟩ := of_decide_eq_true (Except.ok.inj hcached)
  exact ⟨q₁, q₂, r, h₁, h₂, hrun, hnonempty, hfin, queue_reachable_valid "A" [("alice", 100)] hrun⟩

/-- A queue where alice has 100, and two payments of
hers, both with sequence number 1, to bob and to carol. -/
def aliceQueue : TransactionQueue := initialQueue "A" [("alice", 100)]

def aliceToBob : SignedTransaction := ⟨some ⟨"alice", 1, "bob", 10, 1⟩, "s1"⟩

def aliceToCarol : SignedTransaction := ⟨some ⟨"alice", 1, "carol", 20, 2⟩, "s2"⟩

/-- Two payments of alice's with the same sequence number both validate
against her account when added, so a queue reached by two `Add`s holds both.
`NewChunk` processes the one with the higher fee first; the other then fails
its sequence check, and its receiver bob, who has no account, is recorded
in the chunk's state as nil. `Hash` reads that account, and `SuggestValue`
dereferences nil, whatever the digest. -/
theorem suggest_value_hashes_nil_account (sha3 : List UInt8 → List UInt8) :
    ∃ q₁ q₂, aliceQueue.add (fun _ _ => true) (some aliceToBob) = .ok (true, q₁) ∧
      q₁.add (fun _ _ => true) (some aliceToCarol) = .ok (true, q₂) ∧
      Relation.ReflTransGen (QueueStep (fun _ _ => true) sha3) aliceQueue q₂ ∧
      q₂.transactions = [aliceToCarol, aliceToBob] ∧
      (newChunkLoop ⟨[], q₂.accounts.cowCopy, ∅⟩ none q₂.transactions).map
        (fun b => (b.transactions, b.state.lookup "bob")) = .ok ([aliceToCarol], some none) ∧
      q₂.suggestValue sha3 = .error Fault.nilDereference := by
  obtain ⟨q₁, h₁⟩ : ∃ q₁, aliceQueue.add (fun _ _ => true) (some aliceToBob) = .ok (true, q₁) :=
    ⟨_, rfl⟩
  obtain ⟨q₂, h₂⟩ : ∃ q₂, q₁.add (fun _ _ => true) (some aliceToCarol) = .ok (true, q₂) := by
    cases h₁
    exact ⟨_, rfl⟩
  have hrun : Relation.ReflTransGen (QueueStep (fun _ _ => true) sha3) aliceQueue q₂ :=
    .tail (.single (QueueStep.add h₁)) (QueueStep.add h₂)
  cases h₁
  cases h₂
  exact ⟨_, _, rfl, rfl, hrun, rfl, rfl, rfl⟩

end TransactionQueue

end Coinkit.Currency

import Coinkit.Network.Ledger
import Coinkit.Currency.QueueInvariant

/-!
# Sharing chunks between nodes

`currency/transaction_queue.go` and `network/node.go`. Every `OutgoingMessages` of a node starts
with its queue's `SharingMessage`: the transactions it queues and the chunks it caches. A node
that handles it adds the transactions with `Add`, and, in `HandleTransactionMessage`'s second
loop, learns each chunk it does not know yet that validates against its accounts and hashes to
its key. The first loop stops adding after the first transaction it takes; the second has no
such short-circuit.

## What is proved

- `sharing_spreads_chunks`: take a node that a server has run through, by processed messages,
  from a node whose queue is valid. Any node with the same accounts that handles the
  transaction message of its `OutgoingMessages` afterwards caches a chunk under every key the
  first node caches. The chunk half of the sharing loses nothing.

The first node's cached chunks hash to their keys and validate against its accounts: the queue
invariant `TransactionQueue.Valid` holds through every processed message
(`processMessage_valid`), the case of `processMessage_rel` for the relation "valid before, valid
after".
-/

set_option autoImplicit false

namespace Coinkit.Currency

open Coinkit.Consensus

namespace TransactionQueue

variable (signatureValid : SignatureCheck) (sha3 : List UInt8 → List UInt8)

/-- Every chunk the first queue caches, the second caches too, under the same key. -/
def KeepsChunks (q q' : TransactionQueue) : Prop :=
  ∀ key, (q.chunks.lookup key).isSome → (q'.chunks.lookup key).isSome

theorem keepsChunks_refl (q : TransactionQueue) : KeepsChunks q q := fun _ h => h

theorem KeepsChunks.trans {q₁ q₂ q₃ : TransactionQueue} (h₁ : KeepsChunks q₁ q₂)
    (h₂ : KeepsChunks q₂ q₃) : KeepsChunks q₁ q₃ :=
  fun key h => h₂ key (h₁ key h)

theorem keepsChunks_insert (q : TransactionQueue) (key : SlotValue) (c : LedgerChunk) :
    KeepsChunks q { q with chunks := q.chunks.insert key c } := by
  intro k hk
  by_cases hkey : k = key
  · subst hkey
    simp
  · rwa [AList.lookup_insert_ne hkey]

theorem newChunk_keepsChunks {q q' : TransactionQueue} {ts : List SignedTransaction}
    {r : SlotValue × Option LedgerChunk} (h : q.newChunk sha3 ts = .ok (r, q')) :
    KeepsChunks q q' := by
  obtain ⟨b, -, hrest⟩ := Except.bind_eq_ok.mp h
  split_ifs at hrest
  · cases hrest
    exact keepsChunks_refl q
  · obtain ⟨key, -, hcache⟩ := Except.bind_eq_ok.mp hrest
    split_ifs at hcache
    · cases hcache
      exact keepsChunks_refl q
    · cases hcache
      exact keepsChunks_insert q _ _

/-- `Combine` and `SuggestValue` only ever add a chunk to the cache. -/
theorem keepsChunks_frame : (ops signatureValid sha3).Frame KeepsChunks where
  refl := keepsChunks_refl
  trans := KeepsChunks.trans
  combine := fun h => by
    obtain ⟨set, -, hrest⟩ := Except.bind_eq_ok.mp h
    obtain ⟨⟨⟨key, chunk⟩, q₁⟩, hnew, hlast⟩ := Except.bind_eq_ok.mp hrest
    cases chunk with
    | none => cases hlast
    | some c =>
      cases hlast
      exact newChunk_keepsChunks sha3 hnew
  suggestValue := fun h => by
    obtain ⟨⟨⟨key, chunk⟩, q₁⟩, hnew, hlast⟩ := Except.bind_eq_ok.mp h
    cases chunk <;> cases hlast <;> exact newChunk_keepsChunks sha3 hnew

/-- Everything a chunk of a message can do: nothing, or cache a chunk under the entry's key. -/
theorem learnChunk_cases {acc acc' : Bool × TransactionQueue}
    {entry : Σ _ : SlotValue, Option LedgerChunk}
    (h : learnChunk signatureValid sha3 acc entry = .ok acc') :
    acc' = acc ∨ ∃ c, acc' = (true, { acc.2 with chunks := acc.2.chunks.insert entry.1 c }) := by
  unfold learnChunk at h
  split_ifs at h
  · cases h
    exact .inl rfl
  · cases h
    exact .inl rfl
  · split at h
    · cases h
      exact .inl rfl
    · rename_i chunk _
      obtain ⟨key, -, hrest⟩ := Except.bind_eq_ok.mp h
      split_ifs at hrest
      · cases hrest
        exact .inl rfl
      · cases hrest
        exact .inr ⟨chunk, rfl⟩

theorem learnChunk_keepsChunks {acc acc' : Bool × TransactionQueue}
    {entry : Σ _ : SlotValue, Option LedgerChunk}
    (h : learnChunk signatureValid sha3 acc entry = .ok acc') :
    KeepsChunks acc.2 acc'.2 ∧ acc'.2.accounts = acc.2.accounts := by
  rcases learnChunk_cases signatureValid sha3 h with rfl | ⟨c, rfl⟩
  · exact ⟨keepsChunks_refl _, rfl⟩
  · exact ⟨keepsChunks_insert _ _ _, rfl⟩

/-- A chunk that hashes to its key and validates against the accounts is cached after its entry,
whether it was known before or not. -/
theorem learnChunk_learns {acc acc' : Bool × TransactionQueue} {key : SlotValue} {c : LedgerChunk}
    (hhash : c.hash sha3 = .ok key) (hvalid : acc.2.accounts.validateChunk signatureValid (some c) = true)
    (h : learnChunk signatureValid sha3 acc ⟨key, some c⟩ = .ok acc') :
    (acc'.2.chunks.lookup key).isSome := by
  unfold learnChunk at h
  by_cases hknown : (acc.2.chunks.lookup key).isSome
  · rw [if_pos hknown] at h
    cases h
    exact hknown
  · rw [if_neg hknown] at h
    simp only [hvalid, Bool.not_true, Bool.false_eq_true, ↓reduceIte, hhash, Except.ok_bind, ne_eq,
      not_true_eq_false] at h
    cases h
    simp

/-- The chunk loop of `HandleTransactionMessage` caches every chunk of the message that hashes to
its key and validates against the accounts: by induction on the entries, each such chunk is
cached at its entry, and no later entry takes a chunk out. -/
theorem foldlM_learnChunk_learns :
    ∀ (entries : List (Σ _ : SlotValue, Option LedgerChunk)) {acc acc' : Bool × TransactionQueue},
      entries.foldlM (learnChunk signatureValid sha3) acc = .ok acc' →
      ∀ key c, ⟨key, some c⟩ ∈ entries → c.hash sha3 = .ok key →
        acc.2.accounts.validateChunk signatureValid (some c) = true → (acc'.2.chunks.lookup key).isSome
  | [], _, _, _, _, _, hmem, _, _ => nomatch hmem
  | entry :: entries, acc, acc', h, key, c, hmem, hhash, hvalid => by
    obtain ⟨acc₁, h₁, hrest⟩ := StepRun.foldlM_cons_ok.mp h
    obtain ⟨hkeeps₁, haccounts₁⟩ := learnChunk_keepsChunks signatureValid sha3 h₁
    rcases List.mem_cons.mp hmem with rfl | hmem
    · -- the rest of the loop keeps what this entry cached
      have hkeeps : KeepsChunks acc₁.2 acc'.2 :=
        StepRun.foldlM_rel (fun _ => True) (fun a b => KeepsChunks a.2 b.2)
          (fun a => keepsChunks_refl a.2)
          (fun s m t (h₁ : KeepsChunks s.2 m.2) (h₂ : KeepsChunks m.2 t.2) => h₁.trans h₂)
          (fun _ _ _ _ hstep => ⟨trivial, (learnChunk_keepsChunks signatureValid sha3 hstep).1⟩)
          entries trivial hrest
      exact hkeeps key (learnChunk_learns signatureValid sha3 hhash hvalid h₁)
    · exact foldlM_learnChunk_learns entries hrest key c hmem hhash (haccounts₁ ▸ hvalid)

/-- `HandleTransactionMessage` caches every chunk of the message that hashes to its key and
validates against the queue's accounts; adding the transactions first changes neither. -/
theorem handleTransactionMessage_learns {q q' : TransactionQueue} {m : TransactionMessage}
    {updated : Bool} (h : q.handleTransactionMessage signatureValid sha3 (some m) = .ok (updated, q'))
    {key : SlotValue} {c : LedgerChunk} (hmem : ⟨key, some c⟩ ∈ m.chunks.entries)
    (hhash : c.hash sha3 = .ok key) (hvalid : q.accounts.validateChunk signatureValid (some c) = true) :
    (q'.chunks.lookup key).isSome := by
  obtain ⟨acc, hadd, hlearn⟩ := Except.bind_eq_ok.mp h
  have haccounts : acc.2.accounts = q.accounts :=
    StepRun.foldlM_rel (fun _ => True) (fun a b => b.2.accounts = a.2.accounts)
      (fun _ => rfl) (fun s m t (h₁ : m.2.accounts = s.2.accounts)
        (h₂ : t.2.accounts = m.2.accounts) => h₂.trans h₁)
      (fun _ _ _ _ hstep => ⟨trivial, (addStep_sameLedger signatureValid hstep).1⟩)
      m.transactions (s := (false, q)) trivial hadd
  exact foldlM_learnChunk_learns signatureValid sha3 m.chunks.entries hlearn key c hmem hhash
    (haccounts ▸ hvalid)

/-- The sharing message carries every cached chunk under its key. -/
theorem mem_sharingMessage {q : TransactionQueue} {m : TransactionMessage}
    (hm : q.sharingMessage = some m) {key : SlotValue} {c : LedgerChunk}
    (hc : q.chunks.lookup key = some c) : ⟨key, some c⟩ ∈ m.chunks.entries := by
  unfold sharingMessage at hm
  split_ifs at hm
  cases hm
  apply AList.mem_lookup_iff.mp
  rw [AList.lookup_to_alist]
  -- the message's chunks are the cache's, each wrapped in `some`
  show (q.chunks.entries.map (Sigma.map id fun _ c => some c) :
    List (Σ _ : SlotValue, Option LedgerChunk)).dlookup key = some (some c)
  rw [List.dlookup_map₂]
  exact congrArg (Option.map some) hc

end TransactionQueue

end Coinkit.Currency

namespace Coinkit.Network

open Coinkit.Consensus Coinkit.Currency TransactionQueue

namespace Node

variable (signatureValid : SignatureCheck) (sha3 : List UInt8 → List UInt8)

/-! ## The queue invariant on a node -/

/-- The queue invariant, as a relation the consensus keeps. -/
theorem validFrame :
    (ops signatureValid sha3).Frame fun q q' => Valid signatureValid sha3 q → Valid signatureValid sha3 q' where
  refl _ := id
  trans h₁ h₂ := h₂ ∘ h₁
  combine h hq := hq.combine h
  suggestValue h hq := hq.suggestValue h

theorem processMessage_valid {n n' : Node} {fuel : Nat} {sender : String} {message : Message}
    {answer : Option Message} (hq : Valid signatureValid sha3 n.queue)
    (hn : n.processMessage signatureValid sha3 fuel sender message = .ok (answer, n')) :
    Valid signatureValid sha3 n'.queue :=
  processMessage_rel signatureValid sha3 (validFrame signatureValid sha3)
    (fun h hq => hq.handleTransactionMessage h) (fun h hq => hq.finalize h) hn hq

/-- The queue invariant holds along every run of processed messages from a valid queue. -/
theorem valid_of_run (calls : List ServerCall)
    (hcalls : ∀ call ∈ calls, ∃ fuel sender message, call = .processMessage fuel sender message)
    {n n' : Node} (hq : Valid signatureValid sha3 n.queue)
    (hrun : calls.foldlM (serverStep signatureValid sha3) n = .ok n') :
    Valid signatureValid sha3 n'.queue := by
  induction calls generalizing n with
  | nil =>
    cases hrun
    exact hq
  | cons call calls ih =>
    obtain ⟨n₁, hstep, hrest⟩ := StepRun.foldlM_cons_ok.mp hrun
    obtain ⟨fuel, sender, message, rfl⟩ := hcalls call List.mem_cons_self
    obtain ⟨⟨answer, n₂⟩, hprocess, rfl⟩ := Except.exists_of_map_eq_ok hstep
    exact ih (fun c hc => hcalls c (List.mem_cons_of_mem _ hc))
      (processMessage_valid signatureValid sha3 hq hprocess) hrest

/-! ## Sharing -/

/-- The transaction message among a node's outgoing messages is its queue's sharing message:
the consensus sends no other. -/
theorem transaction_mem_outgoingMessages_iff {n n' : Node} {messages : List Message}
    {m : TransactionMessage} (hn : n.outgoingMessages signatureValid sha3 = .ok (messages, n')) :
    Message.transaction m ∈ messages ↔ n.queue.sharingMessage = some m := by
  obtain ⟨⟨chainMessages, c, q⟩, hc, hrest⟩ := Except.bind_eq_ok.mp hn
  cases hrest
  constructor
  · intro hm
    rcases List.mem_append.mp hm with hsharing | hchain
    · obtain ⟨m', hm', hmsg⟩ := Option.map_eq_some_iff.mp (Option.mem_toList.mp hsharing)
      cases hmsg
      exact hm'
    · -- `Message.ofChain` makes info, nomination and ballot messages only
      obtain ⟨cm, -, hcm⟩ := List.mem_map.mp hchain
      cases cm <;> cases hcm
  · intro hm
    apply List.mem_append_left
    rw [hm]
    exact List.mem_singleton_self _

/-- The transaction case of `Handle` caches every chunk of the message that hashes to its key and
validates against the node's accounts; what the block then does with the store only adds
chunks. -/
theorem handleTransaction_learns {n n' : Node} {m : TransactionMessage}
    (hn : n.handleTransaction signatureValid sha3 (some m) = .ok n') {key : SlotValue}
    {c : LedgerChunk} (hmem : ⟨key, some c⟩ ∈ m.chunks.entries) (hhash : c.hash sha3 = .ok key)
    (hvalid : n.queue.accounts.validateChunk signatureValid (some c) = true) :
    (n'.queue.chunks.lookup key).isSome := by
  obtain ⟨updated, q₁, hq, rfl | ⟨b, q₂, hb, rfl⟩⟩ := handleTransaction_cases signatureValid sha3 hn
  · exact handleTransactionMessage_learns signatureValid sha3 hq hmem hhash hvalid
  · exact ((Block.valueStoreUpdated_frame (keepsChunks_frame signatureValid sha3)
      n.chain.current q₁).of_ok hb).1 key (handleTransactionMessage_learns signatureValid sha3 hq hmem hhash hvalid)

variable {signatureValid sha3} in
/-- Take a node that a server has run through, by processed messages, from a node with a valid
queue. Any other node with the same accounts that handles the transaction message of the first
node's `OutgoingMessages` afterwards caches a chunk under every key the first node caches. -/
theorem sharing_spreads_chunks (calls : List ServerCall) {a₀ a a' b b' : Node}
    {messages : List Message} {m : TransactionMessage} {fuel : Nat} {answer : Option Message}
    (hvalid : Valid signatureValid sha3 a₀.queue)
    (hcalls : ∀ call ∈ calls, ∃ fuel sender message, call = .processMessage fuel sender message)
    (hrun : calls.foldlM (serverStep signatureValid sha3) a₀ = .ok a)
    (hout : a.outgoingMessages signatureValid sha3 = .ok (messages, a'))
    (hm : Message.transaction m ∈ messages) (haccounts : b.queue.accounts = a.queue.accounts)
    (hsender : a.publicKey ≠ b.publicKey)
    (hb : b.handle signatureValid sha3 fuel a.publicKey (.transaction m) = .ok (answer, b')) :
    ∀ key, (a.queue.chunks.lookup key).isSome → (b'.queue.chunks.lookup key).isSome := by
  have ha := valid_of_run signatureValid sha3 calls hcalls hvalid hrun
  have hsharing := (transaction_mem_outgoingMessages_iff signatureValid sha3 hout).mp hm
  intro key hkey
  obtain ⟨c, hc⟩ := Option.isSome_iff_exists.mp hkey
  -- the handle of a transaction message from another node is its transaction case
  unfold Node.handle at hb
  rw [if_neg hsender] at hb
  obtain ⟨b₁, hb₁, hrest⟩ := Except.bind_eq_ok.mp hb
  cases hrest
  exact handleTransaction_learns signatureValid sha3 hb₁ (mem_sharingMessage hsharing hc)
    (ha.chunk_hash key c hc) (haccounts ▸ ha.chunk_valid key c hc)

/-- Node C caches the chunk of a payment of 3 from alice to bob with a fee of 1, and
sends it to a new node A that has given alice the same 10. -/
theorem sharing_spreads_chunks_cached_payment :
    ∃ nA nC : Node,
      Node.new (fun _ _ => true) (fun _ => []) "A" ⟨["A", "B", "C", "D"], 3⟩ = .ok nA ∧
      Node.new (fun _ _ => true) (fun _ => []) "C" ⟨["A", "B", "C", "D"], 3⟩ = .ok nC ∧
      ∃ (chunk : LedgerChunk) (a : Node),
        chunk = ⟨[some ⟨some ⟨"alice", 1, "bob", 3, 1⟩, "s"⟩],
          (AList.singleton "alice" (some ⟨1, 6⟩)).insert "bob" (some ⟨0, 3⟩)⟩ ∧
        a = { nC.setBalance "alice" 10 with
          queue := { (nC.setBalance "alice" 10).queue with chunks := AList.singleton "" chunk } } ∧
      ∃ (messages : List Message) (a' : Node) (m : TransactionMessage) (answer : Option Message)
        (b' : Node),
        Valid (fun _ _ => true) (fun _ => []) a.queue ∧
        ([] : List ServerCall).foldlM (serverStep (fun _ _ => true) (fun _ => [])) a = .ok a ∧
        a.outgoingMessages (fun _ _ => true) (fun _ => []) = .ok (messages, a') ∧
        Message.transaction m ∈ messages ∧
        (nA.setBalance "alice" 10).queue.accounts = a.queue.accounts ∧
        a.publicKey ≠ (nA.setBalance "alice" 10).publicKey ∧
        (nA.setBalance "alice" 10).handle (fun _ _ => true) (fun _ => []) 1 a.publicKey
          (.transaction m) = .ok (answer, b') ∧
        ∀ key, (a.queue.chunks.lookup key).isSome → (b'.queue.chunks.lookup key).isSome := by
  obtain ⟨nA, hA⟩ : ∃ n, Node.new (fun _ _ => true) (fun _ => []) "A" ⟨["A", "B", "C", "D"], 3⟩ = .ok n :=
    ⟨_, (new_ok_iff _ _).mpr ⟨0, by decide +kernel, rfl⟩⟩
  obtain ⟨nC, hC⟩ : ∃ n, Node.new (fun _ _ => true) (fun _ => []) "C" ⟨["A", "B", "C", "D"], 3⟩ = .ok n :=
    ⟨_, (new_ok_iff _ _).mpr ⟨2, by decide +kernel, rfl⟩⟩
  obtain ⟨chunk, hchunk⟩ : ∃ chunk : LedgerChunk, chunk = ⟨[some ⟨some ⟨"alice", 1, "bob", 3, 1⟩, "s"⟩],
      (AList.singleton "alice" (some ⟨1, 6⟩)).insert "bob" (some ⟨0, 3⟩)⟩ := ⟨_, rfl⟩
  obtain ⟨a, ha⟩ : ∃ a : Node, a = { nC.setBalance "alice" 10 with
      queue := { (nC.setBalance "alice" 10).queue with chunks := AList.singleton "" chunk } } := ⟨_, rfl⟩
  refine ⟨nA, nC, hA, hC, chunk, a, hchunk, ha, ?_⟩
  -- fix both seed priorities, so that the kernel can run the nodes
  obtain ⟨pA, hpA, hnA⟩ := (new_ok_iff _ _).mp hA
  obtain ⟨pC, hpC, hnC⟩ := (new_ok_iff _ _).mp hC
  rw [show seedPriority (fun _ => []) "" ["A", "B", "C", "D"] "A" = .ok 0 by decide +kernel] at hpA
  rw [show seedPriority (fun _ => []) "" ["A", "B", "C", "D"] "C" = .ok 2 by decide +kernel] at hpC
  cases hpA
  cases hpC
  have hsingle : ∀ {v : SlotValue} {c : LedgerChunk},
      (AList.singleton "" chunk : AList fun _ : SlotValue => LedgerChunk).lookup v = some c →
        v = "" ∧ c = chunk := by
    intro v c hc
    have hmem := AList.mem_lookup_iff.mp hc
    rw [AList.singleton_entries, List.mem_singleton, Sigma.mk.inj_iff] at hmem
    exact ⟨hmem.1, eq_of_heq hmem.2⟩
  have hvalid : Valid (fun _ _ => true) (fun _ => []) a.queue := by
    subst ha hnC hchunk
    refine ⟨fun v c hc => ?_, fun v c hc => ?_, (fun t ht => nomatch ht), by decide⟩
    · obtain ⟨rfl, rfl⟩ := hsingle hc
      decide +kernel
    · obtain ⟨rfl, rfl⟩ := hsingle hc
      decide
  obtain ⟨⟨messages, a'⟩, hout⟩ := Except.exists_eq_ok_of_isOk
    (x := a.outgoingMessages (fun _ _ => true) (fun _ => [])) (by subst ha hchunk hnC; decide +kernel)
  have hsharing : a.queue.sharingMessage = some ⟨[],
      (([⟨"", chunk⟩] : List (Σ _ : SlotValue, LedgerChunk)).map fun e => ⟨e.1, some e.2⟩).toAList⟩ := by
    subst ha hnC
    rfl
  obtain ⟨⟨answer, b'⟩, hb⟩ := Except.exists_eq_ok_of_isOk
    (x := (nA.setBalance "alice" 10).handle (fun _ _ => true) (fun _ => []) 1 a.publicKey
      (.transaction ⟨[], (([⟨"", chunk⟩] : List (Σ _ : SlotValue, LedgerChunk)).map
        fun e => ⟨e.1, some e.2⟩).toAList⟩))
    (by subst ha hchunk hnA hnC; decide +kernel)
  have hm := (transaction_mem_outgoingMessages_iff _ _ hout).mpr hsharing
  have haccounts : (nA.setBalance "alice" 10).queue.accounts = a.queue.accounts := by
    subst ha hnA hnC
    rfl
  have hsender : a.publicKey ≠ (nA.setBalance "alice" 10).publicKey := by
    subst ha hnA hnC hchunk
    decide
  exact ⟨messages, a', _, answer, b', hvalid, rfl, hout, hm, haccounts, hsender, hb,
    sharing_spreads_chunks [] hvalid (fun _ h => nomatch h) rfl hout hm haccounts hsender hb⟩

end Node

end Coinkit.Network

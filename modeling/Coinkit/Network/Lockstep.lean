import Coinkit.Consensus.StoreFrame
import Coinkit.Network.Node

/-!
# Chain, history and ledger in lockstep

A node counts slots twice: the chain's current block has one, and the transaction queue has
its own. The two move together in one place only. When `Chain.Handle` finds the current block
externalized on a value the queue can finalize, `Finalize` files that value's chunk under the
queue's slot and moves the queue on. The chain then files the block under its slot and starts
the next one. A peer that is behind is answered from both halves: the externalize message from
the chain's history, and the chunk from the queue's finalized chunks, each looked up by slot.

## What is proved

This covers every node that `NewNode` and any sequence of `Handle` calls reach
(`reachable_node_lockstep`):
- the queue's slot is the chain's;
- the history holds exactly the slots from 1 up to the current one, excluded;
- each block in it is done, its externalize message is for its slot, and the chunk the queue
  finalized at that slot hashes to the message's value;
- so the `HistoryMessage` that `handleChainMessage` sends a peer that is behind carries the
  chunk and the externalize message of one slot, the chunk under the message's value.

The invariant is `Lockstep`. Two more facts carry it:
- every cached chunk is keyed by its hash, which is why the finalized chunk hashes to the
  finalized value;
- the current block's externalize message, once kept, is for its slot.

`NewNode` establishes it (`lockstep_new`) and every `Handle` keeps it (`Lockstep.handle`).
Between two finalizations the consensus changes only the queue's cached chunks, and keeps them
keyed (`unfinalized_frame`, a `Consensus.ValueStore.Frame`). Every step from a node in lockstep
also settles the past (`Settled`): the slot does not go back, and below it the history and the
finalized chunks stay as they were.
-/

set_option autoImplicit false

namespace Coinkit.Currency

open Coinkit.Consensus

namespace TransactionQueue

variable (signatureValid : SignatureCheck) (sha3 : List UInt8 → List UInt8)

/-- Every cached chunk is keyed by its hash. -/
def Keyed (q : TransactionQueue) : Prop :=
  ∀ key c, q.chunks.lookup key = some c → c.hash sha3 = .ok key

/-- What the consensus may do to the queue between two finalizations: the slot and the
finalized chunks stay, and the cached chunks stay keyed by their hashes. -/
def Unfinalized (q q' : TransactionQueue) : Prop :=
  q'.slot = q.slot ∧ q'.oldChunks = q.oldChunks ∧ (q.Keyed sha3 → q'.Keyed sha3)

theorem unfinalized_refl (q : TransactionQueue) : Unfinalized sha3 q q := ⟨rfl, rfl, id⟩

theorem Unfinalized.trans {q₁ q₂ q₃ : TransactionQueue} (h₁ : Unfinalized sha3 q₁ q₂)
    (h₂ : Unfinalized sha3 q₂ q₃) : Unfinalized sha3 q₁ q₃ :=
  ⟨h₂.1.trans h₁.1, h₂.2.1.trans h₁.2.1, fun h => h₂.2.2 (h₁.2.2 h)⟩

/-- A change of the cached chunks alone, each new one keyed by its hash. -/
theorem unfinalized_of_chunks {q q' : TransactionQueue} (hq : q' = { q with chunks := q'.chunks })
    (hnew : ∀ key c, q'.chunks.lookup key = some c →
      q.chunks.lookup key = some c ∨ c.hash sha3 = .ok key) :
    Unfinalized sha3 q q' := by
  refine ⟨by rw [hq], by rw [hq], fun hkeyed key c hc => ?_⟩
  rcases hnew key c hc with hold | hhash
  · exact hkeyed key c hold
  · exact hhash

/-- Caching a chunk under its hash. -/
theorem unfinalized_insert (q : TransactionQueue) {key : SlotValue} {c : LedgerChunk}
    (hkey : c.hash sha3 = .ok key) :
    Unfinalized sha3 q { q with chunks := q.chunks.insert key c } := by
  refine unfinalized_of_chunks sha3 rfl fun k c' hc' => ?_
  by_cases hk : k = key
  · subst hk
    rw [AList.lookup_insert] at hc'
    cases hc'
    exact .inr hkey
  · rw [AList.lookup_insert_ne hk] at hc'
    exact .inl hc'

/-- `NewChunk` caches its chunk under its hash, or nothing. -/
theorem newChunk_unfinalized {q q' : TransactionQueue} {ts : List SignedTransaction}
    {r : SlotValue × Option LedgerChunk} (h : q.newChunk sha3 ts = .ok (r, q')) :
    Unfinalized sha3 q q' := by
  obtain ⟨b, -, hrest⟩ := Except.bind_eq_ok.mp h
  split_ifs at hrest
  · cases hrest
    exact unfinalized_refl sha3 q
  · obtain ⟨key, hkey, hcache⟩ := Except.bind_eq_ok.mp hrest
    split_ifs at hcache
    · cases hcache
      exact unfinalized_refl sha3 q
    · cases hcache
      exact unfinalized_insert sha3 q hkey

theorem combine_unfinalized {q q' : TransactionQueue} {list : List SlotValue} {value : SlotValue}
    (h : q.combine sha3 list = .ok (value, q')) : Unfinalized sha3 q q' := by
  obtain ⟨set, -, hrest⟩ := Except.bind_eq_ok.mp h
  obtain ⟨⟨⟨key, chunk⟩, q₁⟩, hnew, hlast⟩ := Except.bind_eq_ok.mp hrest
  cases chunk with
  | none => cases hlast
  | some c =>
    cases hlast
    exact newChunk_unfinalized sha3 hnew

theorem suggestValue_unfinalized {q q' : TransactionQueue} {r : SlotValue × Bool}
    (h : q.suggestValue sha3 = .ok (r, q')) : Unfinalized sha3 q q' := by
  obtain ⟨⟨⟨key, chunk⟩, q₁⟩, hnew, hlast⟩ := Except.bind_eq_ok.mp h
  -- with a chunk or without, the queue is the one `NewChunk` left
  have hq : q' = q₁ := by
    cases chunk <;> cases hlast <;> rfl
  subst hq
  exact newChunk_unfinalized sha3 hnew

/-- Between two finalizations the consensus only caches chunks, each under its hash. -/
theorem unfinalized_frame : (ops signatureValid sha3).Frame (Unfinalized sha3) where
  refl := unfinalized_refl sha3
  trans := Unfinalized.trans sha3
  combine := fun h => combine_unfinalized sha3 h
  suggestValue := fun h => suggestValue_unfinalized sha3 h

/-! ## Transaction messages -/

theorem addStep_unfinalized {acc acc' : Bool × TransactionQueue} {t : Option SignedTransaction}
    (h : addStep signatureValid acc t = .ok acc') : Unfinalized sha3 acc.2 acc'.2 := by
  unfold addStep at h
  split_ifs at h
  · cases h
    exact unfinalized_refl sha3 _
  · obtain ⟨b, q'⟩ := acc'
    -- `Add` changes only the tree
    obtain ⟨hq, -, -⟩ := add_spec signatureValid h
    rw [hq]
    exact ⟨rfl, rfl, id⟩

theorem learnChunk_unfinalized {acc acc' : Bool × TransactionQueue}
    {entry : Σ _ : SlotValue, Option LedgerChunk} (h : learnChunk signatureValid sha3 acc entry = .ok acc') :
    Unfinalized sha3 acc.2 acc'.2 := by
  obtain ⟨hq, hnew⟩ := learnChunk_spec signatureValid sha3 h
  exact unfinalized_of_chunks sha3 hq fun key c hc => (hnew key c hc).imp id And.left

/-- A transaction message only queues transactions and caches chunks under their hashes. -/
theorem handleTransactionMessage_unfinalized {q q' : TransactionQueue} {m : Option TransactionMessage}
    {updated : Bool} (h : q.handleTransactionMessage signatureValid sha3 m = .ok (updated, q')) :
    Unfinalized sha3 q q' := by
  cases m with
  | none =>
    cases h
    exact unfinalized_refl sha3 q
  | some m =>
    obtain ⟨acc, hadd, hlearn⟩ := Except.bind_eq_ok.mp h
    -- both loops, by the rule for a preorder along a run
    have hrefl : ∀ a : Bool × TransactionQueue, Unfinalized sha3 a.2 a.2 := fun a => unfinalized_refl sha3 a.2
    have htrans : ∀ a b c : Bool × TransactionQueue, Unfinalized sha3 a.2 b.2 → Unfinalized sha3 b.2 c.2 →
        Unfinalized sha3 a.2 c.2 := fun _ _ _ h₁ h₂ => h₁.trans sha3 h₂
    have h₁ : Unfinalized sha3 q acc.2 :=
      StepRun.foldlM_rel (fun _ => True) (fun a b => Unfinalized sha3 a.2 b.2) hrefl htrans
        (fun _ _ _ _ hstep => ⟨trivial, addStep_unfinalized signatureValid sha3 hstep⟩) m.transactions
        (s := (false, q)) trivial hadd
    have h₂ : Unfinalized sha3 acc.2 q' :=
      StepRun.foldlM_rel (fun _ => True) (fun a b => Unfinalized sha3 a.2 b.2) hrefl htrans
        (fun _ _ _ _ hstep => ⟨trivial, learnChunk_unfinalized signatureValid sha3 hstep⟩)
        m.chunks.entries (t := (updated, q')) trivial hlearn
    exact h₁.trans sha3 h₂

/-! ## Finalizing, and the chunk of an old slot -/

/-- `Revalidate` changes only the tree. -/
theorem revalidate_eq (q : TransactionQueue) :
    q.revalidate signatureValid = { q with set := (q.revalidate signatureValid).set } := by
  obtain ⟨⟨set, hset⟩, -, -⟩ := revalidate_spec signatureValid q
  rw [hset]

/-- A successful `Finalize` files the value's cached chunk under the queue's slot, moves the
slot on, and drops every cached chunk. -/
theorem finalize_lockstep {q q' : TransactionQueue} {v : SlotValue}
    (h : q.finalize signatureValid v = .ok q') :
    ∃ chunk, q.chunks.lookup v = some chunk ∧ q'.oldChunks = q.oldChunks.insert q.slot chunk ∧
      q'.slot = q.slot + 1 ∧ q'.chunks = ∅ := by
  obtain ⟨chunk, accounts, hc, -, rfl⟩ := finalize_cases signatureValid h
  refine ⟨chunk, hc, ?_, ?_, ?_⟩
  all_goals rw [revalidate_eq]

/-- `OldChunkMessage` of a slot with a finalized chunk: the chunk under its hash. -/
theorem oldChunkMessage_of_lookup {q : TransactionQueue} {slot : Int} {c : LedgerChunk}
    {key : SlotValue} (hc : q.oldChunks.lookup slot = some c) (hkey : c.hash sha3 = .ok key) :
    q.oldChunkMessage sha3 slot = .ok (some ⟨[], AList.singleton key (some c)⟩) := by
  simp only [oldChunkMessage, hc, hkey, Except.ok_bind]
  rfl

end TransactionQueue

end Coinkit.Currency

namespace Coinkit.Network

open Coinkit.Consensus Coinkit.Currency

namespace Node

variable (signatureValid : SignatureCheck) (sha3 : List UInt8 → List UInt8)

/-- What the chain, its history and the ledger keep in step. -/
structure Lockstep (n : Node) : Prop where
  slot : n.queue.slot = n.chain.current.slot
  slot_pos : 1 ≤ n.chain.current.slot
  historyKeys : ∀ s, s ∈ n.chain.history.keys ↔ 1 ≤ s ∧ s < n.chain.current.slot
  history : ∀ s b, n.chain.history.lookup s = some b →
    ∃ e c, b.external = some e ∧ e.i = s ∧ n.queue.oldChunks.lookup s = some c ∧ c.hash sha3 = .ok e.x
  keyed : n.queue.Keyed sha3
  current : n.chain.current.ExternalAtSlot

/-- `NewNode` starts in lockstep: slot 1 on both sides, nothing finalized, nothing cached. -/
theorem lockstep_new {publicKey : String} {qs : QuorumSlice} {n : Node}
    (h : Node.new signatureValid sha3 publicKey qs = .ok n) : n.Lockstep sha3 := by
  obtain ⟨priority, -, rfl⟩ := (new_ok_iff signatureValid sha3).mp h
  refine ⟨rfl, le_refl _, fun s => ?_, fun s b hb => ?_, fun key c hc => ?_, fun e he => ?_⟩
  · simp only [AList.keys_empty, List.not_mem_nil, false_iff]
    omega
  · simp at hb
  · simp [newTransactionQueue] at hc
  · cases he

/-- What a step keeps of the past: the slot does not go back, and below the slot it started at,
the history and the finalized chunks stay as they were. -/
structure Settled (n n' : Node) : Prop where
  slot_le : n.chain.current.slot ≤ n'.chain.current.slot
  history : ∀ s, s < n.chain.current.slot → n'.chain.history.lookup s = n.chain.history.lookup s
  oldChunks : ∀ s, s < n.chain.current.slot →
    n'.queue.oldChunks.lookup s = n.queue.oldChunks.lookup s

theorem Settled.refl (n : Node) : Settled n n := ⟨le_refl _, fun _ _ => rfl, fun _ _ => rfl⟩

theorem Settled.trans {n₁ n₂ n₃ : Node} (h₁ : Settled n₁ n₂) (h₂ : Settled n₂ n₃) : Settled n₁ n₃ where
  slot_le := h₁.slot_le.trans h₂.slot_le
  history s hs := (h₂.history s (lt_of_lt_of_le hs h₁.slot_le)).trans (h₁.history s hs)
  oldChunks s hs := (h₂.oldChunks s (lt_of_lt_of_le hs h₁.slot_le)).trans (h₁.oldChunks s hs)

/-- A step between finalizations settles the past: it leaves the history and the finalized
chunks as they were. -/
theorem settled_frame {n : Node} {b : Block} {q : TransactionQueue}
    (hq : q.oldChunks = n.queue.oldChunks) (hslot : b.slot = n.chain.current.slot) :
    Settled n { n with chain := { n.chain with current := b }, queue := q } :=
  ⟨hslot.ge, fun _ _ => rfl, fun _ _ => by rw [hq]⟩

/-- A current block changed with its slot and its kept externalize message, and a queue changed
only between finalizations, keep the lockstep. -/
theorem Lockstep.frame {n : Node} (h : n.Lockstep sha3) {b : Block} {q : TransactionQueue}
    (hq : TransactionQueue.Unfinalized sha3 n.queue q) (hslot : b.slot = n.chain.current.slot)
    (hext : b.ExternalAtSlot) :
    Lockstep sha3 { n with chain := { n.chain with current := b }, queue := q } := by
  refine ⟨?_, hslot ▸ h.slot_pos, fun s => hslot ▸ h.historyKeys s, fun s b' hb' => ?_, hq.2.2 h.keyed,
    hext⟩
  · dsimp only
    rw [hq.1, h.slot, hslot]
  · dsimp only
    rw [hq.2.1]
    exact h.history s b' hb'

/-- Finalizing the current block: its value's chunk is filed under the queue's slot, which is
the block's, as the block is filed in the history; both sides move to the next slot. -/
theorem Lockstep.advance {n : Node} (h : n.Lockstep sha3) {b : Block} {q₁ : TransactionQueue}
    (hq₁ : TransactionQueue.Unfinalized sha3 n.queue q₁) (hslot : b.slot = n.chain.current.slot)
    (hext : b.ExternalAtSlot) {e : ExternalizeMessage} (he : b.external = some e)
    {q₂ : TransactionQueue} (hfin : q₁.finalize signatureValid e.x = .ok q₂) {b' : Block}
    {q₃ : TransactionQueue} (hq₃ : TransactionQueue.Unfinalized sha3 q₂ q₃)
    (hslot' : b'.slot = b.slot + 1) (hext' : b'.external = none) :
    Lockstep sha3 { n with
      chain := { n.chain with current := b', history := n.chain.history.insert b.slot b }
      queue := q₃ } := by
  obtain ⟨chunk, hchunk, hold, hslot₂, hchunks⟩ := TransactionQueue.finalize_lockstep signatureValid hfin
  have hq₁slot : q₁.slot = b.slot := by rw [hq₁.1, h.slot, hslot]
  have hpos := h.slot_pos
  refine ⟨?_, ?_, fun s => ?_, fun s b'' hb'' => ?_, ?_, fun e' he' => ?_⟩
  all_goals dsimp only
  · rw [hq₃.1, hslot₂, hq₁slot, hslot']
  · omega
  · rw [← AList.mem_keys, AList.mem_insert, AList.mem_keys, h.historyKeys s]
    omega
  · -- the filed chunk sits under the filed block's slot; every older slot is as it was
    rw [hq₃.2.1, hold, hq₁.2.1, hq₁slot]
    by_cases hs : s = b.slot
    · subst hs
      rw [AList.lookup_insert] at hb'' ⊢
      cases hb''
      exact ⟨e, chunk, he, hext e he, rfl, hq₁.2.2 h.keyed e.x chunk hchunk⟩
    · rw [AList.lookup_insert_ne hs] at hb'' ⊢
      exact h.history s b'' hb''
  · refine hq₃.2.2 fun key c hc => ?_
    rw [hchunks] at hc
    simp at hc
  · rw [hext'] at he'
    cases he'

/-- Finalizing the current block settles the past: the block and its chunk are filed under the
current slot, above every slot before it. -/
theorem Lockstep.settled_advance {n : Node} (h : n.Lockstep sha3) {b : Block} {q₁ : TransactionQueue}
    (hq₁ : TransactionQueue.Unfinalized sha3 n.queue q₁) (hslot : b.slot = n.chain.current.slot)
    {v : SlotValue} {q₂ : TransactionQueue} (hfin : q₁.finalize signatureValid v = .ok q₂) {b' : Block}
    {q₃ : TransactionQueue} (hq₃ : TransactionQueue.Unfinalized sha3 q₂ q₃)
    (hslot' : b'.slot = b.slot + 1) :
    Settled n { n with
      chain := { n.chain with current := b', history := n.chain.history.insert b.slot b }
      queue := q₃ } := by
  obtain ⟨chunk, -, hold, -, -⟩ := TransactionQueue.finalize_lockstep signatureValid hfin
  have hq₁slot : q₁.slot = b.slot := by rw [hq₁.1, h.slot, hslot]
  refine ⟨?_, fun s hs => ?_, fun s hs => ?_⟩
  all_goals dsimp only
  · omega
  · rw [AList.lookup_insert_ne (by omega)]
  · rw [hq₃.2.1, hold, hq₁.2.1, hq₁slot, AList.lookup_insert_ne (by omega)]

/-- `Chain.Handle` keeps the lockstep and settles the past: an answer from the history changes
nothing, and a message for the current block either leaves the slot or finalizes it. -/
theorem Lockstep.chainHandle {n : Node} (h : n.Lockstep sha3) {fuel : Nat} {sender : String}
    {message : ChainMessage} {answer : Option ExternalizeMessage} {c : Chain} {q : TransactionQueue}
    (hc : n.chain.handle (ops signatureValid sha3) sha3 fuel sender message n.queue = .ok (answer, c, q)) :
    Lockstep sha3 { n with chain := c, queue := q } ∧ Settled n { n with chain := c, queue := q } := by
  have hF := TransactionQueue.unfinalized_frame signatureValid sha3
  rcases Chain.handle_cases hc with ⟨rfl, rfl, -⟩ | ⟨-, b, q₁, hb, hadvance⟩
  · exact ⟨h, Settled.refl n⟩
  · obtain ⟨hq₁, hslot, hext⟩ :=
      (Block.handle_frame hF fuel n.chain.current sender message n.queue).of_ok hb
    rcases Chain.maybeAdvance_cases hadvance with ⟨rfl, rfl⟩ | ⟨e, q₂, b', he, -, hfin, hnew, rfl⟩
    · exact ⟨h.frame sha3 hq₁ hslot (hext h.current), settled_frame hq₁.2.1 hslot⟩
    · obtain ⟨hq₃, hslot', hext'⟩ := (Block.new_frame hF sha3 _ _ _ q₂).of_ok hnew
      exact ⟨h.advance signatureValid sha3 hq₁ hslot (hext h.current) he hfin hq₃ hslot' hext',
        h.settled_advance signatureValid sha3 hq₁ hslot hfin hq₃ hslot'⟩

/-- The transaction case of `Handle` keeps the lockstep and the past. -/
theorem Lockstep.handleTransaction {n n' : Node} (h : n.Lockstep sha3) {m : Option TransactionMessage}
    (hn : n.handleTransaction signatureValid sha3 m = .ok n') : n'.Lockstep sha3 ∧ Settled n n' := by
  obtain ⟨⟨updated, q₁⟩, hq, hrest⟩ := Except.bind_eq_ok.mp hn
  have hq₁ := TransactionQueue.handleTransactionMessage_unfinalized signatureValid sha3 hq
  dsimp only at hrest
  split_ifs at hrest
  · obtain ⟨⟨c, q₂⟩, hc, hrest⟩ := Except.bind_eq_ok.mp hrest
    cases hrest
    obtain ⟨⟨b, q₂'⟩, hb, hc'⟩ := Except.bind_eq_ok.mp hc
    cases hc'
    obtain ⟨hq₂, hslot, hext⟩ :=
      (Block.valueStoreUpdated_frame (TransactionQueue.unfinalized_frame signatureValid sha3)
        n.chain.current q₁).of_ok hb
    have hq := hq₁.trans sha3 hq₂
    exact ⟨h.frame sha3 hq hslot (h.current.of_eq hslot hext), settled_frame hq.2.1 hslot⟩
  · cases hrest
    exact ⟨h.frame sha3 hq₁ rfl h.current, settled_frame hq₁.2.1 rfl⟩

theorem Lockstep.handleChainMessage {n n' : Node} (h : n.Lockstep sha3) {fuel : Nat} {sender : String}
    {message : ChainMessage} {answer : Option Message}
    (hn : n.handleChainMessage signatureValid sha3 fuel sender message = .ok (answer, n')) :
    n'.Lockstep sha3 ∧ Settled n n' := by
  obtain ⟨⟨response, c, q⟩, hc, hrest⟩ := Except.bind_eq_ok.mp hn
  have hlock := h.chainHandle signatureValid sha3 hc
  cases response with
  | none =>
    cases hrest
    exact hlock
  | some e =>
    obtain ⟨t, -, hrest⟩ := Except.bind_eq_ok.mp hrest
    cases hrest
    exact hlock

/-- Every `Handle` keeps the lockstep and settles the past, whatever the sender and the message. -/
theorem Lockstep.handle {n n' : Node} (h : n.Lockstep sha3) {fuel : Nat} {sender : String}
    {message : Message} {answer : Option Message}
    (hn : n.handle signatureValid sha3 fuel sender message = .ok (answer, n')) :
    n'.Lockstep sha3 ∧ Settled n n' := by
  unfold Node.handle at hn
  by_cases hsender : sender = n.publicKey
  · rw [if_pos hsender] at hn
    cases hn
    exact ⟨h, Settled.refl n⟩
  rw [if_neg hsender] at hn
  cases message with
  | history i t e =>
    -- the chunk first, then the externalize message
    obtain ⟨n₁, hn₁, hrest⟩ := Except.bind_eq_ok.mp hn
    have h₁ := h.handleTransaction signatureValid sha3 hn₁
    cases e with
    | none => cases hrest
    | some e =>
      obtain ⟨⟨r, n₂⟩, hn₂, hrest⟩ := Except.bind_eq_ok.mp hrest
      cases hrest
      have h₂ := h₁.1.handleChainMessage signatureValid sha3 hn₂
      exact ⟨h₂.1, h₁.2.trans h₂.2⟩
  | account m =>
    cases hn
    exact ⟨h, Settled.refl n⟩
  | info m =>
    dsimp only at hn
    split_ifs at hn
    · cases hn
      exact ⟨h, Settled.refl n⟩
    · obtain ⟨⟨r, c, q⟩, hc, hrest⟩ := Except.bind_eq_ok.mp hn
      cases hrest
      exact h.chainHandle signatureValid sha3 hc
    · cases hn
      exact ⟨h, Settled.refl n⟩
  | transaction m =>
    obtain ⟨n₁, hn₁, hrest⟩ := Except.bind_eq_ok.mp hn
    cases hrest
    exact h.handleTransaction signatureValid sha3 hn₁
  | nomination m => exact h.handleChainMessage signatureValid sha3 hn
  | ballot m => exact h.handleChainMessage signatureValid sha3 hn

/-- What `handleChainMessage` answers a peer with, in lockstep: the externalize message the
history has for the peer's slot, and the chunk finalized at that slot, under its hash, which is
the message's value. The node stays as it was. -/
theorem Lockstep.historyMessage {n n' : Node} (h : n.Lockstep sha3) {fuel : Nat} {sender : String}
    {message : ChainMessage} {m : Message}
    (hn : n.handleChainMessage signatureValid sha3 fuel sender message = .ok (some m, n')) :
    n' = n ∧ ∃ e c b, m = .history e.i (some ⟨[], AList.singleton e.x (some c)⟩) (some e) ∧
      e.i = message.slot ∧ n.chain.history.lookup e.i = some b ∧ b.external = some e ∧
      n.queue.oldChunks.lookup e.i = some c ∧ c.hash sha3 = .ok e.x := by
  obtain ⟨⟨response, c, q⟩, hc, hrest⟩ := Except.bind_eq_ok.mp hn
  rcases Chain.handle_cases hc with ⟨rfl, rfl, hanswer⟩ | ⟨rfl, -⟩
  · cases response with
    | none => cases hrest
    | some e =>
      obtain ⟨old, hold, hext⟩ := hanswer e rfl
      obtain ⟨e', chunk, he', hi, hchunk, hhash⟩ := h.history _ old hold
      rw [hext] at he'
      cases he'
      rw [← hi] at hold hchunk
      have hmsg := TransactionQueue.oldChunkMessage_of_lookup sha3 hchunk hhash
      obtain ⟨t, ht, hrest⟩ := Except.bind_eq_ok.mp hrest
      rw [hmsg] at ht
      cases ht
      cases hrest
      exact ⟨rfl, e, chunk, old, rfl, hi, hold, hext, hchunk, hhash⟩
  · cases hrest

/-- One call of the server's loop: `Handle` with the fuel of the ballot loop, the sender and the
message; the answer is sent and the node kept. -/
def handleStep (n : Node) (call : Nat × String × Message) : Except Fault Node :=
  Prod.snd <$> n.handle signatureValid sha3 call.1 call.2.1 call.2.2

/-- Every node that `NewNode` and `Handle` calls reach is in lockstep. -/
theorem lockstep_of_reachable {publicKey : String} {qs : QuorumSlice} {n₀ n : Node}
    (hnew : Node.new signatureValid sha3 publicKey qs = .ok n₀)
    (hreach : StepRun.Reachable (handleStep signatureValid sha3) n₀ n) : n.Lockstep sha3 := by
  refine StepRun.Reachable.invariant (Lockstep sha3) (lockstep_new signatureValid sha3 hnew) ?_ hreach
  intro n₁ call n₂ h₁ hstep
  obtain ⟨⟨answer, n₂'⟩, hcall, rfl⟩ := Except.exists_of_map_eq_ok hstep
  exact (h₁.handle signatureValid sha3 hcall).1

/-- Chain, history and ledger of a node reached by `NewNode` and any sequence of `Handle` calls
are in lockstep, and a `HistoryMessage` the node answers a peer with pairs the chunk and the
externalize message of the peer's slot. -/
theorem reachable_node_lockstep {publicKey : String} {qs : QuorumSlice} {n₀ n : Node}
    (hnew : Node.new signatureValid sha3 publicKey qs = .ok n₀)
    (hreach : StepRun.Reachable (handleStep signatureValid sha3) n₀ n) :
    n.queue.slot = n.slot ∧
    (∀ s, s ∈ n.chain.history.keys ↔ 1 ≤ s ∧ s < n.slot) ∧
    (∀ s b, n.chain.history.lookup s = some b → b.done = true ∧
      ∃ e c, b.external = some e ∧ e.i = s ∧ n.queue.oldChunks.lookup s = some c ∧
        c.hash sha3 = .ok e.x) ∧
    ∀ fuel sender message m n', n.handleChainMessage signatureValid sha3 fuel sender message = .ok (some m, n') →
      n' = n ∧ ∃ e c b, m = .history e.i (some ⟨[], AList.singleton e.x (some c)⟩) (some e) ∧
        e.i = message.slot ∧ n.chain.history.lookup e.i = some b ∧ b.external = some e ∧
        n.queue.oldChunks.lookup e.i = some c ∧ c.hash sha3 = .ok e.x := by
  have h := lockstep_of_reachable signatureValid sha3 hnew hreach
  refine ⟨h.slot, h.historyKeys, fun s b hb => ?_, fun _ _ _ _ _ hn => h.historyMessage signatureValid sha3 hn⟩
  obtain ⟨e, c, he, hrest⟩ := h.history s b hb
  refine ⟨?_, e, c, he, hrest⟩
  simp only [Block.done, he, Option.isSome_some]

/-- Peers `B` and `C` each send a new node `A` the history of slot 1: an empty chunk under its
hash and the externalize message for it. The node finalizes slot 1, and its slots, its history,
its finalized chunks and its answers to catch-up requests pair up. -/
theorem reachable_node_lockstep_after_history :
    ∃ n₀ n : Node, Node.new (fun _ _ => true) (fun _ => [1]) "A" ⟨["A", "B", "C", "D"], 3⟩ = .ok n₀ ∧
      StepRun.Reachable (handleStep (fun _ _ => true) (fun _ => [1])) n₀ n ∧ n.slot = 2 ∧
      n.queue.slot = n.slot ∧
      (∀ s, s ∈ n.chain.history.keys ↔ 1 ≤ s ∧ s < n.slot) ∧
      (∀ s b, n.chain.history.lookup s = some b → b.done = true ∧
        ∃ e c, b.external = some e ∧ e.i = s ∧ n.queue.oldChunks.lookup s = some c ∧
          c.hash (fun _ => [1]) = .ok e.x) ∧
      ∀ fuel sender message m n',
        n.handleChainMessage (fun _ _ => true) (fun _ => [1]) fuel sender message = .ok (some m, n') →
        n' = n ∧ ∃ e c b, m = .history e.i (some ⟨[], AList.singleton e.x (some c)⟩) (some e) ∧
          e.i = message.slot ∧ n.chain.history.lookup e.i = some b ∧ b.external = some e ∧
          n.queue.oldChunks.lookup e.i = some c ∧ c.hash (fun _ => [1]) = .ok e.x := by
  obtain ⟨n₀, h₀⟩ : ∃ n₀, Node.new (fun _ _ => true) (fun _ => [1]) "A" ⟨["A", "B", "C", "D"], 3⟩ = .ok n₀ :=
    ⟨_, (new_ok_iff _ _).mpr ⟨0, by decide +kernel, rfl⟩⟩
  obtain ⟨m, hm⟩ : ∃ m : Message, m = .history 1
      (some ⟨[], AList.singleton "AQ" (some ⟨[], ∅⟩)⟩)
      (some ⟨1, "AQ", 1, 1, ⟨["A", "B", "C", "D"], 3⟩⟩) := ⟨_, rfl⟩
  -- fix the seed priority, so that the kernel can run the node
  obtain ⟨priority, hp, hn₀⟩ := (new_ok_iff _ _).mp h₀
  rw [show seedPriority (fun _ => [1]) "" ["A", "B", "C", "D"] "A" = .ok 0 by decide +kernel] at hp
  cases hp
  obtain ⟨n, hrun, hslot⟩ := Except.bind_eq_ok.mp (show
    ([(10, "B", m), (10, "C", m)].foldlM (handleStep (fun _ _ => true) (fun _ => [1])) n₀ >>= fun n =>
      pure (decide (n.slot = 2))) = .ok true by
    subst hm hn₀
    decide +kernel)
  have hreach := StepRun.Reachable.run StepRun.Reachable.init hrun
  exact ⟨n₀, n, h₀, hreach, of_decide_eq_true (Except.ok.inj hslot),
    reachable_node_lockstep (fun _ _ => true) (fun _ => [1]) h₀ hreach⟩

end Node

end Coinkit.Network

import Coinkit.Network.Server
import Coinkit.Currency.Payments

/-!
# The ledger along a server's run

`currency/transaction_queue.go`, `consensus/chain.go`, `network/node.go` and
`network/server.go`. A node's ledger is its queue's accounts. Of all the work a server does for
a message, one call writes them: `Finalize`, once the chain has externalized a value whose chunk
the queue knows. It processes the chunk on the accounts, files it under the queue's slot and
moves the slot on. Queuing transactions, learning chunks, nominating, balloting and building
chunks with `NewChunk` work on copies of the accounts, or on the queue's other fields.

## What is proved

- `ledger_burns_filed_fees`: along any run of processed messages, from any node, the ledger's
  money goes down by exactly the fees of the chunks the run finalizes, when each of them pays
  other accounts with costs that do not wrap and the ledger starts below 2^64;
- `ledger_replays_filed_chunks`: along any such run the last accounts are the first ones with the
  chunks the run finalizes processed in slot order, so the ledger is a function of the chunks
  finalized: replicas that file the same chunks hold the same accounts;
- `ledger_spends_sequences_once`: along any such run the filed transactions spend every
  account's sequence numbers one by one from its own, so up to 2^32 of them from one account
  never repeat one, when none of them pays its own sender;
- `ledger_balances_follow_transactions`: along any such run every account's balance moves by
  exactly what the filed transactions move for it, under the conditions of the first result: the
  abstract ledger's account (`Ledger.payAll_balance`) read through the refinement below;
- `ledger_refines_payments`: along any such run the filed transactions, as payments of the
  abstract ledger of `Coinkit.Lib.Ledger`, are made one after another on the first accounts,
  each valid where it is made, and lead to the last accounts, under the conditions of the first
  result: the ledger refines a ledger of payments, and no account is ever overdrawn;
- `ledger_files_only_signed_transactions`: every entry of every chunk any such run files is a
  transaction whose own carried signature the check accepts.

All of them are properties of one relation, `LedgerRun`: the chunks a run files, slot by slot, are
each accepted by `ProcessChunk` and lead from the first accounts to the last
(`ledgerRun_of_run`). Each property is then an induction on `LedgerRun`, one filed chunk a step.
The run lemma rests on `processMessage_ledgerMove`: a processed message leaves the accounts, the
slot and the finalized chunks as they were, or finalizes one chunk (`LedgerMove`). The consensus
reaches the queue only through `Combine` and `SuggestValue` between finalizations, and both keep
the ledger (`sameLedger_frame`).

The same split of a processed message carries any relation on queues that the consensus's frame,
`HandleTransactionMessage` and `Finalize` establish (`processMessage_rel`); the split of
`Handle` itself is `Node.handle_cases`.
-/

set_option autoImplicit false

namespace Coinkit.Currency

open Coinkit.Consensus

/-- The accounts after processing the chunks one after another. -/
def AccountMap.replayChunks (signatureValid : SignatureCheck) (accounts : AccountMap)
    (chunks : List LedgerChunk) : AccountMap :=
  chunks.foldl (fun a c => (a.processChunk signatureValid (some c)).2) accounts

theorem AccountMap.replayChunks_cons (signatureValid : SignatureCheck) (accounts : AccountMap)
    (c : LedgerChunk) (chunks : List LedgerChunk) :
    replayChunks signatureValid accounts (c :: chunks) =
      replayChunks signatureValid (accounts.processChunk signatureValid (some c)).2 chunks := rfl

namespace TransactionQueue

variable (signatureValid : SignatureCheck) (sha3 : List UInt8 → List UInt8)

/-- The queue's ledger as it was: its accounts, its slot and its finalized chunks. -/
def SameLedger (q q' : TransactionQueue) : Prop :=
  q'.accounts = q.accounts ∧ q'.slot = q.slot ∧ q'.oldChunks = q.oldChunks

theorem sameLedger_refl (q : TransactionQueue) : SameLedger q q := ⟨rfl, rfl, rfl⟩

theorem SameLedger.trans {q₁ q₂ q₃ : TransactionQueue} (h₁ : SameLedger q₁ q₂)
    (h₂ : SameLedger q₂ q₃) : SameLedger q₁ q₃ :=
  ⟨h₂.1.trans h₁.1, h₂.2.1.trans h₁.2.1, h₂.2.2.trans h₁.2.2⟩

/-- `NewChunk` builds its chunk on a copy of the accounts, and caches it or not. -/
theorem newChunk_sameLedger {q q' : TransactionQueue} {ts : List SignedTransaction}
    {r : SlotValue × Option LedgerChunk} (h : q.newChunk sha3 ts = .ok (r, q')) :
    SameLedger q q' := by
  obtain ⟨b, -, hrest⟩ := Except.bind_eq_ok.mp h
  split_ifs at hrest
  · cases hrest
    exact sameLedger_refl q
  · obtain ⟨key, -, hcache⟩ := Except.bind_eq_ok.mp hrest
    split_ifs at hcache <;> cases hcache <;> exact ⟨rfl, rfl, rfl⟩

theorem combine_sameLedger {q q' : TransactionQueue} {list : List SlotValue} {value : SlotValue}
    (h : q.combine sha3 list = .ok (value, q')) : SameLedger q q' := by
  obtain ⟨set, -, hrest⟩ := Except.bind_eq_ok.mp h
  obtain ⟨⟨⟨key, chunk⟩, q₁⟩, hnew, hlast⟩ := Except.bind_eq_ok.mp hrest
  cases chunk with
  | none => cases hlast
  | some c =>
    cases hlast
    exact newChunk_sameLedger sha3 hnew

theorem suggestValue_sameLedger {q q' : TransactionQueue} {r : SlotValue × Bool}
    (h : q.suggestValue sha3 = .ok (r, q')) : SameLedger q q' := by
  obtain ⟨⟨⟨key, chunk⟩, q₁⟩, hnew, hlast⟩ := Except.bind_eq_ok.mp h
  have hq : q' = q₁ := by
    cases chunk <;> cases hlast <;> rfl
  subst hq
  exact newChunk_sameLedger sha3 hnew

/-- The consensus never touches the ledger between two finalizations. -/
theorem sameLedger_frame : (ops signatureValid sha3).Frame SameLedger where
  refl := sameLedger_refl
  trans := SameLedger.trans
  combine := fun h => combine_sameLedger sha3 h
  suggestValue := fun h => suggestValue_sameLedger sha3 h

theorem addStep_sameLedger {acc acc' : Bool × TransactionQueue} {t : Option SignedTransaction}
    (h : addStep signatureValid acc t = .ok acc') : SameLedger acc.2 acc'.2 := by
  unfold addStep at h
  split_ifs at h
  · cases h
    exact sameLedger_refl _
  · obtain ⟨b, q'⟩ := acc'
    -- `Add` changes only the tree
    obtain ⟨hq, -, -⟩ := add_spec signatureValid h
    rw [hq]
    exact ⟨rfl, rfl, rfl⟩

theorem learnChunk_sameLedger {acc acc' : Bool × TransactionQueue}
    {entry : Σ _ : SlotValue, Option LedgerChunk}
    (h : learnChunk signatureValid sha3 acc entry = .ok acc') : SameLedger acc.2 acc'.2 := by
  obtain ⟨hq, -⟩ := learnChunk_spec signatureValid sha3 h
  rw [hq]
  exact ⟨rfl, rfl, rfl⟩

/-- A transaction message queues transactions and caches chunks; the ledger stays. -/
theorem handleTransactionMessage_sameLedger {q q' : TransactionQueue}
    {m : Option TransactionMessage} {updated : Bool}
    (h : q.handleTransactionMessage signatureValid sha3 m = .ok (updated, q')) :
    SameLedger q q' := by
  cases m with
  | none =>
    cases h
    exact sameLedger_refl q
  | some m =>
    obtain ⟨acc, hadd, hlearn⟩ := Except.bind_eq_ok.mp h
    have hrefl : ∀ a : Bool × TransactionQueue, SameLedger a.2 a.2 := fun a => sameLedger_refl a.2
    have htrans : ∀ a b c : Bool × TransactionQueue, SameLedger a.2 b.2 → SameLedger b.2 c.2 →
        SameLedger a.2 c.2 := fun _ _ _ h₁ h₂ => h₁.trans h₂
    have h₁ : SameLedger q acc.2 :=
      StepRun.foldlM_rel (fun _ => True) (fun a b => SameLedger a.2 b.2) hrefl htrans
        (fun _ _ _ _ hstep => ⟨trivial, addStep_sameLedger signatureValid hstep⟩) m.transactions
        (s := (false, q)) trivial hadd
    have h₂ : SameLedger acc.2 q' :=
      StepRun.foldlM_rel (fun _ => True) (fun a b => SameLedger a.2 b.2) hrefl htrans
        (fun _ _ _ _ hstep => ⟨trivial, learnChunk_sameLedger signatureValid sha3 hstep⟩)
        m.chunks.entries (t := (updated, q')) trivial hlearn
    exact h₁.trans h₂

/-- What `Finalize` does to the ledger: the value's chunk processed on the accounts and filed
under the slot, and the slot moved on. -/
theorem finalize_ledger {q q' : TransactionQueue} {v : SlotValue}
    (h : q.finalize signatureValid v = .ok q') :
    ∃ chunk, q'.oldChunks = q.oldChunks.insert q.slot chunk ∧ q'.slot = q.slot + 1 ∧
      q.accounts.processChunk signatureValid (some chunk) = (true, q'.accounts) := by
  obtain ⟨chunk, accounts, -, hprocess, rfl⟩ := finalize_cases signatureValid h
  rw [revalidate_eq]
  exact ⟨chunk, rfl, rfl, hprocess⟩

/-- What the work on one message can do to the ledger. -/
inductive LedgerMove (q q' : TransactionQueue) : Prop
  /-- Nothing: the accounts, the slot and the finalized chunks stay. -/
  | keep (h : SameLedger q q')
  /-- `Finalize`: a chunk processed on the accounts and filed under the slot, which moves on. -/
  | finalize (chunk : LedgerChunk) (hold : q'.oldChunks = q.oldChunks.insert q.slot chunk)
      (hslot : q'.slot = q.slot + 1)
      (hprocess : q.accounts.processChunk signatureValid (some chunk) = (true, q'.accounts))

variable {signatureValid}

theorem LedgerMove.sameLedger_left {q₁ q₂ q₃ : TransactionQueue} (h₁ : SameLedger q₁ q₂)
    (h₂ : LedgerMove signatureValid q₂ q₃) : LedgerMove signatureValid q₁ q₃ := by
  cases h₂ with
  | keep h => exact .keep (h₁.trans h)
  | finalize chunk hold hslot hprocess =>
    obtain ⟨ha, hs, ho⟩ := h₁
    refine .finalize chunk ?_ ?_ ?_
    · rw [hold, ho, hs]
    · rw [hslot, hs]
    · rw [← ha]
      exact hprocess

theorem LedgerMove.sameLedger_right {q₁ q₂ q₃ : TransactionQueue}
    (h₁ : LedgerMove signatureValid q₁ q₂) (h₂ : SameLedger q₂ q₃) :
    LedgerMove signatureValid q₁ q₃ := by
  cases h₁ with
  | keep h => exact .keep (h.trans h₂)
  | finalize chunk hold hslot hprocess =>
    obtain ⟨ha, hs, ho⟩ := h₂
    refine .finalize chunk ?_ ?_ ?_
    · rw [ho, hold]
    · rw [hs, hslot]
    · rw [ha]
      exact hprocess

/-- What a queue keeps of its past: the slot does not go back, and the chunks finalized below it
stay. -/
structure Settles (q q' : TransactionQueue) : Prop where
  slot_le : q.slot ≤ q'.slot
  oldChunks : ∀ s < q.slot, q'.oldChunks.lookup s = q.oldChunks.lookup s

theorem Settles.refl (q : TransactionQueue) : Settles q q := ⟨le_refl _, fun _ _ => rfl⟩

theorem Settles.trans {q₁ q₂ q₃ : TransactionQueue} (h₁ : Settles q₁ q₂) (h₂ : Settles q₂ q₃) :
    Settles q₁ q₃ where
  slot_le := h₁.slot_le.trans h₂.slot_le
  oldChunks s hs := (h₂.oldChunks s (lt_of_lt_of_le hs h₁.slot_le)).trans (h₁.oldChunks s hs)

/-- A finalization files its chunk at the slot it leaves, above every earlier one. -/
theorem LedgerMove.settles {q q' : TransactionQueue} (h : LedgerMove signatureValid q q') :
    Settles q q' := by
  cases h with
  | keep h => exact ⟨h.2.1.ge, fun s _ => by rw [h.2.2]⟩
  | finalize chunk hold hslot _ =>
    refine ⟨by omega, fun s hs => ?_⟩
    rw [hold, AList.lookup_insert_ne (by omega)]

/-- The chunks the queue finalized from slot lo up to its slot, in slot order. -/
def filedChunks (q : TransactionQueue) (lo : Int) : List LedgerChunk :=
  (List.range (q.slot - lo).toNat).filterMap fun j : Nat => q.oldChunks.lookup (lo + j)

theorem filedChunks_slot (q : TransactionQueue) : q.filedChunks q.slot = [] := by
  simp [filedChunks]

theorem filedChunks_eq_cons {q : TransactionQueue} {lo : Int} {chunk : LedgerChunk}
    (hlo : lo < q.slot) (hchunk : q.oldChunks.lookup lo = some chunk) :
    q.filedChunks lo = chunk :: q.filedChunks (lo + 1) := by
  have hn : (q.slot - lo).toNat = (q.slot - (lo + 1)).toNat + 1 := by omega
  rw [filedChunks, filedChunks, hn, List.range_succ_eq_map, List.filterMap_cons, Int.natCast_zero,
    Int.add_zero, hchunk, List.filterMap_map]
  dsimp only
  congr 1
  -- slot lo + (j + 1) is slot (lo + 1) + j
  refine List.filterMap_congr fun j _ => ?_
  rw [Function.comp_apply]
  congr 1
  omega

/-- The transactions of the chunks the queue finalized from slot lo up to its slot, in order. -/
def filedTransactions (q : TransactionQueue) (lo : Int) : List Transaction :=
  (q.filedChunks lo).flatMap fun c => AccountMap.chunkTransactions c.transactions

theorem filedTransactions_slot (q : TransactionQueue) : q.filedTransactions q.slot = [] := by
  rw [filedTransactions, filedChunks_slot, List.flatMap_nil]

theorem filedTransactions_eq_append {q : TransactionQueue} {lo : Int} {chunk : LedgerChunk}
    (hlo : lo < q.slot) (hchunk : q.oldChunks.lookup lo = some chunk) :
    q.filedTransactions lo =
      AccountMap.chunkTransactions chunk.transactions ++ q.filedTransactions (lo + 1) := by
  rw [filedTransactions, filedChunks_eq_cons hlo hchunk, List.flatMap_cons]
  rfl

/-! ## The ledger's way, slot by slot -/

/-- The ledger's way from accounts `a` at slot `s` to the queue `q`: the chunks `q` filed at `s`,
`s + 1`, … below its slot, each accepted by `ProcessChunk` in turn, lead from `a` to `q`'s
accounts. -/
inductive LedgerRun (signatureValid : SignatureCheck) :
    AccountMap → Int → TransactionQueue → Prop
  /-- Nothing more filed: the accounts are the queue's, at its slot. -/
  | done (q : TransactionQueue) : LedgerRun signatureValid q.accounts q.slot q
  /-- The chunk filed at slot `s` is accepted on `a`, and the way goes on from there. -/
  | file {a a' : AccountMap} {s : Int} {q : TransactionQueue} {c : LedgerChunk}
      (hlt : s < q.slot) (hfiled : q.oldChunks.lookup s = some c)
      (hprocess : a.processChunk signatureValid (some c) = (true, a'))
      (hrest : LedgerRun signatureValid a' (s + 1) q) : LedgerRun signatureValid a s q

/-- The last accounts are the replay of the chunks filed on the way. -/
theorem LedgerRun.accounts_eq_replayChunks {a : AccountMap} {s : Int} {q : TransactionQueue}
    (h : LedgerRun signatureValid a s q) :
    q.accounts = AccountMap.replayChunks signatureValid a (q.filedChunks s) := by
  induction h with
  | done q =>
    rw [filedChunks_slot]
    rfl
  | file hlt hfiled hprocess _ ih =>
    rw [ih, filedChunks_eq_cons hlt hfiled, AccountMap.replayChunks_cons, hprocess]

/-- The transactions filed on the way spend every owner's sequence numbers one by one, when none
pays its own sender: one `processChunk_countsUp` a filed chunk, joined by `CountsUp.append`. -/
theorem LedgerRun.countsUp {a : AccountMap} {s : Int} {q : TransactionQueue}
    (h : LedgerRun signatureValid a s q)
    (hothers : ∀ tx ∈ q.filedTransactions s, tx.«from» ≠ tx.«to») (owner : String) :
    CountsUp (a.sequenceOf owner) (AccountMap.sequencesFrom owner (q.filedTransactions s))
      (q.accounts.sequenceOf owner) := by
  induction h with
  | done q =>
    rw [filedTransactions_slot]
    exact .nil _
  | file hlt hfiled hprocess _ ih =>
    rw [filedTransactions_eq_append hlt hfiled] at hothers ⊢
    rw [AccountMap.sequencesFrom_append]
    have hchunk := AccountMap.processChunk_countsUp signatureValid hprocess
      (fun tx htx => hothers tx (List.mem_append_left _ htx)) owner
    exact hchunk.append (ih fun tx htx => hothers tx (List.mem_append_right _ htx))

/-- The transactions filed on the way, as payments of the abstract ledger, are made one after
another on the first accounts' ledger, each valid where it is made, and lead to the last
accounts' ledger, when none pays its own sender or has a cost that wraps and the ledger starts
below 2^64: one `processChunk_refines` a filed chunk, joined by `payAll_append`, the money
staying below 2^64 by `processChunk_money`. -/
theorem LedgerRun.refines {a : AccountMap} {s : Int} {q : TransactionQueue}
    (h : LedgerRun signatureValid a s q)
    (hpay : ∀ tx ∈ q.filedTransactions s,
      tx.«from» ≠ tx.«to» ∧ tx.amount.toNat + tx.fee.toNat < 2 ^ 64)
    (htotal : a.totalBalance < 2 ^ 64) :
    a.view.payAll ((q.filedTransactions s).map Transaction.payment) = some q.accounts.view := by
  induction h with
  | done q =>
    rw [filedTransactions_slot]
    rfl
  | file hlt hfiled hprocess _ ih =>
    rw [filedTransactions_eq_append hlt hfiled] at hpay ⊢
    have hpay₁ := fun tx htx => hpay tx (List.mem_append_left _ htx)
    have hchunk := AccountMap.processChunk_refines signatureValid hprocess hpay₁ htotal
    have hmoney := AccountMap.processChunk_money signatureValid hprocess
      ((AccountMap.paysOthers_iff _).mpr hpay₁) htotal
    have ih' := ih (fun tx htx => hpay tx (List.mem_append_right _ htx)) (by omega)
    rw [List.map_append, Ledger.payAll_append, hchunk]
    exact ih'

end TransactionQueue

end Coinkit.Currency

namespace Coinkit.Network

open Coinkit.Consensus Coinkit.Currency TransactionQueue

namespace Node

variable (signatureValid : SignatureCheck) (sha3 : List UInt8 → List UInt8)

/-! ## A relation on queues through a processed message

A relation on queues that `Combine` and `SuggestValue` establish, as the consensus's frame, and
that `HandleTransactionMessage` and `Finalize` establish too, holds from the queue before to the
queue after every message a node processes. -/

section QueueRel

variable {R : TransactionQueue → TransactionQueue → Prop}
  (hF : (ops signatureValid sha3).Frame R)
  (htx : ∀ {q q' : TransactionQueue} {m : Option TransactionMessage} {updated : Bool},
    q.handleTransactionMessage signatureValid sha3 m = .ok (updated, q') → R q q')
  (hfin : ∀ {q q' : TransactionQueue} {v : SlotValue}, q.finalize signatureValid v = .ok q' → R q q')
include hF

include htx in
theorem handleTransaction_rel {n n' : Node} {m : Option TransactionMessage}
    (hn : n.handleTransaction signatureValid sha3 m = .ok n') : R n.queue n'.queue := by
  obtain ⟨updated, q₁, hq, rfl | ⟨b, q₂, hb, rfl⟩⟩ := handleTransaction_cases signatureValid sha3 hn
  · exact htx hq
  · exact hF.trans (htx hq) ((Block.valueStoreUpdated_frame hF n.chain.current q₁).of_ok hb).1

include hfin in
/-- The chain reaches the queue through the block's frame and, when its slot is decided, one
`Finalize` between the block and the next block's start. -/
theorem chainHandled_rel {fuel : Nat} {sender : String} {n n' : Node}
    (h : ChainHandled signatureValid sha3 fuel sender n n') : R n.queue n'.queue := by
  obtain ⟨message, answer, c, q, hc, rfl⟩ := h
  rcases Chain.handle_cases hc with ⟨-, rfl, -⟩ | ⟨-, b, q₁, hb, hadvance⟩
  · exact hF.refl _
  · have hq₁ := ((Block.handle_frame hF fuel n.chain.current sender message n.queue).of_ok hb).1
    rcases Chain.maybeAdvance_cases hadvance with ⟨-, rfl⟩ | ⟨e, q₂, b', -, -, hfin₂, hnew, -⟩
    · exact hq₁
    · exact hF.trans (hF.trans hq₁ (hfin hfin₂)) ((Block.new_frame hF sha3 _ _ _ q₂).of_ok hnew).1

include htx hfin in
theorem handle_rel {n n' : Node} {fuel : Nat} {sender : String} {message : Message}
    {answer : Option Message}
    (hn : n.handle signatureValid sha3 fuel sender message = .ok (answer, n')) :
    R n.queue n'.queue := by
  rcases handle_cases signatureValid sha3 fuel hn with rfl | ⟨m, hn₁⟩ | ⟨m, n₁, hn₁, hchain⟩ | hchain
  · exact hF.refl _
  · exact handleTransaction_rel signatureValid sha3 hF htx hn₁
  · exact hF.trans (handleTransaction_rel signatureValid sha3 hF htx hn₁)
      (chainHandled_rel signatureValid sha3 hF hfin hchain)
  · exact chainHandled_rel signatureValid sha3 hF hfin hchain

/-- `OutgoingMessages` reaches the queue through the current block's frame, and the previous
block's when it sends that block's externalize message again. -/
theorem outgoingMessages_rel {n n' : Node} {messages : List Message}
    (hn : n.outgoingMessages signatureValid sha3 = .ok (messages, n')) : R n.queue n'.queue := by
  obtain ⟨⟨chainMessages, c, q⟩, hc, hrest⟩ := Except.bind_eq_ok.mp hn
  cases hrest
  obtain ⟨answer, b, q₁, hb, hcases⟩ := Chain.outgoingMessages_cases hc
  have hq₁ := ((Block.outgoingMessages_frame hF n.chain.current n.queue).of_ok hb).1
  rcases hcases with ⟨-, rfl⟩ | ⟨prev, more, prev', -, hout, -⟩
  · exact hq₁
  · exact hF.trans hq₁ ((Block.outgoingMessages_frame hF prev q₁).of_ok hout).1

include htx hfin in
theorem processMessage_rel {n n' : Node} {fuel : Nat} {sender : String} {message : Message}
    {answer : Option Message}
    (hn : n.processMessage signatureValid sha3 fuel sender message = .ok (answer, n')) :
    R n.queue n'.queue := by
  obtain ⟨⟨answer₁, n₁⟩, h₁, hrest⟩ := Except.bind_eq_ok.mp hn
  obtain ⟨⟨messages, n₂⟩, h₂, hrest⟩ := Except.bind_eq_ok.mp hrest
  cases hrest
  exact hF.trans (handle_rel signatureValid sha3 hF htx hfin h₁)
    (outgoingMessages_rel signatureValid sha3 hF h₂)

end QueueRel

/-! ## The ledger through a processed message -/

/-- The chain on the node's queue: the block's work, and at most one finalization after it. -/
theorem chainHandled_ledgerMove {fuel : Nat} {sender : String} {n n' : Node}
    (h : ChainHandled signatureValid sha3 fuel sender n n') :
    LedgerMove signatureValid n.queue n'.queue := by
  have hF := sameLedger_frame signatureValid sha3
  obtain ⟨message, answer, c, q, hc, rfl⟩ := h
  rcases Chain.handle_cases hc with ⟨-, rfl, -⟩ | ⟨-, b, q₁, hb, hadvance⟩
  · exact .keep (sameLedger_refl _)
  · have hq₁ := ((Block.handle_frame hF fuel n.chain.current sender message n.queue).of_ok hb).1
    rcases Chain.maybeAdvance_cases hadvance with ⟨-, rfl⟩ | ⟨e, q₂, b', -, -, hfin, hnew, -⟩
    · exact .keep hq₁
    · -- the finalization, between the block's work and the next block's start
      obtain ⟨chunk, hold, hslot, hprocess⟩ := finalize_ledger signatureValid hfin
      have hq₃ := ((Block.new_frame hF sha3 _ _ _ q₂).of_ok hnew).1
      exact (LedgerMove.sameLedger_left hq₁ (.finalize chunk hold hslot hprocess)).sameLedger_right hq₃

/-- The transaction case of `Handle` keeps the ledger: it only queues and caches. -/
theorem handleTransaction_sameLedger {n n' : Node} {m : Option TransactionMessage}
    (hn : n.handleTransaction signatureValid sha3 m = .ok n') : SameLedger n.queue n'.queue :=
  handleTransaction_rel signatureValid sha3 (sameLedger_frame signatureValid sha3)
    (handleTransactionMessage_sameLedger signatureValid sha3) hn

/-- `Handle` moves the ledger at most once, whatever the sender and the message. -/
theorem handle_ledgerMove {n n' : Node} {fuel : Nat} {sender : String} {message : Message}
    {answer : Option Message}
    (hn : n.handle signatureValid sha3 fuel sender message = .ok (answer, n')) :
    LedgerMove signatureValid n.queue n'.queue := by
  rcases handle_cases signatureValid sha3 fuel hn with rfl | ⟨m, hn₁⟩ | ⟨m, n₁, hn₁, hchain⟩ | hchain
  · exact .keep (sameLedger_refl _)
  · exact .keep (handleTransaction_sameLedger signatureValid sha3 hn₁)
  · exact LedgerMove.sameLedger_left (handleTransaction_sameLedger signatureValid sha3 hn₁)
      (chainHandled_ledgerMove signatureValid sha3 hchain)
  · exact chainHandled_ledgerMove signatureValid sha3 hchain

/-- A processed message moves the ledger at most once: `Handle` may finalize, and
`OutgoingMessages` keeps the ledger. -/
theorem processMessage_ledgerMove {n n' : Node} {fuel : Nat} {sender : String}
    {message : Message} {answer : Option Message}
    (hn : n.processMessage signatureValid sha3 fuel sender message = .ok (answer, n')) :
    LedgerMove signatureValid n.queue n'.queue := by
  obtain ⟨⟨answer₁, n₁⟩, h₁, hrest⟩ := Except.bind_eq_ok.mp hn
  obtain ⟨⟨messages, n₂⟩, h₂, hrest⟩ := Except.bind_eq_ok.mp hrest
  cases hrest
  exact (handle_ledgerMove signatureValid sha3 h₁).sameLedger_right
    (outgoingMessages_rel signatureValid sha3 (sameLedger_frame signatureValid sha3) h₂)

/-- Every call of the server settles the queue's past; `SetBalance` writes accounts only. -/
theorem serverStep_settles {n n' : Node} {call : ServerCall}
    (hstep : serverStep signatureValid sha3 n call = .ok n') : Settles n.queue n'.queue := by
  cases call with
  | setBalance user amount =>
    cases hstep
    exact ⟨le_refl _, fun _ _ => rfl⟩
  | processMessage fuel sender message =>
    obtain ⟨⟨answer, n₂⟩, hcall, rfl⟩ := Except.exists_of_map_eq_ok hstep
    exact (processMessage_ledgerMove signatureValid sha3 hcall).settles

theorem settles_of_run (calls : List ServerCall) {n n' : Node}
    (hrun : calls.foldlM (serverStep signatureValid sha3) n = .ok n') : Settles n.queue n'.queue :=
  StepRun.foldlM_rel (fun _ => True) (fun a b => Settles a.queue b.queue)
    (fun a => Settles.refl a.queue) (fun _ _ _ => Settles.trans)
    (fun _ _ _ _ hstep => ⟨trivial, serverStep_settles signatureValid sha3 hstep⟩) calls trivial hrun

/-- A processed message at the head of a run: the ledger stays with the slot, or the message
finalizes a chunk, which the run's last node keeps at the slot it leaves. -/
theorem run_cons_ledger {call : ServerCall} {calls : List ServerCall} {n₁ n₂ : Node}
    (hcall : ∃ fuel sender message, call = .processMessage fuel sender message)
    (hrun : (call :: calls).foldlM (serverStep signatureValid sha3) n₁ = .ok n₂) :
    ∃ n', calls.foldlM (serverStep signatureValid sha3) n' = .ok n₂ ∧
      ((n'.queue.accounts = n₁.queue.accounts ∧ n'.queue.slot = n₁.queue.slot) ∨
        ∃ chunk, n₂.queue.oldChunks.lookup n₁.queue.slot = some chunk ∧
          n'.queue.slot = n₁.queue.slot + 1 ∧ n₁.queue.slot < n₂.queue.slot ∧
          n₁.queue.accounts.processChunk signatureValid (some chunk) = (true, n'.queue.accounts)) := by
  obtain ⟨n', hstep, hrest⟩ := StepRun.foldlM_cons_ok.mp hrun
  obtain ⟨fuel, sender, message, rfl⟩ := hcall
  obtain ⟨⟨answer, n''⟩, hprocess, hn'⟩ := Except.exists_of_map_eq_ok hstep
  dsimp only at hn'
  subst hn'
  refine ⟨n'', hrest, ?_⟩
  have hsettled := settles_of_run signatureValid sha3 calls hrest
  cases processMessage_ledgerMove signatureValid sha3 hprocess with
  | keep h => exact .inl ⟨h.1, h.2.1⟩
  | finalize chunk hold hslot hchunk =>
    -- the chunk filed now stays in every later node of the run
    refine .inr ⟨chunk, ?_, hslot, ?_, hchunk⟩
    · rw [hsettled.oldChunks _ (by omega), hold, AList.lookup_insert]
    · have := hsettled.slot_le
      omega

/-- Every run of processed messages is a way of the ledger: the chunks it files, slot by slot, are
each accepted by `ProcessChunk`, and lead from the first accounts to the last. Induction on the
run, each time from the next node on to the same last one. -/
theorem ledgerRun_of_run (calls : List ServerCall) {n₁ n₂ : Node}
    (hcalls : ∀ call ∈ calls, ∃ fuel sender message, call = .processMessage fuel sender message)
    (hrun : calls.foldlM (serverStep signatureValid sha3) n₁ = .ok n₂) :
    LedgerRun signatureValid n₁.queue.accounts n₁.queue.slot n₂.queue := by
  induction calls generalizing n₁ with
  | nil =>
    cases hrun
    exact .done _
  | cons call calls ih =>
    have hcalls' := fun c hc => hcalls c (List.mem_cons_of_mem _ hc)
    obtain ⟨n', hrest, ⟨haccounts, hslot⟩ | ⟨chunk, hfiled, hslot, hlt, hprocess⟩⟩ :=
      run_cons_ledger signatureValid sha3 (hcalls call List.mem_cons_self) hrun
    · have ih' := ih hcalls' hrest
      rwa [haccounts, hslot] at ih'
    · have ih' := ih hcalls' hrest
      rw [hslot] at ih'
      exact .file hlt hfiled hprocess ih'

/-- The run of `payment_history_run`, read as the ledger reads it: the two history messages file
alice's payment to bob. -/
theorem history_run_files_payment :
    ∃ n₀ : Node, Node.new (fun _ _ => true) (fun _ => [1]) "A" ⟨["A", "B", "C", "D"], 3⟩ = .ok n₀ ∧
      ∃ (m : Message) (n₂ : Node),
        m = .history 1
          (some ⟨[], AList.singleton "AQ" (some ⟨[some ⟨some ⟨"alice", 1, "bob", 3, 1⟩, "s"⟩],
            (AList.singleton "alice" (some ⟨1, 6⟩)).insert "bob" (some ⟨0, 3⟩)⟩)⟩)
          (some ⟨1, "AQ", 1, 1, ⟨["A", "B", "C", "D"], 3⟩⟩) ∧
        (∀ call ∈ [ServerCall.processMessage 10 "B" m, .processMessage 10 "C" m],
          ∃ fuel sender message, call = .processMessage fuel sender message) ∧
        [ServerCall.processMessage 10 "B" m, .processMessage 10 "C" m].foldlM
          (serverStep (fun _ _ => true) (fun _ => [1])) (n₀.setBalance "alice" 10) = .ok n₂ ∧
        n₂.queue.filedTransactions (n₀.setBalance "alice" 10).queue.slot =
          [⟨"alice", 1, "bob", 3, 1⟩] ∧
        (n₀.setBalance "alice" 10).queue.accounts.totalBalance < 2 ^ 64 := by
  obtain ⟨n₀, h₀, m, n₂, hm, hrun, hslot, htotal, -, hqslot, -, hchunk⟩ := payment_history_run
  have hcalls : ∀ call ∈ [ServerCall.processMessage 10 "B" m, .processMessage 10 "C" m],
      ∃ fuel sender message, call = .processMessage fuel sender message := by
    intro call hcall
    rcases List.mem_pair.mp hcall with rfl | rfl
    · exact ⟨_, _, _, rfl⟩
    · exact ⟨_, _, _, rfl⟩
  -- slot 1 is the one slot filed, with the payment's chunk
  obtain ⟨c, hc, htxs⟩ := Option.map_eq_some_iff.mp hchunk
  have hnext : n₂.queue.filedChunks (1 + 1) = [] := by
    rw [show (1 : Int) + 1 = n₂.queue.slot by rw [hqslot]; decide]
    exact filedChunks_slot _
  have hfiled : n₂.queue.filedTransactions 1 = [⟨"alice", 1, "bob", 3, 1⟩] := by
    rw [filedTransactions, filedChunks_eq_cons (by rw [hqslot]; decide) hc, hnext,
      List.flatMap_cons, List.flatMap_nil, List.append_nil, htxs]
    rfl
  refine ⟨n₀, h₀, m, n₂, hm, hcalls, hrun, ?_, htotal⟩
  rw [hslot]
  exact hfiled

variable {signatureValid sha3} in
/-- A node's ledger is the replay of the chunks its run finalizes: along any run of processed
messages, from any node, the last accounts are the first ones with every chunk filed on the way
processed in slot order. So two nodes that start from the same accounts at the same slot and
file the same chunks end with the same accounts. -/
theorem ledger_replays_filed_chunks (calls : List ServerCall) {n₁ n₂ : Node}
    (hcalls : ∀ call ∈ calls, ∃ fuel sender message, call = .processMessage fuel sender message)
    (hrun : calls.foldlM (serverStep signatureValid sha3) n₁ = .ok n₂) :
    n₂.queue.accounts = AccountMap.replayChunks signatureValid n₁.queue.accounts
      (n₂.queue.filedChunks n₁.queue.slot) :=
  (ledgerRun_of_run signatureValid sha3 calls hcalls hrun).accounts_eq_replayChunks

/-- The same run: node `A`'s accounts after it are alice's payment to bob replayed on the
accounts before it. -/
theorem ledger_replays_filed_chunks_payment :
    ∃ n₀ : Node, Node.new (fun _ _ => true) (fun _ => [1]) "A" ⟨["A", "B", "C", "D"], 3⟩ = .ok n₀ ∧
      ∃ (m : Message) (n₂ : Node),
        m = .history 1
          (some ⟨[], AList.singleton "AQ" (some ⟨[some ⟨some ⟨"alice", 1, "bob", 3, 1⟩, "s"⟩],
            (AList.singleton "alice" (some ⟨1, 6⟩)).insert "bob" (some ⟨0, 3⟩)⟩)⟩)
          (some ⟨1, "AQ", 1, 1, ⟨["A", "B", "C", "D"], 3⟩⟩) ∧
        (∀ call ∈ [ServerCall.processMessage 10 "B" m, .processMessage 10 "C" m],
          ∃ fuel sender message, call = .processMessage fuel sender message) ∧
        [ServerCall.processMessage 10 "B" m, .processMessage 10 "C" m].foldlM
          (serverStep (fun _ _ => true) (fun _ => [1])) (n₀.setBalance "alice" 10) = .ok n₂ ∧
        n₂.queue.filedTransactions (n₀.setBalance "alice" 10).queue.slot ≠ [] ∧
        n₂.queue.accounts = AccountMap.replayChunks (fun _ _ => true)
          (n₀.setBalance "alice" 10).queue.accounts
          (n₂.queue.filedChunks (n₀.setBalance "alice" 10).queue.slot) := by
  obtain ⟨n₀, h₀, m, n₂, hm, hcalls, hrun, hfiled, -⟩ := history_run_files_payment
  have hsome : n₂.queue.filedTransactions (n₀.setBalance "alice" 10).queue.slot ≠ [] := by
    rw [hfiled]
    exact List.cons_ne_nil _ _
  exact ⟨n₀, h₀, m, n₂, hm, hcalls, hrun, hsome, ledger_replays_filed_chunks _ hcalls hrun⟩

variable {signatureValid sha3} in
/-- Along any run of processed messages, from any node, the chunks the run finalizes spend every
owner's sequence numbers one by one from the owner's own, and leave the owner at the last, when
none of their transactions pays its own sender. So up to 2^32 of them from one owner carry
pairwise distinct sequence numbers: no transaction is filed twice. -/
theorem ledger_spends_sequences_once (calls : List ServerCall) {n₁ n₂ : Node}
    (hcalls : ∀ call ∈ calls, ∃ fuel sender message, call = .processMessage fuel sender message)
    (hrun : calls.foldlM (serverStep signatureValid sha3) n₁ = .ok n₂)
    (hothers : ∀ tx ∈ n₂.queue.filedTransactions n₁.queue.slot, tx.«from» ≠ tx.«to»)
    (owner : String) :
    CountsUp (n₁.queue.accounts.sequenceOf owner)
        (AccountMap.sequencesFrom owner (n₂.queue.filedTransactions n₁.queue.slot))
        (n₂.queue.accounts.sequenceOf owner) ∧
      ((AccountMap.sequencesFrom owner (n₂.queue.filedTransactions n₁.queue.slot)).length ≤ 2 ^ 32 →
        (AccountMap.sequencesFrom owner (n₂.queue.filedTransactions n₁.queue.slot)).Nodup) := by
  have hcount := (ledgerRun_of_run signatureValid sha3 calls hcalls hrun).countsUp hothers owner
  exact ⟨hcount, hcount.nodup⟩

/-- Peers B and C each send a new node A the history of slot 1, a chunk in which
alice pays bob 3 with a fee of 1 under its hash, and the externalize message for it. The second
message finalizes the slot, and alice spends sequence number 1. -/
theorem ledger_spends_sequences_once_payment :
    ∃ n₀ : Node, Node.new (fun _ _ => true) (fun _ => [1]) "A" ⟨["A", "B", "C", "D"], 3⟩ = .ok n₀ ∧
      ∃ (m : Message) (n₂ : Node),
        m = .history 1
          (some ⟨[], AList.singleton "AQ" (some ⟨[some ⟨some ⟨"alice", 1, "bob", 3, 1⟩, "s"⟩],
            (AList.singleton "alice" (some ⟨1, 6⟩)).insert "bob" (some ⟨0, 3⟩)⟩)⟩)
          (some ⟨1, "AQ", 1, 1, ⟨["A", "B", "C", "D"], 3⟩⟩) ∧
        (∀ call ∈ [ServerCall.processMessage 10 "B" m, .processMessage 10 "C" m],
          ∃ fuel sender message, call = .processMessage fuel sender message) ∧
        [ServerCall.processMessage 10 "B" m, .processMessage 10 "C" m].foldlM
          (serverStep (fun _ _ => true) (fun _ => [1])) (n₀.setBalance "alice" 10) = .ok n₂ ∧
        n₂.queue.filedTransactions (n₀.setBalance "alice" 10).queue.slot ≠ [] ∧
        (∀ tx ∈ n₂.queue.filedTransactions (n₀.setBalance "alice" 10).queue.slot,
          tx.«from» ≠ tx.«to») ∧
        CountsUp ((n₀.setBalance "alice" 10).queue.accounts.sequenceOf "alice")
            (AccountMap.sequencesFrom "alice"
              (n₂.queue.filedTransactions (n₀.setBalance "alice" 10).queue.slot))
            (n₂.queue.accounts.sequenceOf "alice") ∧
          ((AccountMap.sequencesFrom "alice"
              (n₂.queue.filedTransactions (n₀.setBalance "alice" 10).queue.slot)).length ≤ 2 ^ 32 →
            (AccountMap.sequencesFrom "alice"
              (n₂.queue.filedTransactions (n₀.setBalance "alice" 10).queue.slot)).Nodup) := by
  obtain ⟨n₀, h₀, m, n₂, hm, hcalls, hrun, hfiled, -⟩ := history_run_files_payment
  have hothers : ∀ tx ∈ n₂.queue.filedTransactions (n₀.setBalance "alice" 10).queue.slot,
      tx.«from» ≠ tx.«to» := by
    rw [hfiled]
    decide
  have hsome : n₂.queue.filedTransactions (n₀.setBalance "alice" 10).queue.slot ≠ [] := by
    rw [hfiled]
    exact List.cons_ne_nil _ _
  exact ⟨n₀, h₀, m, n₂, hm, hcalls, hrun, hsome, hothers,
    ledger_spends_sequences_once _ hcalls hrun hothers "alice"⟩

variable {signatureValid sha3} in
/-- Along any run of processed messages, from any node, every account's balance moves by exactly
what the filed transactions move for it: it gains what they pay it and loses what its own cost,
amounts and fees, when none of them pays its own sender or has a cost that wraps and the ledger
starts below 2^64. An account that sent none of them loses nothing. -/
theorem ledger_balances_follow_transactions (calls : List ServerCall) {n₁ n₂ : Node}
    (hcalls : ∀ call ∈ calls, ∃ fuel sender message, call = .processMessage fuel sender message)
    (hrun : calls.foldlM (serverStep signatureValid sha3) n₁ = .ok n₂)
    (hpay : ∀ tx ∈ n₂.queue.filedTransactions n₁.queue.slot,
      tx.«from» ≠ tx.«to» ∧ tx.amount.toNat + tx.fee.toNat < 2 ^ 64)
    (htotal : n₁.queue.accounts.totalBalance < 2 ^ 64) (owner : String) :
    n₂.queue.accounts.balance owner +
        AccountMap.spentBy owner (n₂.queue.filedTransactions n₁.queue.slot) =
      n₁.queue.accounts.balance owner +
        AccountMap.receivedBy owner (n₂.queue.filedTransactions n₁.queue.slot) := by
  have hrefines := (ledgerRun_of_run signatureValid sha3 calls hcalls hrun).refines hpay htotal
  have hbalance := Ledger.payAll_balance owner _ hrefines
  rwa [AccountMap.spent_map_payment, AccountMap.received_map_payment] at hbalance

/-- The two history messages file alice's payment of 3 to bob with a fee of 1; alice
ends with 6 and bob with 3. -/
theorem ledger_balances_follow_transactions_payment :
    ∃ n₀ : Node, Node.new (fun _ _ => true) (fun _ => [1]) "A" ⟨["A", "B", "C", "D"], 3⟩ = .ok n₀ ∧
      ∃ (m : Message) (n₂ : Node),
        m = .history 1
          (some ⟨[], AList.singleton "AQ" (some ⟨[some ⟨some ⟨"alice", 1, "bob", 3, 1⟩, "s"⟩],
            (AList.singleton "alice" (some ⟨1, 6⟩)).insert "bob" (some ⟨0, 3⟩)⟩)⟩)
          (some ⟨1, "AQ", 1, 1, ⟨["A", "B", "C", "D"], 3⟩⟩) ∧
        (∀ call ∈ [ServerCall.processMessage 10 "B" m, .processMessage 10 "C" m],
          ∃ fuel sender message, call = .processMessage fuel sender message) ∧
        [ServerCall.processMessage 10 "B" m, .processMessage 10 "C" m].foldlM
          (serverStep (fun _ _ => true) (fun _ => [1])) (n₀.setBalance "alice" 10) = .ok n₂ ∧
        (∀ tx ∈ n₂.queue.filedTransactions (n₀.setBalance "alice" 10).queue.slot,
          tx.«from» ≠ tx.«to» ∧ tx.amount.toNat + tx.fee.toNat < 2 ^ 64) ∧
        (n₀.setBalance "alice" 10).queue.accounts.totalBalance < 2 ^ 64 ∧
        n₂.queue.accounts.balance "alice" +
            AccountMap.spentBy "alice"
              (n₂.queue.filedTransactions (n₀.setBalance "alice" 10).queue.slot) =
          (n₀.setBalance "alice" 10).queue.accounts.balance "alice" +
            AccountMap.receivedBy "alice"
              (n₂.queue.filedTransactions (n₀.setBalance "alice" 10).queue.slot) := by
  obtain ⟨n₀, h₀, m, n₂, hm, hcalls, hrun, hfiled, htotal⟩ := history_run_files_payment
  have hpay : ∀ tx ∈ n₂.queue.filedTransactions (n₀.setBalance "alice" 10).queue.slot,
      tx.«from» ≠ tx.«to» ∧ tx.amount.toNat + tx.fee.toNat < 2 ^ 64 := by
    rw [hfiled]
    decide
  exact ⟨n₀, h₀, m, n₂, hm, hcalls, hrun, hpay, htotal,
    ledger_balances_follow_transactions _ hcalls hrun hpay htotal "alice"⟩

variable {signatureValid sha3} in
/-- Along any run of processed messages, from any node, the ledger is a ledger of payments
(`Coinkit.Lib.Ledger`): the transactions the run files, made one after another as payments on
the first accounts, are each valid where they are made, spending their sender's next sequence
number with a cost their sender can afford, so that no account is ever overdrawn, and they lead
to the last accounts, balances and sequence numbers; when none of them pays its own sender or
has a cost that wraps and the ledger starts below 2^64. -/
theorem ledger_refines_payments (calls : List ServerCall) {n₁ n₂ : Node}
    (hcalls : ∀ call ∈ calls, ∃ fuel sender message, call = .processMessage fuel sender message)
    (hrun : calls.foldlM (serverStep signatureValid sha3) n₁ = .ok n₂)
    (hpay : ∀ tx ∈ n₂.queue.filedTransactions n₁.queue.slot,
      tx.«from» ≠ tx.«to» ∧ tx.amount.toNat + tx.fee.toNat < 2 ^ 64)
    (htotal : n₁.queue.accounts.totalBalance < 2 ^ 64) :
    n₁.queue.accounts.view.payAll
        ((n₂.queue.filedTransactions n₁.queue.slot).map Transaction.payment) =
      some n₂.queue.accounts.view :=
  (ledgerRun_of_run signatureValid sha3 calls hcalls hrun).refines hpay htotal

/-- The two history messages file alice's payment of 3 to bob with a fee of 1, a
valid payment on a ledger where alice holds 10. -/
theorem ledger_refines_payments_payment :
    ∃ n₀ : Node, Node.new (fun _ _ => true) (fun _ => [1]) "A" ⟨["A", "B", "C", "D"], 3⟩ = .ok n₀ ∧
      ∃ (m : Message) (n₂ : Node),
        m = .history 1
          (some ⟨[], AList.singleton "AQ" (some ⟨[some ⟨some ⟨"alice", 1, "bob", 3, 1⟩, "s"⟩],
            (AList.singleton "alice" (some ⟨1, 6⟩)).insert "bob" (some ⟨0, 3⟩)⟩)⟩)
          (some ⟨1, "AQ", 1, 1, ⟨["A", "B", "C", "D"], 3⟩⟩) ∧
        (∀ call ∈ [ServerCall.processMessage 10 "B" m, .processMessage 10 "C" m],
          ∃ fuel sender message, call = .processMessage fuel sender message) ∧
        [ServerCall.processMessage 10 "B" m, .processMessage 10 "C" m].foldlM
          (serverStep (fun _ _ => true) (fun _ => [1])) (n₀.setBalance "alice" 10) = .ok n₂ ∧
        n₂.queue.filedTransactions (n₀.setBalance "alice" 10).queue.slot ≠ [] ∧
        (∀ tx ∈ n₂.queue.filedTransactions (n₀.setBalance "alice" 10).queue.slot,
          tx.«from» ≠ tx.«to» ∧ tx.amount.toNat + tx.fee.toNat < 2 ^ 64) ∧
        (n₀.setBalance "alice" 10).queue.accounts.totalBalance < 2 ^ 64 ∧
        (n₀.setBalance "alice" 10).queue.accounts.view.payAll
            ((n₂.queue.filedTransactions (n₀.setBalance "alice" 10).queue.slot).map
              Transaction.payment) =
          some n₂.queue.accounts.view := by
  obtain ⟨n₀, h₀, m, n₂, hm, hcalls, hrun, hfiled, htotal⟩ := history_run_files_payment
  have hsome : n₂.queue.filedTransactions (n₀.setBalance "alice" 10).queue.slot ≠ [] := by
    rw [hfiled]
    exact List.cons_ne_nil _ _
  have hpay : ∀ tx ∈ n₂.queue.filedTransactions (n₀.setBalance "alice" 10).queue.slot,
      tx.«from» ≠ tx.«to» ∧ tx.amount.toNat + tx.fee.toNat < 2 ^ 64 := by
    rw [hfiled]
    decide
  exact ⟨n₀, h₀, m, n₂, hm, hcalls, hrun, hsome, hpay, htotal,
    ledger_refines_payments _ hcalls hrun hpay htotal⟩

end Node

end Coinkit.Network

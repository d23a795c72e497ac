import Coinkit.Currency.Money
import Coinkit.Lib.Counter

/-!
# Sequence numbers

`currency/account_map.go`. An account holds the sequence number of
the last transaction it authorized. `Validate` accepts a transaction only when it carries the
next one, and `Process` stores it on the sender, so a signed transaction cannot be processed
twice: its sequence number is spent the first time. `ProcessChunk` runs the transactions of a
chunk one after another through `Process`.

Two things in the code bound this. The receiver is written after the sender, with the account
it had before the sender was written, so a payment to oneself puts the old sequence number back
and the same transaction validates again (`process_self_payment_replays`); the results here are
for payments to other accounts. And the sequence number is a `uint32`, so after `2 ^ 32`
transactions from one account the numbers come round again.

## What is proved

- `sequenceOf_process`: a payment to another account moves the sender's sequence number on by
  one and leaves every other owner's;
- `processChunk_countsUp`: an accepted chunk of payments to other accounts spends, for every
  owner, the sequence numbers after its own one by one, in the chunk's order, and leaves the
  owner at the last (`CountsUp` of `Coinkit.Lib.Counter`).
-/

set_option autoImplicit false

namespace Coinkit.Currency

namespace AccountMap

/-- The sequence number of an owner's last authorized transaction. An owner without an account
has authorized none, and `Process` opens a receiver's account at sequence number 0. -/
def sequenceOf (m : AccountMap) (owner : String) : UInt32 :=
  ((m.get owner).map Account.sequence).getD 0

/-- The sequence numbers of an owner's transactions among them, in order. -/
def sequencesFrom (owner : String) (txs : List Transaction) : List UInt32 :=
  (txs.filter fun tx => tx.«from» = owner).map Transaction.sequence

theorem sequencesFrom_cons_of_eq {owner : String} {tx : Transaction} (h : tx.«from» = owner)
    (txs : List Transaction) :
    sequencesFrom owner (tx :: txs) = tx.sequence :: sequencesFrom owner txs := by
  simp [sequencesFrom, h]

theorem sequencesFrom_cons_of_ne {owner : String} {tx : Transaction} (h : tx.«from» ≠ owner)
    (txs : List Transaction) : sequencesFrom owner (tx :: txs) = sequencesFrom owner txs := by
  simp [sequencesFrom, h]

theorem sequencesFrom_append (owner : String) (txs₁ txs₂ : List Transaction) :
    sequencesFrom owner (txs₁ ++ txs₂) = sequencesFrom owner txs₁ ++ sequencesFrom owner txs₂ := by
  simp [sequencesFrom]

/-- A transaction that validates carries its sender's next sequence number. -/
theorem sequence_of_validate {m : AccountMap} {t : Transaction} (h : m.validate t = true) :
    t.sequence = m.sequenceOf t.«from» + 1 := by
  obtain ⟨source, hsource, hseq, -⟩ := (validate_iff m t).mp h
  rw [sequenceOf, hsource, Option.map_some, Option.getD_some, hseq]

/-- A payment to another account moves the sender's sequence number on by one, and leaves every
other owner's as it was: the receiver's account keeps its sequence number, or opens at 0. -/
theorem sequenceOf_process {m : AccountMap} {t : Transaction} (h : m.validate t = true)
    (hne : t.«from» ≠ t.«to») (owner : String) :
    (m.process t).2.sequenceOf owner =
      if owner = t.«from» then m.sequenceOf owner + 1 else m.sequenceOf owner := by
  obtain ⟨source, -, -, hget⟩ := get_process h
  by_cases hfrom : owner = t.«from»
  · subst hfrom
    rw [if_pos rfl, ← sequence_of_validate h, sequenceOf, hget, if_neg hne, if_pos rfl]
    rfl
  · rw [if_neg hfrom, sequenceOf, hget]
    by_cases hto : owner = t.«to»
    · subst hto
      rw [if_pos rfl, sequenceOf]
      cases m.get t.«to» <;> rfl
    · rw [if_neg hto, if_neg hfrom, sequenceOf]

variable (signatureValid : SignatureCheck)

/-- The transaction loop of `ProcessChunk`, when it accepts payments to other accounts, spends
each owner's sequence numbers one by one: by induction on the entries, an entry from the owner
is the next value of its counter, and any other entry leaves the counter alone. -/
theorem processTransactions_countsUp (owner : String) :
    ∀ (ts : List (Option SignedTransaction)) {m w : AccountMap},
      m.processTransactions signatureValid ts = (true, w) →
      (∀ tx ∈ chunkTransactions ts, tx.«from» ≠ tx.«to») →
      CountsUp (m.sequenceOf owner) (sequencesFrom owner (chunkTransactions ts)) (w.sequenceOf owner)
  | [], m, w, h, _ => by
    cases h
    exact .nil _
  | t :: ts, m, w, h, hothers => by
    obtain ⟨s, tx, rfl, htx, -, hvalid, hrest⟩ := processTransactions_cons_true signatureValid h
    rw [chunkTransactions_cons htx] at hothers ⊢
    have hne := hothers tx List.mem_cons_self
    have ih := processTransactions_countsUp owner ts hrest
      (fun tx' htx' => hothers tx' (List.mem_cons_of_mem _ htx'))
    rw [sequenceOf_process hvalid hne] at ih
    by_cases hfrom : tx.«from» = owner
    · rw [if_pos hfrom.symm] at ih
      have hseq : tx.sequence = m.sequenceOf owner + 1 := hfrom ▸ sequence_of_validate hvalid
      rw [sequencesFrom_cons_of_eq hfrom, hseq]
      exact .cons ih
    · rw [if_neg (Ne.symm hfrom)] at ih
      rwa [sequencesFrom_cons_of_ne hfrom]

/-- An accepted `ProcessChunk` of payments to other accounts spends each owner's sequence
numbers one by one, in the chunk's order. -/
theorem processChunk_countsUp {m w : AccountMap} {c : LedgerChunk}
    (h : m.processChunk signatureValid (some c) = (true, w))
    (hothers : ∀ tx ∈ chunkTransactions c.transactions, tx.«from» ≠ tx.«to») (owner : String) :
    CountsUp (m.sequenceOf owner) (sequencesFrom owner (chunkTransactions c.transactions))
      (w.sequenceOf owner) :=
  processTransactions_countsUp signatureValid owner c.transactions
    (processTransactions_of_processChunk signatureValid h) hothers

end AccountMap

end Coinkit.Currency

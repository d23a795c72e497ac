import Coinkit.Currency.Sequence
import Coinkit.Lib.Ledger

/-!
# The account map as a ledger of payments

`currency/account_map.go`. Seen through its balances, as numbers, and its sequence numbers, an
`AccountMap` is a ledger of `Coinkit.Lib.Ledger` (`AccountMap.view`), and a `Transaction` is a
payment there (`Transaction.payment`). `Process` makes that payment: it validates exactly when the
payment is valid on the view, and the view afterwards is the payment made
(`view_process`). So the transaction loop of `ProcessChunk`, when it accepts, makes the chunk's
payments one after another, each valid where it is made (`processTransactions_refines`): every
sender could afford what it paid, in exact arithmetic, and spent its next sequence number.

The refinement needs what `process_money` needs: the payment goes to another account, its cost
`Amount + Fee` does not wrap past 2^64, and the ledger holds less than 2^64, so that the
receiver's `uint64` credit cannot wrap. Without them `Process` is not a payment of the abstract
ledger: a self-payment mints its amount, and a wrapped cost validates a payment its sender
cannot afford.
-/

set_option autoImplicit false

namespace Coinkit.Currency

/-- A transaction as a payment of the abstract ledger, with its `uint64` amount and fee as
numbers. -/
def Transaction.payment (t : Transaction) : Payment String UInt32 :=
  ⟨t.«from», t.sequence, t.«to», t.amount.toNat, t.fee.toNat⟩

namespace AccountMap

/-- The ledger a map shows: each owner's visible balance as a number, and its sequence number. -/
def view (m : AccountMap) : Ledger String UInt32 := ⟨m.balance, m.sequenceOf⟩

theorem spent_map_payment (owner : String) (txs : List Transaction) :
    Ledger.spent owner (txs.map Transaction.payment) = spentBy owner txs := by
  simp [Ledger.spent, spentBy, List.filter_map, Function.comp_def, Transaction.payment]
  rfl

theorem received_map_payment (owner : String) (txs : List Transaction) :
    Ledger.received owner (txs.map Transaction.payment) = receivedBy owner txs := by
  simp [Ledger.received, receivedBy, List.filter_map, Function.comp_def, Transaction.payment]
  rfl

/-- A transaction to another account that validates, with a cost that does not wrap, is a valid
payment on the map's ledger. -/
theorem view_valid {m : AccountMap} {t : Transaction} (hvalid : m.validate t = true)
    (hne : t.«from» ≠ t.«to») (hcost : t.amount.toNat + t.fee.toNat < 2 ^ 64) :
    m.view.Valid t.payment :=
  ⟨sequence_of_validate hvalid, hne, cost_le_balance_of_validate hvalid hcost⟩

/-- `Process` of such a transaction, on a map holding less than 2^64, makes the payment on the
map's ledger: the balances by `process_balances`, owner by owner, and the sequence numbers by
`sequenceOf_process`. -/
theorem view_process {m : AccountMap} {t : Transaction} (hvalid : m.validate t = true)
    (hne : t.«from» ≠ t.«to») (hcost : t.amount.toNat + t.fee.toNat < 2 ^ 64)
    (htotal : m.totalBalance < 2 ^ 64) : (m.process t).2.view = m.view.pay t.payment := by
  have hafford := cost_le_balance_of_validate hvalid hcost
  -- the receiver's credit fits: the amount comes out of the sender's balance
  have hboth := m.balance_add_balance_le hne
  obtain ⟨hfrom, hto⟩ := process_balances hvalid hne hcost (by omega)
  simp only [view, Ledger.pay, Ledger.mk.injEq]
  constructor
  · funext owner
    by_cases hf : owner = t.«from»
    · subst hf
      simp only [Transaction.payment, if_true]
      omega
    · by_cases ht : owner = t.«to»
      · subst ht
        simp only [Transaction.payment, hf, if_false, if_true, hto]
      · simp only [Transaction.payment, hf, ht, if_false, balance, get_process_of_ne m t hf ht]
  · funext owner
    rw [sequenceOf_process hvalid hne]
    by_cases hf : owner = t.«from»
    · subst hf
      simp only [Transaction.payment, if_true, sequence_of_validate hvalid]
    · simp only [Transaction.payment, hf, if_false]

variable (signatureValid : SignatureCheck)

/-- The transaction loop of `ProcessChunk`, when it accepts payments to other accounts whose costs
do not wrap, on a map holding less than 2^64, makes the chunk's payments on the map's ledger one
after another, each valid where it is made. Induction on the list, one `view_process` a
transaction, the money staying below 2^64 by `process_money`. -/
theorem processTransactions_refines :
    ∀ (ts : List (Option SignedTransaction)) {m w : AccountMap},
      m.processTransactions signatureValid ts = (true, w) →
      (∀ tx ∈ chunkTransactions ts, tx.«from» ≠ tx.«to» ∧ tx.amount.toNat + tx.fee.toNat < 2 ^ 64) →
      m.totalBalance < 2 ^ 64 →
      m.view.payAll ((chunkTransactions ts).map Transaction.payment) = some w.view
  | [], m, w, h, _, _ => by
    cases h
    rfl
  | t :: ts, m, w, h, hpay, htotal => by
    obtain ⟨s, tx, rfl, htx, -, hvalid, hrest⟩ := processTransactions_cons_true signatureValid h
    rw [chunkTransactions_cons htx] at hpay ⊢
    obtain ⟨hne, hcost⟩ := hpay tx List.mem_cons_self
    have hmoney := process_money hvalid hne hcost htotal
    have ih := processTransactions_refines ts hrest
      (fun tx' htx' => hpay tx' (List.mem_cons_of_mem _ htx')) (by omega)
    rw [List.map_cons, Ledger.payAll_cons, if_pos (view_valid hvalid hne hcost),
      ← view_process hvalid hne hcost htotal]
    exact ih

/-- An accepted `ProcessChunk` of payments to other accounts whose costs do not wrap, on a map
holding less than 2^64, makes the chunk's payments on the map's ledger, each valid where it is
made. -/
theorem processChunk_refines {m w : AccountMap} {c : LedgerChunk}
    (h : m.processChunk signatureValid (some c) = (true, w))
    (hpay : ∀ tx ∈ chunkTransactions c.transactions,
      tx.«from» ≠ tx.«to» ∧ tx.amount.toNat + tx.fee.toNat < 2 ^ 64)
    (htotal : m.totalBalance < 2 ^ 64) :
    m.view.payAll ((chunkTransactions c.transactions).map Transaction.payment) = some w.view :=
  processTransactions_refines signatureValid c.transactions
    (processTransactions_of_processChunk signatureValid h) hpay htotal

end AccountMap

end Coinkit.Currency

import Coinkit.Currency.CopyOnWrite
import Coinkit.Currency.TransactionQueue
import Mathlib.Algebra.BigOperators.Group.Finset.Basic

/-!
# The ledger's money

`currency/account_map.go` and `currency/transaction_queue.go`. The money of a ledger is
`AccountMap.totalBalance`: every owner's visible balance, once each, summed over the natural
numbers. A payment moves `Amount` from the sender to the receiver and burns `Fee`, so the ledger
should lose exactly the fees of what it processes. Two things break that, and the results here
show that nothing else does:

- a self-payment, where the receiver's credit overwrites the sender's debit
  (`process_self_payment_mints_amount`);
- a cost `Amount + Fee` that wraps past 2^64: `Validate` compares the wrapped `uint64` sum with
  the balance, so a payment whose sum wraps to a small number passes, and the receiver is
  credited the full `Amount` (the example after `process_money`).

The receiver's credit `target.Balance + Amount` is a `uint64` sum too; on a ledger that holds
less than 2^64 in all it cannot wrap, because the amount comes out of another account.

## What is proved

- `process_money`: a payment to another account whose cost does not wrap, on a ledger that holds
  less than 2^64, lowers the money by exactly its fee;
- `processTransactions_money`: the transaction loop of `ProcessChunk`, when it accepts, lowers
  it by exactly the fees of the chunk, by induction over the transactions;
- `finalize_burns_fees`: `Finalize` of a chunk of such payments lowers the money of the queue's
  ledger by exactly the chunk's fees, and moves the queue to the next slot;
- `processChunk_signed`: every entry of an accepted chunk is a transaction whose own signature
  the check accepts.

What such payments do to each owner, `spentBy` and `receivedBy`, is the abstract ledger's
account (`Coinkit.Currency.Payments`).
-/

set_option autoImplicit false

namespace Coinkit.Currency

open Coinkit.Consensus

namespace AccountMap

/-- An owner's visible balance, as a number; nil reads as 0. -/
def balance (m : AccountMap) (key : String) : Nat :=
  ((m.get key).map fun a => a.balance.toNat).getD 0

/-- The money of a map, summed over any set of owners that holds all the map's keys. -/
theorem totalBalance_eq_sum (m : AccountMap) {K : Finset String} (hK : ∀ k ∈ m.keys, k ∈ K) :
    m.totalBalance = ∑ k ∈ K, m.balance k := by
  have hdedup : m.totalBalance = ∑ k ∈ m.keys.toFinset, m.balance k := by
    simp only [totalBalance, Finset.sum_eq_multiset_sum, List.toFinset_val, Multiset.map_coe,
      Multiset.sum_coe]
    rfl
  rw [hdedup]
  refine Finset.sum_subset (fun k hk => hK k (List.mem_toFinset.mp hk)) fun k _ hk => ?_
  -- an owner the map has no entry for reads as nil
  rw [balance, get_of_not_mem_keys m (fun h => hk (List.mem_toFinset.mpr h))]
  rfl

theorem mem_keys_set {m : AccountMap} {key k : String} {account : Option Account}
    (hk : k ∈ (m.set key account).keys) : k = key ∨ k ∈ m.keys := by
  obtain ⟨data, fallback⟩ := m
  have hdata : k ∈ (data.insert key account).keys → k = key ∨ k ∈ data.keys := by
    rw [AList.keys_insert, List.mem_cons]
    exact Or.imp_right List.mem_of_mem_erase
  cases fallback with
  | none => exact hdata hk
  | some f =>
    simp only [set, keys] at hk ⊢
    rcases List.mem_append.mp hk with hk | hk
    · exact (hdata hk).imp_right (List.mem_append_left _)
    · exact .inr (List.mem_append_right _ hk)

/-- `Process` writes the sender and the receiver, and no other owner. -/
theorem mem_keys_process {m : AccountMap} {t : Transaction} {k : String}
    (hk : k ∈ (m.process t).2.keys) : k ∈ m.keys ∨ k = t.«from» ∨ k = t.«to» := by
  unfold process at hk
  split at hk
  · split at hk
    · rcases mem_keys_set hk with rfl | hk
      · exact .inr (.inr rfl)
      · rcases mem_keys_set hk with rfl | hk
        · exact .inr (.inl rfl)
        · exact .inl hk
    · exact .inl hk
  · exact .inl hk

/-- A sum split at two distinct points. -/
theorem sum_eq_add_add_sum_erase {K : Finset String} (f : String → Nat) {a b : String} (ha : a ∈ K)
    (hb : b ∈ K) (hne : b ≠ a) : ∑ k ∈ K, f k = f a + f b + ∑ k ∈ (K.erase a).erase b, f k := by
  rw [← Finset.add_sum_erase K f ha, ← Finset.add_sum_erase (K.erase a) f (Finset.mem_erase.mpr ⟨hne, hb⟩),
    Nat.add_assoc]

/-- Two distinct owners hold no more than the whole map. -/
theorem balance_add_balance_le (m : AccountMap) {a b : String} (hne : a ≠ b) :
    m.balance a + m.balance b ≤ m.totalBalance := by
  let K := m.keys.toFinset ∪ {a, b}
  rw [m.totalBalance_eq_sum (K := K) (fun k hk => by simp [K, hk]),
    sum_eq_add_add_sum_erase _ (by simp [K] : a ∈ K) (by simp [K]) hne.symm]
  omega

/-- Two maps that read alike except at two owners differ in money by what those two hold. -/
theorem totalBalance_add_balance_add {m m' : AccountMap} {a b : String} (hne : a ≠ b)
    (hkeys : ∀ k ∈ m'.keys, k ∈ m.keys ∨ k = a ∨ k = b)
    (hother : ∀ k, k ≠ a → k ≠ b → m'.get k = m.get k) :
    m'.totalBalance + (m.balance a + m.balance b) = m.totalBalance + (m'.balance a + m'.balance b) := by
  -- sum both maps over the old keys and the two owners
  let K := m.keys.toFinset ∪ {a, b}
  have ha : a ∈ K := by simp [K]
  have hb : b ∈ K := by simp [K]
  have hbefore := m.totalBalance_eq_sum (K := K) (fun k hk => by simp [K, hk])
  have hafter := m'.totalBalance_eq_sum (K := K) fun k hk => by
    rcases hkeys k hk with hk | rfl | rfl <;> simp [K, hk]
  rw [sum_eq_add_add_sum_erase _ ha hb hne.symm] at hbefore hafter
  have hrest : ∑ k ∈ (K.erase a).erase b, m'.balance k = ∑ k ∈ (K.erase a).erase b, m.balance k := by
    refine Finset.sum_congr rfl fun k hk => ?_
    obtain ⟨hkb, hk⟩ := Finset.mem_erase.mp hk
    rw [balance, balance, hother k (Finset.mem_erase.mp hk).1 hkb]
  rw [hbefore, hafter, hrest]
  omega

/-- A valid payment whose cost does not wrap costs no more than the sender holds. -/
theorem cost_le_balance_of_validate {m : AccountMap} {t : Transaction} (hvalid : m.validate t = true)
    (hcost : t.amount.toNat + t.fee.toNat < 2 ^ 64) :
    t.amount.toNat + t.fee.toNat ≤ m.balance t.«from» := by
  obtain ⟨source, hsource, -, hafford⟩ := (validate_iff m t).mp hvalid
  -- `Validate` compares the `uint64` sum, which here is the sum of the numbers
  have h : ¬ source.balance.toNat < (t.amount + t.fee).toNat :=
    fun h => hafford (UInt64.lt_iff_toNat_lt.mpr h)
  rw [UInt64.toNat_add, Nat.mod_eq_of_lt hcost] at h
  simp only [balance, hsource, Option.map_some, Option.getD_some]
  omega

/-- What a valid payment to another account does to the two balances it writes, as numbers: the
sender pays the amount and the fee, and the receiver, whose credit fits, gets the amount. -/
theorem process_balances {m : AccountMap} {t : Transaction} (hvalid : m.validate t = true)
    (hne : t.«from» ≠ t.«to») (hcost : t.amount.toNat + t.fee.toNat < 2 ^ 64)
    (hroom : m.balance t.«to» + t.amount.toNat < 2 ^ 64) :
    (m.process t).2.balance t.«from» + t.amount.toNat + t.fee.toNat = m.balance t.«from» ∧
      (m.process t).2.balance t.«to» = m.balance t.«to» + t.amount.toNat := by
  have hafford := cost_le_balance_of_validate hvalid hcost
  obtain ⟨source, hsource, -, hget⟩ := get_process hvalid
  have hb_from : m.balance t.«from» = source.balance.toNat := by
    simp [balance, hsource]
  have hb_to : m.balance t.«to» = ((m.get t.«to»).getD ⟨0, 0⟩).balance.toNat := by
    rw [balance]
    cases m.get t.«to» <;> rfl
  -- neither subtraction of the sender's debit wraps
  have hamount : t.amount ≤ source.balance := UInt64.le_iff_toNat_le.mpr (by omega)
  have hdebit : (source.balance - t.amount).toNat = source.balance.toNat - t.amount.toNat :=
    UInt64.toNat_sub_of_le _ _ hamount
  have hfee : t.fee ≤ source.balance - t.amount := UInt64.le_iff_toNat_le.mpr (by omega)
  constructor
  · rw [balance, hget, if_neg hne, if_pos rfl, Option.map_some, Option.getD_some,
      UInt64.toNat_sub_of_le _ _ hfee, hdebit]
    omega
  · rw [balance, hget, if_pos rfl, Option.map_some, Option.getD_some, UInt64.toNat_add, ← hb_to,
      Nat.mod_eq_of_lt hroom]

/-- A payment to another account whose cost does not wrap, on a ledger holding less than 2^64,
lowers the money by exactly its fee: the sender pays amount and fee, the receiver gets the
amount, and every other owner reads as before. -/
theorem process_money {m : AccountMap} {t : Transaction} (hvalid : m.validate t = true)
    (hne : t.«from» ≠ t.«to») (hcost : t.amount.toNat + t.fee.toNat < 2 ^ 64)
    (htotal : m.totalBalance < 2 ^ 64) :
    (m.process t).2.totalBalance + t.fee.toNat = m.totalBalance := by
  have hafford := cost_le_balance_of_validate hvalid hcost
  -- the receiver's credit fits: the amount comes out of the sender's balance
  have hboth := m.balance_add_balance_le hne
  obtain ⟨hfrom, hto⟩ := process_balances hvalid hne hcost (by omega)
  have hsplit := totalBalance_add_balance_add hne (fun k hk => mem_keys_process hk)
    (fun k hkf hkt => get_process_of_ne m t hkf hkt)
  omega

/-- A cost that wraps: alice, with 10, sends bob 2^63 with a fee of 2^63. The `uint64` sum of
the two is 0, which she can afford; her balance loses the wrapped sum, 0, and bob gains 2^63. -/
example :
    ((new.setBalance "alice" 10).process
        ⟨"alice", 1, "bob", 9223372036854775808, 9223372036854775808⟩).1 = true ∧
      ((new.setBalance "alice" 10).process
        ⟨"alice", 1, "bob", 9223372036854775808, 9223372036854775808⟩).2.totalBalance =
        9223372036854775818 := by
  decide

/-! ## Chunks -/

/-- What the entries of a chunk pay in fees; a nil entry pays nothing. -/
def chunkFees (ts : List (Option SignedTransaction)) : Nat :=
  (ts.map fun t => ((t.map SignedTransaction.fee).getD 0).toNat).sum

/-- Every payment of the entries goes to another account, and its cost does not wrap. -/
def PaysOthers (ts : List (Option SignedTransaction)) : Prop :=
  ∀ t ∈ ts, ∀ s tx, t = some s → s.transaction = some tx →
    tx.«from» ≠ tx.«to» ∧ tx.amount.toNat + tx.fee.toNat < 2 ^ 64

theorem chunkFees_cons {s : SignedTransaction} {tx : Transaction} (htx : s.transaction = some tx)
    (ts : List (Option SignedTransaction)) :
    chunkFees (some s :: ts) = tx.fee.toNat + chunkFees ts := by
  simp [chunkFees, SignedTransaction.fee, htx]

/-- The transactions of a chunk's entries, in order. -/
def chunkTransactions (ts : List (Option SignedTransaction)) : List Transaction :=
  ts.filterMap fun t => t.bind SignedTransaction.transaction

theorem chunkTransactions_cons {s : SignedTransaction} {tx : Transaction}
    (htx : s.transaction = some tx) (ts : List (Option SignedTransaction)) :
    chunkTransactions (some s :: ts) = tx :: chunkTransactions ts := by
  simp [chunkTransactions, htx]

/-- `PaysOthers` read through the transactions of the entries. -/
theorem paysOthers_iff (ts : List (Option SignedTransaction)) :
    PaysOthers ts ↔ ∀ tx ∈ chunkTransactions ts,
      tx.«from» ≠ tx.«to» ∧ tx.amount.toNat + tx.fee.toNat < 2 ^ 64 := by
  constructor
  · intro h tx htx
    obtain ⟨t, ht, hbind⟩ := List.mem_filterMap.mp htx
    obtain ⟨s, rfl, hs⟩ := Option.bind_eq_some_iff.mp hbind
    exact h _ ht s tx rfl hs
  · intro h t ht s tx hts htx
    subst hts
    exact h tx (List.mem_filterMap.mpr ⟨some s, ht, by simp [htx]⟩)

/-! ## Each owner's money -/

/-- What an owner's transactions among them cost it: amounts and fees. -/
def spentBy (owner : String) (txs : List Transaction) : Nat :=
  ((txs.filter fun tx => tx.«from» = owner).map fun tx => tx.amount.toNat + tx.fee.toNat).sum

/-- What the transactions among them pay an owner. -/
def receivedBy (owner : String) (txs : List Transaction) : Nat :=
  ((txs.filter fun tx => tx.«to» = owner).map fun tx => tx.amount.toNat).sum

variable (signatureValid : SignatureCheck)

/-- A step of the transaction loop of `ProcessChunk` that did not stop it: a transaction that is
there, verifies and validates. -/
theorem processTransactions_cons_true {m w : AccountMap} {t : Option SignedTransaction}
    {ts : List (Option SignedTransaction)}
    (h : m.processTransactions signatureValid (t :: ts) = (true, w)) :
    ∃ s tx, t = some s ∧ s.transaction = some tx ∧ signatureValid tx s.signature = true ∧
      m.validate tx = true ∧ (m.process tx).2.processTransactions signatureValid ts = (true, w) := by
  cases t with
  | none => cases h
  | some s =>
    cases htx : s.transaction with
    | none =>
      simp only [processTransactions, htx] at h
      cases h
    | some tx =>
      by_cases hv : s.verify signatureValid = true
      · simp only [processTransactions, htx, hv, Bool.not_true, Bool.false_eq_true, if_false] at h
        cases hvalid : m.validate tx with
        | false =>
          rw [process_of_validate_false hvalid] at h
          cases h
        | true =>
          obtain ⟨_, _, hok, _⟩ := get_process hvalid
          have hsplit : m.process tx = (true, (m.process tx).2) := Prod.ext hok rfl
          rw [hsplit] at h
          have hsigned : signatureValid tx s.signature = true := by
            simpa only [SignedTransaction.verify, htx] using hv
          exact ⟨s, tx, rfl, htx, hsigned, hvalid, h⟩
      · simp only [processTransactions, htx, hv, Bool.not_false, if_true] at h
        cases h

/-- The transaction loop of `ProcessChunk`, when it accepts a list of payments to other accounts
whose costs do not wrap, lowers the money of a ledger holding less than 2^64 by exactly their
fees. Induction on the list, one `process_money` a transaction. -/
theorem processTransactions_money :
    ∀ (ts : List (Option SignedTransaction)) {m w : AccountMap},
      m.processTransactions signatureValid ts = (true, w) → PaysOthers ts →
      m.totalBalance < 2 ^ 64 → w.totalBalance + chunkFees ts = m.totalBalance
  | [], m, w, h, _, _ => by
    cases h
    rfl
  | t :: ts, m, w, h, hpay, htotal => by
    obtain ⟨s, tx, rfl, htx, -, hvalid, hrest⟩ := processTransactions_cons_true signatureValid h
    obtain ⟨hne, hcost⟩ := hpay _ List.mem_cons_self s tx rfl htx
    have hstep := process_money hvalid hne hcost htotal
    have ih := processTransactions_money ts hrest
      (fun t' ht' => hpay t' (List.mem_cons_of_mem _ ht')) (by omega)
    rw [chunkFees_cons htx]
    omega

/-- An accepted `ProcessChunk` leaves the map as its transaction loop left it. -/
theorem processTransactions_of_processChunk {m w : AccountMap} {c : LedgerChunk}
    (h : m.processChunk signatureValid (some c) = (true, w)) :
    m.processTransactions signatureValid c.transactions = (true, w) := by
  simp only [processChunk] at h
  split_ifs at h with hlen
  · cases h
  cases hp : m.processTransactions signatureValid c.transactions with
  | mk ok w' =>
    rw [hp] at h
    cases ok
    · cases h
    · -- `CheckEqual` only reads the map the loop left
      obtain ⟨-, rfl⟩ := Prod.mk.inj h
      rfl

/-- An accepted `ProcessChunk` of payments to other accounts whose costs do not wrap lowers the
money of a ledger holding less than 2^64 by exactly the chunk's fees. -/
theorem processChunk_money {m w : AccountMap} {c : LedgerChunk}
    (h : m.processChunk signatureValid (some c) = (true, w)) (hpay : PaysOthers c.transactions)
    (htotal : m.totalBalance < 2 ^ 64) : w.totalBalance + chunkFees c.transactions = m.totalBalance :=
  processTransactions_money signatureValid c.transactions
    (processTransactions_of_processChunk signatureValid h) hpay htotal

end AccountMap

namespace TransactionQueue

variable {signatureValid : SignatureCheck}

open AccountMap

/-- `Finalize` of a chunk whose payments go to other accounts and whose costs do not wrap lowers
the money of a ledger holding less than 2^64 by exactly the chunk's fees; the queue moves to the
next slot with the chunk filed under the slot it finalized. -/
theorem finalize_burns_fees {q q' : TransactionQueue} {v : SlotValue} {chunk : LedgerChunk}
    (h : q.finalize signatureValid v = .ok q') (hc : q.chunks.lookup v = some chunk)
    (hpay : PaysOthers chunk.transactions) (htotal : q.accounts.totalBalance < 2 ^ 64) :
    q'.accounts.totalBalance + chunkFees chunk.transactions = q.accounts.totalBalance ∧
      q'.slot = q.slot + 1 ∧ q'.oldChunks.lookup q.slot = some chunk := by
  obtain ⟨chunk', accounts, hc', hprocess, rfl⟩ := finalize_cases signatureValid h
  rw [hc] at hc'
  cases hc'
  -- `Revalidate` only filters the transactions waiting in the queue
  obtain ⟨⟨set, hset⟩, -, -⟩ := revalidate_spec signatureValid
    { q with oldChunks := q.oldChunks.insert q.slot chunk, accounts := accounts, last := v,
             chunks := ∅, slot := q.slot + 1 }
  rw [hset]
  exact ⟨processChunk_money signatureValid hprocess hpay htotal, rfl, AList.lookup_insert _⟩

/-- Alice, with 200, and a chunk in which she pays bob 100 with a fee of 3. -/
theorem finalize_burns_fees_one_payment :
    let q : TransactionQueue := { (newTransactionQueue "A").setBalance "alice" 200 with
      chunks := AList.singleton "v" ⟨[some ⟨some ⟨"alice", 1, "bob", 100, 3⟩, "s"⟩],
        (AList.singleton "alice" (some ⟨1, 97⟩)).insert "bob" (some ⟨0, 100⟩)⟩ }
    ∃ q', q.finalize (fun _ _ => true) "v" = .ok q' ∧
      q.chunks.lookup "v" = some ⟨[some ⟨some ⟨"alice", 1, "bob", 100, 3⟩, "s"⟩],
        (AList.singleton "alice" (some ⟨1, 97⟩)).insert "bob" (some ⟨0, 100⟩)⟩ ∧
      PaysOthers [some ⟨some ⟨"alice", 1, "bob", 100, 3⟩, "s"⟩] ∧ q.accounts.totalBalance < 2 ^ 64 ∧
      (q'.accounts.totalBalance + chunkFees [some ⟨some ⟨"alice", 1, "bob", 100, 3⟩, "s"⟩] =
          q.accounts.totalBalance ∧ q'.slot = q.slot + 1 ∧
        q'.oldChunks.lookup q.slot = some ⟨[some ⟨some ⟨"alice", 1, "bob", 100, 3⟩, "s"⟩],
          (AList.singleton "alice" (some ⟨1, 97⟩)).insert "bob" (some ⟨0, 100⟩)⟩) := by
  intro q
  have hc : q.chunks.lookup "v" = some ⟨[some ⟨some ⟨"alice", 1, "bob", 100, 3⟩, "s"⟩],
      (AList.singleton "alice" (some ⟨1, 97⟩)).insert "bob" (some ⟨0, 100⟩)⟩ := rfl
  obtain ⟨q', hq'⟩ := finalize_ok (fun _ _ => true) hc (by decide)
  have hpay : PaysOthers [some ⟨some ⟨"alice", 1, "bob", 100, 3⟩, "s"⟩] := by
    intro t ht s tx hs htx
    rw [List.mem_singleton] at ht
    subst ht
    cases hs
    cases htx
    exact ⟨by decide, by decide⟩
  have htotal : q.accounts.totalBalance < 2 ^ 64 := by decide
  exact ⟨q', hq', hc, hpay, htotal, finalize_burns_fees hq' hc hpay htotal⟩

end TransactionQueue

end Coinkit.Currency

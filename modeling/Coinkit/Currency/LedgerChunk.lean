import Coinkit.Currency.AccountMap
import Coinkit.Consensus.Value
import Coinkit.Lib.Base64
import Coinkit.Lib.Run
import Mathlib.Data.List.Sort

/-!
# Ledger chunks

`currency/ledger_chunk.go` and the chunk half of `currency/account_map.go`.
A chunk is a list of signed transactions together with the state, after
them, of the accounts they mention. A chunk that arrives in a message may
hold nil transactions and nil accounts, so both are `Option`s here.

`Hash` writes every signature, then every state entry in sorted key order
(the key, then the account's bytes) into SHA3-512, and encodes the digest in
unpadded base64. The digest function is the parameter `sha3`. `Hash`
dereferences every transaction and every account, so a nil one is a
nil-pointer panic.

`ProcessChunk` processes the transactions in order and stops at the first
that is nil, does not verify or does not process; then every state entry
must agree with the map. `ValidateChunk` runs it on a copy-on-write copy.

## What is proved

The verdict of `ProcessChunk` and the answers of the map it leaves depend on
the map only through `Get` (`processChunk_congr`), so `ValidateChunk` is
exactly the verdict `ProcessChunk` would give on the map itself
(`validateChunk_eq`). A run of transactions that all verify and all process
extend a successful `ProcessChunk` loop one at a time
(`processTransactions_snoc`), and a state read off the map passes the
comparison loop (`checkEqual_get`).
-/

set_option autoImplicit false

namespace Coinkit.Currency

open Coinkit.Consensus

/-- `MaxChunkSize`. -/
def maxChunkSize : Nat := 100

/-- `LedgerChunk`: the transactions, and the state of the accounts they
mention after them. -/
structure LedgerChunk where
  transactions : List (Option SignedTransaction)
  state : AList (fun _ : String => Option Account)

namespace LedgerChunk

variable (sha3 : List UInt8 → List UInt8)

/-- The bytes `Hash` writes for the transactions: each signature in turn. -/
def signatureBytes : List (Option SignedTransaction) → Except Fault (List UInt8)
  | [] => pure []
  | none :: _ => .error Fault.nilDereference
  | some t :: ts => do
    let rest ← signatureBytes ts
    pure (t.signature.toUTF8.toList ++ rest)

/-- The bytes `Hash` writes for the state: each key in sorted order, then
the bytes of its account. -/
def stateBytes (state : AList (fun _ : String => Option Account)) : Except Fault (List UInt8) :=
  (state.keys.insertionSort (· ≤ ·)).foldlM
    (fun bytes key =>
      match (state.lookup key).join with
      | some account => pure (bytes ++ key.toUTF8.toList ++ account.bytes)
      | none => .error Fault.nilDereference)
    []

/-- `Hash()`. -/
def hash (c : LedgerChunk) : Except Fault SlotValue := do
  let signatures ← signatureBytes c.transactions
  let accounts ← stateBytes c.state
  pure (Base64.encodeToString (sha3 (signatures ++ accounts)))

/-- The state bytes read every account of the state, so a state that
records an account as nil has none. -/
theorem stateBytes_of_nil_account {state : AList (fun _ : String => Option Account)} {owner : String}
    (howner : state.lookup owner = some none) : stateBytes state = .error Fault.nilDereference := by
  have hmem : owner ∈ state.keys.insertionSort (· ≤ ·) :=
    (List.perm_insertionSort _ _).symm.subset
      (AList.mem_keys.mpr (AList.lookup_isSome.mp (by rw [howner]; rfl)))
  unfold stateBytes
  refine StepRun.foldlM_error_of_mem (fun bytes key e h => ?_) (fun bytes => ?_) hmem
  · split at h
    · cases h
    · cases h
      rfl
  · simp only [howner, Option.join_some]

/-- A chunk that records an account as nil cannot be hashed. -/
theorem hash_of_nil_account {c : LedgerChunk} {owner : String}
    (howner : c.state.lookup owner = some none) {bytes : List UInt8}
    (hsig : signatureBytes c.transactions = .ok bytes) : c.hash sha3 = .error Fault.nilDereference := by
  simp only [hash, hsig, stateBytes_of_nil_account howner, Except.ok_bind, Except.error_bind]

end LedgerChunk

namespace AccountMap

variable (signatureValid : SignatureCheck)

/-- The transaction loop of `ProcessChunk`: it answers `false` at the first
transaction that is nil, does not verify or does not process. -/
def processTransactions : AccountMap → List (Option SignedTransaction) → Bool × AccountMap
  | m, [] => (true, m)
  | m, none :: _ => (false, m)
  | m, some t :: ts =>
    match t.transaction with
    -- `Verify` fails on a nil transaction
    | none => (false, m)
    | some tx =>
      if !t.verify signatureValid then (false, m)
      else
        match m.process tx with
        | (true, m') => processTransactions m' ts
        | (false, m') => (false, m')

/-- `ProcessChunk(chunk)`: the verdict, and the map as the loop left it
(partly processed when the verdict is `false`). -/
def processChunk (m : AccountMap) : Option LedgerChunk → Bool × AccountMap
  | none => (false, m)
  | some chunk =>
    if chunk.transactions.length > maxChunkSize then (false, m)
    else
      match m.processTransactions signatureValid chunk.transactions with
      | (false, m') => (false, m')
      | (true, m') => (chunk.state.entries.all (fun e => m'.checkEqual e.1 e.2), m')

/-- `ValidateChunk(chunk)`: `ProcessChunk` on a copy. -/
def validateChunk (m : AccountMap) (chunk : Option LedgerChunk) : Bool :=
  (m.cowCopy.processChunk signatureValid chunk).1

/-! ## Everything depends on `Get` only -/

theorem checkEqual_congr {m₁ m₂ : AccountMap} (h : Equiv m₁ m₂) (key : String)
    (account : Option Account) : m₁.checkEqual key account = m₂.checkEqual key account := by
  simp only [checkEqual, h key]

/-- An account compared with what the map itself answers agrees. -/
theorem checkEqual_get (m : AccountMap) (key : String) : m.checkEqual key (m.get key) = true := by
  unfold checkEqual
  cases m.get key with
  | none => rfl
  | some a => simp

theorem processTransactions_congr {m₁ m₂ : AccountMap} (h : Equiv m₁ m₂) :
    ∀ ts : List (Option SignedTransaction),
      (m₁.processTransactions signatureValid ts).1 = (m₂.processTransactions signatureValid ts).1 ∧
        Equiv (m₁.processTransactions signatureValid ts).2
          (m₂.processTransactions signatureValid ts).2 := by
  intro ts
  induction ts generalizing m₁ m₂ with
  | nil => exact ⟨rfl, h⟩
  | cons t ts ih =>
    cases t with
    | none => exact ⟨rfl, h⟩
    | some t =>
      cases htx : t.transaction with
      | none =>
        simp only [processTransactions, htx, true_and]
        exact h
      | some tx =>
        obtain ⟨hok, hmap⟩ := process_congr h tx
        simp only [processTransactions, htx]
        split_ifs
        · exact ⟨rfl, h⟩
        · -- both maps take the same branch, since the verdicts agree
          revert hok hmap
          cases m₁.process tx with
          | mk ok₁ n₁ =>
            cases m₂.process tx with
            | mk ok₂ n₂ =>
              rintro (rfl : ok₁ = ok₂) (hn : Equiv n₁ n₂)
              cases ok₁
              · exact ⟨rfl, hn⟩
              · exact ih hn

theorem processChunk_congr {m₁ m₂ : AccountMap} (h : Equiv m₁ m₂) (chunk : Option LedgerChunk) :
    (m₁.processChunk signatureValid chunk).1 = (m₂.processChunk signatureValid chunk).1 ∧
      Equiv (m₁.processChunk signatureValid chunk).2 (m₂.processChunk signatureValid chunk).2 := by
  cases chunk with
  | none => exact ⟨rfl, h⟩
  | some chunk =>
    simp only [processChunk]
    split_ifs
    · exact ⟨rfl, h⟩
    · obtain ⟨hok, hmap⟩ := processTransactions_congr signatureValid h chunk.transactions
      revert hok hmap
      cases m₁.processTransactions signatureValid chunk.transactions with
      | mk ok₁ n₁ =>
        cases m₂.processTransactions signatureValid chunk.transactions with
        | mk ok₂ n₂ =>
          rintro (rfl : ok₁ = ok₂) (hn : Equiv n₁ n₂)
          cases ok₁
          · exact ⟨rfl, hn⟩
          · refine ⟨?_, hn⟩
            simp only [checkEqual_congr hn]

/-- `ValidateChunk` answers what `ProcessChunk` on the map itself would. -/
theorem validateChunk_eq (m : AccountMap) (chunk : Option LedgerChunk) :
    m.validateChunk signatureValid chunk = (m.processChunk signatureValid chunk).1 :=
  (processChunk_congr signatureValid (Equiv.cowCopy m) chunk).1

/-! ## A chunk of transactions that all go through -/

/-- A process that fails writes nothing. -/
theorem process_snd_of_fst_false {m : AccountMap} {t : Transaction} (h : (m.process t).1 = false) :
    (m.process t).2 = m := by
  cases hv : m.validate t with
  | false => rw [process_of_validate_false hv]
  | true =>
    obtain ⟨_, _, hok, _⟩ := get_process hv
    rw [hok] at h
    cases h

/-- The loop over a concatenation is the loop over the second part from
where the first left off, unless the first already answered `false`. -/
theorem processTransactions_append (m : AccountMap) :
    ∀ xs ys : List (Option SignedTransaction),
      m.processTransactions signatureValid (xs ++ ys) =
        if (m.processTransactions signatureValid xs).1 then
          (m.processTransactions signatureValid xs).2.processTransactions signatureValid ys
        else m.processTransactions signatureValid xs := by
  intro xs
  induction xs generalizing m with
  | nil => intro ys; rfl
  | cons t xs ih =>
    intro ys
    cases t with
    | none => rfl
    | some t =>
      cases htx : t.transaction with
      | none => simp [processTransactions, htx]
      | some tx =>
        by_cases hv : t.verify signatureValid = true
        · simp only [List.cons_append, processTransactions, htx, hv, Bool.not_true,
            Bool.false_eq_true, if_false]
          cases hp : m.process tx with
          | mk ok m' =>
            cases ok
            · simp
            · exact ih m' ys
        · simp [processTransactions, htx, hv]

/-- One more transaction that verifies and goes through extends a
successful loop. -/
theorem processTransactions_snoc {m w : AccountMap} {xs : List (Option SignedTransaction)}
    (hxs : m.processTransactions signatureValid xs = (true, w)) {t : SignedTransaction}
    {tx : Transaction} (htx : t.transaction = some tx) (hv : t.verify signatureValid = true)
    (hok : (w.process tx).1 = true) :
    m.processTransactions signatureValid (xs ++ [some t]) = (true, (w.process tx).2) := by
  rw [processTransactions_append, hxs]
  simp only [if_true, processTransactions, htx, hv, Bool.not_true, Bool.false_eq_true, if_false]
  revert hok
  cases w.process tx with
  | mk ok w' =>
    rintro (rfl : ok = true)
    rfl

/-- A loop that accepts saw only transactions that are there and verify. -/
theorem verify_of_processTransactions :
    ∀ {m w : AccountMap} {ts : List (Option SignedTransaction)},
      m.processTransactions signatureValid ts = (true, w) →
      ∀ t ∈ ts, ∃ s, t = some s ∧ s.verify signatureValid = true
  | _, _, [], _, t, ht => absurd ht List.not_mem_nil
  | m, w, t :: ts, h, t', ht' => by
    cases t with
    | none => cases h
    | some t =>
      cases htx : t.transaction with
      | none => simp only [processTransactions, htx] at h; cases h
      | some tx =>
        by_cases hv : t.verify signatureValid = true
        · simp only [processTransactions, htx, hv, Bool.not_true, Bool.false_eq_true,
            if_false] at h
          cases hp : m.process tx with
          | mk ok m' =>
            rw [hp] at h
            cases ok
            · cases h
            · rcases List.mem_cons.mp ht' with rfl | ht'
              · exact ⟨t, rfl, hv⟩
              · exact verify_of_processTransactions h t' ht'
        · simp only [processTransactions, htx, hv, Bool.not_false, if_true] at h
          cases h

/-- A chunk that `ProcessChunk` accepts holds only transactions that are
there and verify. -/
theorem verify_of_processChunk {m : AccountMap} {c : LedgerChunk}
    (h : (m.processChunk signatureValid (some c)).1 = true) :
    ∀ t ∈ c.transactions, ∃ s, t = some s ∧ s.verify signatureValid = true := by
  simp only [processChunk] at h
  by_cases hlen : c.transactions.length > maxChunkSize
  · rw [if_pos hlen] at h
    cases h
  rw [if_neg hlen] at h
  cases hp : m.processTransactions signatureValid c.transactions with
  | mk ok w =>
    rw [hp] at h
    cases ok
    · cases h
    · exact verify_of_processTransactions signatureValid hp

/-- A chunk of no transactions passes `ValidateChunk` when every account
its state records is nil and unknown to the map: `CheckEqual` of nil with
nil holds. -/
theorem validateChunk_of_nil_accounts {m : AccountMap} {c : LedgerChunk} (htx : c.transactions = [])
    (hstate : ∀ e ∈ c.state.entries, e.2 = none ∧ m.get e.1 = none) :
    m.validateChunk signatureValid (some c) = true := by
  rw [validateChunk_eq]
  simp only [processChunk, htx, processTransactions]
  rw [if_neg (by decide)]
  simp only [List.all_eq_true]
  intro e he
  obtain ⟨hnone, hget⟩ := hstate e he
  simp only [checkEqual, hnone, hget]

end AccountMap

end Coinkit.Currency

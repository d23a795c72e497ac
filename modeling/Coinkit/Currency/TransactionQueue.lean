import Coinkit.Currency.LedgerChunk
import Coinkit.Lib.TreeSet
import Coinkit.Lib.Run

/-!
# The transaction queue

`currency/transaction_queue.go`, with the message types it reads and writes
(`currency/transaction_message.go`, `currency/account_message.go`). The queue
holds the pending transactions in a tree ordered by `HighestPriorityFirst`,
the ledger chunks under consideration keyed by their hash, the chunks
already finalized keyed by slot, and the authoritative account map. It is
the value store of the consensus: a slot value is the key of a chunk.

Go maps are `AList`s. Where the code ranges over a map (the chunks of a
`TransactionMessage`), each iteration depends only on its own key, so the
model's fixed order stands for any order.

`HandleTransactionMessage` keeps the Go short circuit of
`updated = updated || q.Add(t)`: once one `Add` succeeds, the later
transactions of the message are not even looked at.

`NewChunk` builds a chunk over a copy-on-write validator: each transaction is
processed if it can be, and the accounts of its sender and receiver are
recorded after it, whether it went through or not.

## What is proved

One spec lemma per operation, saying everything it can do to the queue:
`add` keeps the chunks and accounts and only ever inserts a transaction that
validates, `revalidate` keeps exactly members that validate, the chunk loop
of `handleTransactionMessage` only learns chunks that validate and hash to
their key, and `newChunk` only caches a chunk under its own hash. None of
them fails except through `Hash`, the sortedness check of `NewChunk` and
`Combine`'s own guards: `add` never reaches its "logical failure" (`add_ok`).
-/

set_option autoImplicit false

namespace Coinkit.Currency

open Coinkit.Consensus

/-- `QueueLimit`. -/
def queueLimit : Nat := 1000

/-- `TransactionMessage`: transactions, and chunks by key. Decoding may leave
any of them nil; a nil list or map behaves as an empty one. -/
structure TransactionMessage where
  transactions : List (Option SignedTransaction)
  chunks : AList (fun _ : SlotValue => Option LedgerChunk)

/-- `AccountMessage`: the slot, and the accounts asked about (nil when
unknown). -/
structure AccountMessage where
  i : Int
  state : AList (fun _ : String => Option Account)

/-- `TransactionQueue`. The count of finalized transactions is only logged
and is left out. -/
structure TransactionQueue where
  publicKey : String
  set : TreeSet priorityFirst
  chunks : AList (fun _ : SlotValue => LedgerChunk)
  oldChunks : AList (fun _ : Int => LedgerChunk)
  accounts : AccountMap
  last : SlotValue
  slot : Int

/-- `NewTransactionQueue`. -/
def newTransactionQueue (publicKey : String) : TransactionQueue :=
  ⟨publicKey, TreeSet.empty, ∅, ∅, AccountMap.new, "", 1⟩

/-- What the loop of `NewChunk` carries. -/
structure ChunkBuilder where
  transactions : List SignedTransaction
  validator : AccountMap
  state : AList (fun _ : String => Option Account)

/-- One transaction of the `NewChunk` loop: processed if it can be, and the
accounts of its sender and receiver recorded as the validator has them. -/
def ChunkBuilder.push (b : ChunkBuilder) (t : SignedTransaction) (tx : Transaction) :
    ChunkBuilder :=
  let validator := (b.validator.process tx).2
  { transactions := if (b.validator.process tx).1 then b.transactions ++ [t] else b.transactions
    validator := validator
    state := (b.state.insert tx.«from» (validator.get tx.«from»)).insert tx.«to»
      (validator.get tx.«to») }

namespace TransactionQueue

variable (signatureValid : SignatureCheck) (sha3 : List UInt8 → List UInt8)

/-- `Transactions()`: the pending transactions in priority order. -/
def transactions (q : TransactionQueue) : List SignedTransaction := q.set.values

def contains (q : TransactionQueue) (t : SignedTransaction) : Bool :=
  q.set.contains priorityFirst t

def size (q : TransactionQueue) : Nat := q.set.size

/-- `Validate(t)`: non-nil, verifies, and valid against the accounts. -/
def validate (q : TransactionQueue) : Option SignedTransaction → Bool
  | none => false
  | some t =>
    t.verify signatureValid &&
      match t.transaction with
      | some tx => q.accounts.validate tx
      -- `Verify` has just failed on a nil transaction
      | none => false

def remove (q : TransactionQueue) : Option SignedTransaction → TransactionQueue
  | none => q
  | some t => { q with set := q.set.remove priorityFirst t }

/-- `Add(t)`: whether the queue holds `t` afterwards. When the queue
overflows, the last transaction in priority order is evicted, which may be
`t` itself. -/
def add (q : TransactionQueue) : Option SignedTransaction → Except Fault (Bool × TransactionQueue)
  -- `Validate(nil)` is false
  | none => pure (false, q)
  | some t =>
    if !q.validate signatureValid (some t) || q.contains t then pure (false, q)
    else
      let set := q.set.put priorityFirst t
      if set.size > queueLimit then
        match set.last? priorityFirst with
        | none => .error (.fatal "logical failure with treeset")
        | some worst =>
          let q' := { q with set := set.remove priorityFirst worst }
          pure (q'.contains t, q')
      else
        let q' := { q with set := set }
        pure (q'.contains t, q')

/-- `SetBalance(owner, balance)`. -/
def setBalance (q : TransactionQueue) (owner : String) (balance : UInt64) : TransactionQueue :=
  { q with accounts := q.accounts.setBalance owner balance }

/-- One transaction of `Revalidate`. -/
def revalidateStep (q : TransactionQueue) (t : SignedTransaction) : TransactionQueue :=
  if !q.validate signatureValid (some t) then q.remove (some t) else q

/-- `Revalidate()`: over the transactions as they were when it started, drop
each one that no longer validates. -/
def revalidate (q : TransactionQueue) : TransactionQueue :=
  q.transactions.foldl (revalidateStep signatureValid) q

/-- One transaction of `HandleTransactionMessage`: once something was
added, nothing more is tried. -/
def addStep (acc : Bool × TransactionQueue) (t : Option SignedTransaction) :
    Except Fault (Bool × TransactionQueue) :=
  if acc.1 then pure acc else acc.2.add signatureValid t

/-- One chunk of `HandleTransactionMessage`: learnt when new, valid against
the accounts, and keyed by its hash. -/
def learnChunk (acc : Bool × TransactionQueue) (entry : Σ _ : SlotValue, Option LedgerChunk) :
    Except Fault (Bool × TransactionQueue) :=
  if (acc.2.chunks.lookup entry.1).isSome then pure acc
  else if !acc.2.accounts.validateChunk signatureValid entry.2 then pure acc
  else
    match entry.2 with
    -- `ValidateChunk(nil)` is false
    | none => pure acc
    | some chunk => do
      let key ← chunk.hash sha3
      if key ≠ entry.1 then pure acc
      else pure (true, { acc.2 with chunks := acc.2.chunks.insert entry.1 chunk })

/-- `HandleTransactionMessage(m)`: whether anything changed. -/
def handleTransactionMessage (q : TransactionQueue) :
    Option TransactionMessage → Except Fault (Bool × TransactionQueue)
  | none => pure (false, q)
  | some m => do
    let acc ← m.transactions.foldlM (addStep signatureValid) (false, q)
    m.chunks.entries.foldlM (learnChunk signatureValid sha3) acc

/-- The loop of `NewChunk`, from the previous transaction `last` on. The
inputs are never nil: they come from the queue or from validated chunks. -/
def newChunkLoop : ChunkBuilder → Option SignedTransaction → List SignedTransaction →
    Except Fault ChunkBuilder
  | b, _, [] => pure b
  | b, last, t :: ts =>
    if (last.map fun l => decide (highestPriorityFirst l t ≥ 0)) = some true then
      .error (.panic "NewLedgerChunk called on non-sorted list")
    else
      match t.transaction with
      | none => .error Fault.nilDereference
      | some tx =>
        let b := b.push t tx
        if b.transactions.length = maxChunkSize then pure b
        else newChunkLoop b (some t) ts

/-- `NewChunk(ts)`: the key and the chunk (nil when nothing went through),
and the queue with the chunk cached under its key unless it already was. -/
def newChunk (q : TransactionQueue) (ts : List SignedTransaction) :
    Except Fault ((SlotValue × Option LedgerChunk) × TransactionQueue) := do
  let b ← newChunkLoop ⟨[], q.accounts.cowCopy, ∅⟩ none ts
  if b.transactions.length = 0 then pure (("", none), q)
  else
    let chunk : LedgerChunk := ⟨b.transactions.map some, b.state⟩
    let key ← chunk.hash sha3
    if (q.chunks.lookup key).isSome then pure ((key, some chunk), q)
    else pure ((key, some chunk), { q with chunks := q.chunks.insert key chunk })

/-- The tree `Combine` gathers the transactions of the listed chunks in.
A nil transaction makes the tree compare through a nil pointer. -/
def combineSet (q : TransactionQueue) (list : List SlotValue) :
    Except Fault (TreeSet priorityFirst) :=
  list.foldlM
    (fun set v =>
      match q.chunks.lookup v with
      | none => .error (.fatal (q.publicKey ++ " cannot combine unknown chunk " ++ v))
      | some chunk =>
        chunk.transactions.foldlM
          (fun set t =>
            match t with
            | some t => pure (set.put priorityFirst t)
            | none => .error Fault.nilDereference)
          set)
    TreeSet.empty

/-- `Combine(list)`. -/
def combine (q : TransactionQueue) (list : List SlotValue) :
    Except Fault (SlotValue × TransactionQueue) := do
  let set ← q.combineSet list
  let ((value, chunk), q) ← q.newChunk sha3 set.values
  match chunk with
  | none => .error (.panic "combining valid chunks led to nothing")
  | some _ => pure (value, q)

def canFinalize (q : TransactionQueue) (v : SlotValue) : Bool := (q.chunks.lookup v).isSome

/-- `Finalize(v)`. -/
def finalize (q : TransactionQueue) (v : SlotValue) : Except Fault TransactionQueue :=
  match q.chunks.lookup v with
  | none => .error (.panic "We are finalizing a chunk but we don't know its data.")
  | some chunk =>
    if !q.accounts.validateChunk signatureValid (some chunk) then
      .error (.panic "We could not validate a finalized chunk.")
    else
      match q.accounts.processChunk signatureValid (some chunk) with
      | (false, _) => .error (.panic "We could not process a finalized chunk.")
      | (true, accounts) =>
        pure (revalidate signatureValid
          { q with
            oldChunks := q.oldChunks.insert q.slot chunk
            accounts := accounts
            last := v
            chunks := ∅
            slot := q.slot + 1 })

/-- `SuggestValue()`: a chunk of the pending transactions, keyed by its hash. -/
def suggestValue (q : TransactionQueue) :
    Except Fault ((SlotValue × Bool) × TransactionQueue) := do
  let ((key, chunk), q) ← q.newChunk sha3 q.transactions
  match chunk with
  | none => pure (("", false), q)
  | some _ => pure ((key, true), q)

def validateValue (q : TransactionQueue) (v : SlotValue) : Bool := (q.chunks.lookup v).isSome

/-- `SharingMessage()`: the pending transactions and the chunks, unless both
are empty. -/
def sharingMessage (q : TransactionQueue) : Option TransactionMessage :=
  if q.transactions = [] ∧ q.chunks.entries = [] then none
  else some ⟨q.transactions.map some, (q.chunks.entries.map fun e => ⟨e.1, some e.2⟩).toAList⟩

/-- `OldChunkMessage(slot)`: the chunk finalized at `slot`, under its hash. -/
def oldChunkMessage (q : TransactionQueue) (slot : Int) :
    Except Fault (Option TransactionMessage) :=
  match q.oldChunks.lookup slot with
  | none => pure none
  | some chunk => do
    let key ← chunk.hash sha3
    pure (some ⟨[], AList.singleton key (some chunk)⟩)

/-- `HandleInfoMessage(m)`: the account asked about, at the current slot. -/
def handleInfoMessage (q : TransactionQueue) : Option InfoMessage → Option AccountMessage
  | none => none
  | some m =>
    if m.account = "" then none
    else some ⟨q.slot, AList.singleton m.account (q.accounts.get m.account)⟩

/-- The queue as the consensus sees it. -/
def ops : ValueStore TransactionQueue where
  combine list q := q.combine sha3 list
  canFinalize v q := q.canFinalize v
  finalize v q := q.finalize signatureValid v
  last q := q.last
  suggestValue q := q.suggestValue sha3
  validateValue v q := q.validateValue v

/-! ## What `Add` can do -/

theorem validate_some_iff (q : TransactionQueue) (t : SignedTransaction) :
    q.validate signatureValid (some t) = true ↔
      t.verify signatureValid = true ∧
        ∃ tx, t.transaction = some tx ∧ q.accounts.validate tx = true := by
  unfold validate
  cases ht : t.transaction with
  | none => simp [ht]
  | some tx => simp [ht]

/-- `Add` never fails: a tree over the limit has a last element to evict. -/
theorem add_ok (q : TransactionQueue) (t : Option SignedTransaction) :
    ∃ r, q.add signatureValid t = .ok r := by
  cases t with
  | none => exact ⟨_, rfl⟩
  | some t =>
    dsimp only [add]
    split_ifs with hskip hover
    · exact ⟨_, rfl⟩
    · obtain ⟨worst, hworst⟩ := TreeSet.last?_isSome (by omega : 0 < (q.set.put priorityFirst t).size)
      rw [hworst]
      exact ⟨_, rfl⟩
    · exact ⟨_, rfl⟩

/-- Everything an `Add` does: only the tree changes, every member was a
member before or validates, and a queue within the limit stays within it. -/
theorem add_spec {q q' : TransactionQueue} {t : Option SignedTransaction} {b : Bool}
    (h : q.add signatureValid t = .ok (b, q')) :
    q' = { q with set := q'.set } ∧
      (∀ x ∈ q'.set.values, x ∈ q.set.values ∨ q.validate signatureValid (some x) = true) ∧
      (q.size ≤ queueLimit → q'.size ≤ queueLimit) := by
  cases t with
  | none =>
    cases h
    exact ⟨rfl, fun x hx => .inl hx, id⟩
  | some t =>
    dsimp only [add] at h
    by_cases hskip : (!q.validate signatureValid (some t) || q.contains t) = true
    · rw [if_pos hskip] at h
      cases h
      exact ⟨rfl, fun x hx => .inl hx, id⟩
    · rw [if_neg hskip] at h
      have hvalid : q.validate signatureValid (some t) = true := by
        simp only [Bool.or_eq_true, Bool.not_eq_true', not_or] at hskip
        simpa using hskip.1
      have hmem : ∀ x ∈ (q.set.put priorityFirst t).values,
          x ∈ q.set.values ∨ q.validate signatureValid (some x) = true := by
        intro x hx
        rcases TreeSet.mem_put hx with rfl | hx
        · exact .inr hvalid
        · exact .inl hx
      have hgrow : (q.set.put priorityFirst t).size ≤ q.set.size + 1 := TreeSet.size_put_le
      by_cases hover : (q.set.put priorityFirst t).size > queueLimit
      · rw [if_pos hover] at h
        cases hlast : (q.set.put priorityFirst t).last? priorityFirst with
        | none => rw [hlast] at h; cases h
        | some worst =>
          rw [hlast] at h
          cases h
          refine ⟨rfl, fun x hx => hmem x (TreeSet.mem_remove hx), fun hle => ?_⟩
          -- the evicted element was a member, so the tree is back to the limit
          have hshrink := TreeSet.size_remove_of_mem (TreeSet.last?_mem hlast)
          simp only [size] at hle ⊢
          omega
      · rw [if_neg hover] at h
        cases h
        refine ⟨rfl, hmem, fun _ => ?_⟩
        simp only [size]
        omega

/-! ## What `Remove` and `Revalidate` can do -/

/-- `Validate` reads the queue only through its accounts. -/
theorem validate_congr {q q' : TransactionQueue} (h : q'.accounts = q.accounts) :
    q'.validate signatureValid = q.validate signatureValid := by
  funext t
  cases t with
  | none => rfl
  | some t => simp only [validate, h]

theorem remove_spec (q : TransactionQueue) (t : Option SignedTransaction) :
    q.remove t = { q with set := (q.remove t).set } ∧ (q.remove t).set.values.Sublist q.set.values := by
  cases t with
  | none => exact ⟨rfl, List.Sublist.refl _⟩
  | some t => exact ⟨rfl, TreeSet.removeList_sublist⟩

/-- The loop of `Revalidate`, over the snapshot `ts` still to visit: only the
tree changes, it only shrinks, and a member that does not validate is still
to be visited. -/
theorem revalidate_loop (q : TransactionQueue) :
    ∀ (ts : List SignedTransaction) (r : TransactionQueue),
      (∃ set, r = { q with set := set }) → r.set.values.Sublist q.set.values →
      (∀ x ∈ r.set.values, q.validate signatureValid (some x) = true ∨ x ∈ ts) →
      let r' := ts.foldl (revalidateStep signatureValid) r
      (∃ set, r' = { q with set := set }) ∧ r'.set.values.Sublist q.set.values ∧
        ∀ x ∈ r'.set.values, q.validate signatureValid (some x) = true := by
  intro ts
  induction ts with
  | nil =>
    intro r hr hsub hmem
    refine ⟨hr, hsub, fun x hx => ?_⟩
    rcases hmem x hx with h | h
    · exact h
    · exact absurd h List.not_mem_nil
  | cons t ts ih =>
    intro r hr hsub hmem
    obtain ⟨set, rfl⟩ := hr
    apply ih
    · unfold revalidateStep
      split_ifs
      · exact ⟨_, rfl⟩
      · exact ⟨set, rfl⟩
    · unfold revalidateStep
      split_ifs
      · exact (remove_spec _ (some t)).2.trans hsub
      · exact hsub
    · intro x hx
      unfold revalidateStep at hx
      split_ifs at hx with hbad
      · -- `t` itself left, so the members still to visit are the rest
        have hne : x ≠ t := by
          rintro rfl
          exact TreeSet.cmp_ne_of_mem_remove hx (priorityFirst.self x)
        rcases hmem x (TreeSet.mem_remove hx) with h | h
        · exact .inl h
        · exact .inr ((List.mem_cons.mp h).resolve_left hne)
      · rcases hmem x hx with h | h
        · exact .inl h
        · rcases List.mem_cons.mp h with rfl | h
          · left
            have hacc : ({ q with set := set } : TransactionQueue).accounts = q.accounts := rfl
            rw [validate_congr signatureValid hacc] at hbad
            simpa using hbad
          · exact .inr h

/-- `Revalidate` changes only the tree, keeps a sublist of it, and keeps only
members that validate. -/
theorem revalidate_spec (q : TransactionQueue) :
    (∃ set, q.revalidate signatureValid = { q with set := set }) ∧
      (q.revalidate signatureValid).set.values.Sublist q.set.values ∧
      ∀ x ∈ (q.revalidate signatureValid).set.values, q.validate signatureValid (some x) = true :=
  revalidate_loop signatureValid q q.transactions q ⟨q.set, rfl⟩ (List.Sublist.refl _)
    (fun _ hx => .inr hx)

/-! ## What `HandleTransactionMessage` can do -/

/-- Everything a chunk of a message can do: only the chunks change, and a
chunk learnt validates against the accounts and hashes to its key. -/
theorem learnChunk_spec {acc acc' : Bool × TransactionQueue}
    {entry : Σ _ : SlotValue, Option LedgerChunk}
    (h : learnChunk signatureValid sha3 acc entry = .ok acc') :
    acc'.2 = { acc.2 with chunks := acc'.2.chunks } ∧
      ∀ v c, acc'.2.chunks.lookup v = some c →
        acc.2.chunks.lookup v = some c ∨
          (c.hash sha3 = .ok v ∧ acc.2.accounts.validateChunk signatureValid (some c) = true) := by
  have hsame : acc' = acc → acc'.2 = { acc.2 with chunks := acc'.2.chunks } ∧
      ∀ v c, acc'.2.chunks.lookup v = some c →
        acc.2.chunks.lookup v = some c ∨
          (c.hash sha3 = .ok v ∧ acc.2.accounts.validateChunk signatureValid (some c) = true) := by
    rintro rfl
    exact ⟨rfl, fun v c hc => .inl hc⟩
  unfold learnChunk at h
  split_ifs at h with hknown hinvalid
  · cases h; exact hsame rfl
  · cases h; exact hsame rfl
  · obtain ⟨key, chunk⟩ := entry
    cases chunk with
    | none => cases h; exact hsame rfl
    | some chunk =>
      obtain ⟨k, hk, hrest⟩ := Except.bind_eq_ok.mp h
      split_ifs at hrest with hne
      · cases hrest; exact hsame rfl
      · cases hrest
        have hkey : k = key := by simpa using hne
        subst hkey
        refine ⟨rfl, fun v c hc => ?_⟩
        by_cases hv : v = k
        · subst hv
          rw [AList.lookup_insert] at hc
          cases hc
          exact .inr ⟨hk, by simpa using hinvalid⟩
        · rw [AList.lookup_insert_ne hv] at hc
          exact .inl hc

/-- Alice's and bob's payments in one message, both valid and new to a
queue far below its limit: the loop stops offering transactions to `Add`
once the first went in, so bob's payment is not queued, although `Add` would
have kept it. -/
theorem transaction_message_adds_only_first :
    let q : TransactionQueue :=
      ((newTransactionQueue "A").setBalance "alice" 100).setBalance "bob" 100
    let ta : SignedTransaction := ⟨some ⟨"alice", 1, "carol", 10, 1⟩, "sa"⟩
    let tb : SignedTransaction := ⟨some ⟨"bob", 1, "carol", 10, 2⟩, "sb"⟩
    q.validate (fun _ _ => true) (some ta) = true ∧ q.validate (fun _ _ => true) (some tb) = true ∧
      ∃ q', q.handleTransactionMessage (fun _ _ => true) sha3 (some ⟨[some ta, some tb], ∅⟩) =
          .ok (true, q') ∧
        q'.contains ta = true ∧ q'.contains tb = false ∧ q'.size = 1 ∧
        ∃ q'', q'.add (fun _ _ => true) (some tb) = .ok (true, q'') := by
  exact ⟨rfl, rfl, _, rfl, rfl, rfl, rfl, _, rfl⟩

/-! ## `NewChunk` builds chunks that validate -/

end TransactionQueue

namespace ChunkBuilder

variable (signatureValid : SignatureCheck)

/-- What the loop of `NewChunk` keeps, relative to the map `m` its validator
copies: the transactions so far go through on `m` and end where the
validator is, every recorded account is the validator's, and the chunk is
within its size. -/
structure Agrees (m : AccountMap) (b : ChunkBuilder) : Prop where
  process : ∃ w, m.processTransactions signatureValid (b.transactions.map some) = (true, w) ∧
    AccountMap.Equiv w b.validator
  state : ∀ key a, b.state.lookup key = some a → a = b.validator.get key
  length_le : b.transactions.length ≤ maxChunkSize

/-- The loop starts out agreeing with the map it copies. -/
theorem agrees_start (m : AccountMap) :
    Agrees signatureValid m ⟨[], m.cowCopy, ∅⟩ := by
  refine ⟨⟨m, rfl, fun key => (AccountMap.get_cowCopy m key).symm⟩, ?_, Nat.zero_le _⟩
  intro key a h
  rw [AList.lookup_empty] at h
  cases h

/-- One transaction of the loop keeps the agreement: a transaction that goes
through extends the successful run, one that does not changes nothing, and
`Process` writes only the two accounts the loop records again. -/
theorem Agrees.push {m : AccountMap} {b : ChunkBuilder}
    (hb : b.Agrees signatureValid m) (hlen : b.transactions.length < maxChunkSize)
    {t : SignedTransaction} {tx : Transaction} (htx : t.transaction = some tx)
    (hv : t.verify signatureValid = true) : (b.push t tx).Agrees signatureValid m := by
  obtain ⟨w, hw, heqv⟩ := hb.process
  obtain ⟨hok, hequiv⟩ := AccountMap.process_congr heqv tx
  refine ⟨?_, ?_, ?_⟩
  · cases hp : (b.validator.process tx).1 with
    | true =>
      refine ⟨(w.process tx).2, ?_, hequiv⟩
      simp only [ChunkBuilder.push, hp, if_true, List.map_append, List.map_singleton]
      exact AccountMap.processTransactions_snoc signatureValid hw htx hv (hok.trans hp)
    | false =>
      refine ⟨w, ?_, ?_⟩
      · simpa only [ChunkBuilder.push, hp, Bool.false_eq_true, if_false] using hw
      · simp only [ChunkBuilder.push]
        rw [AccountMap.process_snd_of_fst_false hp]
        exact heqv
  · intro key a hkey
    simp only [ChunkBuilder.push] at hkey ⊢
    by_cases hto : key = tx.«to»
    · subst hto
      rw [AList.lookup_insert] at hkey
      cases hkey
      rfl
    · rw [AList.lookup_insert_ne hto] at hkey
      by_cases hfrom : key = tx.«from»
      · subst hfrom
        rw [AList.lookup_insert] at hkey
        cases hkey
        rfl
      · rw [AList.lookup_insert_ne hfrom] at hkey
        rw [hb.state key a hkey, AccountMap.get_process_of_ne _ _ hfrom hto]
  · simp only [ChunkBuilder.push]
    split_ifs
    · simp only [List.length_append, List.length_singleton]
      omega
    · omega

/-- The chunk of an agreeing builder passes `ValidateChunk` on the map. -/
theorem Agrees.validateChunk {m : AccountMap} {b : ChunkBuilder}
    (hb : b.Agrees signatureValid m) :
    m.validateChunk signatureValid (some ⟨b.transactions.map some, b.state⟩) = true := by
  rw [AccountMap.validateChunk_eq]
  obtain ⟨w, hw, heqv⟩ := hb.process
  have hlen : ¬ (b.transactions.map some).length > maxChunkSize := by
    simpa using hb.length_le
  simp only [AccountMap.processChunk, hlen, if_false, hw, List.all_eq_true]
  intro e he
  have hlookup : b.state.lookup e.1 = some e.2 := AList.mem_lookup_iff.mpr he
  rw [hb.state e.1 e.2 hlookup, ← heqv e.1]
  exact AccountMap.checkEqual_get w e.1

end ChunkBuilder

namespace TransactionQueue

variable (signatureValid : SignatureCheck) (sha3 : List UInt8 → List UInt8)

/-- The run of the loop keeps the agreement, over inputs that verify. -/
theorem newChunkLoop_agrees {m : AccountMap} :
    ∀ (ts : List SignedTransaction) (b b' : ChunkBuilder) (last : Option SignedTransaction),
      (∀ t ∈ ts, t.verify signatureValid = true) → b.Agrees signatureValid m →
      b.transactions.length < maxChunkSize → newChunkLoop b last ts = .ok b' →
      b'.Agrees signatureValid m := by
  intro ts
  induction ts with
  | nil =>
    intro b b' last _ hb _ h
    cases h
    exact hb
  | cons t ts ih =>
    intro b b' last hts hb hlen h
    have hv := hts t List.mem_cons_self
    obtain ⟨tx, htx⟩ := verify_isSome hv
    have hpush := hb.push signatureValid hlen htx hv
    simp only [newChunkLoop, htx] at h
    by_cases hsorted : (last.map fun l => decide (highestPriorityFirst l t ≥ 0)) = some true
    · rw [if_pos hsorted] at h
      cases h
    rw [if_neg hsorted] at h
    by_cases hfull : (b.push t tx).transactions.length = maxChunkSize
    · rw [if_pos hfull] at h
      cases h
      exact hpush
    · rw [if_neg hfull] at h
      exact ih _ _ _ (fun x hx => hts x (List.mem_cons_of_mem t hx)) hpush
        (Nat.lt_of_le_of_ne hpush.length_le hfull) h

/-- Everything `NewChunk` can do to the queue, over inputs that verify:
nothing, or cache a chunk that validates under its own hash. -/
theorem newChunk_cases {q q' : TransactionQueue} {ts : List SignedTransaction}
    {key : SlotValue} {chunk : Option LedgerChunk} (hts : ∀ t ∈ ts, t.verify signatureValid = true)
    (h : q.newChunk sha3 ts = .ok ((key, chunk), q')) :
    q' = q ∨ ∃ c, chunk = some c ∧ c.hash sha3 = .ok key ∧
      q.accounts.validateChunk signatureValid (some c) = true ∧
      q' = { q with chunks := q.chunks.insert key c } := by
  obtain ⟨b, hb, hrest⟩ := Except.bind_eq_ok.mp h
  have hagree := newChunkLoop_agrees signatureValid ts _ b none hts
    (ChunkBuilder.agrees_start signatureValid q.accounts) (by simp [maxChunkSize]) hb
  split_ifs at hrest with hempty
  · cases hrest
    exact .inl rfl
  · obtain ⟨k, hk, hcache⟩ := Except.bind_eq_ok.mp hrest
    split_ifs at hcache with hknown
    · cases hcache
      exact .inl rfl
    · cases hcache
      exact .inr ⟨_, rfl, hk, hagree.validateChunk, rfl⟩

/-- A chunk `NewChunk` returns, from transactions that verify, holds between
one and `MaxChunkSize` transactions and passes `ValidateChunk` on the
queue's accounts: its transactions all go through on them in order, and
each state entry is the account they end with. -/
theorem newChunk_chunk_validates {q q' : TransactionQueue} {ts : List SignedTransaction}
    {key : SlotValue} {c : LedgerChunk} (hts : ∀ t ∈ ts, t.verify signatureValid = true)
    (h : q.newChunk sha3 ts = .ok ((key, some c), q')) :
    1 ≤ c.transactions.length ∧ c.transactions.length ≤ maxChunkSize ∧
      q.accounts.validateChunk signatureValid (some c) = true ∧
      ∃ w, q.accounts.processTransactions signatureValid c.transactions = (true, w) ∧
        ∀ owner account, c.state.lookup owner = some account → w.get owner = account := by
  obtain ⟨b, hb, hrest⟩ := Except.bind_eq_ok.mp h
  have hagree := newChunkLoop_agrees signatureValid ts _ b none hts
    (ChunkBuilder.agrees_start signatureValid q.accounts) (by simp [maxChunkSize]) hb
  split_ifs at hrest with hempty
  · cases hrest
  obtain ⟨k, -, hcache⟩ := Except.bind_eq_ok.mp hrest
  -- cached or not, the chunk is the builder's
  have hc : c = ⟨b.transactions.map some, b.state⟩ := by
    split_ifs at hcache <;> cases hcache <;> rfl
  subst hc
  obtain ⟨w, hw, heqv⟩ := hagree.process
  refine ⟨?_, ?_, hagree.validateChunk, w, hw, fun owner account howner => ?_⟩
  · simp only [List.length_map]
    omega
  · simpa using hagree.length_le
  · rw [hagree.state owner account howner]
    exact heqv owner

/-- From alice's 100: alice pays bob 10, then a second payment of alice's to bob reuses her
sequence number 1 and fails, then bob pays alice 5 out of what he got. The chunk holds the first
and the third, and validates. -/
theorem newChunk_chunk_validates_failing_payment :
    ∃ key c q', (∀ x ∈ [(⟨some ⟨"alice", 1, "bob", 10, 2⟩, "s1"⟩ : SignedTransaction),
          ⟨some ⟨"alice", 1, "bob", 20, 1⟩, "s2"⟩, ⟨some ⟨"bob", 1, "alice", 5, 1⟩, "s3"⟩],
        x.verify (fun _ _ => true) = true) ∧
      ((newTransactionQueue "A").setBalance "alice" 100).newChunk (fun _ => [])
          [⟨some ⟨"alice", 1, "bob", 10, 2⟩, "s1"⟩, ⟨some ⟨"alice", 1, "bob", 20, 1⟩, "s2"⟩,
            ⟨some ⟨"bob", 1, "alice", 5, 1⟩, "s3"⟩] = .ok ((key, some c), q') ∧
      c.transactions = [some ⟨some ⟨"alice", 1, "bob", 10, 2⟩, "s1"⟩,
        some ⟨some ⟨"bob", 1, "alice", 5, 1⟩, "s3"⟩] ∧
      1 ≤ c.transactions.length ∧ c.transactions.length ≤ maxChunkSize ∧
      ((newTransactionQueue "A").setBalance "alice" 100).accounts.validateChunk
        (fun _ _ => true) (some c) = true ∧
      ∃ w, ((newTransactionQueue "A").setBalance "alice" 100).accounts.processTransactions
          (fun _ _ => true) c.transactions = (true, w) ∧
        ∀ owner account, c.state.lookup owner = some account → w.get owner = account := by
  have hts : ∀ x ∈ [(⟨some ⟨"alice", 1, "bob", 10, 2⟩, "s1"⟩ : SignedTransaction),
      ⟨some ⟨"alice", 1, "bob", 20, 1⟩, "s2"⟩, ⟨some ⟨"bob", 1, "alice", 5, 1⟩, "s3"⟩],
      x.verify (fun _ _ => true) = true := by
    decide
  obtain ⟨key, c, q', hnew, hchunk⟩ : ∃ key c q',
      ((newTransactionQueue "A").setBalance "alice" 100).newChunk (fun _ => [])
          [⟨some ⟨"alice", 1, "bob", 10, 2⟩, "s1"⟩, ⟨some ⟨"alice", 1, "bob", 20, 1⟩, "s2"⟩,
            ⟨some ⟨"bob", 1, "alice", 5, 1⟩, "s3"⟩] = .ok ((key, some c), q') ∧
        c.transactions = [some ⟨some ⟨"alice", 1, "bob", 10, 2⟩, "s1"⟩,
          some ⟨some ⟨"bob", 1, "alice", 5, 1⟩, "s3"⟩] :=
    ⟨_, _, _, rfl, rfl⟩
  exact ⟨key, c, q', hts, hnew, hchunk,
    newChunk_chunk_validates (fun _ _ => true) (fun _ => []) hts hnew⟩

/-! ## `Combine`, `SuggestValue` and `Finalize` -/

/-- Every transaction `Combine` gathers is one of a listed chunk's. -/
theorem combineSet_spec {q : TransactionQueue} {list : List SlotValue}
    {set : TreeSet priorityFirst} (h : q.combineSet list = .ok set) :
    ∀ t ∈ set.values, ∃ v c, q.chunks.lookup v = some c ∧ some t ∈ c.transactions := by
  let I : TreeSet priorityFirst → Prop :=
    fun s => ∀ t ∈ s.values, ∃ v c, q.chunks.lookup v = some c ∧ some t ∈ c.transactions
  refine StepRun.foldlM_invariant I ?_ list (fun t ht => absurd ht List.not_mem_nil) h
  intro s v s' hs hstep
  cases hc : q.chunks.lookup v with
  | none => simp only [hc] at hstep; cases hstep
  | some chunk =>
    simp only [hc] at hstep
    -- the inner loop only puts transactions of this chunk
    refine StepRun.foldlM_invariant_of I (· ∈ chunk.transactions) ?_ chunk.transactions
      (fun _ h => h) hs hstep
    intro s₁ t s₂ ht hs₁ hput
    cases t with
    | none => cases hput
    | some t =>
      cases hput
      intro x hx
      rcases TreeSet.mem_put hx with rfl | hx
      · exact ⟨v, chunk, hc, ht⟩
      · exact hs₁ x hx

/-- Everything `Combine` can do to the queue, over chunks whose transactions
verify: what `NewChunk` can do. -/
theorem combine_cases {q q' : TransactionQueue} {list : List SlotValue} {value : SlotValue}
    (hverify : ∀ v c, q.chunks.lookup v = some c → ∀ t ∈ c.transactions,
      ∃ s, t = some s ∧ s.verify signatureValid = true)
    (h : q.combine sha3 list = .ok (value, q')) :
    q' = q ∨ ∃ c, c.hash sha3 = .ok value ∧
      q.accounts.validateChunk signatureValid (some c) = true ∧
      q' = { q with chunks := q.chunks.insert value c } := by
  obtain ⟨set, hset, hrest⟩ := Except.bind_eq_ok.mp h
  obtain ⟨⟨⟨key, chunk⟩, q₁⟩, hnew, hlast⟩ := Except.bind_eq_ok.mp hrest
  have hts : ∀ t ∈ set.values, t.verify signatureValid = true := by
    intro t ht
    obtain ⟨v, c, hc, hmem⟩ := combineSet_spec hset t ht
    obtain ⟨s, hs, hv⟩ := hverify v c hc (some t) hmem
    cases hs
    exact hv
  cases chunk with
  | none => cases hlast
  | some c =>
    cases hlast
    obtain rfl | ⟨c', -, hc', hvalid, rfl⟩ := newChunk_cases signatureValid sha3 hts hnew
    · exact .inl rfl
    · exact .inr ⟨c', hc', hvalid, rfl⟩

/-- Everything `SuggestValue` can do to the queue, over pending transactions
that verify: what `NewChunk` can do. -/
theorem suggestValue_cases {q q' : TransactionQueue} {r : SlotValue × Bool}
    (hverify : ∀ t ∈ q.transactions, t.verify signatureValid = true)
    (h : q.suggestValue sha3 = .ok (r, q')) :
    q' = q ∨ ∃ c, c.hash sha3 = .ok r.1 ∧
      q.accounts.validateChunk signatureValid (some c) = true ∧
      q' = { q with chunks := q.chunks.insert r.1 c } := by
  obtain ⟨⟨⟨key, chunk⟩, q₁⟩, hnew, hlast⟩ := Except.bind_eq_ok.mp h
  obtain rfl | ⟨c, rfl, hc, hvalid, rfl⟩ := newChunk_cases signatureValid sha3 hverify hnew
  · cases chunk <;> cases hlast <;> exact .inl rfl
  · cases hlast
    exact .inr ⟨c, hc, hvalid, rfl⟩

/-- With nothing pending there is no chunk to suggest, and the queue stays
as it was. -/
theorem suggestValue_of_transactions_nil {q : TransactionQueue} (h : q.transactions = []) :
    q.suggestValue sha3 = .ok (("", false), q) := by
  simp only [suggestValue, newChunk, h, newChunkLoop]
  rfl

/-- What a successful `Finalize` did: the chunk was known and processed, and
the queue moved on to the next slot with no chunks and a revalidated tree. -/
theorem finalize_cases {q q' : TransactionQueue} {v : SlotValue}
    (h : q.finalize signatureValid v = .ok q') :
    ∃ chunk accounts, q.chunks.lookup v = some chunk ∧
      q.accounts.processChunk signatureValid (some chunk) = (true, accounts) ∧
      q' = revalidate signatureValid
        { q with
          oldChunks := q.oldChunks.insert q.slot chunk
          accounts := accounts
          last := v
          chunks := ∅
          slot := q.slot + 1 } := by
  unfold finalize at h
  cases hc : q.chunks.lookup v with
  | none => simp only [hc] at h; cases h
  | some chunk =>
    simp only [hc] at h
    by_cases hinvalid : (!q.accounts.validateChunk signatureValid (some chunk)) = true
    · rw [if_pos hinvalid] at h
      cases h
    rw [if_neg hinvalid] at h
    cases hp : q.accounts.processChunk signatureValid (some chunk) with
    | mk ok accounts =>
      rw [hp] at h
      cases ok
      · cases h
      · cases h
        exact ⟨chunk, accounts, rfl, hp, rfl⟩

/-- `Finalize` of a known chunk that validates against the accounts reaches
none of its three panics. -/
theorem finalize_ok {q : TransactionQueue} {v : SlotValue} {chunk : LedgerChunk}
    (hc : q.chunks.lookup v = some chunk)
    (hvalid : q.accounts.validateChunk signatureValid (some chunk) = true) :
    ∃ q', q.finalize signatureValid v = .ok q' := by
  have hprocess : (q.accounts.processChunk signatureValid (some chunk)).1 = true := by
    rw [← AccountMap.validateChunk_eq]
    exact hvalid
  unfold finalize
  simp only [hc, hvalid, Bool.not_true, Bool.false_eq_true, if_false]
  cases hp : q.accounts.processChunk signatureValid (some chunk) with
  | mk ok accounts =>
    rw [hp] at hprocess
    cases hprocess
    exact ⟨_, rfl⟩

end TransactionQueue

end Coinkit.Currency

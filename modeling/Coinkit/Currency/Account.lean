import Coinkit.Util.Basic
import Coinkit.Lib.TreeSet
import Mathlib.Data.Prod.Lex
import Mathlib.Data.String.Basic

/-!
# Accounts and transactions

`currency/account.go` and `currency/transaction.go`. Balances are Go
`uint64` and sequence numbers `uint32`, so they are `UInt64` and `UInt32`
here and every sum the code computes wraps as it does in Go. Account
identities are public-key strings.

A `SignedTransaction` embeds a `*Transaction` that a decoded message may
leave nil; `Verify` answers `false` for it before anything else. The rest of
`Verify` (parsing both keys, JSON-encoding the transaction and checking the
ed25519 signature) rests on code outside `src/` and is the parameter
`signatureValid`.

`HighestPriorityFirst` is the comparator of the pending-transaction tree:
higher fee first, then smaller signature. It reads the fee through the
pointer; every transaction the queue orders has passed `Verify`, so the model
reads a nil transaction's fee as zero, a case no queue ever holds.
-/

set_option autoImplicit false

namespace Coinkit.Currency

/-- `Account`: the sequence number of the last authorized transaction, and
the balance in nanocoins. -/
structure Account where
  sequence : UInt32
  balance : UInt64
  deriving DecidableEq, Repr

/-- The little-endian bytes of a `uint32`. -/
def le32 (v : UInt32) : List UInt8 :=
  (List.range 4).map fun i => (v >>> (8 * i).toUInt32).toUInt8

/-- The little-endian bytes of a `uint64`. -/
def le64 (v : UInt64) : List UInt8 :=
  (List.range 8).map fun i => (v >>> (8 * i).toUInt64).toUInt8

/-- `Account.Bytes`: `binary.Write` of the struct, field by field, little
endian. -/
def Account.bytes (a : Account) : List UInt8 := le32 a.sequence ++ le64 a.balance

/-- `Transaction`. -/
structure Transaction where
  «from» : String
  sequence : UInt32
  «to» : String
  amount : UInt64
  fee : UInt64
  deriving DecidableEq, Repr

/-- `SignedTransaction`: the embedded pointer, and the signature. -/
structure SignedTransaction where
  transaction : Option Transaction
  signature : String
  deriving DecidableEq, Repr

/-- The signature check a non-nil transaction goes through. -/
abbrev SignatureCheck := Transaction → String → Bool

/-- `SignedTransaction.Verify`. -/
def SignedTransaction.verify (signatureValid : SignatureCheck) (s : SignedTransaction) : Bool :=
  match s.transaction with
  | none => false
  | some t => signatureValid t s.signature

/-- The fee the comparator reads through the embedded pointer. -/
def SignedTransaction.fee (s : SignedTransaction) : UInt64 :=
  match s.transaction with
  | some t => t.fee
  | none => 0

/-- `HighestPriorityFirst(a, b)`: negative when `a` comes first. -/
def highestPriorityFirst (a b : SignedTransaction) : Int :=
  if a.fee > b.fee then -1
  else if a.fee < b.fee then 1
  else if a.signature < b.signature then -1
  else if a.signature > b.signature then 1
  else 0

/-- The order `HighestPriorityFirst` sorts by: fee descending, then
signature ascending. -/
def priorityKey (s : SignedTransaction) : Lex (ℕᵒᵈ × String) :=
  toLex (OrderDual.toDual s.fee.toNat, s.signature)

theorem priorityKey_lt_iff (a b : SignedTransaction) :
    priorityKey a < priorityKey b ↔
      b.fee < a.fee ∨ (a.fee = b.fee ∧ a.signature < b.signature) := by
  simp only [priorityKey, Prod.Lex.toLex_lt_toLex, OrderDual.toDual_lt_toDual,
    UInt64.lt_iff_toNat_lt, EmbeddingLike.apply_eq_iff_eq, UInt64.toNat_inj]

/-- `HighestPriorityFirst` is the comparison of priority keys. -/
theorem highestPriorityFirst_eq_keyCmp (a b : SignedTransaction) :
    highestPriorityFirst a b = Comparator.keyCmp priorityKey a b := by
  have hfee : ¬ b.fee < a.fee → ¬ a.fee < b.fee → a.fee = b.fee := by
    simp only [UInt64.lt_iff_toNat_lt, ← UInt64.toNat_inj]
    omega
  unfold highestPriorityFirst Comparator.keyCmp
  simp only [priorityKey_lt_iff, gt_iff_lt]
  by_cases h₁ : b.fee < a.fee
  · simp [h₁]
  · by_cases h₂ : a.fee < b.fee
    · have hne : a.fee ≠ b.fee := by
        intro h
        rw [h] at h₂
        exact absurd h₂ (UInt64.lt_irrefl _)
      simp [h₁, h₂, hne]
    · have heq := hfee h₁ h₂
      simp [heq]

/-- The comparator of the pending-transaction tree. -/
def priorityFirst : Comparator SignedTransaction :=
  (Comparator.ofKey priorityKey).transport highestPriorityFirst highestPriorityFirst_eq_keyCmp

theorem verify_isSome {signatureValid : SignatureCheck} {s : SignedTransaction}
    (h : s.verify signatureValid = true) : ∃ t, s.transaction = some t := by
  unfold SignedTransaction.verify at h
  cases ht : s.transaction with
  | none => rw [ht] at h; cases h
  | some t => exact ⟨t, rfl⟩

end Coinkit.Currency

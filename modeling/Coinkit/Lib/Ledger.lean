import Mathlib

/-!
# Ledgers of accounts with sequence numbers

An abstract account ledger. Every owner has a balance, a natural number, and the sequence number
of the last payment it made. A payment names its source, the sequence number it spends, its
target, an amount and a fee. It is valid when it spends the source's next sequence number, pays
another owner, and the source can afford the amount and the fee together; it then moves the
amount from the source to the target, burns the fee, and moves the source's sequence number on.
`payAll` makes payments one after another and fails at the first invalid one.

What a run of payments does to each owner is proved once here: an owner ends with its balance
plus what the payments pay it, less what its own payments cost (`payAll_balance`), and no
payment ever overdraws, since each was valid where it was made.

Nothing here mentions what the owners or the sequence numbers are.
-/

set_option autoImplicit false

/-- A ledger: each owner's balance and the sequence number of its last payment. -/
structure Ledger (κ σ : Type) where
  balance : κ → ℕ
  sequence : κ → σ

/-- A payment from `source` to `target`, spending the source's sequence number `sequence`. -/
structure Payment (κ σ : Type) where
  source : κ
  sequence : σ
  target : κ
  amount : ℕ
  fee : ℕ

namespace Ledger

variable {κ σ : Type} [DecidableEq κ]

/-- The ledger after a payment: the source pays the amount and the fee and spends the payment's
sequence number, the target gets the amount. -/
def pay (L : Ledger κ σ) (p : Payment κ σ) : Ledger κ σ where
  balance k :=
    if k = p.source then L.balance k - (p.amount + p.fee)
    else if k = p.target then L.balance k + p.amount
    else L.balance k
  sequence k := if k = p.source then p.sequence else L.sequence k

/-- What an owner's payments among them cost it, amounts and fees. -/
def spent (k : κ) (ps : List (Payment κ σ)) : ℕ :=
  ((ps.filter fun p => p.source = k).map fun p => p.amount + p.fee).sum

/-- What the payments among them pay an owner. -/
def received (k : κ) (ps : List (Payment κ σ)) : ℕ :=
  ((ps.filter fun p => p.target = k).map fun p => p.amount).sum

theorem spent_cons (k : κ) (p : Payment κ σ) (ps : List (Payment κ σ)) :
    spent k (p :: ps) = (if p.source = k then p.amount + p.fee else 0) + spent k ps := by
  by_cases h : p.source = k <;> simp [spent, h]

theorem received_cons (k : κ) (p : Payment κ σ) (ps : List (Payment κ σ)) :
    received k (p :: ps) = (if p.target = k then p.amount else 0) + received k ps := by
  by_cases h : p.target = k <;> simp [received, h]

variable [Add σ] [One σ]

/-- A payment is valid on a ledger when it spends the source's next sequence number, pays another
owner, and the source can afford the amount and the fee. -/
def Valid (L : Ledger κ σ) (p : Payment κ σ) : Prop :=
  p.sequence = L.sequence p.source + 1 ∧ p.source ≠ p.target ∧ p.amount + p.fee ≤ L.balance p.source

/-- A valid payment moves each owner's balance by what it moves for that owner. -/
theorem pay_balance {L : Ledger κ σ} {p : Payment κ σ} (h : L.Valid p) (k : κ) :
    (L.pay p).balance k + (if p.source = k then p.amount + p.fee else 0) =
      L.balance k + (if p.target = k then p.amount else 0) := by
  obtain ⟨-, hne, hafford⟩ := h
  by_cases hs : p.source = k
  · subst hs
    simp only [pay, if_true, if_neg hne, if_neg (Ne.symm hne)]
    omega
  · have hk : k ≠ p.source := Ne.symm hs
    by_cases ht : p.target = k
    · subst ht
      simp [pay, hk, hs]
    · simp [pay, hk, hs, ht, Ne.symm ht]

variable [DecidableEq σ]

instance (L : Ledger κ σ) (p : Payment κ σ) : Decidable (L.Valid p) :=
  inferInstanceAs (Decidable (_ ∧ _ ∧ _))

/-- A payment, when it is valid. -/
def pay? (L : Ledger κ σ) (p : Payment κ σ) : Option (Ledger κ σ) :=
  if L.Valid p then some (L.pay p) else none

/-- Payments one after another, failing at the first invalid one. -/
def payAll (L : Ledger κ σ) (ps : List (Payment κ σ)) : Option (Ledger κ σ) :=
  ps.foldlM pay? L

theorem payAll_cons (L : Ledger κ σ) (p : Payment κ σ) (ps : List (Payment κ σ)) :
    L.payAll (p :: ps) = if L.Valid p then (L.pay p).payAll ps else none := by
  unfold payAll
  rw [List.foldlM_cons]
  unfold pay?
  split_ifs <;> rfl

theorem payAll_append (L : Ledger κ σ) (ps qs : List (Payment κ σ)) :
    L.payAll (ps ++ qs) = (L.payAll ps).bind fun L' => L'.payAll qs :=
  List.foldlM_append

/-- Payments that all go through move each owner's balance by exactly what they move for it:
induction on the payments, one `pay_balance` each. -/
theorem payAll_balance (k : κ) :
    ∀ (ps : List (Payment κ σ)) {L L' : Ledger κ σ}, L.payAll ps = some L' →
      L'.balance k + spent k ps = L.balance k + received k ps
  | [], L, L', h => by
    cases h
    rfl
  | p :: ps, L, L', h => by
    rw [payAll_cons] at h
    split_ifs at h with hvalid
    have hstep := pay_balance hvalid k
    have ih := payAll_balance k ps h
    rw [spent_cons, received_cons]
    omega

end Ledger

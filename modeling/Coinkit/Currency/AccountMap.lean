import Coinkit.Currency.Account
import Mathlib.Data.List.AList
import Mathlib.Data.List.Dedup
import Mathlib.Algebra.GroupWithZero.Nat

/-!
# The account map

`currency/account_map.go`. An `AccountMap` maps owners to accounts and falls
back to another map for owners it has no data on: `CowCopy` is a fresh empty
map over the original, so writes to the copy are invisible to the original.
The Go map is an `AList` (a list of entries with distinct keys) of
`*Account`, so an entry may hold nil, and `Get` falls through a nil entry to
the fallback just as through a missing one. A copy keeps its original by
value, which is faithful because the code never writes the original while a
copy is alive.

`Validate` checks the sender's next sequence number and that `Amount + Fee`
(a `uint64` sum, which wraps) does not exceed the balance. `Process` then
writes two accounts: the sender's, and then the receiver's, the latter built
from the receiver as read BEFORE the first write.

## What is proved

The observational spec of the map (`get_set`, `get_cowCopy`) and of a
successful `Process` (`get_process`), and that a failed `Process` writes
nothing (`process_of_validate_false`). Everything `Process` computes depends
only on what `Get` answers (`process_congr`): this is what makes a
copy-on-write map interchangeable with its original.

At a self-payment (`From = To`) the second write replaces the first with the
receiver's old account plus the amount: the sender keeps its old sequence
number and is not charged. Money appears, and the very same transaction
validates again.
-/

set_option autoImplicit false

namespace Coinkit.Currency

/-- `AccountMap`: data, and the map to fall back to. -/
structure AccountMap where
  data : AList (fun _ : String => Option Account)
  fallback : Option AccountMap

namespace AccountMap

/-- `NewAccountMap`. -/
def new : AccountMap := ⟨∅, none⟩

/-- `CowCopy`: a fresh map falling back to this one. -/
def cowCopy (m : AccountMap) : AccountMap := ⟨∅, some m⟩

/-- `Get`: our data, and the fallback's answer when we have none. A missing
entry reads as nil. -/
def get : AccountMap → String → Option Account
  | ⟨data, none⟩, key => (data.lookup key).getD none
  | ⟨data, some f⟩, key =>
    match (data.lookup key).getD none with
    | some a => some a
    | none => f.get key

/-- `Set`. -/
def set (m : AccountMap) (key : String) (account : Option Account) : AccountMap :=
  { m with data := m.data.insert key account }

/-- `CheckEqual(key, account)`: both absent, or the same sequence and balance. -/
def checkEqual (m : AccountMap) (key : String) (account : Option Account) : Bool :=
  match m.get key, account with
  | none, none => true
  | some a, some b => a.sequence == b.sequence && a.balance == b.balance
  | _, _ => false

/-- `Validate(t)`. -/
def validate (m : AccountMap) (t : Transaction) : Bool :=
  match m.get t.«from» with
  | none => false
  | some account => account.sequence + 1 == t.sequence && !(t.amount + t.fee > account.balance)

/-- `SetBalance(owner, amount)`: keeps the owner's sequence number. -/
def setBalance (m : AccountMap) (owner : String) (amount : UInt64) : AccountMap :=
  let sequence := match m.get owner with
    | some old => old.sequence
    | none => 0
  m.set owner (some ⟨sequence, amount⟩)

/-- `Process(t)`: whether it went through, and the map afterwards. -/
def process (m : AccountMap) (t : Transaction) : Bool × AccountMap :=
  if m.validate t then
    match m.get t.«from» with
    | some source =>
      let target := (m.get t.«to»).getD ⟨0, 0⟩
      let newSource : Account := ⟨t.sequence, source.balance - t.amount - t.fee⟩
      let newTarget : Account := ⟨target.sequence, target.balance + t.amount⟩
      (true, (m.set t.«from» (some newSource)).set t.«to» (some newTarget))
    -- `Validate` has just found the sender's account
    | none => (false, m)
  else (false, m)

/-- The owners the map or its fallbacks hold data on. -/
def keys : AccountMap → List String
  | ⟨data, none⟩ => data.keys
  | ⟨data, some f⟩ => data.keys ++ f.keys

/-- The money in the map: every owner's visible balance, once each, summed
over the natural numbers. -/
def totalBalance (m : AccountMap) : Nat :=
  (m.keys.dedup.map fun k => ((m.get k).map fun a => a.balance.toNat).getD 0).sum

/-! ## The observational spec -/

@[simp] theorem get_cowCopy (m : AccountMap) (key : String) : m.cowCopy.get key = m.get key := by
  simp [cowCopy, get]

@[simp] theorem get_set (m : AccountMap) (key key' : String) (account : Account) :
    (m.set key (some account)).get key' = if key' = key then some account else m.get key' := by
  obtain ⟨data, fallback⟩ := m
  by_cases h : key' = key
  · subst h
    cases fallback <;> simp [set, get, AList.lookup_insert]
  · cases fallback <;> simp only [set, get, AList.lookup_insert_ne h, if_neg h]

theorem validate_iff (m : AccountMap) (t : Transaction) :
    m.validate t = true ↔ ∃ source, m.get t.«from» = some source ∧
      source.sequence + 1 = t.sequence ∧ ¬ t.amount + t.fee > source.balance := by
  unfold validate
  cases m.get t.«from» with
  | none => simp
  | some source => simp

/-- A failed `Process` writes nothing. -/
theorem process_of_validate_false {m : AccountMap} {t : Transaction} (h : m.validate t = false) :
    m.process t = (false, m) := by
  simp [process, h]

/-- What a successful `Process` leaves behind: the receiver's new account,
else the sender's, else the old answer. The receiver is written last, so at
a self-payment it is the receiver's account that remains. -/
theorem get_process {m : AccountMap} {t : Transaction} (h : m.validate t = true) :
    ∃ source, m.get t.«from» = some source ∧ (m.process t).1 = true ∧
      ∀ key, (m.process t).2.get key =
        if key = t.«to» then
          some ⟨((m.get t.«to»).getD ⟨0, 0⟩).sequence,
            ((m.get t.«to»).getD ⟨0, 0⟩).balance + t.amount⟩
        else if key = t.«from» then some ⟨t.sequence, source.balance - t.amount - t.fee⟩
        else m.get key := by
  obtain ⟨source, hsource, -, -⟩ := (validate_iff m t).mp h
  refine ⟨source, hsource, ?_, ?_⟩
  · simp [process, h, hsource]
  · intro key
    simp only [process, h, if_true, hsource, get_set]

/-- `Process` writes only the sender and the receiver. -/
theorem get_process_of_ne (m : AccountMap) (t : Transaction) {key : String}
    (hfrom : key ≠ t.«from») (hto : key ≠ t.«to») : (m.process t).2.get key = m.get key := by
  cases hv : m.validate t with
  | false => rw [process_of_validate_false hv]
  | true =>
    obtain ⟨_, _, _, hget⟩ := get_process hv
    rw [hget key, if_neg hto, if_neg hfrom]

/-- Two maps that answer every `Get` alike. -/
def Equiv (m₁ m₂ : AccountMap) : Prop := ∀ key, m₁.get key = m₂.get key

theorem Equiv.refl (m : AccountMap) : Equiv m m := fun _ => rfl

theorem Equiv.cowCopy (m : AccountMap) : Equiv m.cowCopy m := get_cowCopy m

theorem Equiv.set {m₁ m₂ : AccountMap} (h : Equiv m₁ m₂) (key : String) (a : Account) :
    Equiv (m₁.set key (some a)) (m₂.set key (some a)) := by
  intro k
  simp only [get_set, h k]

theorem validate_congr {m₁ m₂ : AccountMap} (h : Equiv m₁ m₂) (t : Transaction) :
    m₁.validate t = m₂.validate t := by
  simp only [validate, h t.«from»]

/-- `Process` depends on the map only through `Get`. -/
theorem process_congr {m₁ m₂ : AccountMap} (h : Equiv m₁ m₂) (t : Transaction) :
    (m₁.process t).1 = (m₂.process t).1 ∧ Equiv (m₁.process t).2 (m₂.process t).2 := by
  have hv := validate_congr h t
  unfold process
  rw [hv, h t.«from», h t.«to»]
  split
  · split
    · exact ⟨rfl, (h.set _ _).set _ _⟩
    · exact ⟨rfl, h⟩
  · exact ⟨rfl, h⟩

/-! ## A self-payment mints money and replays -/

/-- A map holding alice alone, with 200. -/
def aliceWith200 : AccountMap := new.setBalance "alice" 200

/-- Alice pays herself 100 with fee 3. -/
def alicePaysAlice : Transaction := ⟨"alice", 1, "alice", 100, 3⟩

/-- `Process` accepts alice's payment to herself, and the money in the map
goes from 200 to 300 instead of to 200 − 3: the sender's debit is overwritten
by the receiver's credit. -/
theorem process_self_payment_mints_amount :
    (aliceWith200.process alicePaysAlice).1 = true ∧
      aliceWith200.totalBalance = 200 ∧
      (aliceWith200.process alicePaysAlice).2.totalBalance = 300 := by
  decide

/-- After the accepted self-payment alice's sequence number is still 0, not
the transaction's 1, and the same transaction validates and processes again. -/
theorem process_self_payment_replays :
    (aliceWith200.process alicePaysAlice).1 = true ∧
      ((aliceWith200.process alicePaysAlice).2.get "alice").map (·.sequence) = some 0 ∧
      (aliceWith200.process alicePaysAlice).2.validate alicePaysAlice = true ∧
      ((aliceWith200.process alicePaysAlice).2.process alicePaysAlice).1 = true := by
  decide

end AccountMap

end Coinkit.Currency

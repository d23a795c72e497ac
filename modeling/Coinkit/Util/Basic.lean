import Mathlib.Data.List.Basic

/-!
# How a call ends, and the client's info request

A Go call of this repository either returns or stops the process. It stops in
two ways the code spells out: `log.Fatal`/`log.Fatalf`, which exit, and
`panic`, which includes the runtime's own nil-pointer dereference. `Fault`
names both, with the text the code prints, so that a model function of type
`… → Except Fault …` says exactly where and why the code stops.

Loops the code does not bound (`BallotState.Handle`'s outer `for`) are run by
the model with a fuel argument; running out of it is `Fault.fuel`, which is
not a Go outcome at all but the model's statement that it did not look far
enough. A crash is `Fault.isCrash`, which excludes it.

`InfoMessage` (`util/info_message.go`) is the request a client sends: a slot
whose externalize message it wants, or an account whose state it wants.
-/

set_option autoImplicit false

namespace Coinkit

/-- How the program stops instead of returning. -/
inductive Fault
  /-- `log.Fatal` or `log.Fatalf`, with its format string. -/
  | fatal (message : String)
  /-- `panic`, with its argument; a nil dereference is the runtime's panic. -/
  | panic (message : String)
  /-- The model's bound on an unbounded loop ran out. -/
  | fuel
  deriving DecidableEq, Repr

namespace Fault

/-- The runtime's text for dereferencing a nil pointer. -/
def nilDereference : Fault :=
  .panic "runtime error: invalid memory address or nil pointer dereference"

/-- A fault the Go program really has: it exits or panics. -/
def isCrash : Fault → Bool
  | .fatal _ => true
  | .panic _ => true
  | .fuel => false

end Fault

/-- `util.InfoMessage`: a client's request for a slot's externalize message
(`I ≠ 0`) or an account's state (`Account ≠ ""`). -/
structure InfoMessage where
  i : Int
  account : String
  deriving DecidableEq, Repr

/-- `InfoMessage.Slot`. -/
def InfoMessage.slot (m : InfoMessage) : Int := m.i

end Coinkit

import Symex.Assignment
import Symex.TestCase

namespace Symex

/-- A seed: what it says of the inputs so far, and the inputs it has left. -/
structure Seed where
  assignment : Assignment := { free := true }
  unused : List TestInput

namespace Seed

/-- Takes the first input called `name` out of a list, whose first input then takes its place. Without
one the first input is taken. -/
def takeInput (name : String) : List TestInput → Option (TestInput × List TestInput)
  | [] => none
  | first :: rest =>
    if first.name = name then some (first, rest)
    else
      match rest.findIdx? (·.name == name) with
      | none => some (first, rest)
      | some i => some (rest[i]?.getD first, rest.set i first)

/-- The input that is used for the next request for one called `name`. -/
def nextInput (s : Seed) (name : String) : Option (TestInput × Seed) :=
  (takeInput name s.unused).map fun (input, unused) ↦ (input, { s with unused })

def satisfies (s : Seed) (condition : Expr) : Bool :=
  (s.assignment.value? condition).any (· ≠ 0)

def bind (s : Seed) (name : String) (bytes : ByteArray) : Seed :=
  { s with assignment := s.assignment.bind name bytes }

end Seed

end Symex

import Symex.Program.Validation

namespace Symex

/-- Something that happened at an instruction. -/
structure Located (ε : Type) where
  location : Location
  payload : ε
deriving DecidableEq

def Located.text {ε : Type} (message : ε → String) (l : Located ε) : String :=
  "[" ++ l.location.text ++ "]: " ++ message l.payload

/-- Problems in the order they are reported. -/
abbrev Problems (ε : Type) := List (Located ε)

namespace Problems

variable {ε : Type}

/-- Adds problems and puts all of them in the order of their places. -/
def addSorted (p : Problems ε) (more : List (Located ε)) : Problems ε :=
  (p ++ more).mergeSort fun a b ↦ (compare a.location b.location).isLE

def text (message : ε → String) (p : Problems ε) : String :=
  if p.isEmpty then "Encountered no errors"
  else
    p.foldl (fun out l ↦ out ++ l.text message ++ "\n")
      ("Encountered " ++ decimal p.length ++ " errors:\n")

end Problems

end Symex

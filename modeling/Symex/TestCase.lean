import Symex.Bytes
import Symex.ExecError
import Symex.ProcessTree

namespace Symex

/-- How a path ended. -/
inductive Termination where
  | exit
  | error (kind : ErrorKind) (message : String)
  /-- The path was given up. -/
  | early (reason : String)
deriving DecidableEq

namespace Termination

def tag : Termination → String
  | exit => "exit"
  | error kind _ => "error:" ++ kind.tag
  | early reason => "early:" ++ reason

def isError : Termination → Bool
  | error _ _ => true
  | _ => false

end Termination

/-- The contents of one input. -/
structure TestInput where
  name : String
  bytes : ByteArray
deriving DecidableEq

/-- Inputs that lead down a path. -/
inductive Solution where
  | inputs (inputs : List TestInput)
  | noSolution
  | solverFailure
deriving DecidableEq

def Solution.input? (s : Solution) (name : String) : Option ByteArray :=
  match s with
  | inputs l => (l.find? (·.name == name)).map (·.bytes)
  | _ => none

/-- A function on the stack and where it was. -/
structure StackTraceEntry where
  function : String
  location : Location
deriving DecidableEq

structure TestCase where
  state : StateId
  termination : Termination
  /-- The texts of the constraints of the path. -/
  constraints : List String
  solution : Solution
  location : Location
  /-- The stack, innermost first. -/
  stackTrace : List StackTraceEntry
  /-- The sides that were taken at forks. -/
  path : List Bool
  details : Option String
deriving DecidableEq

end Symex

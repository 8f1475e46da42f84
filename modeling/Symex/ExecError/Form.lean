import Symex.ExecError
import Symex.Program.Form

namespace Symex

namespace ExecError

def plain : List (String × ExecError) :=
  [("OutOfBoundPointer", .outOfBoundPointer), ("ReadOnly", .readOnly),
   ("FreeOfAlloca", .freeOfAlloca), ("FreeOfGlobal", .freeOfGlobal),
   ("DivisionByZero", .divisionByZero), ("Unreachable", .unreachable),
   ("TooFewArguments", .tooFewArguments), ("MissingReturnValue", .missingReturnValue),
   ("InvalidFunctionPointer", .invalidFunctionPointer),
   ("VarargsAllocationFailed", .varargsAllocationFailed),
   ("ConcretizedSymbolicSize", .concretizedSymbolicSize),
   ("ExternalModifiedReadOnly", .externalModifiedReadOnly),
   ("MakeSymbolicSize", .makeSymbolicSize), ("InvalidAssume", .invalidAssume),
   ("InvalidThreadFunction", .invalidThreadFunction), ("Abort", .abort), ("Deadlock", .deadlock),
   ("SeedInputsExhausted", .seedInputsExhausted), ("QueryTimedOut", .queryTimedOut),
   ("ReplayPathExhausted", .replayPathExhausted), ("ReplayInvalidBranch", .replayInvalidBranch),
   ("ReplayInputsExhausted", .replayInputsExhausted), ("StoppedByWatchdog", .stoppedByWatchdog)]

def named : List (String × (String → ExecError)) :=
  [("InvalidPointer", .invalidPointer), ("UnsupportedInstruction", .unsupportedInstruction),
   ("ExternalCallsDisallowed", .externalCallsDisallowed),
   ("SymbolicExternalArgument", .symbolicExternalArgument),
   ("ExternalCallFailed", .externalCallFailed),
   ("SymbolicIntrinsicArgument", .symbolicIntrinsicArgument),
   ("AssertionFailed", .assertionFailed)]

def ofForm? (j : Json) : Option ExecError := do
  match ← j.list? with
  | [.str tag] => plain.lookup tag
  | [.str tag, .str detail] => return (← named.lookup tag) detail
  | [.str "UnsupportedFloatWidth", w] => return .unsupportedFloatWidth (← w.half?)
  | [.str "UndefinedRegister", r] => return .undefinedRegister (← r.half?)
  | [.str "WidthMismatch", l, r] => return .widthMismatch (← l.half?) (← r.half?)
  | [.str "SeedInputSize", .str name, e, a] => return .seedInputSize name (← e.word?) (← a.word?)
  | [.str "ReplayInputSize", .str name, e, a] =>
    return .replayInputSize name (← e.word?) (← a.word?)
  | _ => none

end ExecError

namespace PathError

/-- A place, written as a list of three numbers, and an error. -/
def ofForm? (location error : Json) : Option PathError := do
  match ← location.listOf? Json.half? with
  | [f, b, i] => return ⟨⟨f, b, i⟩, ← ExecError.ofForm? error⟩
  | _ => none

def toForm (e : PathError) : Json :=
  .object [("location", .str e.location.text), ("kind", .str e.payload.kind.tag),
    ("message", .str e.payload.message)]

end PathError

/-- The problems of a program that cannot be run. -/
def Program.problemsForm (problems : List (Location × ProgramError)) : Json :=
  .object [("error", .str "program"),
    ("errors", .ofList (fun (l, e) ↦ .list [.str l.text, .str e.message]) problems),
    ("message", .str (Problems.text ProgramError.message
      (problems.map fun (l, e) ↦ (⟨l, e⟩ : Located ProgramError))))]

end Symex

import Symex.Located
import Symex.Text

namespace Symex

inductive ErrorKind where
  | pointer | readOnly | free | division | execution | model | external | user | abort | assert
  | deadlock | early | fatal
deriving DecidableEq, Repr

namespace ErrorKind

def tag : ErrorKind → String
  | pointer => "ptr"
  | readOnly => "readonly"
  | free => "free"
  | division => "div"
  | execution => "exec"
  | model => "model"
  | external => "external"
  | user => "user"
  | abort => "abort"
  | assert => "assert"
  | deadlock => "deadlock"
  | early => "early"
  | fatal => "fatal"

def name : ErrorKind → String
  | pointer => "pointer"
  | readOnly => "read_only"
  | division => "division"
  | execution => "execution"
  | k => k.tag

def all : List ErrorKind :=
  [.pointer, .readOnly, .free, .division, .execution, .model, .external, .user, .abort, .assert,
   .deadlock, .early, .fatal]

end ErrorKind

inductive ExecError where
  | outOfBoundPointer
  | readOnly
  | invalidPointer (operation : String)
  | freeOfAlloca
  | freeOfGlobal
  | divisionByZero
  | unreachable
  | unsupportedInstruction (name : String)
  | unsupportedFloatWidth (width : Nat)
  | widthMismatch (lhs rhs : Nat)
  | undefinedRegister (register : Register)
  | tooFewArguments
  | missingReturnValue
  | invalidFunctionPointer
  | varargsAllocationFailed
  | concretizedSymbolicSize
  | externalCallsDisallowed (name : String)
  | symbolicExternalArgument (name : String)
  | externalCallFailed (name : String)
  | externalModifiedReadOnly
  | makeSymbolicSize
  | symbolicIntrinsicArgument (name : String)
  | invalidAssume
  | invalidThreadFunction
  | abort
  | assertionFailed (message : String)
  | deadlock
  | seedInputsExhausted
  | seedInputSize (name : String) (expected actual : Nat)
  | queryTimedOut
  | replayPathExhausted
  | replayInvalidBranch
  | replayInputsExhausted
  | replayInputSize (name : String) (expected actual : Nat)
  | stoppedByWatchdog
deriving DecidableEq

namespace ExecError

def kind : ExecError → ErrorKind
  | outOfBoundPointer | invalidPointer _ => .pointer
  | readOnly => .readOnly
  | freeOfAlloca | freeOfGlobal => .free
  | divisionByZero => .division
  | unreachable | unsupportedInstruction _ | unsupportedFloatWidth _ | widthMismatch _ _
  | undefinedRegister _ | tooFewArguments | missingReturnValue
  | invalidFunctionPointer => .execution
  | varargsAllocationFailed | concretizedSymbolicSize => .model
  | externalCallsDisallowed _ | symbolicExternalArgument _ | externalCallFailed _
  | externalModifiedReadOnly => .external
  | makeSymbolicSize | symbolicIntrinsicArgument _ | invalidAssume | invalidThreadFunction
  | seedInputsExhausted | seedInputSize _ _ _ => .user
  | abort => .abort
  | assertionFailed _ => .assert
  | deadlock => .deadlock
  | queryTimedOut => .early
  | replayPathExhausted | replayInvalidBranch | replayInputsExhausted | replayInputSize _ _ _
  | stoppedByWatchdog => .fatal

def isFatal (e : ExecError) : Bool := e.kind == .fatal

def message : ExecError → String
  | outOfBoundPointer => "memory error: out of bound pointer"
  | readOnly => "memory error: object read only"
  | invalidPointer operation => "memory error: invalid pointer: " ++ operation
  | freeOfAlloca => "free of alloca"
  | freeOfGlobal => "free of global"
  | divisionByZero => "division by zero"
  | unreachable => "reached \"unreachable\" instruction"
  | unsupportedInstruction name => "illegal instruction: " ++ name
  | unsupportedFloatWidth w => "unsupported floating point width: " ++ decimal w
  | widthMismatch l r => "operand widths do not match: " ++ decimal l ++ " and " ++ decimal r
  | undefinedRegister r => "use of undefined register %" ++ decimal r
  | tooFewArguments => "calling function with too few arguments"
  | missingReturnValue => "return void when caller expected a result"
  | invalidFunctionPointer => "invalid function pointer"
  | varargsAllocationFailed => "out of memory (varargs)"
  | concretizedSymbolicSize => "concretized symbolic size"
  | externalCallsDisallowed name => "external calls disallowed: " ++ name
  | symbolicExternalArgument name => "external call with symbolic argument: " ++ name
  | externalCallFailed name => "failed external call: " ++ name
  | externalModifiedReadOnly => "external modified read-only object"
  | makeSymbolicSize => "wrong size given to make_symbolic"
  | symbolicIntrinsicArgument name => name ++ " requires a constant argument"
  | invalidAssume => "invalid assume call (provably false)"
  | invalidThreadFunction => "invalid thread start function"
  | abort => "abort failure"
  | assertionFailed message => "ASSERTION FAIL: " ++ message
  | deadlock => "hang (possible deadlock?)"
  | seedInputsExhausted => "ran out of inputs during seeding"
  | seedInputSize name expected actual =>
    "seed input " ++ name ++ " has " ++ decimal actual ++ " bytes but the object has " ++
      decimal expected
  | queryTimedOut => "query timed out"
  | replayPathExhausted => "ran out of branches in replay path mode"
  | replayInvalidBranch => "hit invalid branch in replay path mode"
  | replayInputsExhausted => "ran out of inputs in replay mode"
  | replayInputSize name expected actual =>
    "replay input " ++ name ++ " has " ++ decimal actual ++ " bytes but the object has " ++
      decimal expected
  | stoppedByWatchdog => "Execution was stopped by the watchdog"

end ExecError

/-- An error on a path, with its place. -/
abbrev PathError := Located ExecError

def PathError.text (e : PathError) : String := Located.text ExecError.message e

/-- Anything that can be reported: what programs, paths and solvers report, and plain texts. -/
inductive Report where
  | execution (e : ExecError)
  | program (e : ProgramError)
  | other (message : String)

def Report.message : Report → String
  | execution e => e.message
  | program e => e.message
  | other message => "Unknown Error: " ++ Quoted.encode message

end Symex

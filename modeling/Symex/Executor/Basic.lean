import Symex.Config
import Symex.Host
import Symex.Ieee
import Symex.Searcher
import Symex.Seed
import Symex.State.Basic
import Symex.Watchdog

namespace Symex

/-- Counts over a whole run. -/
structure Statistics where
  steps : Nat := 0
  forks : Nat := 0
  testCases : Nat := 0

/-- The machine that explores a program. -/
structure Executor (σ : Type) where
  program : Program
  config : Config := {}
  solver : Solver σ
  watchdog : Watchdog := .never
  searcher : Searcher := {}
  host : Dispatcher := {}
  allocator : Allocator
  /-- The live states, apart from those that are being worked on. -/
  states : Std.TreeMap StateId State
  nextStateId : StateId := 1
  /-- The states that came up since the searcher was told. -/
  added : List StateId := []
  /-- The states that ended since the searcher was told. -/
  removed : List StateId := []
  tree : ProcessTree
  /-- The values of the constants of the program. -/
  constants : Array Expr := #[]
  /-- The objects of the globals of the program. -/
  globals : List MemoryObject := []
  rng : Rng
  /-- The sign and the fraction of a result that is no number, which are left open. They may differ from step to
  step. -/
  nans : Nat → Ieee.Format → Bool × Nat := fun _ f ↦ (false, pow2 (f.fractionBits - 1))
  atMemoryLimit : Bool := false
  /-- The errors that were reported, by place and message. -/
  reported : List (Location × String) := []
  /-- The errors that ended paths, and the one that ended the run. -/
  errors : List PathError := []
  cases : Array TestCase := #[]
  seeds : Std.TreeMap StateId (List Seed) := {}
  /-- The sides that are still to be taken when a path is replayed. -/
  replayPath : Option (List Bool) := none
  /-- The inputs that are left when inputs are replayed. -/
  replayInputs : Option (List TestInput) := none
  /-- The instruction that is executed. -/
  location : Location := {}
  statistics : Statistics := {}

/-- The bits of a result of the step at hand that is no number. -/
def Executor.nan {σ : Type} (e : Executor σ) (f : Ieee.Format) : Nat :=
  let (negative, payload) := e.nans e.statistics.steps f
  Ieee.nanBits f negative payload

/-- Where a state that comes out of a fork is found: in the place of the state that was forked, or among
the live states. -/
inductive Branch where
  | current
  | forked (id : StateId)
deriving DecidableEq

/-- The place as seen from outside, where the state that was forked is found at `outer`. -/
def Branch.relativeTo (b outer : Branch) : Branch :=
  match b with
  | current => outer
  | forked id => forked id

/-- The machine with the state it works on. -/
structure Focus (σ : Type) where
  executor : Executor σ
  state : State

/-- Work on one state, which can end in an error of its path. -/
abbrev Exec (σ : Type) := ExceptT PathError (StateT (Focus σ) Checked)

namespace Exec

variable {σ α : Type}

def executor : Exec σ (Executor σ) := return (← get).executor

def state : Exec σ State := return (← get).state

def modifyExecutor (f : Executor σ → Executor σ) : Exec σ Unit :=
  modify fun focus ↦ { focus with executor := f focus.executor }

def setState (s : State) : Exec σ Unit := modify fun focus ↦ { focus with state := s }

def updateState (f : State → Checked State) : Exec σ Unit := do
  let s ← f (← state)
  setState s

def write (r : Register) (value : Expr) : Exec σ Unit := updateState (·.write r value)

/-- Sets the register for a result, if there is one. -/
def writeResult (r : Option Register) (value : Expr) : Exec σ Unit :=
  match r with
  | some r => write r value
  | none => return

/-- Puts a question about the state to the solver. -/
def ask (question : ConstraintSet → Ask σ α) : Exec σ (Except SolverError α) := do
  let focus ← get
  let (answer, solver) ← (question focus.state.constraints).run.run focus.executor.solver
  set { focus with executor := { focus.executor with solver } }
  return answer

def draw (f : Rng → α × Rng) : Exec σ α := do
  let focus ← get
  let (a, rng) := f focus.executor.rng
  set { focus with executor := { focus.executor with rng } }
  return a

def isTerminated : Exec σ Bool := do
  let focus ← get
  return focus.executor.removed.contains focus.state.id

/-- The result of some work or the error it ended in. -/
def attempt (work : Exec σ α) : Exec σ (Except PathError α) := ExceptT.lift work.run

/-- Works on another state in between, and gives back what becomes of it. -/
def within (s : State) (work : Exec σ α) : Exec σ (Except PathError α × State) := do
  let outer ← state
  setState s
  let result ← attempt work
  let s ← state
  setState outer
  return (result, s)

/-- Works on one of the live states in between, if it is there. -/
def visit (id : StateId) (work : Exec σ α) : Exec σ (Option α) := do
  match (← executor).states[id]? with
  | none => return none
  | some s =>
    modifyExecutor fun e ↦ { e with states := e.states.erase id }
    let (result, s) ← within s work
    modifyExecutor fun e ↦ { e with states := e.states.insert id s }
    return some (← MonadExcept.ofExcept result)

def fail (e : ExecError) : Exec σ α := do throw ⟨(← executor).location, e⟩

/-- Puts a question about the state to the solver, which has to answer it. -/
def query (question : ConstraintSet → Ask σ α) : Exec σ α := do
  match ← ask question with
  | .ok a => return a
  | .error _ => fail .queryTimedOut

end Exec

end Symex

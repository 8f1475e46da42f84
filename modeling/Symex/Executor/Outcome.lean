import Symex.Executor.Basic

namespace Symex

namespace Exec

variable {σ α : Type}

def terminate : Exec σ Unit := do
  if ← isTerminated then return
  let id := (← state).id
  modifyExecutor fun e ↦ { e with removed := e.removed ++ [id] }

def solution : Exec σ Solution := do
  let arrays := (← state).arrays
  match ← ask (Solver.initialValues · arrays) with
  | .ok (some values) =>
    return .inputs ((arrays.zip values).map fun (array, bytes) ↦ ⟨array.name, bytes⟩)
  | .ok none => return .noSolution
  | .error _ => return .solverFailure

def emit (termination : Termination) (details : Option String) : Exec σ Unit := do
  let solution ← solution
  let s ← state
  let stackTrace ← s.stackTrace (← executor).program
  let testCase : TestCase := {
    state := s.id
    termination
    constraints := s.constraints.toList.map (·.text)
    solution
    location := s.location
    stackTrace
    path := s.path
    details }
  modifyExecutor fun e ↦ { e with
    cases := e.cases.push testCase
    statistics.testCases := e.statistics.testCases + 1 }

/-- Ends the state with a report, unless it has ended. -/
def terminateWith (termination : Termination) (details : Option String := none) : Exec σ Unit := do
  if ← isTerminated then return
  emit termination details
  terminate

def terminateOnExit : Exec σ Unit := terminateWith .exit

def terminateEarly (reason : String) : Exec σ Unit := terminateWith (.early reason)

/-- Ends the state because the program did something wrong. Without a setting to the contrary only the
first error with a message at a place is reported. -/
def terminateOnError (error : PathError) (details : Option String := none) : Exec σ Unit := do
  if ← isTerminated then return
  let message := error.payload.message
  let e ← executor
  if e.reported.contains (error.location, message) then
    unless e.config.emitAllErrors do return ← terminate
  else
    modifyExecutor fun e ↦ { e with reported := (error.location, message) :: e.reported }
  emit (.error error.payload.kind message) details
  modifyExecutor fun e ↦ { e with errors := e.errors ++ [error] }
  terminate

/-- A description of where an address points, for people. -/
def addressInfo (address : Expr) : Exec σ String := do
  let info := "address: " ++ address.text ++ "\n"
  match address.value? with
  | some value => return info ++ (← neighbours value)
  | none =>
    match ← ask (Solver.value · address) with
    | .error _ => return info
    | .ok example_ =>
      let value := example_.value?.getD 0
      let info := info ++ "example: " ++ hexadecimal value ++ "\n"
      let info ← match ← ask (Solver.range · address) with
        | .ok (low, high) =>
          pure (info ++ "range: [" ++ hexadecimal low ++ ", " ++ hexadecimal high ++ "]\n")
        | .error _ => pure info
      return info ++ (← neighbours value)
where
  neighbours (value : Nat) : Exec σ String := do
    let objects := (← state).memory.toList.map (·.object)
    let line (label : String) (o : Option MemoryObject) :=
      label ++ ": " ++ ((o.map (·.info)).getD "none") ++ "\n"
    return line "prev" (objects.filter (·.address ≤ value)).getLast? ++
      line "next" (objects.find? (value < ·.address))

/-- Ends the state with an error that concerns it alone, and passes the others on. -/
def settle (error : PathError) : Exec σ Unit := do
  if error.payload.isFatal then throw error
  else if error.payload.kind = .early then terminateEarly error.payload.message
  else terminateOnError error

/-- Works on the state unless it has ended, and ends it where that fails. -/
def settling (work : Exec σ α) : Exec σ (Option α) := do
  if ← isTerminated then return none
  try
    return some (← work)
  catch error =>
    settle error
    return none

/-- Works on the state at `branch`, as `settling` does. -/
def onBranch (branch : Branch) (work : Exec σ α) : Exec σ (Option α) :=
  match branch with
  | .current => settling work
  | .forked id => return (← visit id (settling work)).join

/-- Works on the state at `branch`, if there is one. -/
def onSide (branch : Option Branch) (work : Exec σ Unit) : Exec σ Unit :=
  match branch with
  | none => return
  | some branch => do
    let _ ← onBranch branch work

end Exec

end Symex

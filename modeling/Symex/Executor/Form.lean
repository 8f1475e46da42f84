import Symex.ExecError.Form
import Symex.Executor.Run
import Symex.State.Form
import Symex.TestCase.Form

namespace Symex

def StepReport.toForm (r : StepReport) : Json :=
  .object [("state", .ofOption .nat r.state), ("added", .ofList .nat r.added),
    ("removed", .ofList .nat r.removed)]

/-- The number of nodes and the leaves with their states. -/
def ProcessTree.toForm (t : ProcessTree) : Json :=
  .object [("len", .nat t.size),
    ("leaves", .ofList (fun (n, s) ↦ .list [.nat n, .nat s]) t.leaves)]

namespace Executor

variable {σ : Type}

def statisticsForm (e : Executor σ) : Json :=
  .object [("steps", .nat e.statistics.steps), ("forks", .nat e.statistics.forks),
    ("states", .nat e.nextStateId), ("test_cases", .nat e.statistics.testCases),
    ("queries", .nat e.solver.queries), ("allocations", .nat e.allocator.allocated)]

/-- What a run led to; the test cases may be left out. -/
def outcomeFields (e : Executor σ) (withCases : Bool) : List (String × Json) :=
  [("test_cases", if withCases then .ofList TestCase.toForm e.cases.toList else .null),
   ("errors", .ofList PathError.toForm e.errors), ("tree", e.tree.toForm),
   ("statistics", e.statisticsForm)]

/-- The reports of up to `n` steps, with null once there is nothing left to step. -/
def stepForms : Nat → Session σ (List Json)
  | 0 => return []
  | n + 1 => do
    match ← step with
    | .error error => return [.object [("error", error.toForm)]]
    | .ok none => return [.null]
    | .ok (some report) => return report.toForm :: (← stepForms n)

/-- One of the things that can be asked of a machine by name. -/
def command (name : String) (argument : Json) : Session σ Json := do
  match name with
  | "run" =>
    match ← run with
    | .ok () => return .object [("ok", .bool true)]
    | .error error => return errorsForm error
  | "step" => return .list (← stepForms (← Checked.ofOption argument.word?))
  | "halt" => return errorsForm (← halt)
  | "check_memory" =>
    checkMemory
    return .nat (← get).states.size
  | "update" => return (← update none).toForm
  | "dump" => return .ofList State.toForm (← get).states.values
  | "states" => return .ofList .nat (← get).states.keys
  | "has_state" => return .bool ((← get).states.contains (← Checked.ofOption argument.word?))
  | "tree" => return (← get).tree.toForm
  | "globals" => return .ofList (fun o ↦ .str o.info) (← get).globals
  | "queries" => return .nat (← get).solver.queries
  | "config" => return (← get).config.toForm
  | _ => throw .misuse
where
  errorsForm (error : PathError) : Json := .object [("errors", .list [error.toForm])]

end Executor

end Symex

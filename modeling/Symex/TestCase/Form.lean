import Symex.Program.Form
import Symex.TestCase

namespace Symex

namespace Termination

def ofForm? (j : Json) : Option Termination := do
  let j ← match j.item 0 with
    | .str "error" => j.record? ["type", "kind", "message"]
    | .str "early" => j.record? ["type", "reason"]
    | _ => j.record? ["type"]
  match ← (j.field "type").str? with
  | "exit" => return .exit
  | "error" =>
    return .error (← (j.field "kind").tag?.bind (ofText? ErrorKind.all ErrorKind.name))
      (← (j.field "message").str?)
  | "early" => return .early (← (j.field "reason").str?)
  | _ => none

def toForm : Termination → Json
  | exit => .object [("type", .str "exit")]
  | error kind message =>
    .object [("type", .str "error"), ("kind", .str kind.name), ("message", .str message)]
  | early reason => .object [("type", .str "early"), ("reason", .str reason)]

end Termination

namespace TestInput

def ofForm? (j : Json) : Option TestInput := do
  let j ← j.record? ["name", "bytes"]
  return ⟨← (j.field "name").str?, ← (j.field "bytes").hex?⟩

def toForm (i : TestInput) : Json := .object [("name", .str i.name), ("bytes", .hex i.bytes)]

end TestInput

namespace Solution

def ofForm? (j : Json) : Option Solution := do
  let j ← j.record? ["type", "inputs"]
  match ← (j.field "type").str?, j.field "inputs" with
  | "inputs", l => return .inputs (← l.listOf? TestInput.ofForm?)
  | "no_solution", .null => return .noSolution
  | "solver_failure", .null => return .solverFailure
  | _, _ => none

def toForm : Solution → Json
  | inputs l => .object [("type", .str "inputs"), ("inputs", .ofList TestInput.toForm l)]
  | noSolution => .object [("type", .str "no_solution")]
  | solverFailure => .object [("type", .str "solver_failure")]

end Solution

namespace StackTraceEntry

def ofForm? (j : Json) : Option StackTraceEntry := do
  let j ← j.record? ["function", "location"]
  return ⟨← (j.field "function").str?, ← Location.ofForm? (j.field "location")⟩

def toForm (e : StackTraceEntry) : Json :=
  .object [("function", .str e.function), ("location", e.location.toForm)]

end StackTraceEntry

namespace TestCase

def ofForm? (j : Json) : Option TestCase := do
  let j ← j.record? ["state", "termination", "constraints", "solution", "location", "stack_trace",
    "path", "details"] 7
  return {
    state := ← (j.field "state").word?
    termination := ← Termination.ofForm? (j.field "termination")
    constraints := ← (j.field "constraints").listOf? Json.str?
    solution := ← Solution.ofForm? (j.field "solution")
    location := ← Location.ofForm? (j.field "location")
    stackTrace := ← (j.field "stack_trace").listOf? StackTraceEntry.ofForm?
    path := ← (j.field "path").listOf? Json.bool?
    details := ← (j.field "details").optional? Json.str? }

def toForm (c : TestCase) : Json :=
  .object ([("state", .nat c.state), ("termination", c.termination.toForm),
    ("constraints", .ofList .str c.constraints), ("solution", c.solution.toForm),
    ("location", c.location.toForm), ("stack_trace", .ofList StackTraceEntry.toForm c.stackTrace),
    ("path", .ofList .bool c.path)] ++ c.details.toList.map fun d ↦ ("details", .str d))

end TestCase

end Symex

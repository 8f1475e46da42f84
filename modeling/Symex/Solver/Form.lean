import Symex.Json
import Symex.Solver.Basic

namespace Symex

namespace SolverError

def toForm (e : SolverError) : Json :=
  match e with
  | timeout => .object [("error", .str "Timeout")]
  | unsupported _ _ => plain "Unsupported"
  | unsatisfiable => plain "Unsatisfiable"
  | process _ => plain "Process"
  | response text reason =>
    .object [("error", .str "Response"), ("response", .str text), ("reason", .str reason)]
where
  plain (kind : String) : Json := .object [("error", .str kind), ("message", .str e.message)]

end SolverError

def Validity.toForm : Validity → Json
  | always => .str "True"
  | never => .str "False"
  | sometimes => .str "Unknown"

def answerForm {α : Type} (f : α → Json) : Except SolverError α → Json
  | .ok a => f a
  | .error e => e.toForm

end Symex

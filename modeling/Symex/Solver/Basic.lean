import Symex.ConstraintSet
import Symex.Expr.Text

namespace Symex

/-- Why a question went unanswered. -/
inductive SolverError where
  | timeout
  | unsupported (solver reason : String)
  | unsatisfiable
  | process (message : String)
  | response (text reason : String)
deriving DecidableEq, Repr

namespace SolverError

def message : SolverError → String
  | timeout => "Query timed out"
  | unsupported solver reason =>
    "Query is beyond the capabilities of the " ++ solver ++ " solver: " ++ reason
  | unsatisfiable => "Constraints have no solution"
  | process message => "Solver process failed: " ++ message
  | response text reason => "Could not parse solver response " ++ text ++ ": " ++ reason

end SolverError

/-- What holds of a truth value over all solutions of some constraints. Without solutions it is
`always`. -/
inductive Validity where
  | always | never | sometimes
deriving DecidableEq, Repr

/-- A question about `expr` under `constraints`, to be answered within `timeout` milliseconds. -/
structure Query where
  constraints : ConstraintSet
  expr : Expr
  timeout : Option Nat := none

def Query.negated (q : Query) : Query := { q with expr := q.expr.isZero }

/-- Something that answers questions, at the price of changing its state. -/
structure Backend (σ : Type) where
  evaluate : Query → σ → Except SolverError Validity × σ
  mustBeTrue : Query → σ → Except SolverError Bool × σ
  /-- A value that the expression takes in some solution. -/
  value : Query → σ → Except SolverError Nat × σ
  /-- The contents of some arrays in a solution where the expression is zero, if there is one. -/
  initialValues : Query → List NamedArray → σ → Except SolverError (Option (List ByteArray)) × σ

namespace Backend

variable {σ : Type}

/-- Counts the questions from zero and leaves unanswered those that `fails` picks. -/
def interrupted (b : Backend σ) (fails : Nat → Bool) : Backend (σ × Nat) where
  evaluate q := guarded (b.evaluate q)
  mustBeTrue q := guarded (b.mustBeTrue q)
  value q := guarded (b.value q)
  initialValues q arrays := guarded (b.initialValues q arrays)
where
  guarded {α : Type} (ask : σ → Except SolverError α × σ) (s : σ × Nat) :
      Except SolverError α × (σ × Nat) :=
    if fails s.2 then (.error .timeout, (s.1, s.2 + 1))
    else
      let (answer, state) := ask s.1
      (answer, (state, s.2 + 1))

end Backend

end Symex

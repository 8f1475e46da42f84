import Symex.Solver.Basic

namespace Symex

/-- A backend with its state, and how it is used. -/
structure Solver (σ : Type) where
  backend : Backend σ
  state : σ
  timeout : Option Nat := none
  /-- Expressions are simplified before they are asked about. -/
  simplifies : Bool := true
  /-- The number of questions that reached the backend. -/
  queries : Nat := 0
  /-- What the clock shows when it is read, in nanoseconds. -/
  clock : Nat → Nat := id
  /-- How often the clock was read. -/
  readings : Nat := 0

/-- Computations that ask questions. -/
abbrev Ask (σ : Type) := ExceptT SolverError (StateT (Solver σ) Checked)

namespace Ask

variable {σ α : Type}

def checked (x : Checked α) : Ask σ α := fun s ↦ return (.ok (← x), s)

def attempt (x : Ask σ α) : StateT (Solver σ) Checked (Except SolverError α) := x.run

end Ask

namespace Solver

variable {σ α : Type}

def now : StateT (Solver σ) Checked Nat := fun s ↦
  return (s.clock s.readings, { s with readings := s.readings + 1 })

/-- Between two readings of the clock lie more than `timeout` milliseconds. -/
def exceeds (timeout : Option Nat) (started now : Nat) : Bool :=
  timeout.any fun t ↦ t * 1000000 < now - started

def consult (constraints : ConstraintSet) (e : Expr)
    (ask : Backend σ → Query → σ → Except SolverError α × σ) : Ask σ α := fun s ↦
  let (answer, state) := ask s.backend ⟨constraints, e, s.timeout⟩ s.state
  return (answer, { s with state, queries := s.queries + 1 })

def prepare (constraints : ConstraintSet) (e : Expr) : Ask σ Expr := fun s ↦
  return (.ok (← if s.simplifies then constraints.simplify e else pure e), s)

/-- What holds of the truth value `e` under the constraints. -/
def evaluate (constraints : ConstraintSet) (e : Expr) : Ask σ Validity := do
  if let some v := e.value? then return if v = 0 then .never else .always
  let e ← prepare constraints e
  if let some v := e.value? then return if v = 0 then .never else .always
  consult constraints e (·.evaluate)

def mustBeTrue (constraints : ConstraintSet) (e : Expr) : Ask σ Bool := do
  if let some v := e.value? then return v != 0
  let e ← prepare constraints e
  if let some v := e.value? then return v != 0
  consult constraints e (·.mustBeTrue)

def mustBeFalse (constraints : ConstraintSet) (e : Expr) : Ask σ Bool :=
  mustBeTrue constraints e.isZero

def mayBeTrue (constraints : ConstraintSet) (e : Expr) : Ask σ Bool :=
  return !(← mustBeFalse constraints e)

def mayBeFalse (constraints : ConstraintSet) (e : Expr) : Ask σ Bool :=
  return !(← mustBeTrue constraints e)

/-- A value that `e` can take, as a constant of the same width. -/
def value (constraints : ConstraintSet) (e : Expr) : Ask σ Expr := do
  if e.isConst then return e
  let e ← prepare constraints e
  if e.isConst then return e
  let v ← consult constraints e (·.value)
  Ask.checked (Expr.constant v e.width)

/-- The contents of `arrays` in a solution of the constraints, if there is one. -/
def initialValues (constraints : ConstraintSet) (arrays : List NamedArray) :
    Ask σ (Option (List ByteArray)) := do
  if arrays.isEmpty then return some []
  consult constraints (.bool false) fun b q ↦ b.initialValues q arrays

/-- The number is a machine word, as the bounds of a search have to be. -/
def demandWord (n : Nat) : Ask σ Unit := Ask.checked (demand (n < wordLimit) .overflow)

/-- The least number from `low` to `high` that `e` can stay below or equal to; `high` is one. -/
def leastBound (constraints : ConstraintSet) (e : Expr) (low high : Nat) : Ask σ Nat := do
  if low < high then
    let middle := low + (high - low) / 2
    demandWord middle
    let below ← Ask.checked (do Expr.mkUle e (← Expr.constant middle e.width))
    if ← mayBeTrue constraints below then leastBound constraints e low middle
    else
      demandWord (middle + 1)
      leastBound constraints e (middle + 1) high
  else return low
termination_by high - low

/-- The greatest number from `low` to `high` that `e` can reach; `low` is one. -/
def greatestBound (constraints : ConstraintSet) (e : Expr) (low high : Nat) : Ask σ Nat := do
  if low < high then
    let middle := low + (high - low) / 2 + 1
    demandWord middle
    let above ← Ask.checked (do Expr.mkUge e (← Expr.constant middle e.width))
    if ← mayBeTrue constraints above then greatestBound constraints e middle high
    else greatestBound constraints e low (middle - 1)
  else return low
termination_by high - low

/-- The least and the greatest value that `e` can take. -/
def range (constraints : ConstraintSet) (e : Expr) : Ask σ (Nat × Nat) := do
  if let some v := e.value? then return (v, v)
  match (← value constraints e).value? with
  | none => throw .unsatisfiable
  | some example_ =>
    let least ← leastBound constraints e 0 example_
    let greatest ← greatestBound constraints e example_ (Bits.mask e.width)
    return (least, greatest)

end Solver

end Symex

import Symex.Expr.Substitution

namespace Symex

/-- A conjunction of constraints in the order they were added. An equation with a constant lets the
other side be replaced by it; any other constraint lets itself be replaced by `true`. -/
structure ConstraintSet where
  all : Array Expr := #[]
  known : Substitution := {}

instance : Inhabited ConstraintSet := ⟨{}⟩

namespace ConstraintSet

/-- Rebuilds `e` with the replacements that the constraints justify. -/
def simplify (s : ConstraintSet) (e : Expr) : Checked Expr :=
  if e.isConst || s.known.isEmpty then return e else e.replace s.known

def forget (s : ConstraintSet) (c : Expr) : ConstraintSet :=
  match c with
  | .compare .eq (.const _ _) target => { s with known := s.known.erase target }
  | c => { s with known := s.known.erase c }

/-- Puts `value` for `target` into every constraint. Those that change are taken out of the set and
returned. -/
def takeAffected (s : ConstraintSet) (target value : Expr) :
    Checked (ConstraintSet × List Expr) := do
  let replacement : Substitution := Std.HashMap.insert {} target value
  let (s, changed) ← s.all.foldlM (fun (s, changed) c ↦ do
    let c' ← c.replace replacement
    if c' = c then return ({ s with all := s.all.push c }, changed)
    else return (s.forget c, c' :: changed)) ({ s with all := #[] }, [])
  return (s, changed.reverse)

/-- Adds a constraint, with at most `fuel` nested additions. Conjunctions are split; a constraint
that is already implied is dropped; one that is contradicted is a fault. -/
def addWithin (fuel : Nat) (s : ConstraintSet) (c : Expr) : Checked ConstraintSet :=
  match fuel with
  | 0 => throw .exhausted
  | fuel + 1 => do
    demand (c.width = 1) .width
    match ← s.simplify c with
    | .const v _ => do
      demand (v ≠ 0) .infeasible
      return s
    | .binary .and l r => do
      addWithin fuel (← addWithin fuel s l) r
    | .compare .eq (.const v w) target => do
      let (s, changed) ← s.takeAffected target (.const v w)
      let s ← changed.foldlM (addWithin fuel) s
      return {
        all := s.all.push (.compare .eq (.const v w) target)
        known := s.known.insert target (.const v w) }
    | c => return { all := s.all.push c, known := s.known.insert c (.bool true) }

def weight (s : ConstraintSet) : Nat := (s.all.toList.map (·.weight)).foldr (· + ·) 0

/-- Adds a constraint, which has to be consistent with the set. Every nested addition is one of a
smaller set and constraint taken together, so the bound is never reached. -/
def add (s : ConstraintSet) (c : Expr) : Checked ConstraintSet :=
  addWithin (s.weight + c.weight + 1) s c

/-- The constraints in the order they were added. -/
def toList (s : ConstraintSet) : List Expr := s.all.toList

end ConstraintSet

end Symex

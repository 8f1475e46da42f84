import Symex.State.Basic

namespace Symex

namespace State

def mergeable (s t : State) : Bool :=
  s.current == t.current &&
    s.threads.length == t.threads.length &&
    (s.threads.zip t.threads).all (fun (a, b) ↦ a.sameShape b) &&
    s.symbolics.map (·.object.id) == t.symbolics.map (·.object.id) &&
    s.arrays == t.arrays &&
    s.memory.toList.map (·.object.id) == t.memory.toList.map (·.object.id) &&
    s.waitLists.toList == t.waitLists.toList

/-- A register after a merge. Where the values do not fit together it has none. -/
def mergeLocal (inFirst : Expr) : Option Expr → Option Expr → Checked (Option Expr)
  | some a, some b =>
    if a = b then return some a
    else if a.width = b.width then return some (← Expr.mkSelect inFirst a b)
    else return none
  | _, _ => return none

def mergeFrame (inFirst : Expr) (f g : Frame) : Checked Frame := do
  let locals ← (f.locals.zip g.locals).mapM fun (a, b) ↦ mergeLocal inFirst a b
  return { f with locals }

def mergeThread (inFirst : Expr) (t u : Thread) : Checked Thread := do
  return { t with stack := ← (t.stack.zip u.stack).mapM fun (f, g) ↦ mergeFrame inFirst f g }

def differingBytes (a b : ObjectState) : Checked (List (Nat × Expr × Expr)) := do
  (List.range a.size).foldrM (fun i rest ↦ do
    let x ← a.readByte i
    let y ← b.readByte i
    return if x = y then rest else (i, x, y) :: rest) []

/-- Takes the other contents of an object into account. Contents that are the same stay shared. -/
def mergeContents (inFirst : Expr) (memory : AddressSpace) (a b : ObjectState) :
    Checked AddressSpace := do
  let differing ← differingBytes a b
  if differing.isEmpty ∧ a.owner = b.owner then return memory
  memory.modify a.object fun contents ↦
    differing.foldlM (fun c (i, x, y) ↦ do c.write8 i (← Expr.mkSelect inFirst x y)) contents

/-- A state whose paths are those of `s` and of `t`, if they can be merged. What differs is chosen by
the constraints that only `s` has. -/
def merge (s t : State) : Checked (Option State) := do
  unless s.mergeable t do return none
  let ours := s.constraints.toList
  let theirs := t.constraints.toList
  let inFirst ← Expr.mkAll (ours.filter (!theirs.contains ·))
  let inSecond ← Expr.mkAll (theirs.filter (!ours.contains ·))
  let common ← (ours.filter (theirs.contains ·)).foldlM (·.add) ({} : ConstraintSet)
  let constraints ← common.add (← Expr.mkOr inFirst inSecond)
  let threads ← (s.threads.zip t.threads).mapM fun (a, b) ↦ mergeThread inFirst a b
  let memory ← (s.memory.toList.zip t.memory.toList).foldlM
    (fun m (a, b) ↦ mergeContents inFirst m a b) s.memory
  return some { s with constraints, threads, memory }

end State

end Symex

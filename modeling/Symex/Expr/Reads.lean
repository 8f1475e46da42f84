import Symex.Expr.Basic
import Std.Data.HashSet

namespace Symex

/-- What a visit has met so far: the nodes, the update sequences, and the reads in order. -/
structure Visit where
  nodes : Std.HashSet Expr := {}
  updates : Std.HashSet Updates := {}
  reads : Array (NamedArray × Expr) := #[]

namespace Visit

/-- Marks the writes from the newest one down to the first that was met before, and counts them. -/
def markWrites (v : Visit) (u : Updates) (count : Nat) : Visit × Nat :=
  match u with
  | .base _ => (v, count)
  | .write _ _ older =>
    if v.updates.contains u then (v, count)
    else markWrites { v with updates := v.updates.insert u } older (count + 1)

end Visit

mutual

/-- Visits `e` before its parts, and of the parts the last first. -/
def Expr.visit (e : Expr) (v : Visit) : Visit :=
  if v.nodes.contains e then v
  else
    let v := { v with nodes := v.nodes.insert e }
    match e with
    | .const _ _ => v
    | .read u i =>
      let (v, fresh) := { v with reads := v.reads.push (u.root, i) }.markWrites u 0
      u.visit fresh (i.visit v)
    | .select c t f => c.visit (t.visit (f.visit v))
    | .concat m l => m.visit (l.visit v)
    | .extract x _ _ | .zext x _ | .sext x _ | .not x => x.visit v
    | .binary _ l r | .compare _ l r => l.visit (r.visit v)

/-- Visits the newest `count` writes, the oldest of them first. -/
def Updates.visit (u : Updates) (count : Nat) (v : Visit) : Visit :=
  match u, count with
  | .base _, _ => v
  | .write _ _ _, 0 => v
  | .write i x older, count + 1 => i.visit (x.visit (older.visit count v))

end

namespace Expr

/-- The reads reachable from `roots`, as pairs of an array and an index, in order of discovery. -/
def reads (roots : List Expr) : Array (NamedArray × Expr) :=
  (roots.foldr visit {}).reads

/-- The inputs that `roots` read, in order of discovery. -/
def arrays (roots : List Expr) : Array NamedArray :=
  (reads roots).foldl (fun found (a, _) ↦
    if a.isSymbolic && !found.contains a then found.push a else found) #[]

end Expr

end Symex

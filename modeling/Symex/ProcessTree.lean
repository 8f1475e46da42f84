import Symex.Arithmetic
import Symex.Fault

namespace Symex

abbrev StateId := Nat
abbrev NodeId := Nat

structure ProcessNode where
  parents : List NodeId := []
  children : List NodeId := []
  /-- The state at a leaf. -/
  state : Option StateId := none
deriving DecidableEq, Inhabited

/-- Nodes by number. Numbers of removed nodes are not used again. -/
structure ProcessTree where
  nodes : Array (Option ProcessNode)

namespace ProcessTree

def root : NodeId := 0

def ofState (state : StateId) : ProcessTree := ⟨#[some { state := some state }]⟩

def node? (t : ProcessTree) (n : NodeId) : Option ProcessNode := t.nodes[n]?.join

def size (t : ProcessTree) : Nat := t.nodes.countP (·.isSome)

def isEmpty (t : ProcessTree) : Bool := t.size == 0

def modify (t : ProcessTree) (n : NodeId) (f : ProcessNode → ProcessNode) : ProcessTree :=
  ⟨t.nodes.modify n (·.map f)⟩

/-- Adds a leaf below `parents`, which are leaves no more. -/
def add (t : ProcessTree) (parents : List NodeId) (state : StateId) : NodeId × ProcessTree :=
  let id := t.nodes.size
  let t := parents.foldl (fun t p ↦
    t.modify p fun n ↦ { n with children := n.children ++ [id], state := none }) t
  (id, ⟨t.nodes.push (some { parents, state := some state })⟩)

def isLeaf (t : ProcessTree) (n : NodeId) : Bool := (t.node? n).any (·.children.isEmpty)

def split (t : ProcessTree) (n : NodeId) (left right : StateId) :
    Checked ((NodeId × NodeId) × ProcessTree) := do
  demand (t.isLeaf n) .misuse
  let (l, t) := t.add [n] left
  let (r, t) := t.add [n] right
  return ((l, r), t)

def merge (t : ProcessTree) (first second : NodeId) (state : StateId) :
    Checked (NodeId × ProcessTree) := do
  demand (t.isLeaf first ∧ t.isLeaf second) .misuse
  return t.add [first, second] state

/-- Takes `id` from the children of `parent`, and tells whether it was the last one. -/
def disown (t : ProcessTree) (parent id : NodeId) : ProcessTree × Bool :=
  let t := t.modify parent fun n ↦ { n with children := n.children.filter (· ≠ id) }
  (t, t.isLeaf parent)

/-- Removes the pending nodes that have no children, and then their parents likewise. -/
def prune : Nat → List NodeId → ProcessTree → ProcessTree
  | 0, _, t | _ + 1, [], t => t
  | fuel + 1, id :: pending, t =>
    match t.node? id with
    | none => prune fuel pending t
    | some n =>
      if n.children.isEmpty then
        let t : ProcessTree := ⟨t.nodes.setIfInBounds id none⟩
        let (pending, t) := n.parents.foldl (fun (pending, t) p ↦
          let (t, last) := t.disown p id
          (if last then p :: pending else pending, t)) (pending, t)
        prune fuel pending t
      else prune fuel pending t

/-- The number of links from nodes to their parents. -/
def links (t : ProcessTree) : Nat :=
  (t.nodes.toList.map fun n ↦ (n.map (·.parents.length)).getD 0).foldr (· + ·) 0

/-- Removes a leaf, and every node above it that leads to no other leaf. -/
def terminate (t : ProcessTree) (n : NodeId) : ProcessTree := prune (t.links + 1) [n] t

/-- Gathers pending nodes and the nodes above them. -/
def gather (t : ProcessTree) : Nat → List NodeId → List NodeId → List NodeId
  | 0, _, seen | _ + 1, [], seen => seen
  | fuel + 1, id :: pending, seen =>
    if seen.contains id then gather t fuel pending seen
    else gather t fuel (((t.node? id).map (·.parents)).getD [] ++ pending) (id :: seen)

def ancestors (t : ProcessTree) (n : NodeId) : List NodeId :=
  let parents := ((t.node? n).map (·.parents)).getD []
  (gather t (parents.length + t.links + 1) parents []).mergeSort (· ≤ ·)

def climb (t : ProcessTree) : Nat → NodeId → List NodeId → List NodeId
  | 0, _, path => path
  | fuel + 1, n, path =>
    match (t.node? n).bind (·.parents.head?) with
    | none => n :: path
    | some parent => climb t fuel parent (n :: path)

/-- The way from the root to a node through first parents. -/
def lineage (t : ProcessTree) (n : NodeId) : List NodeId := climb t (t.nodes.size + 1) n []

def leaves (t : ProcessTree) : List (NodeId × StateId) :=
  t.nodes.toList.zipIdx.filterMap fun (n, i) ↦ (n.bind (·.state)).map (i, ·)

end ProcessTree

end Symex

namespace Symex

variable {α β : Type}

/-- A search tree whose nodes store their height. -/
inductive AvlTree (α β : Type) where
  | leaf
  | node (height : Nat) (key : α) (value : β) (left right : AvlTree α β)

namespace AvlTree

def height : AvlTree α β → Nat
  | leaf => 0
  | node h _ _ _ _ => h

def mk (key : α) (value : β) (left right : AvlTree α β) : AvlTree α β :=
  node (max left.height right.height + 1) key value left right

def rotateRight (key : α) (value : β) (left right : AvlTree α β) : AvlTree α β :=
  match left with
  | node _ pivot pivotValue outer inner => mk pivot pivotValue outer (mk key value inner right)
  | leaf => mk key value leaf right

def rotateLeft (key : α) (value : β) (left right : AvlTree α β) : AvlTree α β :=
  match right with
  | node _ pivot pivotValue inner outer => mk pivot pivotValue (mk key value left inner) outer
  | leaf => mk key value left leaf

/-- A node over two balanced subtrees whose heights differ by at most two, balanced. -/
def balance (key : α) (value : β) (left right : AvlTree α β) : AvlTree α β :=
  if right.height + 1 < left.height then
    match left with
    | node _ k v outer inner =>
      if outer.height < inner.height then rotateRight key value (rotateLeft k v outer inner) right
      else rotateRight key value left right
    | leaf => mk key value left right
  else if left.height + 1 < right.height then
    match right with
    | node _ k v inner outer =>
      if outer.height < inner.height then rotateLeft key value left (rotateRight k v inner outer)
      else rotateLeft key value left right
    | leaf => mk key value left right
  else mk key value left right

/-- The first entry of a tree with the given root, and what remains without it. -/
def splitMin (key : α) (value : β) (left right : AvlTree α β) : (α × β) × AvlTree α β :=
  match left with
  | leaf => ((key, value), right)
  | node _ k v l r =>
    let (first, rest) := splitMin k v l r
    (first, balance key value rest right)

/-- Two trees, all keys of the first below all keys of the second, as one. -/
def join (left right : AvlTree α β) : AvlTree α β :=
  match left, right with
  | leaf, right => right
  | left, leaf => left
  | left, node _ k v l r =>
    let (first, rest) := splitMin k v l r
    balance first.1 first.2 left rest

/-- The entries in ascending order, followed by `rest`. -/
def ascending (t : AvlTree α β) (rest : List (α × β)) : List (α × β) :=
  match t with
  | leaf => rest
  | node _ k v l r => l.ascending ((k, v) :: r.ascending rest)

/-- The entries in descending order, followed by `rest`. -/
def descending (t : AvlTree α β) (rest : List (α × β)) : List (α × β) :=
  match t with
  | leaf => rest
  | node _ k v l r => r.descending ((k, v) :: l.descending rest)

variable [Ord α]

def get? (t : AvlTree α β) (key : α) : Option β :=
  match t with
  | leaf => none
  | node _ k v l r =>
    match compare key k with
    | .lt => l.get? key
    | .gt => r.get? key
    | .eq => some v

def insert (t : AvlTree α β) (key : α) (value : β) : AvlTree α β :=
  match t with
  | leaf => node 1 key value leaf leaf
  | node h k v l r =>
    match compare key k with
    | .lt => balance k v (l.insert key value) r
    | .gt => balance k v l (r.insert key value)
    | .eq => node h k value l r

def modify (t : AvlTree α β) (key : α) (f : β → β) : AvlTree α β :=
  match t with
  | leaf => leaf
  | node h k v l r =>
    match compare key k with
    | .lt => node h k v (l.modify key f) r
    | .gt => node h k v l (r.modify key f)
    | .eq => node h k (f v) l r

def erase (t : AvlTree α β) (key : α) : AvlTree α β :=
  match t with
  | leaf => leaf
  | node _ k v l r =>
    match compare key k with
    | .lt => balance k v (l.erase key) r
    | .gt => balance k v l (r.erase key)
    | .eq => join l r

/-- The entry with the greatest key up to `key`, or else `best`. -/
def floor (t : AvlTree α β) (key : α) (best : Option (α × β)) : Option (α × β) :=
  match t with
  | leaf => best
  | node _ k v l r =>
    match compare key k with
    | .lt => l.floor key best
    | .eq => some (k, v)
    | .gt => r.floor key (some (k, v))

/-- The entries up to `key` in descending order, followed by `rest`. -/
def downFrom (t : AvlTree α β) (key : α) (rest : List (α × β)) : List (α × β) :=
  match t with
  | leaf => rest
  | node _ k v l r =>
    match compare k key with
    | .gt => l.downFrom key rest
    | _ => r.downFrom key ((k, v) :: l.descending rest)

/-- The entries above `key` in ascending order, followed by `rest`. -/
def upAfter (t : AvlTree α β) (key : α) (rest : List (α × β)) : List (α × β) :=
  match t with
  | leaf => rest
  | node _ k v l r =>
    match compare k key with
    | .gt => l.upAfter key ((k, v) :: r.ascending rest)
    | _ => r.upAfter key rest

end AvlTree

/-- An ordered map that knows its size. -/
structure AvlMap (α β : Type) where
  root : AvlTree α β := .leaf
  size : Nat := 0

instance : EmptyCollection (AvlMap α β) := ⟨⟨.leaf, 0⟩⟩
instance : Inhabited (AvlMap α β) := ⟨⟨.leaf, 0⟩⟩

namespace AvlMap

def isEmpty (m : AvlMap α β) : Bool := m.size == 0

/-- The entries in ascending order of their keys. -/
def toList (m : AvlMap α β) : List (α × β) := m.root.ascending []

def keys (m : AvlMap α β) : List α := m.toList.map (·.1)

def values (m : AvlMap α β) : List β := m.toList.map (·.2)

def text (m : AvlMap α β) (keyText : α → String) (valueText : β → String) : String :=
  "\x7b" ++ ", ".intercalate (m.toList.map fun (k, v) ↦ keyText k ++ ": " ++ valueText v) ++ "\x7d"

variable [Ord α]

def get? (m : AvlMap α β) (key : α) : Option β := m.root.get? key

def contains (m : AvlMap α β) (key : α) : Bool := (m.get? key).isSome

/-- Puts `value` at `key`, and tells the value that was there. -/
def insert (m : AvlMap α β) (key : α) (value : β) : Option β × AvlMap α β :=
  let previous := m.get? key
  (previous, ⟨m.root.insert key value, if previous.isSome then m.size else m.size + 1⟩)

def modify (m : AvlMap α β) (key : α) (f : β → β) : AvlMap α β :=
  { m with root := m.root.modify key f }

/-- Removes the entry at `key`, and tells the value that was there. -/
def erase (m : AvlMap α β) (key : α) : Option β × AvlMap α β :=
  match m.get? key with
  | none => (none, m)
  | some previous => (some previous, ⟨m.root.erase key, m.size - 1⟩)

def floor? (m : AvlMap α β) (key : α) : Option (α × β) := m.root.floor key none

/-- The entries with keys up to `key`, in descending order. -/
def downFrom (m : AvlMap α β) (key : α) : List (α × β) := m.root.downFrom key []

/-- The entries with keys above `key`, in ascending order. -/
def upAfter (m : AvlMap α β) (key : α) : List (α × β) := m.root.upAfter key []

end AvlMap

end Symex

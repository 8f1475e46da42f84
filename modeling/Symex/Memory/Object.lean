import Symex.Expr.Build
import Symex.Program.Basic
import Symex.Text

namespace Symex

/-- Where an object comes from. -/
inductive AllocationSite where
  | instruction (l : Location)
  | global (g : GlobalId)
  | varargs (l : Location)
  | unknown
deriving DecidableEq, Inhabited

def AllocationSite.text : AllocationSite → String
  | instruction l => l.text
  | global g => "global g" ++ decimal g
  | varargs l => "varargs of " ++ l.text
  | unknown => "unknown"

/-- The order of objects in memory: by address, and at one address by id. -/
structure ObjectKey where
  address : Nat
  id : Nat
deriving DecidableEq, Ord, Inhabited

/-- The key after those of all objects at `address`. -/
def ObjectKey.last (address : Nat) : ObjectKey := ⟨address, wordLimit - 1⟩

structure MemoryObject where
  id : Nat
  address : Nat
  size : Nat
  name : String
  /-- Lives on the stack. -/
  isLocal : Bool := false
  isGlobal : Bool := false
  /-- Lives at an address that was asked for. -/
  isFixed : Bool := false
  site : AllocationSite := .unknown
deriving DecidableEq, Inhabited

namespace MemoryObject

def key (o : MemoryObject) : ObjectKey := ⟨o.address, o.id⟩

def base (o : MemoryObject) : Expr := .pointer o.address

def sizeExpr (o : MemoryObject) : Expr := .pointer o.size

/-- The distance of `pointer` from the start of the object. -/
def offset (o : MemoryObject) (pointer : Expr) : Checked Expr := Expr.mkSub pointer o.base

/-- The address lies in the object. An empty object contains its own address. -/
def contains (o : MemoryObject) (address : Nat) : Bool :=
  let offset := if o.address ≤ address then address - o.address else address + wordLimit - o.address
  offset < o.size || (o.size == 0 && offset == 0)

/-- The condition for `offset` to lie in the object. -/
def offsetInside (o : MemoryObject) (offset : Expr) : Checked Expr :=
  if o.size = 0 then Expr.mkEq (.pointer 0) offset else Expr.mkUlt offset o.sizeExpr

/-- The condition for `bytes` bytes from `offset` on to lie in the object. -/
def accessInside (o : MemoryObject) (offset : Expr) (bytes : Nat) : Checked Expr := do
  if o.size < bytes then return .bool false
  Expr.mkUlt offset (.pointer (← Bits.addChecked (o.size - bytes) 1))

/-- The condition for `pointer` to point into the object. -/
def pointerInside (o : MemoryObject) (pointer : Expr) : Checked Expr := do
  o.offsetInside (← o.offset pointer)

/-- The condition for `bytes` bytes from `pointer` on to lie in the object. -/
def pointerAccessInside (o : MemoryObject) (pointer : Expr) (bytes : Nat) : Checked Expr := do
  o.accessInside (← o.offset pointer) bytes

def info (o : MemoryObject) : String :=
  o.name ++ " (mo" ++ decimal o.id ++ ") of " ++ decimal o.size ++ " bytes at " ++
    hexadecimal o.address ++ ", allocated at " ++ o.site.text

end MemoryObject

end Symex

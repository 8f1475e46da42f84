import Symex.Bytes
import Symex.Memory.Object

namespace Symex

open Bits

/-- The contents of an object as one address space sees them. A byte is concrete, a known expression, or
read from the array; each of the masks comes into being with the first byte that needs it. -/
structure ObjectState where
  object : MemoryObject
  /-- The concrete bytes, with stale ones where a byte is not concrete. -/
  bytes : ByteArray
  /-- Which bytes are concrete; all of them without a mask. -/
  concreteMask : Option (Array Bool) := none
  /-- Which bytes are read from the array; none of them without a mask. -/
  flushedMask : Option (Array Bool) := none
  /-- The bytes that are known expressions; none of them without a table. -/
  table : Option (Array (Option Expr)) := none
  /-- The array that flushed bytes are read from. -/
  updates? : Option Updates := none
  readOnly : Bool := false
  /-- The epoch of the address space that may change the contents in place. -/
  owner : Nat := 0

/-- Writes the bytes that `pick` gives for the first `count` indices on top. -/
def Updates.overlay (u : Updates) (pick : Nat → Checked (Option Expr)) (count : Nat) : Checked Updates :=
  (List.range count).foldlM (fun u i ↦ do
    match ← pick i with
    | some e => u.extendAt i e
    | none => return u) u

namespace ObjectState

def withBytes (object : MemoryObject) (bytes : ByteArray) : Checked ObjectState := do
  demand (bytes.size = object.size) .misuse
  return { object, bytes }

/-- The largest number of bytes that a buffer can have. -/
def maxBytes : Nat := pow2 63 - 1

def zeroed (object : MemoryObject) : Checked ObjectState := do
  demand (object.size ≤ maxBytes) .overflow
  return { object, bytes := Bytes.zeros object.size }

def ofArray (object : MemoryObject) (array : NamedArray) : Checked ObjectState := do
  return { ← zeroed object with
    concreteMask := some (Array.replicate object.size false)
    flushedMask := some (Array.replicate object.size true)
    updates? := some (.base array) }

def size (s : ObjectState) : Nat := s.bytes.size

/-- The memory held beyond the fixed part of a state. -/
def footprint (s : ObjectState) : Nat :=
  s.size + s.concreteMask.isSome.toNat * (s.size / 8) + s.flushedMask.isSome.toNat * (s.size / 8) +
    (s.table.map (·.size * 8)).getD 0 + (s.updates?.map (·.length * 48)).getD 0

def clear (s : ObjectState) : ObjectState :=
  { s with
    bytes := Bytes.zeros s.size
    concreteMask := none
    flushedMask := none
    table := none
    updates? := none }

/-- The entry of a mask or table for a byte, if there is one at all. -/
def entry {α : Type} (mask : Option (Array α)) (absent : α) (index : Nat) : Checked α :=
  match mask with
  | none => .ok absent
  | some m =>
    match m[index]? with
    | some a => .ok a
    | none => .error .range

/-- The byte at `index` is concrete. Without a mask this is said of any index. -/
def isConcrete (s : ObjectState) (index : Nat) : Checked Bool := entry s.concreteMask true index

def isFlushed (s : ObjectState) (index : Nat) : Checked Bool := entry s.flushedMask false index

/-- The expression that the byte at `index` is known to be. -/
def known? (s : ObjectState) (index : Nat) : Checked (Option Expr) := entry s.table none index

def isAllConcrete (s : ObjectState) : Bool :=
  match s.concreteMask with
  | none => true
  | some mask => mask.all id

def markConcrete (s : ObjectState) (index : Nat) : ObjectState :=
  { s with
    concreteMask := s.concreteMask.map (·.setIfInBounds index true)
    flushedMask := s.flushedMask.map (·.setIfInBounds index false)
    table := s.table.map (·.setIfInBounds index none) }

def writeByte (s : ObjectState) (index : Nat) (value : UInt8) : Checked ObjectState :=
  if h : index < s.bytes.size then
    .ok { s.markConcrete index with bytes := s.bytes.set index value h }
  else .error .range

def writeBytes (s : ObjectState) (offset : Nat) (bytes : ByteArray) : Checked ObjectState :=
  (Bytes.indexed bytes).foldlM (fun s (i, b) ↦ do s.writeByte (← addChecked offset i) b) s

def writeSymbolicByte (s : ObjectState) (index : Nat) (value : Expr) : Checked ObjectState := do
  demand (index < s.size) .range
  return { s with
    concreteMask := some ((s.concreteMask.getD (Array.replicate s.size true)).setIfInBounds index false)
    flushedMask := s.flushedMask.map (·.setIfInBounds index false)
    table := some ((s.table.getD (Array.replicate s.size none)).setIfInBounds index (some value)) }

def ownArray (s : ObjectState) : NamedArray :=
  .constant (s.object.name ++ "#" ++ decimal s.object.id) s.bytes

/-- The concrete byte at `index`, where the array does not hold it. -/
def newByte? (s : ObjectState) (index : Nat) : Checked (Option Expr) := do
  if ← s.isFlushed index then return none
  if ← s.isConcrete index then return some (.word (s.bytes[index]?.getD 0).toNat 8) else return none

/-- The expression that the byte at `index` is, where the array does not hold it. -/
def newTerm? (s : ObjectState) (index : Nat) : Checked (Option Expr) := do
  match ← s.known? index with
  | none => return none
  | some e => if ← s.isFlushed index then return none else return some e

/-- The array that holds all bytes: those not flushed are written on top, first the concrete ones,
then the known expressions. Before the first flush the concrete bytes are an array of their own. -/
def flushedUpdates (s : ObjectState) : Checked Updates := do
  let u ← match s.updates? with
    | some u => u.overlay s.newByte? s.size
    | none => pure (.base s.ownArray)
  match s.table with
  | some table => u.overlay s.newTerm? table.size
  | none => return u

def readByte (s : ObjectState) (index : Nat) : Checked Expr := do
  if ← s.isConcrete index then
    match s.bytes[index]? with
    | some b => return .word b.toNat 8
    | none => throw .range
  else
    match ← if ← s.isFlushed index then pure none else s.known? index with
    | some e => return e
    | none =>
      let u ← match s.updates? with
        | some u => pure u
        | none => s.flushedUpdates
      Expr.mkRead u (.word index 32)

def readByteAt (s : ObjectState) (offset : Expr) : Checked Expr := do
  let index ← Expr.mkZext offset 32
  Expr.mkRead (← s.flushedUpdates) index

/-- Sets the byte at a known index to the low bits of a value. -/
def write8 (s : ObjectState) (index : Nat) (value : Expr) : Checked ObjectState :=
  match value.value? with
  | some v => s.writeByte index v.toUInt8
  | none => s.writeSymbolicByte index value

def flushedTo (s : ObjectState) (u : Updates) : ObjectState :=
  { s with
    concreteMask := some (Array.replicate s.size false)
    flushedMask := some (Array.replicate s.size true)
    table := none
    updates? := some u }

/-- Sets the byte at an unknown offset. All bytes are flushed before. -/
def writeByteAt (s : ObjectState) (offset value : Expr) : Checked ObjectState := do
  let u ← s.flushedUpdates
  let index ← Expr.mkZext offset 32
  return s.flushedTo (← u.extend index value)

def place (offset : Expr) (i : Nat) : Checked Expr := do
  Expr.mkAdd offset (← Expr.constant i offset.width)

def readByteAfter (s : ObjectState) (offset : Expr) (i : Nat) : Checked Expr := do
  match offset.value? with
  | some base => s.readByte (← addChecked base i)
  | none => s.readByteAt (← place offset i)

/-- A value of `width` bits, the lowest byte first. -/
def read (s : ObjectState) (offset : Expr) (width : Nat) : Checked Expr := do
  demand (width ≤ maxWidth) .width
  let bytes ← (List.range (← byteCountChecked width)).foldlM (fun (low : Option Expr) i ↦ do
    let byte ← s.readByteAfter offset i
    match low with
    | none => return some byte
    | some low => return some (← Expr.mkConcat byte low)) none
  Expr.mkExtract (bytes.getD (.word 0 8)) 0 width

/-- Writes a value, the lowest byte first. A value that does not fill its last byte is extended by
zeros. -/
def write (s : ObjectState) (offset value : Expr) : Checked ObjectState := do
  let count := byteCount value.width
  let value ← if value.width % 8 = 0 then pure value else Expr.mkZext value (count * 8)
  (List.range count).foldlM (fun s i ↦ do
    let byte ← Expr.mkExtract value (i * 8) 8
    match offset.value? with
    | some base => s.write8 (← addChecked base i) byte
    | none => s.writeByteAt (← place offset i) byte) s

end ObjectState

end Symex

import Symex.Smt.Term
import Std.Data.HashMap
import Std.Data.TreeMap

namespace Symex.Smt

/-- The declarations and definitions that a set of terms needs. -/
structure Script where
  declarations : Array Command := #[]
  /-- Each definition uses only earlier ones. -/
  definitions : Array Command := #[]
  values : Std.HashMap Expr Symbol := {}
  /-- The arrays after writes, by the symbol of the array below and the writes. -/
  written : Std.HashMap (Symbol × List (Expr × Expr)) Symbol := {}
  roots : Std.HashMap NamedArray Symbol := {}
  /-- The inputs by name. -/
  inputs : Std.TreeMap String NamedArray := {}
  nextId : Nat := 0

/-- Computations that add to a script. -/
abbrev Build := StateM Script

namespace Build

def define (symbol : Nat → Symbol) (kind : Kind) (body : Term) : Build Symbol := fun s ↦
  let name := symbol s.nextId
  (name, { s with
    nextId := s.nextId + 1
    definitions := s.definitions.push (.define name kind body) })

/-- An array of known bytes: zeros with the others written one after another. -/
def tableBody (bytes : ByteArray) : Term :=
  bytes.toList.zipIdx.foldl (fun t (b, i) ↦
    if b = 0 then t else .store t (.literal i 32) (.literal b.toNat 8)) .zeros

def root (array : NamedArray) : Build Symbol := do
  match (← get).roots[array]? with
  | some symbol => return symbol
  | none =>
    let symbol ← match array.contents with
      | some bytes => define .table .array (tableBody bytes)
      | none => do
        let symbol := Symbol.ofName array.name
        modify fun s ↦ { s with
          declarations := s.declarations.push (.declare symbol)
          inputs := s.inputs.insert array.name array }
        pure symbol
    modify fun s ↦ { s with roots := s.roots.insert array symbol }
    return symbol

/-- The symbol of a value, which is defined by `body` the first time. -/
def value (e : Expr) (body : Build Term) : Build Term := do
  match (← get).values[e]? with
  | some symbol => return .symbol symbol
  | none =>
    let symbol ← define .value (.bits e.width) (← body)
    modify fun s ↦ { s with values := s.values.insert e symbol }
    return .symbol symbol

mutual

def term (e : Expr) : Build Term :=
  match e with
  | .const v w => return .literal v w
  | .read u i => value e do
    let array ← chain (← root u.root) u
    return .select (.symbol array) (← term i)
  | .select c t f => value e do
    let c ← term c
    let t ← term t
    return .ite (c.isBit true) t (← term f)
  | .concat m l => value e do
    let m ← term m
    return .concat m (← term l)
  | .extract x offset width => value e do return .extract (offset + width - 1) offset (← term x)
  | .zext x width => value e do return .zeroExtend (width - x.width) (← term x)
  | .sext x width => value e do return .signExtend (width - x.width) (← term x)
  | .not x => value e do return .not (← term x)
  | .binary op l r => value e do
    let l ← term l
    return .binary op l (← term r)
  | .compare op l r => value e do
    let l ← term l
    return .ite (.compare op l (← term r)) (.bit true) (.bit false)

/-- The symbol of an array after writes; `below` is that of the array itself. -/
def chain (below : Symbol) (u : Updates) : Build Symbol :=
  match u with
  | .base _ => return below
  | .write i v older => do
    let key := (below, u.writes)
    match (← get).written[key]? with
    | some symbol => return symbol
    | none =>
      let array ← chain below older
      let i ← term i
      let v ← term v
      let symbol ← define .written .array (.store (.symbol array) i v)
      modify fun s ↦ { s with written := s.written.insert key symbol }
      return symbol

end

def assertion (e : Expr) : Build Term := return (← term e).isBit true

end Build

/-- The commands that declare and define everything. -/
def Script.preamble (s : Script) : List Command := s.declarations.toList ++ s.definitions.toList

end Symex.Smt

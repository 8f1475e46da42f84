import Symex.Expr.Substitution
import Std.Data.TreeMap

namespace Symex

open Bits

/-- Contents of inputs, by name. Where `free` holds, bytes without contents count as zero. -/
structure Assignment where
  free : Bool
  bindings : Std.TreeMap String ByteArray := {}

namespace Assignment

def bind (a : Assignment) (name : String) (values : ByteArray) : Assignment :=
  { a with bindings := a.bindings.insert name values }

/-- The contents given to the array called `name`. -/
def get? (a : Assignment) (name : String) : Option ByteArray := a.bindings[name]?

/-- Replaces one byte of the array called `name`, if it has contents there. -/
def poke (a : Assignment) (name : String) (index : Nat) (value : UInt8) : Assignment :=
  { a with bindings := a.bindings.modify name fun bytes ↦
      if h : index < bytes.size then bytes.set index value h else bytes }

/-- The byte at `index` of `array`, if it is known. -/
def byte? (a : Assignment) (array : NamedArray) (index : Nat) : Option UInt8 :=
  match array.byte? index with
  | some b => some b
  | none =>
    match (a.get? array.name).bind (·[index]?) with
    | some b => some b
    | none => if a.free then some 0 else none

mutual

/-- The value of `e`, if it does not depend on unknown bytes. Only the arm that a selection takes
matters. -/
def eval (a : Assignment) (e : Expr) : Option Nat :=
  match e with
  | .const v _ => some v
  | .read u i => do
    let index ← a.eval i
    a.evalRead u index
  | .select c t f => do
    let condition ← a.eval c
    if condition = 0 then a.eval f else a.eval t
  | .concat m l => do
    let high ← a.eval m
    let low ← a.eval l
    return (high <<< l.width) ||| low
  | .extract x offset width => do
    let v ← a.eval x
    return trunc width (v >>> offset)
  | .zext x _ => a.eval x
  | .sext x width => do
    let v ← a.eval x
    return ofSigned width (toSigned x.width v)
  | .not x => do
    let v ← a.eval x
    return pow2 x.width - 1 - trunc x.width v
  | .binary op l r => do
    let x ← a.eval l
    let y ← a.eval r
    return op.fold x y l.width
  | .compare op l r => do
    let x ← a.eval l
    let y ← a.eval r
    return (op.fold x y l.width).toNat

/-- The value of the byte at `index` after the writes of `u`: that of the newest write there. -/
def evalRead (a : Assignment) (u : Updates) (index : Nat) : Option Nat :=
  match u with
  | .base array => (a.byte? array index).map (·.toNat)
  | .write i v older => do
    let at? ← a.eval i
    if at? = index then a.eval v else a.evalRead older index

end

/-- Values under an assignment that are already known. -/
abbrev Table (a : Assignment) := Std.DHashMap Expr fun e ↦ { r : Option Nat // r = a.eval e }

mutual

def evalShared (a : Assignment) (e : Expr) (t : a.Table) :
    { r : Option Nat // r = a.eval e } × a.Table :=
  match t.get? e with
  | some known => (known, t)
  | none =>
    let (r, t) : { r : Option Nat // r = a.eval e } × a.Table :=
      match e with
      | .const v w => (⟨some v, by unfold eval; rfl⟩, t)
      | .read u i =>
        match a.evalShared i t with
        | (⟨none, h⟩, t) => (⟨none, by unfold eval; rw [← h]; rfl⟩, t)
        | (⟨some index, h⟩, t) =>
          let (r, t) := a.evalReadShared u index t
          (⟨r.1, by conv => rhs; unfold eval
                    rw [← h, r.2]; rfl⟩, t)
      | .select c x f =>
        match a.evalShared c t with
        | (⟨none, h⟩, t) => (⟨none, by unfold eval; rw [← h]; rfl⟩, t)
        | (⟨some condition, h⟩, t) =>
          if hc : condition = 0 then
            let (r, t) := a.evalShared f t
            (⟨r.1, by conv => rhs; unfold eval
                      rw [← h, r.2, hc]; rfl⟩, t)
          else
            let (r, t) := a.evalShared x t
            (⟨r.1, by conv => rhs; unfold eval
                      rw [← h, r.2]; simp [hc]⟩, t)
      | .concat m l =>
        let (x, t) := a.evalShared m t
        let (y, t) := a.evalShared l t
        (⟨do let high ← x.1; let low ← y.1; return (high <<< l.width) ||| low,
          by conv => rhs; unfold eval
             rw [x.2, y.2]⟩, t)
      | .extract x offset width =>
        let (v, t) := a.evalShared x t
        (⟨do let v ← v.1; return trunc width (v >>> offset),
          by conv => rhs; unfold eval
             rw [v.2]⟩, t)
      | .zext x width =>
        let (v, t) := a.evalShared x t
        (⟨v.1, by conv => rhs; unfold eval
                  rw [v.2]⟩, t)
      | .sext x width =>
        let (v, t) := a.evalShared x t
        (⟨do let v ← v.1; return ofSigned width (toSigned x.width v),
          by conv => rhs; unfold eval
             rw [v.2]⟩, t)
      | .not x =>
        let (v, t) := a.evalShared x t
        (⟨do let v ← v.1; return pow2 x.width - 1 - trunc x.width v,
          by conv => rhs; unfold eval
             rw [v.2]⟩, t)
      | .binary op l r =>
        let (x, t) := a.evalShared l t
        let (y, t) := a.evalShared r t
        (⟨do let x ← x.1; let y ← y.1; return op.fold x y l.width,
          by conv => rhs; unfold eval
             rw [x.2, y.2]⟩, t)
      | .compare op l r =>
        let (x, t) := a.evalShared l t
        let (y, t) := a.evalShared r t
        (⟨do let x ← x.1; let y ← y.1; return (op.fold x y l.width).toNat,
          by conv => rhs; unfold eval
             rw [x.2, y.2]⟩, t)
    (r, t.insert e r)

/-- Computes `evalRead` with the help of a table. -/
def evalReadShared (a : Assignment) (u : Updates) (index : Nat) (t : a.Table) :
    { r : Option Nat // r = a.evalRead u index } × a.Table :=
  match u with
  | .base array => (⟨(a.byte? array index).map (·.toNat), by unfold evalRead; rfl⟩, t)
  | .write i v older =>
    match a.evalShared i t with
    | (⟨none, h⟩, t) => (⟨none, by unfold evalRead; rw [← h]; rfl⟩, t)
    | (⟨some at?, h⟩, t) =>
      if hi : at? = index then
        let (r, t) := a.evalShared v t
        (⟨r.1, by conv => rhs; unfold evalRead
                  rw [← h, r.2]; simp [hi]⟩, t)
      else
        let (r, t) := a.evalReadShared older index t
        (⟨r.1, by conv => rhs; unfold evalRead
                  rw [← h, r.2]; simp [hi]⟩, t)

end

/-- The value of `e`, computed in the way that suits its size. -/
def value? (a : Assignment) (e : Expr) : Option Nat :=
  if e.weight < 1024 then a.eval e else (a.evalShared e {}).1

theorem value?_eq_eval (a : Assignment) (e : Expr) : a.value? e = a.eval e := by
  unfold value?
  split
  · rfl
  · exact (a.evalShared e {}).1.2

/-- Whether every one of `constraints` holds: unknown if the value of one of them is, unless an
earlier one fails. -/
def satisfies? (a : Assignment) : List Expr → Option Bool
  | [] => some true
  | c :: rest =>
    match a.value? c with
    | none => none
    | some v => if v = 0 then some false else a.satisfies? rest

/-- What a read at the constant `index` becomes once the writes above are resolved. -/
def resolveRead (a : Assignment) (u : Updates) (index : Nat) : Option Expr :=
  match u.find index with
  | .value e => some e
  | .blocked => none
  | .untouched => (a.byte? u.root index).map fun b ↦ .word b.toNat 8

/-- Rebuilds `e` with every read that the assignment determines replaced by its value. -/
def reduce (a : Assignment) (e : Expr) : Checked Expr :=
  Rebuilding.run
    { before := fun _ ↦ none
      after := fun e ↦
        match e with
        | .read u (.const index _) => (a.resolveRead u index).getD e
        | e => e } e

end Assignment

end Symex

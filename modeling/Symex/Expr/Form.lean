import Symex.Expr.Build
import Symex.Expr.Text
import Symex.Json
import Std.Data.HashMap

namespace Symex

def BinOp.ofText? : String → Option BinOp
  | "Add" => some .add | "Sub" => some .sub | "Mul" => some .mul | "UDiv" => some .udiv
  | "SDiv" => some .sdiv | "URem" => some .urem | "SRem" => some .srem | "And" => some .and
  | "Or" => some .or | "Xor" => some .xor | "Shl" => some .shl | "LShr" => some .lshr
  | "AShr" => some .ashr | _ => none

def CmpOp.ofText? : String → Option CmpOp
  | "Eq" => some .eq | "Ult" => some .ult | "Ule" => some .ule | "Slt" => some .slt
  | "Sle" => some .sle | _ => none

/-- An array: its name with its size, or with its contents where they are known. -/
def NamedArray.ofForm? (j : Json) : Option NamedArray := do
  let name ← (j.field "name").str?
  match j.field "bytes" with
  | .null => return .symbolic name (← (j.field "size").word?)
  | contents => return .constant name (← contents.hex?)

namespace Expr

def inputByte (name : String) (size index : Nat) : Checked Expr :=
  mkRead (.base (.symbolic name size)) (.word index 32)

/-- All bytes of an input as one word, the first byte lowest. -/
def inputWord (name : String) (size : Nat) : Checked Expr := do
  demand (size * 8 ≤ maxWidth) .width
  (List.range' 1 (size - 1)).foldlM (fun low k ↦ do mkConcat (← inputByte name size k) low)
    (← inputByte name size 0)

/-- Expressions that were given a name. -/
abbrev Names := Std.HashMap String Expr

/-- An argument of a form in each of the ways in which it may be meant. -/
structure Argument where
  written : Json
  expr : Unit → Checked Expr := fun _ ↦ throw .misuse
  exprs : Unit → Checked (List Expr) := fun _ ↦ throw .misuse
  updates : Unit → Checked Updates := fun _ ↦ throw .misuse
  /-- One write on top of others. -/
  write : Updates → Checked Updates := fun _ ↦ throw .misuse

namespace Argument

def word (a : Argument) : Checked Nat := Checked.ofOption a.written.word?
def half (a : Argument) : Checked Nat := Checked.ofOption a.written.half?
def str (a : Argument) : Checked String := Checked.ofOption a.written.str?

end Argument

def ofForm₁ (names : Names) (op : String) (a : Argument) : Checked Expr :=
  match op with
  | "ref" => do Checked.ofOption names[← a.str]?
  | "bool" => do return bool (← Checked.ofOption a.written.bool?)
  | "ptr" => do return pointer (← a.word)
  | "not" => do return mkNot (← a.expr ())
  | "is_zero" => do return isZero (← a.expr ())
  | "and_all" => do mkAll (← a.exprs ())
  | "or_all" => do mkAny (← a.exprs ())
  | _ => throw .misuse

def ofOperands (op : String) (l r : Expr) : Checked Expr :=
  match op with
  | "concat" => mkConcat l r
  | "add" => mkAdd l r | "sub" => mkSub l r | "mul" => mkMul l r
  | "udiv" => mkBinary .udiv l r | "urem" => mkBinary .urem l r
  | "and" => mkAnd l r | "or" => mkOr l r | "xor" => mkBinary .xor l r
  | "shl" => mkBinary .shl l r | "lshr" => mkBinary .lshr l r
  | "eq" => mkEq l r | "ne" => mkNe l r
  | "ult" => mkUlt l r | "ule" => mkUle l r | "ugt" => mkUgt l r | "uge" => mkUge l r
  | "slt" => mkSlt l r | "sle" => mkSle l r | "sgt" => mkSgt l r | "sge" => mkSge l r
  | _ => throw .misuse

def ofForm₂ (op : String) (a b : Argument) : Checked Expr :=
  match op with
  | "const" => do constant (← a.word) (← b.half)
  | "symw" => do inputWord (← a.str) (← b.word)
  | "read" => do
    let updates ← a.updates ()
    mkRead updates (← b.expr ())
  | "trunc" => do mkTruncate (← a.expr ()) (← b.half)
  | "zext" => do mkZext (← a.expr ()) (← b.half)
  | "sext" => do mkSext (← a.expr ()) (← b.half)
  | op => do
    let l ← a.expr ()
    ofOperands op l (← b.expr ())

def ofForm₃ (op : String) (a b c : Argument) : Checked Expr :=
  match op with
  | "sym" => do inputByte (← a.str) (← b.word) (← c.word)
  | "select" => do
    let condition ← a.expr ()
    let ifTrue ← b.expr ()
    mkSelect condition ifTrue (← c.expr ())
  | "extract" => do mkExtract (← a.expr ()) (← b.half) (← c.half)
  | "bin" => do
    let l ← b.expr ()
    mkBinary (← Checked.ofOption (BinOp.ofText? (← a.str))) l (← c.expr ())
  | "cmp" => do
    let l ← b.expr ()
    mkCompare (← Checked.ofOption (CmpOp.ofText? (← a.str))) l (← c.expr ())
  | _ => throw .misuse

def ofArguments (names : Names) : List Argument → Checked Expr
  | [] => throw .misuse
  | op :: arguments => do
    let op ← op.str
    match arguments with
    | [a] => ofForm₁ names op a
    | [a, b] => ofForm₂ op a b
    | [a, b, c] => ofForm₃ op a b c
    | _ => throw .misuse

/-- An array under a list of writes, the oldest first. -/
def updatesOf (array : Json) (writes : List Argument) : Checked Updates := do
  let array ← Checked.ofOption (NamedArray.ofForm? array)
  writes.foldlM (fun u w ↦ w.write u) (.base array)

mutual

def argument (names : Names) : Json → Argument
  | .list items =>
    let arguments := argumentList names items
    { written := .list items
      expr := fun _ ↦ ofArguments names arguments
      exprs := fun _ ↦ arguments.mapM (·.expr ())
      write := fun u ↦
        match arguments with
        | [index, value] => do
          let index ← index.expr ()
          u.extend index (← value.expr ())
        | _ => throw .misuse }
  | .object fields =>
    let arguments := writeArguments names fields
    { written := .object fields
      updates := fun _ ↦ updatesOf ((fields.lookup "array").getD .null) arguments }
  | j => { written := j }

def argumentList (names : Names) : List Json → List Argument
  | [] => []
  | j :: rest => argument names j :: argumentList names rest

def writeArguments (names : Names) : List (String × Json) → List Argument
  | [] => []
  | ("writes", .list writes) :: rest => argumentList names writes ++ writeArguments names rest
  | _ :: rest => writeArguments names rest

end

/-- Reads an expression in which earlier ones are referred to by name. -/
def ofForm (names : Names) (j : Json) : Checked Expr := (argument names j).expr ()

/-- Reads a list of named expressions, each of which may refer to those before it. -/
def namesOfForm (j : Json) : Checked Names := do
  (← Checked.ofOption (j.listOrNull? some)).foldlM (fun names entry ↦ do
    let name ← Checked.ofOption (entry.item 0).str?
    return names.insert name (← ofForm names (entry.item 1))) {}

end Expr

def Updates.ofForm (names : Expr.Names) (j : Json) : Checked Updates :=
  (Expr.argument names j).updates ()

end Symex

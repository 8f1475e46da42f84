import Symex.Expr.Basic

namespace Symex

def BinOp.text : BinOp → String
  | .add => "Add" | .sub => "Sub" | .mul => "Mul" | .udiv => "UDiv" | .sdiv => "SDiv"
  | .urem => "URem" | .srem => "SRem" | .and => "And" | .or => "Or" | .xor => "Xor"
  | .shl => "Shl" | .lshr => "LShr" | .ashr => "AShr"

def CmpOp.text : CmpOp → String
  | .eq => "Eq" | .ult => "Ult" | .ule => "Ule" | .slt => "Slt" | .sle => "Sle"

def decimal (n : Nat) : String := toString n

mutual

def Expr.appendText (out : String) (e : Expr) : String :=
  match e with
  | .const v w => out ++ (if w = 1 then (if v = 0 then "false" else "true") else decimal v)
  | .read u i =>
    Updates.appendText (i.appendText (out ++ "(Read w8 ") ++ " ") u ++ ")"
  | .select c t f =>
    let out := c.appendText (out ++ "(Select w" ++ decimal t.width ++ " ")
    f.appendText (t.appendText (out ++ " ") ++ " ") ++ ")"
  | .concat m l =>
    let out := m.appendText (out ++ "(Concat w" ++ decimal (m.width + l.width) ++ " ")
    l.appendText (out ++ " ") ++ ")"
  | .extract v o w =>
    v.appendText (out ++ "(Extract w" ++ decimal w ++ " " ++ decimal o ++ " ") ++ ")"
  | .zext v w => v.appendText (out ++ "(ZExt w" ++ decimal w ++ " ") ++ ")"
  | .sext v w => v.appendText (out ++ "(SExt w" ++ decimal w ++ " ") ++ ")"
  | .not v => v.appendText (out ++ "(Not w" ++ decimal v.width ++ " ") ++ ")"
  | .binary op l r =>
    let out := l.appendText (out ++ "(" ++ op.text ++ " w" ++ decimal l.width ++ " ")
    r.appendText (out ++ " ") ++ ")"
  | .compare op l r =>
    let out := l.appendText (out ++ "(" ++ op.text ++ " ")
    r.appendText (out ++ " ") ++ ")"

/-- Appends the writes, newest first, and the name of the array. -/
def Updates.appendText (out : String) (u : Updates) : String :=
  match u with
  | .base a => out ++ a.name
  | .write i v older =>
    Updates.appendWrites (v.appendText (i.appendText (out ++ "[") ++ "=")) older ++ older.root.name

/-- Appends the writes after the first, and what closes their list. -/
def Updates.appendWrites (out : String) (u : Updates) : String :=
  match u with
  | .base _ => out ++ "] @ "
  | .write i v older =>
    Updates.appendWrites (v.appendText (i.appendText (out ++ ", ") ++ "=")) older

end

def Expr.text (e : Expr) : String := e.appendText ""

def Updates.text (u : Updates) : String := u.appendText ""

end Symex

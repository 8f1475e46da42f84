import Symex.Executor.Fork
import Symex.Ieee

namespace Symex

/-- A comparison; `order` is nothing where an operand is no number. -/
def FloatPredicate.holds (p : FloatPredicate) (order : Option Ordering) : Bool :=
  match p with
  | never => false
  | always => true
  | oeq => order == some .eq
  | ogt => order == some .gt
  | oge => order == some .gt || order == some .eq
  | olt => order == some .lt
  | ole => order == some .lt || order == some .eq
  | one => order == some .lt || order == some .gt
  | ord => order.isSome
  | uno => order.isNone
  | ueq => order.isNone || order == some .eq
  | ugt => order.isNone || order == some .gt
  | uge => order != some .lt
  | ult => order.isNone || order == some .lt
  | ule => order != some .gt
  | une => order != some .eq

/-- The result of an operation in a format, as bits; it has the bits `nan` where it is no number. -/
def FloatOp.apply (op : FloatOp) (f : Ieee.Format) (nan : Nat) (a b : Ieee.Value) : Nat :=
  match op with
  | add => Ieee.add f nan a b
  | sub => Ieee.add f nan a (Ieee.negate b)
  | mul => Ieee.mul f nan a b
  | div => Ieee.div f nan a b
  | rem => Ieee.rem f nan a b

namespace Exec

variable {σ : Type}

def floatOperand (e : Expr) : Exec σ (Nat × Nat) := do
  let e ← toConstant e
  return (e.value?.getD 0, e.width)

def floatFormat (width : Nat) : Exec σ Ieee.Format := do
  match Ieee.Format.ofWidth? width with
  | some f => return f
  | none => fail (.unsupportedFloatWidth width)

def floatBinary (op : FloatOp) (lhs rhs : Expr) (destination : Register) : Exec σ Unit := do
  let (a, w) ← floatOperand lhs
  let (b, w') ← floatOperand rhs
  if w ≠ w' then fail (.widthMismatch w w')
  let f ← floatFormat w
  let nan := (← executor).nan f
  write destination (← Expr.constant (op.apply f nan (Ieee.decode f a) (Ieee.decode f b)) w)

def floatCompare (p : FloatPredicate) (lhs rhs : Expr) (destination : Register) : Exec σ Unit := do
  let (a, w) ← floatOperand lhs
  let (b, w') ← floatOperand rhs
  let f ← floatFormat w
  let f' ← floatFormat w'
  write destination (.bool (p.holds (Ieee.compare? (Ieee.decode f a) (Ieee.decode f' b))))

def floatCast (op : FloatCastOp) (value : Expr) (width : Nat) (destination : Register) :
    Exec σ Unit := do
  let (bits, w) ← floatOperand value
  let result ← match op with
    | .narrow | .widen => do
      let wide := Ieee.convert (← floatFormat w) Ieee.double bits
      pure (Ieee.convert Ieee.double (← floatFormat width) wide)
    | .toUnsigned => do
      pure (Ieee.toInt 0 (pow2 64 - 1) (Ieee.decode (← floatFormat w) bits)).toNat
    | .toSigned => do
      let n := Ieee.toInt (-pow2 63) (pow2 63 - 1) (Ieee.decode (← floatFormat w) bits)
      pure (n % pow2 64).toNat
    | .ofUnsigned => do pure (Ieee.ofInt (← floatFormat width) bits)
    | .ofSigned => do
      let n ← Bits.toSignedChecked bits w
      pure (Ieee.ofInt (← floatFormat width) n)
  write destination (← Expr.constant result width)

end Exec

end Symex

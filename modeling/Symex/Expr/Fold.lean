import Symex.Expr.Basic

namespace Symex

open Bits

/-- The result of `op` on two words of `width` bits. -/
def BinOp.fold (op : BinOp) (lhs rhs width : Nat) : Nat :=
  let l := trunc width lhs
  let r := trunc width rhs
  match op with
  | .add => trunc width (l + r)
  | .sub => if r ≤ l then l - r else l + pow2 width - r
  | .mul => trunc width (l * r)
  | .udiv => if r = 0 then pow2 width - 1 else l / r
  | .urem => if r = 0 then l else l % r
  | .sdiv =>
    let x := toSigned width l
    if r = 0 then (if x < 0 then 1 else pow2 width - 1)
    else ofSigned width (x.tdiv (toSigned width r))
  | .srem =>
    if r = 0 then l else ofSigned width ((toSigned width l).tmod (toSigned width r))
  | .and => l &&& r
  | .or => l ||| r
  | .xor => l ^^^ r
  | .shl => if width ≤ r then 0 else trunc width (l <<< r)
  | .lshr => if width ≤ r then 0 else l >>> r
  | .ashr =>
    let x := toSigned width l
    if width ≤ r then (if x < 0 then pow2 width - 1 else 0) else ofSigned width (x >>> r)

/-- The result of comparing two words of `width` bits. -/
def CmpOp.fold (op : CmpOp) (lhs rhs width : Nat) : Bool :=
  let l := trunc width lhs
  let r := trunc width rhs
  match op with
  | .eq => l == r
  | .ult => l < r
  | .ule => l ≤ r
  | .slt => toSigned width l < toSigned width r
  | .sle => toSigned width l ≤ toSigned width r

end Symex

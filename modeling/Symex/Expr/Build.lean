import Symex.Expr.Fold

namespace Symex

open Bits

/-- The comparison that holds exactly where an ordering does not, on exchanged operands. -/
def CmpOp.converse : CmpOp → CmpOp
  | .eq => .eq | .ult => .ule | .ule => .ult | .slt => .sle | .sle => .slt

namespace Expr

/-- The constant of `width` bits that `value` truncates to. -/
def word (value width : Nat) : Expr := .const (trunc width value) width

def bool (b : Bool) : Expr := .const b.toNat 1

def pointer (value : Nat) : Expr := word value 64

def constant (value width : Nat) : Checked Expr := do
  demand (0 < width ∧ width ≤ maxWidth) .width
  return word value width

end Expr

/-- What a read at a constant index finds among the writes. -/
inductive Updates.Found where
  /-- A write at the same index, with nothing unknown above it. -/
  | value (e : Expr)
  /-- No write can have touched the index. -/
  | untouched
  /-- A write at an unknown index comes first. -/
  | blocked

namespace Updates

/-- Looks for the byte at the constant `index` through writes at constant indices. -/
def find (index : Nat) : Updates → Found
  | .base _ => .untouched
  | .write i value older =>
    match i.value? with
    | some j => if j = index then .value value else find index older
    | none => .blocked

def extend (u : Updates) (index value : Expr) : Checked Updates := do
  demand (index.width = 32 ∧ value.width = 8) .width
  return .write index value u

/-- Records a write of a byte at a concrete index. -/
def extendAt (u : Updates) (index : Nat) (value : Expr) : Checked Updates :=
  u.extend (.word index 32) value

end Updates

namespace Expr

/-- The byte at a 32-bit index. A constant index is resolved through writes at other constant
indices, down to the contents of the array where they are known. -/
def readCore (u : Updates) (index : Expr) : Expr :=
  match index.value? with
  | none => .read u index
  | some i =>
    match u.find i with
    | .value e => e
    | .blocked => .read u index
    | .untouched =>
      match u.root.byte? i with
      | some b => word b.toNat 8
      | none => .read (.base u.root) index

def mkRead (u : Updates) (index : Expr) : Checked Expr := do
  demand (index.width = 32) .width
  return readCore u index

def orderCore (op : CmpOp) (lhs rhs : Expr) : Expr :=
  match lhs.value?, rhs.value? with
  | some l, some r => bool (op.fold l r lhs.width)
  | l?, r? =>
    if lhs = rhs then bool (op == .ule || op == .sle)
    else if op == .ult && r? == some 0 then bool false
    else if op == .ule && l? == some 0 then bool true
    else .compare op lhs rhs

/-- Equality. A constant goes to the left, and an equation between truth values is resolved where
one side is known. -/
def eqCore (lhs rhs : Expr) : Expr :=
  match lhs.value?, rhs.value? with
  | some l, some r => bool (CmpOp.eq.fold l r lhs.width)
  | _, _ =>
    if lhs = rhs then bool true
    else
      let (lhs, rhs) := if rhs.isConst then (rhs, lhs) else (lhs, rhs)
      if lhs.isTrue then rhs
      else if lhs.isFalse then
        match rhs with
        | .compare .eq l r => if l.isFalse then r else .compare .eq lhs rhs
        | .compare op l r => orderCore op.converse r l
        | _ => .compare .eq lhs rhs
      else .compare .eq lhs rhs

def compareCore (op : CmpOp) (lhs rhs : Expr) : Expr :=
  match op with
  | .eq => eqCore lhs rhs
  | _ => orderCore op lhs rhs

def mkCompare (op : CmpOp) (lhs rhs : Expr) : Checked Expr := do
  demand (lhs.width = rhs.width) .width
  return compareCore op lhs rhs

/-- The truth value of `e = 0`: negation, for truth values. -/
def isZero (e : Expr) : Expr :=
  match e with
  | .const v 1 => bool (v == 0)
  | .compare .eq l r => if l.isFalse then r else eqCore (word 0 1) e
  | .compare op l r => orderCore op.converse r l
  | _ => eqCore (word 0 e.width) e

def selectCore (condition ifTrue ifFalse : Expr) : Expr :=
  match condition.value? with
  | some c => if c = 0 then ifFalse else ifTrue
  | none =>
    if ifTrue = ifFalse then ifTrue
    else if ifTrue.isTrue && ifFalse.isFalse then condition
    else if ifTrue.isFalse && ifFalse.isTrue then isZero condition
    else .select condition ifTrue ifFalse

def mkSelect (condition ifTrue ifFalse : Expr) : Checked Expr := do
  demand (condition.width = 1 ∧ ifTrue.width = ifFalse.width) .width
  return selectCore condition ifTrue ifFalse

/-- Two adjacent ranges of bits of one value, as one range. -/
def joinExtracts (msb lsb : Expr) : Option Expr :=
  match msb, lsb with
  | .extract high highOffset highWidth, .extract low lowOffset lowWidth =>
    if highOffset = lowOffset + lowWidth ∧ high = low then
      some (if lowOffset = 0 ∧ highWidth + lowWidth = low.width then low
        else .extract low lowOffset (highWidth + lowWidth))
    else none
  | _, _ => none

/-- Concatenation. Adjacent ranges of one value are joined, also with the top of a concatenation
below. -/
def concatCore (msb lsb : Expr) : Expr :=
  match lsb with
  | .concat innerMsb innerLsb =>
    match joinExtracts msb innerMsb with
    | some joined => concatCore joined innerLsb
    | none => .concat msb (.concat innerMsb innerLsb)
  | .const l w =>
    match msb.value? with
    | some m => word ((m <<< w) ||| l) (msb.width + w)
    | none => .concat msb (.const l w)
  | lsb => (joinExtracts msb lsb).getD (.concat msb lsb)

def mkConcat (msb lsb : Expr) : Checked Expr := do
  demand (msb.width + lsb.width ≤ maxWidth) .width
  return concatCore msb lsb

/-- The `width` bits of `e` from bit `offset` on, which have to be there. -/
def extractCore (e : Expr) (offset width : Nat) : Expr :=
  if offset = 0 ∧ width = e.width then e
  else
    match e with
    | .const v _ => word (v >>> offset) width
    | .concat m l =>
      if l.width ≤ offset then extractCore m (offset - l.width) width
      else if offset + width ≤ l.width then extractCore l offset width
      else
        let low := l.width - offset
        concatCore (extractCore m 0 (width - low)) (extractCore l offset low)
    | .extract inner innerOffset _ => extractCore inner (innerOffset + offset) width
    | .zext inner _ =>
      if offset + width ≤ inner.width then extractCore inner offset width
      else if inner.width ≤ offset then word 0 width
      else .extract e offset width
    | _ => .extract e offset width

def mkExtract (e : Expr) (offset width : Nat) : Checked Expr := do
  demand (0 < width ∧ offset + width ≤ e.width) .width
  return extractCore e offset width

def mkTruncate (e : Expr) (width : Nat) : Checked Expr := mkExtract e 0 width

/-- Extension by zeros, or truncation where `width` is the smaller one. -/
def mkZext (e : Expr) (width : Nat) : Checked Expr := do
  if width = e.width then return e
  if width < e.width then mkTruncate e width
  else
    demand (width ≤ maxWidth) .width
    match e with
    | .const v _ => return word v width
    | e => return .zext e width

/-- Extension by the sign, or truncation where `width` is the smaller one. -/
def mkSext (e : Expr) (width : Nat) : Checked Expr := do
  if width = e.width then return e
  if width < e.width then mkTruncate e width
  else
    demand (width ≤ maxWidth) .width
    match e with
    | .const v w => return .const (ofSigned width (toSigned w v)) width
    | e => return .sext e width

def mkNot (e : Expr) : Expr :=
  match e with
  | .const v w => .const (pow2 w - 1 - trunc w v) w
  | .not inner => inner
  | e => .not e

/-- The operation `op`. Constants go to the left of commutative operations. -/
def binaryCore (op : BinOp) (lhs rhs : Expr) : Expr :=
  match lhs.value?, rhs.value? with
  | some l, some r => word (op.fold l r lhs.width) lhs.width
  | _, _ =>
    let (lhs, rhs) := if op.isCommutative && rhs.isConst then (rhs, lhs) else (lhs, rhs)
    let width := lhs.width
    let l? := lhs.value?
    let r? := rhs.value?
    match op with
    | .add =>
      if l? = some 0 then rhs else .binary op lhs rhs
    | .sub =>
      if r? = some 0 then lhs else if lhs = rhs then word 0 width else .binary op lhs rhs
    | .mul =>
      if l? = some 0 then lhs else if l? = some 1 then rhs else .binary op lhs rhs
    | .udiv | .sdiv =>
      if r? = some 1 then lhs else .binary op lhs rhs
    | .urem | .srem =>
      if r? = some 1 then word 0 width else .binary op lhs rhs
    | .and =>
      if lhs = rhs then lhs
      else if l? = some 0 then lhs
      else if l? = some (pow2 width - 1) then rhs
      else .binary op lhs rhs
    | .or =>
      if l? = some 0 then rhs
      else if lhs = rhs then lhs
      else if l? = some (pow2 width - 1) then lhs
      else .binary op lhs rhs
    | .xor =>
      if l? = some 0 then rhs else if lhs = rhs then word 0 width else .binary op lhs rhs
    | .shl | .lshr | .ashr =>
      if r? = some 0 then lhs else if l? = some 0 then lhs else .binary op lhs rhs

def mkBinary (op : BinOp) (lhs rhs : Expr) : Checked Expr := do
  demand (lhs.width = rhs.width) .width
  return binaryCore op lhs rhs

def mkAdd : Expr → Expr → Checked Expr := mkBinary .add
def mkSub : Expr → Expr → Checked Expr := mkBinary .sub
def mkMul : Expr → Expr → Checked Expr := mkBinary .mul
def mkAnd : Expr → Expr → Checked Expr := mkBinary .and
def mkOr : Expr → Expr → Checked Expr := mkBinary .or
def mkEq : Expr → Expr → Checked Expr := mkCompare .eq
def mkNe (lhs rhs : Expr) : Checked Expr := return isZero (← mkEq lhs rhs)
def mkUlt : Expr → Expr → Checked Expr := mkCompare .ult
def mkUle : Expr → Expr → Checked Expr := mkCompare .ule
def mkUgt (lhs rhs : Expr) : Checked Expr := mkUlt rhs lhs
def mkUge (lhs rhs : Expr) : Checked Expr := mkUle rhs lhs
def mkSlt : Expr → Expr → Checked Expr := mkCompare .slt
def mkSle : Expr → Expr → Checked Expr := mkCompare .sle
def mkSgt (lhs rhs : Expr) : Checked Expr := mkSlt rhs lhs
def mkSge (lhs rhs : Expr) : Checked Expr := mkSle rhs lhs

def mkAll (es : List Expr) : Checked Expr := es.foldlM mkAnd (bool true)

def mkAny (es : List Expr) : Checked Expr := es.foldlM mkOr (bool false)

end Expr

end Symex

import Symex.Assignment
import Symex.Proofs.Words

namespace Symex

mutual

/-- An expression as it is written down, before anything is simplified. -/
inductive RawTerm where
  | constant (value width : Nat)
  | bool (b : Bool)
  | pointer (value : Nat)
  | read (writes : RawWrites) (index : RawTerm)
  | select (condition ifTrue ifFalse : RawTerm)
  | concat (msb lsb : RawTerm)
  | extract (t : RawTerm) (offset width : Nat)
  | truncate (t : RawTerm) (width : Nat)
  | zext (t : RawTerm) (width : Nat)
  | sext (t : RawTerm) (width : Nat)
  | not (t : RawTerm)
  | isZero (t : RawTerm)
  | binary (op : BinOp) (lhs rhs : RawTerm)
  | compare (op : CmpOp) (lhs rhs : RawTerm)
  | ne (lhs rhs : RawTerm)
  | ugt (lhs rhs : RawTerm)
  | uge (lhs rhs : RawTerm)
  | sgt (lhs rhs : RawTerm)
  | sge (lhs rhs : RawTerm)
  | all (ts : List RawTerm)
  | any (ts : List RawTerm)

/-- An array below writes, the newest on top. -/
inductive RawWrites where
  | base (array : NamedArray)
  | write (index value : RawTerm) (older : RawWrites)

end

namespace RawTerm

def width : RawTerm → Nat
  | constant _ w | extract _ _ w | truncate _ w | zext _ w | sext _ w => w
  | pointer _ => 64
  | read _ _ => 8
  | select _ t _ => t.width
  | concat m l => m.width + l.width
  | not t => t.width
  | binary _ l _ => l.width
  | bool _ | isZero _ | compare _ _ _ | ne _ _ | ugt _ _ | uge _ _ | sgt _ _ | sge _ _ | all _
  | any _ => 1

mutual

/-- Builds a term with the constructors, from the innermost parts outwards. -/
def build : RawTerm → Checked Expr
  | constant v w => Expr.constant v w
  | bool b => return .bool b
  | pointer v => return .pointer v
  | read u i => do Expr.mkRead (← buildWrites u) (← i.build)
  | select c t f => do Expr.mkSelect (← c.build) (← t.build) (← f.build)
  | concat m l => do Expr.mkConcat (← m.build) (← l.build)
  | extract t offset w => do Expr.mkExtract (← t.build) offset w
  | truncate t w => do Expr.mkTruncate (← t.build) w
  | zext t w => do Expr.mkZext (← t.build) w
  | sext t w => do Expr.mkSext (← t.build) w
  | not t => return Expr.mkNot (← t.build)
  | isZero t => return Expr.isZero (← t.build)
  | binary op l r => do Expr.mkBinary op (← l.build) (← r.build)
  | compare op l r => do Expr.mkCompare op (← l.build) (← r.build)
  | ne l r => do Expr.mkNe (← l.build) (← r.build)
  | ugt l r => do Expr.mkUgt (← l.build) (← r.build)
  | uge l r => do Expr.mkUge (← l.build) (← r.build)
  | sgt l r => do Expr.mkSgt (← l.build) (← r.build)
  | sge l r => do Expr.mkSge (← l.build) (← r.build)
  | all ts => do Expr.mkAll (← buildAll ts)
  | any ts => do Expr.mkAny (← buildAll ts)

def buildWrites : RawWrites → Checked Updates
  | .base array => return .base array
  | .write i x older => do (← buildWrites older).extend (← i.build) (← x.build)

def buildAll : List RawTerm → Checked (List Expr)
  | [] => return []
  | t :: ts => return (← t.build) :: (← buildAll ts)

end

mutual

/-- The meaning of a term. Operands whose widths differ are cut or filled up, which does not occur
in terms that can be built. -/
def denote (a : Assignment) : (t : RawTerm) → BitVec t.width
  | constant v w => BitVec.ofNat w v
  | bool b => BitVec.ofBool b
  | pointer v => BitVec.ofNat 64 v
  | read u i => denoteRead a u ((i.denote a).setWidth 32)
  | select c t f => if c.denote a = 0 then (f.denote a).setWidth t.width else t.denote a
  | concat m l => m.denote a ++ l.denote a
  | extract t offset w => (t.denote a).extractLsb' offset w
  | truncate t w => (t.denote a).setWidth w
  | zext t w => (t.denote a).setWidth w
  | sext t w => (t.denote a).signExtend w
  | not t => ~~~t.denote a
  | isZero t => BitVec.ofBool (t.denote a == 0)
  | binary op l r => op.denote (l.denote a) ((r.denote a).setWidth l.width)
  | compare op l r => BitVec.ofBool (op.denote (l.denote a) ((r.denote a).setWidth l.width))
  | ne l r => BitVec.ofBool (l.denote a != (r.denote a).setWidth l.width)
  | ugt l r => BitVec.ofBool (((r.denote a).setWidth l.width).ult (l.denote a))
  | uge l r => BitVec.ofBool (((r.denote a).setWidth l.width).ule (l.denote a))
  | sgt l r => BitVec.ofBool (((r.denote a).setWidth l.width).slt (l.denote a))
  | sge l r => BitVec.ofBool (((r.denote a).setWidth l.width).sle (l.denote a))
  | all ts => BitVec.ofBool (allHold a ts)
  | any ts => BitVec.ofBool (anyHolds a ts)

/-- The byte at `index` after writes: that of the newest write there, else that of the array. -/
def denoteRead (a : Assignment) : RawWrites → BitVec 32 → BitVec 8
  | .base array, index => ((a.byte? array index.toNat).getD 0).toBitVec
  | .write i x older, index =>
    if (i.denote a).setWidth 32 = index then (x.denote a).setWidth 8 else denoteRead a older index

def allHold (a : Assignment) : List RawTerm → Bool
  | [] => true
  | t :: ts => t.denote a != 0 && allHold a ts

def anyHolds (a : Assignment) : List RawTerm → Bool
  | [] => false
  | t :: ts => t.denote a != 0 || anyHolds a ts

end

end RawTerm

end Symex

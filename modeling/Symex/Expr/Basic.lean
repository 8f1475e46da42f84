import Symex.Bits
import Symex.Bytes

namespace Symex

/-- Operations on two words of one width. -/
inductive BinOp where
  | add | sub | mul | udiv | sdiv | urem | srem | and | or | xor | shl | lshr | ashr
deriving DecidableEq, Repr

namespace BinOp

def isCommutative : BinOp → Bool
  | add | mul | and | or | xor => true
  | _ => false

def code : BinOp → UInt64
  | add => 0 | sub => 1 | mul => 2 | udiv => 3 | sdiv => 4 | urem => 5 | srem => 6
  | and => 7 | or => 8 | xor => 9 | shl => 10 | lshr => 11 | ashr => 12

end BinOp

/-- Comparisons of two words of one width. All others are these with operands exchanged or the
result negated. -/
inductive CmpOp where
  | eq | ult | ule | slt | sle
deriving DecidableEq, Repr

def CmpOp.code : CmpOp → UInt64
  | eq => 0 | ult => 1 | ule => 2 | slt => 3 | sle => 4

/-- A named array of bytes: an input when its contents are unknown, a table otherwise. -/
structure NamedArray where
  name : String
  size : Nat
  contents : Option ByteArray
deriving DecidableEq

namespace NamedArray

def symbolic (name : String) (size : Nat) : NamedArray := ⟨name, size, none⟩

def constant (name : String) (contents : ByteArray) : NamedArray :=
  ⟨name, contents.size, some contents⟩

def isSymbolic (a : NamedArray) : Bool := a.contents.isNone

def byte? (a : NamedArray) (index : Nat) : Option UInt8 :=
  a.contents.bind (·[index]?)

def hash (a : NamedArray) : UInt64 :=
  mixHash a.name.hash (mixHash a.size.toUInt64 (Hashable.hash a.contents))

instance : Hashable NamedArray := ⟨hash⟩

def sharedDecEq (a b : NamedArray) : Decidable (a = b) :=
  withPtrEqDecEq a b fun _ ↦ inferInstance

end NamedArray

mutual

/-- A symbolic value. Widths follow from the parts: see `Expr.width`. -/
inductive Expr where
  /-- The word `value` of `width` bits. -/
  | const (value width : Nat)
  /-- The byte at `index` of an array after some writes. -/
  | read (updates : Updates) (index : Expr)
  /-- The value of `ifTrue` where `condition` is not zero, else that of `ifFalse`. -/
  | select (condition ifTrue ifFalse : Expr)
  /-- The bits of `msb` above those of `lsb`. -/
  | concat (msb lsb : Expr)
  /-- The `width` bits of `value` from bit `offset` on. -/
  | extract (value : Expr) (offset width : Nat)
  /-- Extension to `width` bits by zeros. -/
  | zext (value : Expr) (width : Nat)
  /-- Extension to `width` bits by copies of the sign bit. -/
  | sext (value : Expr) (width : Nat)
  /-- Bitwise negation. -/
  | not (value : Expr)
  | binary (op : BinOp) (lhs rhs : Expr)
  | compare (op : CmpOp) (lhs rhs : Expr)
with
  @[computed_field] hash : Expr → UInt64
    | .const value width => mixHash value.toUInt64 width.toUInt64
    | .read updates index => mixHash 101 (mixHash (Updates.hash updates) index.hash)
    | .select c t e => mixHash 102 (mixHash c.hash (mixHash t.hash e.hash))
    | .concat m l => mixHash 103 (mixHash m.hash l.hash)
    | .extract e o w => mixHash 104 (mixHash e.hash (mixHash o.toUInt64 w.toUInt64))
    | .zext e w => mixHash 105 (mixHash e.hash w.toUInt64)
    | .sext e w => mixHash 106 (mixHash e.hash w.toUInt64)
    | .not e => mixHash 107 e.hash
    | .binary op l r => mixHash (108 + op.code) (mixHash l.hash r.hash)
    | .compare op l r => mixHash (128 + op.code) (mixHash l.hash r.hash)
  /-- The width of the value in bits. -/
  @[computed_field] width : Expr → Nat
    | .const _ width => width
    | .read _ _ => 8
    | .select _ t _ => t.width
    | .concat m l => m.width + l.width
    | .extract _ _ w => w
    | .zext _ w => w
    | .sext _ w => w
    | .not e => e.width
    | .binary _ l _ => l.width
    | .compare _ _ _ => 1
  /-- The size of the term as a tree. Ranges of bits count twice, so that a range of a concatenation is
  no smaller than the concatenation of its parts. -/
  @[computed_field] weight : Expr → Nat
    | .const _ _ => 1
    | .read u i => Updates.weight u + i.weight + 1
    | .select c t e => c.weight + t.weight + e.weight + 1
    | .concat m l => m.weight + l.weight + 1
    | .extract e _ _ => 2 * e.weight
    | .zext e _ => e.weight + 1
    | .sext e _ => e.weight + 1
    | .not e => e.weight + 1
    | .binary _ l r => l.weight + r.weight + 1
    | .compare _ l r => l.weight + r.weight + 1

/-- An array below a sequence of byte writes, the newest on top. -/
inductive Updates where
  | base (array : NamedArray)
  | write (index value : Expr) (older : Updates)
with
  @[computed_field] hash : Updates → UInt64
    | .base array => mixHash 7 array.hash
    | .write i v older => mixHash 11 (mixHash i.hash (mixHash v.hash older.hash))
  /-- The array below all writes. -/
  @[computed_field] root : Updates → NamedArray
    | .base array => array
    | .write _ _ older => older.root
  /-- The number of writes. -/
  @[computed_field] length : Updates → Nat
    | .base _ => 0
    | .write _ _ older => older.length + 1
  /-- The size of the writes as trees. -/
  @[computed_field] weight : Updates → Nat
    | .base _ => 1
    | .write i v older => i.weight + v.weight + older.weight + 1

end

mutual

/-- Equality of expressions. Shared subterms are equal at once, and terms whose hashes differ are
different at once. -/
def Expr.decEq (a b : Expr) : Decidable (a = b) :=
  withPtrEqDecEq a b fun _ ↦
    if h : a.hash = b.hash then
      match a, b with
      | .const v w, .const v' w' =>
        if hv : v = v' ∧ w = w' then .isTrue (by rw [hv.1, hv.2])
        else .isFalse (by intro e; cases e; exact hv ⟨rfl, rfl⟩)
      | .read u i, .read u' i' =>
        match Updates.decEq u u', Expr.decEq i i' with
        | .isTrue hu, .isTrue hi => .isTrue (by rw [hu, hi])
        | .isFalse hu, _ => .isFalse (by intro e; cases e; exact hu rfl)
        | _, .isFalse hi => .isFalse (by intro e; cases e; exact hi rfl)
      | .select c t e, .select c' t' e' =>
        match Expr.decEq c c', Expr.decEq t t', Expr.decEq e e' with
        | .isTrue hc, .isTrue ht, .isTrue he => .isTrue (by rw [hc, ht, he])
        | .isFalse hc, _, _ => .isFalse (by intro e; cases e; exact hc rfl)
        | _, .isFalse ht, _ => .isFalse (by intro e; cases e; exact ht rfl)
        | _, _, .isFalse he => .isFalse (by intro e; cases e; exact he rfl)
      | .concat m l, .concat m' l' =>
        match Expr.decEq m m', Expr.decEq l l' with
        | .isTrue hm, .isTrue hl => .isTrue (by rw [hm, hl])
        | .isFalse hm, _ => .isFalse (by intro e; cases e; exact hm rfl)
        | _, .isFalse hl => .isFalse (by intro e; cases e; exact hl rfl)
      | .extract e o w, .extract e' o' w' =>
        if ho : o = o' ∧ w = w' then
          match Expr.decEq e e' with
          | .isTrue he => .isTrue (by rw [he, ho.1, ho.2])
          | .isFalse he => .isFalse (by intro e; cases e; exact he rfl)
        else .isFalse (by intro e; cases e; exact ho ⟨rfl, rfl⟩)
      | .zext e w, .zext e' w' =>
        if hw : w = w' then
          match Expr.decEq e e' with
          | .isTrue he => .isTrue (by rw [he, hw])
          | .isFalse he => .isFalse (by intro e; cases e; exact he rfl)
        else .isFalse (by intro e; cases e; exact hw rfl)
      | .sext e w, .sext e' w' =>
        if hw : w = w' then
          match Expr.decEq e e' with
          | .isTrue he => .isTrue (by rw [he, hw])
          | .isFalse he => .isFalse (by intro e; cases e; exact he rfl)
        else .isFalse (by intro e; cases e; exact hw rfl)
      | .not e, .not e' =>
        match Expr.decEq e e' with
        | .isTrue he => .isTrue (by rw [he])
        | .isFalse he => .isFalse (by intro e; cases e; exact he rfl)
      | .binary op l r, .binary op' l' r' =>
        if hop : op = op' then
          match Expr.decEq l l', Expr.decEq r r' with
          | .isTrue hl, .isTrue hr => .isTrue (by rw [hop, hl, hr])
          | .isFalse hl, _ => .isFalse (by intro e; cases e; exact hl rfl)
          | _, .isFalse hr => .isFalse (by intro e; cases e; exact hr rfl)
        else .isFalse (by intro e; cases e; exact hop rfl)
      | .compare op l r, .compare op' l' r' =>
        if hop : op = op' then
          match Expr.decEq l l', Expr.decEq r r' with
          | .isTrue hl, .isTrue hr => .isTrue (by rw [hop, hl, hr])
          | .isFalse hl, _ => .isFalse (by intro e; cases e; exact hl rfl)
          | _, .isFalse hr => .isFalse (by intro e; cases e; exact hr rfl)
        else .isFalse (by intro e; cases e; exact hop rfl)
      | .const _ _, .read _ _ | .const _ _, .select _ _ _ | .const _ _, .concat _ _
      | .const _ _, .extract _ _ _ | .const _ _, .zext _ _ | .const _ _, .sext _ _
      | .const _ _, .not _ | .const _ _, .binary _ _ _ | .const _ _, .compare _ _ _ => .isFalse nofun
      | .read _ _, .const _ _ | .read _ _, .select _ _ _ | .read _ _, .concat _ _
      | .read _ _, .extract _ _ _ | .read _ _, .zext _ _ | .read _ _, .sext _ _
      | .read _ _, .not _ | .read _ _, .binary _ _ _ | .read _ _, .compare _ _ _ => .isFalse nofun
      | .select _ _ _, .const _ _ | .select _ _ _, .read _ _ | .select _ _ _, .concat _ _
      | .select _ _ _, .extract _ _ _ | .select _ _ _, .zext _ _ | .select _ _ _, .sext _ _
      | .select _ _ _, .not _ | .select _ _ _, .binary _ _ _
      | .select _ _ _, .compare _ _ _ => .isFalse nofun
      | .concat _ _, .const _ _ | .concat _ _, .read _ _ | .concat _ _, .select _ _ _
      | .concat _ _, .extract _ _ _ | .concat _ _, .zext _ _ | .concat _ _, .sext _ _
      | .concat _ _, .not _ | .concat _ _, .binary _ _ _ | .concat _ _, .compare _ _ _ => .isFalse nofun
      | .extract _ _ _, .const _ _ | .extract _ _ _, .read _ _ | .extract _ _ _, .select _ _ _
      | .extract _ _ _, .concat _ _ | .extract _ _ _, .zext _ _ | .extract _ _ _, .sext _ _
      | .extract _ _ _, .not _ | .extract _ _ _, .binary _ _ _
      | .extract _ _ _, .compare _ _ _ => .isFalse nofun
      | .zext _ _, .const _ _ | .zext _ _, .read _ _ | .zext _ _, .select _ _ _
      | .zext _ _, .concat _ _ | .zext _ _, .extract _ _ _ | .zext _ _, .sext _ _
      | .zext _ _, .not _ | .zext _ _, .binary _ _ _ | .zext _ _, .compare _ _ _ => .isFalse nofun
      | .sext _ _, .const _ _ | .sext _ _, .read _ _ | .sext _ _, .select _ _ _
      | .sext _ _, .concat _ _ | .sext _ _, .extract _ _ _ | .sext _ _, .zext _ _
      | .sext _ _, .not _ | .sext _ _, .binary _ _ _ | .sext _ _, .compare _ _ _ => .isFalse nofun
      | .not _, .const _ _ | .not _, .read _ _ | .not _, .select _ _ _ | .not _, .concat _ _
      | .not _, .extract _ _ _ | .not _, .zext _ _ | .not _, .sext _ _
      | .not _, .binary _ _ _ | .not _, .compare _ _ _ => .isFalse nofun
      | .binary _ _ _, .const _ _ | .binary _ _ _, .read _ _ | .binary _ _ _, .select _ _ _
      | .binary _ _ _, .concat _ _ | .binary _ _ _, .extract _ _ _ | .binary _ _ _, .zext _ _
      | .binary _ _ _, .sext _ _ | .binary _ _ _, .not _
      | .binary _ _ _, .compare _ _ _ => .isFalse nofun
      | .compare _ _ _, .const _ _ | .compare _ _ _, .read _ _ | .compare _ _ _, .select _ _ _
      | .compare _ _ _, .concat _ _ | .compare _ _ _, .extract _ _ _ | .compare _ _ _, .zext _ _
      | .compare _ _ _, .sext _ _ | .compare _ _ _, .not _
      | .compare _ _ _, .binary _ _ _ => .isFalse nofun
    else .isFalse fun e ↦ h (congrArg Expr.hash e)

/-- Equality of update sequences, with the same shortcuts. -/
def Updates.decEq (a b : Updates) : Decidable (a = b) :=
  withPtrEqDecEq a b fun _ ↦
    if h : a.hash = b.hash then
      match a, b with
      | .base r, .base r' =>
        match r.sharedDecEq r' with
        | .isTrue hr => .isTrue (by rw [hr])
        | .isFalse hr => .isFalse (by intro e; cases e; exact hr rfl)
      | .write i v o, .write i' v' o' =>
        match Expr.decEq i i', Expr.decEq v v', Updates.decEq o o' with
        | .isTrue hi, .isTrue hv, .isTrue ho => .isTrue (by rw [hi, hv, ho])
        | .isFalse hi, _, _ => .isFalse (by intro e; cases e; exact hi rfl)
        | _, .isFalse hv, _ => .isFalse (by intro e; cases e; exact hv rfl)
        | _, _, .isFalse ho => .isFalse (by intro e; cases e; exact ho rfl)
      | .base _, .write _ _ _ | .write _ _ _, .base _ => .isFalse nofun
    else .isFalse fun e ↦ h (congrArg Updates.hash e)

end

instance : DecidableEq Expr := Expr.decEq
instance : DecidableEq Updates := Updates.decEq

instance : Hashable Expr := ⟨Expr.hash⟩
instance : Hashable Updates := ⟨Updates.hash⟩

instance : Inhabited Expr := ⟨.const 0 1⟩
instance : Inhabited NamedArray := ⟨.symbolic "" 0⟩
instance : Inhabited Updates := ⟨.base default⟩

namespace Expr

@[inline] def value? : Expr → Option Nat
  | .const value _ => some value
  | _ => none

@[inline] def isConst : Expr → Bool
  | .const _ _ => true
  | _ => false

@[inline] def isTrue : Expr → Bool
  | .const value width => width == 1 && value == 1
  | _ => false

@[inline] def isFalse : Expr → Bool
  | .const value width => width == 1 && value == 0
  | _ => false

/-- The direct parts of a node. The writes of a read are not among them. -/
def children : Expr → List Expr
  | .const _ _ => []
  | .read _ index => [index]
  | .select c t e => [c, t, e]
  | .concat m l => [m, l]
  | .extract e _ _ | .zext e _ | .sext e _ | .not e => [e]
  | .binary _ l r | .compare _ l r => [l, r]

end Expr

namespace Updates

def isEmpty : Updates → Bool
  | .base _ => true
  | .write .. => false

def writes : Updates → List (Expr × Expr)
  | .base _ => []
  | .write index value older => (index, value) :: older.writes

end Updates

end Symex

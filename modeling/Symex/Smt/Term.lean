import Symex.Expr.Text

namespace Symex.Smt

/-- A name in a script. -/
inductive Symbol where
  /-- An input, under a name that can be quoted. -/
  | input (name : String)
  /-- The value of an expression. -/
  | value (n : Nat)
  /-- An array after a write. -/
  | written (n : Nat)
  /-- An array of known bytes. -/
  | table (n : Nat)
deriving DecidableEq, Hashable

namespace Symbol

/-- A name without the characters that cannot be quoted. -/
def clean (name : String) : String :=
  name.map fun c ↦ if c = '|' || c = '\\' then '_' else c

def ofName (name : String) : Symbol := .input (clean name)

def text : Symbol → String
  | input name => "|in_" ++ name ++ "|"
  | value n => "!e" ++ decimal n
  | written n => "!u" ++ decimal n
  | table n => "!c" ++ decimal n

end Symbol

/-- What a symbol stands for. -/
inductive Kind where
  | bits (width : Nat)
  | array
deriving DecidableEq

def Kind.text : Kind → String
  | bits width => "(_ BitVec " ++ decimal width ++ ")"
  | array => "(Array (_ BitVec 32) (_ BitVec 8))"

/-- Terms; comparisons are truth values and all others bit vectors or arrays. -/
inductive Term where
  | literal (value width : Nat)
  | bit (b : Bool)
  | symbol (s : Symbol)
  /-- The array of zeros. -/
  | zeros
  | select (array index : Term)
  | store (array index value : Term)
  | ite (condition ifTrue ifFalse : Term)
  | concat (msb lsb : Term)
  | extract (high low : Nat) (t : Term)
  | zeroExtend (bits : Nat) (t : Term)
  | signExtend (bits : Nat) (t : Term)
  | not (t : Term)
  | binary (op : BinOp) (lhs rhs : Term)
  | compare (op : CmpOp) (lhs rhs : Term)
deriving DecidableEq

def binaryName : BinOp → String
  | .add => "bvadd" | .sub => "bvsub" | .mul => "bvmul" | .udiv => "bvudiv" | .sdiv => "bvsdiv"
  | .urem => "bvurem" | .srem => "bvsrem" | .and => "bvand" | .or => "bvor" | .xor => "bvxor"
  | .shl => "bvshl" | .lshr => "bvlshr" | .ashr => "bvashr"

def compareName : CmpOp → String
  | .eq => "=" | .ult => "bvult" | .ule => "bvule" | .slt => "bvslt" | .sle => "bvsle"

namespace Term

def appendText (out : String) : Term → String
  | literal value width => out ++ "(_ bv" ++ decimal value ++ " " ++ decimal width ++ ")"
  | bit b => out ++ (if b then "#b1" else "#b0")
  | symbol s => out ++ s.text
  | zeros => out ++ "((as const " ++ Kind.array.text ++ ") #x00)"
  | select a i => i.appendText (a.appendText (out ++ "(select ") ++ " ") ++ ")"
  | store a i v =>
    v.appendText (i.appendText (a.appendText (out ++ "(store ") ++ " ") ++ " ") ++ ")"
  | ite c t f => f.appendText (t.appendText (c.appendText (out ++ "(ite ") ++ " ") ++ " ") ++ ")"
  | concat m l => l.appendText (m.appendText (out ++ "(concat ") ++ " ") ++ ")"
  | extract high low t =>
    t.appendText (out ++ "((_ extract " ++ decimal high ++ " " ++ decimal low ++ ") ") ++ ")"
  | zeroExtend n t => t.appendText (out ++ "((_ zero_extend " ++ decimal n ++ ") ") ++ ")"
  | signExtend n t => t.appendText (out ++ "((_ sign_extend " ++ decimal n ++ ") ") ++ ")"
  | not t => t.appendText (out ++ "(bvnot ") ++ ")"
  | binary op l r => r.appendText (l.appendText (out ++ "(" ++ binaryName op ++ " ") ++ " ") ++ ")"
  | compare op l r => r.appendText (l.appendText (out ++ "(" ++ compareName op ++ " ") ++ " ") ++ ")"

def text (t : Term) : String := t.appendText ""

def isBit (t : Term) (b : Bool) : Term := compare .eq t (bit b)

end Term

/-- What a solver is told. -/
inductive Command where
  | declare (s : Symbol)
  | define (s : Symbol) (kind : Kind) (body : Term)
  | assert (t : Term)
  | push
  | pop
  | checkSat
  | getValue (terms : List Term)
  | setOption (name value : String)
  | setLogic
  | exit
deriving DecidableEq

def Command.text : Command → String
  | declare s => "(declare-const " ++ s.text ++ " " ++ Kind.array.text ++ ")"
  | define s kind body =>
    "(define-fun " ++ s.text ++ " () " ++ kind.text ++ " " ++ body.text ++ ")"
  | assert t => "(assert " ++ t.text ++ ")"
  | push => "(push 1)"
  | pop => "(pop 1)"
  | checkSat => "(check-sat)"
  | getValue terms => "(get-value (" ++ " ".intercalate (terms.map (·.text)) ++ "))"
  | setOption name value => "(set-option :" ++ name ++ " " ++ value ++ ")"
  | setLogic => "(set-logic QF_ABV)"
  | exit => "(exit)"

end Symex.Smt

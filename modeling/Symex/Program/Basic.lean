import Symex.Expr.Text

namespace Symex

abbrev FunctionId := Nat
abbrev BlockId := Nat
abbrev Register := Nat
abbrev ConstantId := Nat
abbrev GlobalId := Nat

/-- The place of an instruction. Places are ordered by function, then block, then index. -/
structure Location where
  function : FunctionId := 0
  block : BlockId := 0
  index : Nat := 0
deriving DecidableEq, Ord, Inhabited

namespace Location

def entry (function : FunctionId) : Location := ⟨function, 0, 0⟩

def next (l : Location) : Location := { l with index := l.index + 1 }

/-- The place after this one, whose index has to fit 32 bits. -/
def nextChecked (l : Location) : Checked Location := do
  demand (l.index + 1 < pow2 32) .overflow
  return l.next

def text (l : Location) : String :=
  "@" ++ decimal l.function ++ ":bb" ++ decimal l.block ++ ":" ++ decimal l.index

end Location

/-- A value that an instruction uses. -/
inductive Operand where
  | register (r : Register)
  | constant (c : ConstantId)
deriving DecidableEq, Inhabited

/-- Comparisons of integers. -/
inductive IntPredicate where
  | eq | ne | ugt | uge | ult | ule | sgt | sge | slt | sle
deriving DecidableEq

/-- Conversions between integers and pointers. -/
inductive CastOp where
  | trunc | zext | sext | ptrToInt | intToPtr | bitCast
deriving DecidableEq

inductive FloatOp where
  | add | sub | mul | div | rem
deriving DecidableEq

/-- Comparisons of floats. The ordered ones fail where an operand is not a number, the unordered
ones hold there. -/
inductive FloatPredicate where
  | never | oeq | ogt | oge | olt | ole | one | ord | uno | ueq | ugt | uge | ult | ule | une | always
deriving DecidableEq

/-- Conversions that involve floats. -/
inductive FloatCastOp where
  | narrow | widen | toUnsigned | toSigned | ofUnsigned | ofSigned
deriving DecidableEq

/-- Functions that the executor itself provides. -/
inductive Intrinsic where
  | malloc | calloc | realloc | free
  | makeSymbolic (name : String)
  | assume
  | assert (message : String)
  | abort | exit | fork | setForking
  | threadCreate | threadExit | threadYield | threadSleep
  | threadNotify (all : Bool)
  | getWaitList
deriving DecidableEq

namespace Intrinsic

def name : Intrinsic → String
  | malloc => "malloc"
  | calloc => "calloc"
  | realloc => "realloc"
  | free => "free"
  | makeSymbolic _ => "make_symbolic"
  | assume => "assume"
  | assert _ => "assert"
  | abort => "abort"
  | exit => "exit"
  | fork => "fork"
  | setForking => "set_forking"
  | threadCreate => "thread_create"
  | threadExit => "thread_exit"
  | threadYield => "thread_yield"
  | threadSleep => "thread_sleep"
  | threadNotify false => "thread_notify_one"
  | threadNotify true => "thread_notify_all"
  | getWaitList => "get_wait_list"

def arity : Intrinsic → Nat
  | abort | fork | threadExit | threadYield | getWaitList => 0
  | malloc | free | assume | assert _ | exit | setForking | threadSleep | threadNotify _ => 1
  | calloc | realloc | makeSymbolic _ | threadCreate => 2

end Intrinsic

inductive Callee where
  | function (f : FunctionId)
  | pointer (p : Operand)
  | intrinsic (i : Intrinsic)
deriving DecidableEq

inductive Instruction where
  | ret (value : Option Operand)
  | br (target : BlockId)
  | condBr (condition : Operand) (ifTrue ifFalse : BlockId)
  | switch (condition : Operand) (otherwise : BlockId) (cases : List (Nat × BlockId))
  | unreachable
  | call (callee : Callee) (arguments : List Operand) (destination : Option Register)
  | binary (op : BinOp) (lhs rhs : Operand) (destination : Register)
  | icmp (predicate : IntPredicate) (lhs rhs : Operand) (destination : Register)
  | select (condition ifTrue ifFalse : Operand) (destination : Register)
  | cast (op : CastOp) (value : Operand) (width : Nat) (destination : Register)
  | fbinary (op : FloatOp) (lhs rhs : Operand) (destination : Register)
  | fcmp (predicate : FloatPredicate) (lhs rhs : Operand) (destination : Register)
  | fcast (op : FloatCastOp) (value : Operand) (width : Nat) (destination : Register)
  | alloca (elementSize : Nat) (count : Operand) (destination : Register)
  | load (address : Operand) (width : Nat) (destination : Register)
  | store (address value : Operand)
  | elementPtr (base : Operand) (indices : List (Operand × Nat)) (offset : Nat)
      (destination : Register)
  | phi (incoming : List (BlockId × Operand)) (destination : Register)
  | unsupported (name : String)
deriving DecidableEq, Inhabited

namespace Instruction

def isTerminator : Instruction → Bool
  | ret _ | br _ | condBr .. | switch .. | unreachable => true
  | _ => false

def destination? : Instruction → Option Register
  | call _ _ d => d
  | binary _ _ _ d | icmp _ _ _ d | select _ _ _ d | cast _ _ _ d | fbinary _ _ _ d
  | fcmp _ _ _ d | fcast _ _ _ d | alloca _ _ d | load _ _ d | elementPtr _ _ _ d | phi _ d => some d
  | _ => none

def operands : Instruction → List Operand
  | ret value => value.toList
  | br _ | unreachable | unsupported _ => []
  | condBr c _ _ | switch c _ _ => [c]
  | call (.pointer p) arguments _ => arguments ++ [p]
  | call _ arguments _ => arguments
  | binary _ l r _ | icmp _ l r _ | fbinary _ l r _ | fcmp _ l r _ => [l, r]
  | select c t f _ => [c, t, f]
  | cast _ v _ _ | fcast _ v _ _ => [v]
  | alloca _ count _ => [count]
  | load address _ _ => [address]
  | store address value => [address, value]
  | elementPtr base indices _ _ => base :: indices.map (·.1)
  | phi incoming _ => incoming.map (·.2)

def successors : Instruction → List BlockId
  | br target => [target]
  | condBr _ t f => [t, f]
  | switch _ otherwise cases => otherwise :: cases.map (·.2)
  | _ => []

def directCallee? : Instruction → Option FunctionId
  | call (.function f) _ _ => some f
  | _ => none

def opcode : Instruction → String
  | ret _ => "ret"
  | br _ => "br"
  | condBr .. => "condbr"
  | switch .. => "switch"
  | unreachable => "unreachable"
  | call .. => "call"
  | binary .. => "binary"
  | icmp .. => "icmp"
  | select .. => "select"
  | cast .. => "cast"
  | fbinary .. => "fbinary"
  | fcmp .. => "fcmp"
  | fcast .. => "fcast"
  | alloca .. => "alloca"
  | load .. => "load"
  | store .. => "store"
  | elementPtr .. => "getelementptr"
  | phi .. => "phi"
  | unsupported name => name

end Instruction

/-- An entry of the table of constants. -/
inductive Constant where
  | int (value width : Nat)
  | globalAddress (global : GlobalId) (offset : Nat)
  | functionAddress (function : FunctionId)
  | null
deriving DecidableEq

structure Global where
  name : String
  size : Nat
  /-- The first bytes; the rest is zero. -/
  initializer : Option ByteArray
  readOnly : Bool

abbrev Block := Array Instruction

inductive FunctionBody where
  | defined (blocks : Array Block)
  /-- Provided by the host. -/
  | external (resultWidth : Option Nat)

structure Function where
  name : String
  parameters : Nat
  variadic : Bool
  /-- The number of registers of a frame. The arguments come first. -/
  registers : Nat
  body : FunctionBody

namespace Function

def isExternal (f : Function) : Bool :=
  match f.body with
  | .external _ => true
  | .defined _ => false

def blocks (f : Function) : Array Block :=
  match f.body with
  | .defined blocks => blocks
  | .external _ => #[]

end Function

structure Program where
  functions : Array Function
  globals : Array Global
  constants : Array Constant
  entry : FunctionId

/-- Functions have addresses at regular distances from this one on. -/
def functionRegionBase : Nat := 0x1000

def functionStride : Nat := 0x10

def FunctionId.address (f : FunctionId) : Nat := functionRegionBase + f * functionStride

namespace Program

def function? (p : Program) (f : FunctionId) : Option Function := p.functions[f]?

def function (p : Program) (f : FunctionId) : Checked Function :=
  match p.functions[f]? with
  | some function => .ok function
  | none => .error .missing

def global (p : Program) (g : GlobalId) : Checked Global :=
  match p.globals[g]? with
  | some global => .ok global
  | none => .error .missing

def functionByName? (p : Program) (name : String) : Option FunctionId :=
  p.functions.findIdx? (·.name == name)

def functionAt? (p : Program) (address : Nat) : Option FunctionId :=
  if address < functionRegionBase then none
  else
    let offset := address - functionRegionBase
    let f := offset / functionStride
    if offset % functionStride = 0 ∧ f < p.functions.size then some f else none

def instruction? (p : Program) (l : Location) : Option Instruction := do
  let f ← p.functions[l.function]?
  let b ← f.blocks[l.block]?
  b[l.index]?

def instruction (p : Program) (l : Location) : Checked Instruction :=
  match p.instruction? l with
  | some i => .ok i
  | none => .error .missing

end Program

end Symex

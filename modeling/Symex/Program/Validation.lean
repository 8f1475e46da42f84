import Symex.Program.Basic

namespace Symex

/-- A way in which a program is malformed. -/
inductive ProgramError where
  | unknownFunction (function : FunctionId)
  | unknownBlock (block : BlockId)
  | unknownConstant (constant : ConstantId)
  | unknownGlobal (global : GlobalId)
  | registerOutOfRange (register : Register) (available : Nat)
  | invalidWidth (width : Nat)
  | missingTerminator
  | terminatorNotLast
  | emptyFunction (name : String)
  | externalEntry (name : String)
  | intrinsicArity (name : String) (expected actual : Nat)
deriving DecidableEq

def ProgramError.message : ProgramError → String
  | unknownFunction f => "Function @" ++ decimal f ++ " does not exist"
  | unknownBlock b => "Block bb" ++ decimal b ++ " does not exist in the enclosing function"
  | unknownConstant c => "Constant #" ++ decimal c ++ " does not exist"
  | unknownGlobal g => "Global g" ++ decimal g ++ " does not exist"
  | registerOutOfRange r available =>
    "Register %" ++ decimal r ++ " is out of range for a frame of " ++ decimal available ++
      " registers"
  | invalidWidth w => "Width " ++ decimal w ++ " is not between 1 and 64 bits"
  | missingTerminator => "Basic block does not end with a terminator"
  | terminatorNotLast => "Terminator appears before the end of its basic block"
  | emptyFunction name => "Defined function " ++ name ++ " has no basic blocks"
  | externalEntry name => "The entry function " ++ name ++ " is external"
  | intrinsicArity name expected actual =>
    "Intrinsic " ++ name ++ " expects " ++ decimal expected ++ " arguments but was given " ++
      decimal actual

namespace Program

def isWidth (w : Nat) : Bool := 0 < w && w ≤ maxWidth

/-- The problem of one operand in a frame of `registers` registers. -/
def operandProblem (p : Program) (registers : Nat) : Operand → Option ProgramError
  | .register r => if r < registers then none else some (.registerOutOfRange r registers)
  | .constant c => if c < p.constants.size then none else some (.unknownConstant c)

/-- The problem that belongs to the kind of an instruction. -/
def kindProblem (p : Program) (blocks : Nat) : Instruction → Option ProgramError
  | .phi incoming _ => (incoming.find? (blocks ≤ ·.1)).map (.unknownBlock ·.1)
  | .call (.function f) _ _ => if f < p.functions.size then none else some (.unknownFunction f)
  | .call (.intrinsic i) arguments _ =>
    if arguments.length = i.arity then none
    else some (.intrinsicArity i.name i.arity arguments.length)
  | .load _ w _ | .cast _ _ w _ | .fcast _ _ w _ => if isWidth w then none else some (.invalidWidth w)
  | _ => none

/-- The first problem of an instruction: its operands, its destination, its successors, and what
belongs to its kind, in this order. -/
def instructionProblem (p : Program) (registers blocks : Nat) (i : Instruction) :
    Option ProgramError :=
  (i.operands.findSome? (p.operandProblem registers)).or <|
  (i.destination?.bind fun d ↦ p.operandProblem registers (.register d)).or <|
  ((i.successors.find? (blocks ≤ ·)).map .unknownBlock).or <|
  p.kindProblem blocks i

/-- The problems of a block at `block` of the function `f`. -/
def blockProblems (p : Program) (id : FunctionId) (f : Function) (id' : BlockId) (block : Block) :
    List (Location × ProgramError) :=
  let last := block.size - 1
  let ending :=
    if block.back?.any (·.isTerminator) then []
    else [(⟨id, id', last⟩, ProgramError.missingTerminator)]
  ending ++ block.toList.zipIdx.flatMap fun (i, index) ↦
    let here : Location := ⟨id, id', index⟩
    (if index ≠ last ∧ i.isTerminator then [(here, .terminatorNotLast)] else []) ++
      (p.instructionProblem f.registers f.blocks.size i).toList.map (here, ·)

def functionProblems (p : Program) (id : FunctionId) (f : Function) :
    List (Location × ProgramError) :=
  match f.body with
  | .external _ => []
  | .defined blocks =>
    (if blocks.isEmpty then [(.entry id, .emptyFunction f.name)] else []) ++
    (if f.registers < f.parameters then
      [(.entry id, .registerOutOfRange (f.parameters - 1) f.registers)] else []) ++
    blocks.toList.zipIdx.flatMap fun (b, i) ↦ p.blockProblems id f i b

def entryProblem (p : Program) : Option ProgramError :=
  match p.function? p.entry with
  | none => some (.unknownFunction p.entry)
  | some f => if f.isExternal then some (.externalEntry f.name) else none

def constantProblem (p : Program) : Constant → Option ProgramError
  | .int _ w => if isWidth w then none else some (.invalidWidth w)
  | .globalAddress g _ => if g < p.globals.size then none else some (.unknownGlobal g)
  | .functionAddress f => if f < p.functions.size then none else some (.unknownFunction f)
  | .null => none

/-- Orders by place, and keeps the order of those at one place. -/
def sortByLocation {α : Type} (l : List (Location × α)) : List (Location × α) :=
  l.mergeSort fun a b ↦ (compare a.1 b.1).isLE

def problems (p : Program) : List (Location × ProgramError) :=
  sortByLocation <|
    p.entryProblem.toList.map (.entry p.entry, ·) ++
    p.constants.toList.flatMap (fun c ↦ (p.constantProblem c).toList.map ((default : Location), ·)) ++
    p.functions.toList.zipIdx.flatMap fun (f, id) ↦ p.functionProblems id f

def isValid (p : Program) : Bool := p.problems.isEmpty

end Program

end Symex

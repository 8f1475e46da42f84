import Symex.Executor.Allocation
import Symex.Executor.Call
import Symex.Executor.Float
import Symex.Executor.Input
import Symex.State.Merge

namespace Symex

def Expr.mkTruth (e : Expr) : Checked Expr := do
  if e.width = 1 then return e
  mkNe e (← constant 0 e.width)

def IntPredicate.build : IntPredicate → Expr → Expr → Checked Expr
  | eq => Expr.mkEq
  | ne => Expr.mkNe
  | ugt => Expr.mkUgt
  | uge => Expr.mkUge
  | ult => Expr.mkUlt
  | ule => Expr.mkUle
  | sgt => Expr.mkSgt
  | sge => Expr.mkSge
  | slt => Expr.mkSlt
  | sle => Expr.mkSle

def BinOp.isDivision : BinOp → Bool
  | udiv | sdiv | urem | srem => true
  | _ => false

namespace Exec

variable {σ : Type}

def operand (o : Operand) : Exec σ Expr := do
  let e ← executor
  match o with
  | .register r => MonadExcept.ofExcept ((← (← state).frame).read r e.location)
  | .constant c =>
    match e.constants[c]? with
    | some value => return value
    | none => throw (m := Checked) .missing

def pointer (o : Operand) : Exec σ Expr := do Expr.mkZext (← operand o) 64

def demandSameWidth (lhs rhs : Expr) : Exec σ Unit := do
  if lhs.width ≠ rhs.width then fail (.widthMismatch lhs.width rhs.width)

/-- Puts one state in place of this one and of a live state that is at the same instruction, if there
is one with which it can be merged. The other one of them goes on. -/
def mergeWith : List StateId → Exec σ Unit
  | [] => return
  | id :: rest => do
    let focus ← get
    let e := focus.executor
    let s := focus.state
    match e.states[id]? with
    | none => mergeWith rest
    | some other =>
      match ← other.merge s with
      | none => mergeWith rest
      | some merged =>
        let (merged, tree) ← match other.node, s.node with
          | some first, some second => do
            let (node, tree) ← e.tree.merge first second id
            pure ({ merged with node := some node }, tree)
          | _, _ => pure (merged, e.tree)
        let seeds := match e.seeds[s.id]? with
          | none => e.seeds
          | some more => (e.seeds.erase s.id).insert id (e.seeds.getD id [] ++ more)
        set { focus with executor := { e with tree, seeds, states := e.states.insert id merged } }
        terminate

/-- The live states at the instruction where this one is. -/
def companions : Exec σ (List StateId) := do
  let e ← executor
  let s ← state
  let pc := (← s.thread).pc
  return (e.states.toList.filter fun (id, other) ↦
    id ≠ s.id ∧ !e.removed.contains id ∧
      (other.thread? other.current).any (·.pc = pc)).map (·.1)

/-- Goes to the start of a block. With merging on, states meet there, unless the block depends on where
it was entered from. -/
def jump (block : BlockId) : Exec σ Unit := do
  updateState (·.modifyThread fun t ↦ return t.jumpTo block)
  let e ← executor
  if e.config.mergeAtJoinPoints then
    let pc := (← (← state).thread).pc
    let callee ← e.program.function pc.function
    match (callee.blocks[block]?).bind (·[0]?) with
    | some (.phi _ _) => return
    | _ => mergeWith (← companions)

/-- Adds a target and its condition to those found before; conditions for one target are joined. -/
def addTarget (targets : List (BlockId × Expr)) (block : BlockId) (condition : Expr) :
    Checked (List (BlockId × Expr)) :=
  if targets.any (·.1 = block) then
    targets.mapM fun (b, c) ↦ do
      if b = block then return (b, ← Expr.mkOr c condition) else return (b, c)
  else return targets ++ [(block, condition)]

/-- The targets that a value can lead to, with their conditions. -/
def switchTargets (value : Expr) (otherwise : BlockId) (cases : List (Nat × BlockId)) :
    Exec σ (List (BlockId × Expr)) := do
  let mut targets := []
  let mut none_ := Expr.bool true
  for (case, block) in cases.mergeSort (·.1 ≤ ·.1) do
    let same ← Expr.mkEq value (← Expr.constant case value.width)
    none_ ← Expr.mkAnd none_ same.isZero
    if ← query (Solver.mayBeTrue · same) then targets ← addTarget targets block same
  let rest := none_
  if (← query (Solver.mayBeTrue · rest)) || targets.isEmpty then
    targets ← addTarget targets otherwise rest
  return targets

def switch (value : Expr) (otherwise : BlockId) (cases : List (Nat × BlockId)) : Exec σ Unit := do
  let value ← toUnique value
  match value.value? with
  | some v =>
    jump (((cases.find? fun (case, _) ↦ Bits.trunc value.width case = v).map (·.2)).getD otherwise)
  | none =>
    let targets ← switchTargets value otherwise cases
    let arms ← branch (targets.map (·.2))
    for (arm, block, _) in arms.zip targets do
      onSide arm (jump block)

def binary (op : BinOp) (lhs rhs : Expr) (destination : Register) : Exec σ Unit := do
  if op.isDivision ∧ (← executor).config.checkDivisionByZero then
    let (zero, other) ← fork rhs.isZero true
    onSide zero (fail .divisionByZero)
    onSide other do write destination (← Expr.mkBinary op lhs rhs)
  else write destination (← Expr.mkBinary op lhs rhs)

def cast (op : CastOp) (value : Expr) (width : Nat) : Exec σ Expr := do
  match op with
  | .trunc => Expr.mkTruncate value width
  | .zext | .ptrToInt | .intToPtr => Expr.mkZext value width
  | .sext => Expr.mkSext value width
  | .bitCast => if value.width = width then return value else fail (.widthMismatch value.width width)

def elementAddress (base : Expr) (indices : List (Operand × Nat)) (offset : Nat) : Exec σ Expr := do
  let address ← indices.foldlM (fun address (index, scale) ↦ do
    let index ← Expr.mkSext (← operand index) 64
    Expr.mkAdd address (← Expr.mkMul index (.pointer scale))) base
  if offset = 0 then return address else Expr.mkAdd address (.pointer offset)

/-- Restricts the state to where a condition holds, which has to be possible. -/
def assume (condition : Expr) : Exec σ Unit := do
  let condition ← condition.mkTruth
  if ← query (Solver.mustBeFalse · condition) then fail .invalidAssume
  addConstraint condition

def assert (condition : Expr) (message : String) : Exec σ Unit := do
  let (_, failed) ← fork (← condition.mkTruth) false
  onSide failed (fail (.assertionFailed message))

/-- Goes on in two states, which are told apart by the result. -/
def forkTwice (destination : Option Register) : Exec σ Unit := do
  for (arm, i) in (← branch [.bool true, .bool true]).zipIdx do
    onSide arm do writeResult destination (← Expr.constant i 32)

def intrinsic (i : Intrinsic) (arguments : List Expr) (destination : Option Register) :
    Exec σ Unit := do
  match i, arguments with
  | .malloc, [size] => allocateSized size false destination none
  | .calloc, [count, size] =>
    allocateSized (← Expr.mkMul (← Expr.mkZext count 64) (← Expr.mkZext size 64)) false destination none
  | .realloc, [pointer, size] => reallocate pointer size destination
  | .free, [pointer] => free pointer destination
  | .makeSymbolic name, [pointer, size] => makeSymbolic name pointer size
  | .assume, [condition] => assume condition
  | .assert message, [condition] => assert condition message
  | .abort, [] => fail .abort
  | .exit, [_] => terminateOnExit
  | .fork, [] => forkTwice destination
  | .setForking, [enabled] =>
    let enabled ← knownArgument enabled i.name
    updateState fun s ↦ return { s with forkDisabled := enabled == 0 }
  | .threadCreate, [function, argument] => createThread function argument destination
  | .threadExit, [] => exitThread
  | .threadYield, [] => schedule true
  | .threadSleep, [list] => sleep list
  | .threadNotify all, [list] => notify list all
  | .getWaitList, [] =>
    let (list, s) := (← state).newWaitList
    setState s
    writeResult destination (← Expr.constant list 64)
  | i, _ => fail (.unsupportedInstruction i.name)

def instruction (i : Instruction) : Exec σ Unit := do
  match i with
  | .ret value => ret (← value.mapM operand)
  | .br target => jump target
  | .condBr condition ifTrue ifFalse =>
    let (holds, fails) ← fork (← (← operand condition).mkTruth) false
    onSide holds (jump ifTrue)
    onSide fails (jump ifFalse)
  | .switch condition otherwise cases => switch (← operand condition) otherwise cases
  | .unreachable => fail .unreachable
  | .call callee arguments destination =>
    let arguments ← arguments.mapM operand
    match callee with
    | .function f => call f arguments destination
    | .pointer p => callPointer (← pointer p) arguments destination
    | .intrinsic i => intrinsic i arguments destination
  | .binary op lhs rhs destination =>
    let lhs ← operand lhs
    let rhs ← operand rhs
    demandSameWidth lhs rhs
    binary op lhs rhs destination
  | .icmp predicate lhs rhs destination =>
    let lhs ← operand lhs
    let rhs ← operand rhs
    demandSameWidth lhs rhs
    write destination (← predicate.build lhs rhs)
  | .select condition ifTrue ifFalse destination =>
    let condition ← (← operand condition).mkTruth
    let ifTrue ← operand ifTrue
    let ifFalse ← operand ifFalse
    demandSameWidth ifTrue ifFalse
    write destination (← Expr.mkSelect condition ifTrue ifFalse)
  | .cast op value width destination => write destination (← cast op (← operand value) width)
  | .fbinary op lhs rhs destination => floatBinary op (← operand lhs) (← operand rhs) destination
  | .fcmp predicate lhs rhs destination =>
    floatCompare predicate (← operand lhs) (← operand rhs) destination
  | .fcast op value width destination => floatCast op (← operand value) width destination
  | .alloca elementSize count destination =>
    let count ← pointer count
    allocateSized (← Expr.mkMul (.pointer elementSize) count) true (some destination) none
  | .load address width destination => access (.load width destination) (← pointer address)
  | .store address value =>
    let address ← pointer address
    access (.store (← operand value)) address
  | .elementPtr base indices offset destination =>
    write destination (← elementAddress (← pointer base) indices offset)
  | .phi incoming destination =>
    let from_ := (← (← state).thread).incoming
    match from_.bind (List.lookup · incoming) with
    | none => fail (.unsupportedInstruction "phi without predecessor")
    | some o => write destination (← operand o)
  | .unsupported name => fail (.unsupportedInstruction name)

/-- Executes the next instruction of the state, and ends it where that fails. -/
def step : Exec σ Unit := do
  let location := (← (← state).thread).pc
  updateState fun s ↦ { s with steps := s.steps + 1 }.modifyThread fun t ↦ return t.advance
  modifyExecutor fun e ↦ { e with location, statistics.steps := e.statistics.steps + 1 }
  let i ← (← executor).program.instruction location
  try instruction i catch error => settle error

end Exec

end Symex

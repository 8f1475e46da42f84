import Symex.Program.Basic

namespace Symex

/-- A program in the making. -/
structure ProgramBuilder where
  functions : Array Function := #[]
  globals : Array Global := #[]
  constants : Array Constant := #[]

namespace ProgramBuilder

def declare (b : ProgramBuilder) (name : String) (parameters : Nat) (variadic : Bool)
    (body : FunctionBody := .defined #[]) : FunctionId × ProgramBuilder :=
  (b.functions.size,
    { b with functions := b.functions.push ⟨name, parameters, variadic, parameters, body⟩ })

def addGlobal (b : ProgramBuilder) (global : Global) : GlobalId × ProgramBuilder :=
  (b.globals.size, { b with globals := b.globals.push global })

/-- The operand for a constant, which enters the table once. -/
def constant (b : ProgramBuilder) (c : Constant) : Operand × ProgramBuilder :=
  match b.constants.findIdx? (· = c) with
  | some i => (.constant i, b)
  | none => (.constant b.constants.size, { b with constants := b.constants.push c })

def build (b : ProgramBuilder) (entry : FunctionId) : Program :=
  ⟨b.functions, b.globals, b.constants, entry⟩

end ProgramBuilder

/-- The body of a function in the making. -/
structure BodyBuilder where
  program : ProgramBuilder
  function : FunctionId
  blocks : Array Block := #[#[]]
  current : BlockId := 0
  registers : Nat

/-- Computations that extend a body. -/
abbrev Body := StateT BodyBuilder Checked

namespace Body

def fresh : Body Register := do
  let b ← get
  set { b with registers := b.registers + 1 }
  return b.registers

def block : Body BlockId := do
  let b ← get
  set { b with blocks := b.blocks.push #[] }
  return b.blocks.size

def switchTo (block : BlockId) : Body Unit := modify ({ · with current := block })

def push (i : Instruction) : Body Unit := fun b ↦ do
  demand (b.current < b.blocks.size) .range
  return ((), { b with blocks := b.blocks.modify b.current (·.push i) })

def constant (c : Constant) : Body Operand := do
  let b ← get
  let (operand, program) := b.program.constant c
  set { b with program }
  return operand

/-- Appends an instruction that writes a new register. -/
def emit (i : Register → Instruction) : Body Operand := do
  let d ← fresh
  push (i d)
  return .register d

end Body

namespace ProgramBuilder

def define (b : ProgramBuilder) (f : FunctionId) : Checked BodyBuilder :=
  match b.functions[f]? with
  | some function => .ok { program := b, function := f, registers := function.parameters }
  | none => .error .range

end ProgramBuilder

def BodyBuilder.finish (b : BodyBuilder) : ProgramBuilder :=
  { b.program with functions := b.program.functions.modify b.function fun f ↦
      { f with registers := b.registers, body := .defined b.blocks } }

end Symex

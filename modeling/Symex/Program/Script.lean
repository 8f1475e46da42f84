import Symex.Program.Builder
import Symex.Program.Form

namespace Symex

/-- Puts the results of earlier steps for references to them, written as objects with the one field
`$`. -/
def Json.resolve (results : Array Json) : Json → Json
  | .object [("$", .int n)] => (results[n.toNat]?).getD .null
  | .object fields => .object (fields.attach.map fun ⟨(name, value), h⟩ ↦
    have : sizeOf value < sizeOf fields := by
      have := List.sizeOf_lt_of_mem h
      simp only [Prod.mk.sizeOf_spec] at this
      omega
    (name, resolve results value))
  | .list items => .list (items.attach.map fun ⟨item, _⟩ ↦ resolve results item)
  | j => j
termination_by j => sizeOf j

namespace Body

/-- A step that appends an instruction. -/
structure Emission where
  step : String
  /-- The alternative of the instruction, and its fields in the order of the arguments. -/
  tag : String
  fields : List String
  /-- The instruction writes a new register, which is the result of the step. -/
  writes : Bool := true

def emissions : List Emission :=
  [⟨"binary", "Binary", ["op", "lhs", "rhs"], true⟩,
   ⟨"icmp", "ICmp", ["predicate", "lhs", "rhs"], true⟩,
   ⟨"select", "Select", ["condition", "if_true", "if_false"], true⟩,
   ⟨"cast", "Cast", ["op", "value", "width"], true⟩,
   ⟨"fbinary", "FBinary", ["op", "lhs", "rhs"], true⟩,
   ⟨"fcmp", "FCmp", ["predicate", "lhs", "rhs"], true⟩,
   ⟨"fcast", "FCast", ["op", "value", "width"], true⟩,
   ⟨"alloca", "Alloca", ["element_size", "count"], true⟩,
   ⟨"load", "Load", ["address", "width"], true⟩,
   ⟨"store", "Store", ["address", "value"], false⟩,
   ⟨"gep", "GetElementPtr", ["base", "indices", "offset"], true⟩,
   ⟨"phi", "Phi", ["incoming"], true⟩,
   ⟨"call", "Call", ["callee", "arguments"], true⟩,
   ⟨"call_void", "Call", ["callee", "arguments"], false⟩,
   ⟨"ret", "Ret", ["value"], false⟩,
   ⟨"br", "Br", ["target"], false⟩,
   ⟨"cond_br", "CondBr", ["condition", "if_true", "if_false"], false⟩,
   ⟨"switch", "Switch", ["condition", "default", "cases"], false⟩]

/-- Appends the instruction that `e` describes, with the given arguments. -/
def perform (e : Emission) (arguments : List Json) : Body Json := do
  let make (more : List (String × Json)) : Body Instruction :=
    Checked.ofOption (Instruction.ofForm? (.tagged e.tag (.object (e.fields.zip arguments ++ more))))
  if e.writes then
    let d ← fresh
    push (← make [("destination", .nat d)])
    return (Operand.register d).toForm
  else
    push (← make [])
    return .null

/-- Appends the call or other instruction of the step called `name`. -/
def performNamed (name : String) (arguments : List Json) : Body Json := do
  let (name, arguments) := match name, arguments with
    | "intrinsic", i :: rest => ("call", Json.tagged "Intrinsic" i :: rest)
    | "intrinsic_void", i :: rest => ("call_void", .tagged "Intrinsic" i :: rest)
    | name, arguments => (name, arguments)
  perform (← Checked.ofOption (emissions.find? (·.step == name))) arguments

def ofStep (name : String) (arguments : List Json) : Body Json := do
  let number (i : Nat) : Body Nat := Checked.ofOption (arguments[i]?.bind Json.word?)
  let argument : Json := arguments.headD .null
  let constant (c : Constant) : Body Json := return (← Body.constant c).toForm
  match name with
  | "param" => return (Operand.register (← number 0)).toForm
  | "fresh" => return (Operand.register (← fresh)).toForm
  | "block" => return .nat (← block)
  | "switch_to" => do
    switchTo (← number 0)
    return .null
  | "current" => return .nat (← get).current
  | "push" => do
    push (← Checked.ofOption (Instruction.ofForm? argument))
    return .null
  | "int" => constant (.int (← number 0) (← number 1))
  | "f32" => constant (.int (← number 0) 32)
  | "f64" => constant (.int (← number 0) 64)
  | "constant" => constant (← Checked.ofOption (Constant.ofForm? argument))
  | "global" => constant (.globalAddress (← number 0) 0)
  | "function_pointer" => constant (.functionAddress (← number 0))
  | "null" => constant .null
  | "unreachable" => do
    push .unreachable
    return .null
  | name => performNamed name arguments

/-- Runs a script, and gives the results of its steps. -/
def ofScript (j : Json) : Body Json := do
  let results ← (← Checked.ofOption j.list?).foldlM (fun (results : Array Json) step ↦ do
    match step.resolve results with
    | .list (.str name :: arguments) => return results.push (← ofStep name arguments)
    | _ => throw .misuse) #[]
  return .list results.toList

end Body

end Symex

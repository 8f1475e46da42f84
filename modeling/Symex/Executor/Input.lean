import Symex.Executor.Access

namespace Symex

namespace Exec

variable {σ : Type}

/-- The first of `name`, `name_1`, `name_2` and so on that is not taken. -/
def freshName (taken : List String) (name : String) : String :=
  let candidates := name :: (List.range taken.length).map fun k ↦ name ++ "_" ++ decimal (k + 1)
  (candidates.find? (!taken.contains ·)).getD name

def replaceContents (object : MemoryObject) (contents : ObjectState) : Exec σ Unit :=
  updateState fun s ↦ do return { s with memory := ← (← s.memory.unbind object).bind contents }

def seedInput (config : Config) (array : NamedArray) (seed : Seed) : Except ExecError Seed :=
  match seed.nextInput array.name with
  | none =>
    if config.zeroSeedExtension then .ok (seed.bind array.name (Bytes.zeros array.size))
    else if config.allowSeedExtension then .ok seed
    else .error .seedInputsExhausted
  | some (input, seed) =>
    let actual := input.bytes.size
    let extends_ := config.zeroSeedExtension || config.allowSeedExtension
    if array.size < actual ∨ (actual < array.size ∧ !extends_) then
      .error (.seedInputSize input.name array.size actual)
    else if config.zeroSeedExtension then
      .ok (seed.bind array.name (input.bytes ++ Bytes.zeros (array.size - actual)))
    else .ok (seed.bind array.name input.bytes)

/-- Gives the seeds of the state the contents of a new input, one after another. -/
def seedInputs (array : NamedArray) : Exec σ Unit := do
  let some seeds ← seeds? | return
  let config := (← executor).config
  let id := (← state).id
  let rec go (done : List Seed) : List Seed → Exec σ Unit
    | [] => setSeeds id done.reverse
    | seed :: rest => do
      match seedInput config array seed with
      | .ok seed => go (seed :: done) rest
      | .error e => fail e
  go [] seeds

/-- Takes the contents of an object from the inputs that are replayed. -/
def replayInput (object : MemoryObject) : List TestInput → Exec σ Unit
  | [] => fail .replayInputsExhausted
  | input :: rest => do
    modifyExecutor fun e ↦ { e with replayInputs := some rest }
    if input.bytes.size ≠ object.size then
      fail (.replayInputSize input.name object.size input.bytes.size)
    replaceContents object (← ObjectState.withBytes object input.bytes)

def makeObjectSymbolic (object : MemoryObject) (name : String) (size : Expr) : Exec σ Unit := do
  if ((← state).memory.find? object).any (·.readOnly) then fail .readOnly
  let fits ← Expr.mkEq object.sizeExpr (← Expr.mkZext size 64)
  unless ← query (Solver.mustBeTrue · fits) do fail .makeSymbolicSize
  match (← executor).replayInputs with
  | some inputs => replayInput object inputs
  | none =>
    let taken := (← state).arrays.map (·.name)
    let array := NamedArray.symbolic (freshName taken name) object.size
    replaceContents object (← ObjectState.ofArray object array)
    updateState fun s ↦ return s.addSymbolic object array
    seedInputs array

/-- Makes the contents of the object that a pointer is the start of an input. -/
def makeSymbolic (name : String) (pointer size : Expr) : Exec σ Unit := do
  for (branch, object) in ← resolveExact pointer "make_symbolic" do
    onSide (some branch) (makeObjectSymbolic object name size)

end Exec

end Symex

import Symex.Executor.Fork

namespace Symex

/-- What is done with the bytes at an address. -/
inductive Access where
  | load (width : Nat) (destination : Register)
  | store (value : Expr)

def Access.width : Access → Nat
  | load width _ => width
  | store value => value.width

def Access.mapValue (a : Access) (f : Expr → Checked Expr) : Checked Access :=
  match a with
  | load width destination => return load width destination
  | store value => return store (← f value)

namespace Exec

variable {σ : Type}

/-- Performs an access that lies inside an object. -/
def perform (access : Access) (object : MemoryObject) (offset : Expr) : Exec σ Unit := do
  match (← state).memory.find? object with
  | none => fail .outOfBoundPointer
  | some contents =>
    match access with
    | .load width destination => write destination (← contents.read offset width)
    | .store value =>
      if contents.readOnly then fail .readOnly
      updateState fun s ↦ return { s with memory := ← s.memory.modify object (·.write offset value) }

/-- An object that `address` may point into, and the address. Where the solver does not tell, the address
is made a constant. -/
def findObject (address : Expr) : Exec σ (Option MemoryObject × Expr) := do
  let memory := (← state).memory
  match ← ask (memory.resolveSymbolic · address) with
  | .ok found => return (found.map (·.object), address)
  | .error _ =>
    let address ← toConstant address
    let memory := (← state).memory
    return ((address.value?.bind memory.resolveOne).map (·.object), address)

def resolve (address : Expr) : Exec σ Resolution := do
  let focus ← get
  let e := focus.executor
  let (resolution, solver) ← (focus.state.memory.resolve focus.state.constraints address
    e.config.maxResolutions e.solver.timeout).run e.solver
  set { focus with executor := { e with solver } }
  return resolution

/-- Divides the state by the objects for which `condition` holds, works on each of these parts, and gives
back where the rest is. -/
def eachObject {α : Type} (condition : MemoryObject → Checked Expr)
    (work : Branch → MemoryObject → Exec σ (Option α)) :
    List MemoryObject → Option Branch → Exec σ (List α × Option Branch)
  | [], remaining => return ([], remaining)
  | _, none => return ([], none)
  | object :: rest, some branch => do
    let (inside, outside) ← forkOn branch (← condition object) true
    let here ← match inside with
      | some inside => work inside object
      | none => pure none
    let (others, remaining) ← eachObject condition work rest outside
    return (here.toList ++ others, remaining)

/-- An access to every object that `address` may point into. Where it points into none the state ends. -/
def accessEach (access : Access) (address : Expr) : Exec σ Unit := do
  let resolution ← resolve address
  let bytes ← Bits.byteCountChecked access.width
  let (_, remaining) ← eachObject (·.pointerAccessInside address bytes)
    (fun branch object ↦ onBranch branch do perform access object (← object.offset address))
    (resolution.objects.map (·.object)) (some .current)
  onSide remaining do
    if resolution.incomplete then terminateEarly "query timed out (resolve)"
    else
      let details ← addressInfo address
      terminateOnError ⟨(← executor).location, .outOfBoundPointer⟩ (some details)

/-- A load or a store. If the pointer certainly points into one object the access is made there at
once. -/
def access (access : Access) (address : Expr) : Exec σ Unit := do
  let config := (← executor).config
  let bytes ← Bits.byteCountChecked access.width
  let constraints := (← state).constraints
  let (address, access) ←
    if config.simplifySymbolicIndices then
      pure (← constraints.simplify address, ← access.mapValue constraints.simplify)
    else pure (address, access)
  let (found, address) ← findObject address
  match found with
  | none => accessEach access address
  | some object =>
    let offset ← object.offset address
    let large := config.maxSymbolicArraySize ≠ 0 ∧ config.maxSymbolicArraySize ≤ object.size
    let offset ← if large ∧ !offset.isConst then toConstant offset else pure offset
    let inside ← object.accessInside offset bytes
    if ← query (Solver.mustBeTrue · inside) then perform access object offset
    else accessEach access address

/-- Divides the state by the object that `address` is the start of. Where it is the start of none the
state ends. -/
def resolveExact (address : Expr) (operation : String) :
    Exec σ (List (Branch × MemoryObject)) := do
  let resolution ← resolve address
  let (resolved, remaining) ← eachObject (fun object ↦ Expr.mkEq address object.base)
    (fun branch object ↦ return some (branch, object))
    (resolution.objects.map (·.object)) (some .current)
  onSide remaining do
    let details ← addressInfo address
    terminateOnError ⟨(← executor).location, .invalidPointer operation⟩ (some details)
  return resolved

end Exec

end Symex

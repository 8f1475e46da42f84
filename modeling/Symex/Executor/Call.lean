import Symex.Executor.Schedule

namespace Symex

namespace Exec

variable {σ : Type}

/-- The number of bytes for each variadic argument. -/
def varargBytes : Nat := 8

/-- Puts variadic arguments into an object of their own. -/
def storeVarargs (arguments : List Expr) : Exec σ MemoryObject := do
  let focus ← get
  let site := AllocationSite.varargs focus.executor.location
  match focus.executor.allocator.allocate focus.state.pool (varargBytes * arguments.length) true false
      site "varargs" with
  | none => fail .varargsAllocationFailed
  | some (object, allocator, pool) =>
    set { focus with executor.allocator := allocator, state.pool := pool }
    let contents ← arguments.zipIdx.foldlM (fun (c : ObjectState) (argument, slot) ↦ do
      c.write (.pointer (slot * varargBytes)) (← Expr.mkZext argument 64)) (← ObjectState.zeroed object)
    updateState fun s ↦ return { s with memory := ← s.memory.bind contents }
    return object

def hostArgument (name : String) (argument : Expr) : Exec σ Nat := do
  let argument ← toUnique argument
  match argument.value? with
  | some value => return value
  | none =>
    if (← executor).config.allowSymbolicExternalArguments then
      return (← toConstant argument).value?.getD 0
    else fail (.symbolicExternalArgument name)

/-- Calls a function of the host on a concrete image of memory, and takes over what it changes. -/
def callHost (name : String) (resultWidth : Option Nat) (arguments : List Expr)
    (destination : Option Register) : Exec σ Unit := do
  unless (← executor).config.allowExternalCalls do fail (.externalCallsDisallowed name)
  let values ← arguments.mapM (hostArgument name)
  let image := (← state).memory.copyOut {}
  let ((result, image), host) := (← executor).host.call ⟨name, values, image⟩
  modifyExecutor fun e ↦ { e with host }
  match result with
  | .error _ => fail (.externalCallFailed name)
  | .ok result =>
    let (done, memory) ← (← state).memory.copyIn image
    unless done do fail .externalModifiedReadOnly
    updateState fun s ↦ return { s with memory }
    match destination, resultWidth with
    | none, _ => return
    | some _, none => fail .missingReturnValue
    | some r, some width => write r (← Expr.constant (result.getD 0) width)

/-- Enters a function. Arguments beyond its parameters are kept only if it is variadic. -/
def enter (id : FunctionId) (callee : Function) (arguments : List Expr)
    (destination : Option Register) : Exec σ Unit := do
  if arguments.length < callee.parameters then fail .tooFewArguments
  let varargs ←
    if callee.parameters < arguments.length ∧ callee.variadic then
      some <$> storeVarargs (arguments.drop callee.parameters)
    else pure none
  let caller : CallSite := ⟨(← executor).location, destination⟩
  updateState fun s ↦ do
    let s ← s.pushFrame (some caller) id callee.registers
    let s ← (arguments.take callee.parameters).zipIdx.foldlM (fun s (argument, i) ↦ s.write i argument) s
    let s ← s.modifyFrame fun f ↦ return { f with varargs }
    s.modifyThread fun t ↦ return { t with pc := .entry id, incoming := none }

def call (id : FunctionId) (arguments : List Expr) (destination : Option Register) :
    Exec σ Unit := do
  let callee ← (← executor).program.function id
  match callee.body with
  | .external resultWidth => callHost callee.name resultWidth arguments destination
  | .defined _ => enter id callee arguments destination

def callAddress (address : Nat) (arguments : List Expr) (destination : Option Register) :
    Exec σ Unit := do
  match (← executor).program.functionAt? address with
  | none => fail .invalidFunctionPointer
  | some id => call id arguments destination

/-- Divides the state at `free` by the values of a function pointer, one after another, and calls each of
them. After `resolved` of them the limit may be reached. -/
def callEach (pointer : Expr) (arguments : List Expr) (destination : Option Register) :
    Nat → Nat → Option Branch → Exec σ Unit
  | _, _, none => return
  | 0, _, some _ => throw (m := Checked) .exhausted
  | fuel + 1, resolved, some branch => do
    let limit := (← executor).config.maxResolutions
    if limit ≠ 0 ∧ resolved = limit then
      return ← onSide (some branch) (terminateEarly "query timed out (resolve)")
    let some value ← onBranch branch (query (Solver.value · pointer)) | return
    let (here, rest) ← forkOn branch (← Expr.mkEq pointer value) true
    onSide here (callAddress (value.value?.getD 0) arguments destination)
    callEach pointer arguments destination fuel (resolved + 1) rest

def callPointer (pointer : Expr) (arguments : List Expr) (destination : Option Register) :
    Exec σ Unit :=
  callEach pointer arguments destination wordLimit 0 (some .current)

/-- Returns from a function. The bottom frame ends its thread, and on the first thread the program. -/
def ret (value : Option Expr) : Exec σ Unit := do
  let s ← state
  match (← s.frame).caller with
  | none => if s.current = 0 then terminateOnExit else exitThread
  | some caller =>
    updateState fun s ↦ do
      let (_, s) ← s.popFrame
      s.modifyThread fun t ↦ return { t with pc := caller.call.next }
    match caller.destination, value with
    | none, _ => return
    | some _, none => fail .missingReturnValue
    | some r, some value => write r value

end Exec

end Symex

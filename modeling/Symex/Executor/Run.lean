import Symex.Executor.Step
import Symex.Program.Validation

namespace Symex

/-- The states that came up and that ended in a step. -/
structure StepReport where
  /-- The state that was stepped. -/
  state : Option StateId
  added : List StateId
  removed : List StateId

/-- Work on the machine as a whole. -/
abbrev Session (σ : Type) := StateT (Executor σ) Checked

namespace Executor

variable {σ α : Type}

def globalBase : Nat := 0x100000

/-- Addresses of globals are multiples of this one. -/
def globalAlignment : Nat := 16

def globalContents (g : Global) (object : MemoryObject) : Checked ObjectState := do
  let contents ← match g.initializer with
    | none => ObjectState.zeroed object
    | some bytes =>
      demand (g.size ≤ ObjectState.maxBytes) .overflow
      ObjectState.withBytes object
        (bytes.extract 0 g.size ++ Bytes.zeros (g.size - bytes.size))
  return { contents with readOnly := g.readOnly }

/-- Binds the globals one after another from `address` on. -/
def bindGlobals (address : Nat) : List (Global × GlobalId) → Allocator → AddressSpace →
    Checked (List MemoryObject × Allocator × AddressSpace)
  | [], allocator, memory => return ([], allocator, memory)
  | (g, id) :: rest, allocator, memory => do
    let (object, allocator) := allocator.allocateFixed address g.size (.global id) g.name
    let memory ← memory.bind (← globalContents g object)
    let size := max g.size 1
    let padded ← Bits.addChecked size ((globalAlignment - size % globalAlignment) % globalAlignment)
    let (objects, allocator, memory) ←
      bindGlobals (← Bits.addChecked address padded) rest allocator memory
    return (object :: objects, allocator, memory)

def constantValue (globals : List MemoryObject) : Constant → Checked Expr
  | .int value width => Expr.constant value width
  | .globalAddress g offset => do
    return .pointer ((← Checked.ofOption globals[g]?).address + offset)
  | .functionAddress f => return .pointer f.address
  | .null => return .pointer 0

/-- Sets the first parameters of the entry function. -/
def writeArguments (arguments : List Expr) (s : State) : Checked State :=
  arguments.zipIdx.foldlM (fun s (argument, i) ↦ s.write i argument) s

/-- The machine before its first step: one state at the start of the program, with null for every
parameter. -/
def start (program : Program) (config : Config) (solver : Solver σ) (watchdog : Watchdog) :
    Checked (Executor σ) := do
  let entry ← program.function program.entry
  let root := State.start 0 program.entry entry.registers
  let (globals, allocator, memory) ←
    bindGlobals globalBase program.globals.toList.zipIdx { maxSize := config.maxAllocationSize }
      root.memory
  let constants ← program.constants.mapM (constantValue globals)
  let root ← writeArguments (List.replicate entry.parameters (.pointer 0))
    { root with memory, node := some ProcessTree.root }
  return {
    program, config, watchdog, allocator, constants, globals
    solver := { solver with timeout := config.solverTimeout.map (·.toMilliseconds) }
    states := Std.TreeMap.ofList [(0, root)]
    added := [0]
    tree := .ofState 0
    rng := .ofSeed config.randomSeed
    location := .entry program.entry }

def withArguments (e : Executor σ) (arguments : List Expr) : Checked (Executor σ) := do
  let entry ← e.program.function e.program.entry
  match e.states[0]? with
  | none => return e
  | some root =>
    let root ← writeArguments (arguments.take entry.parameters) root
    return { e with states := e.states.insert 0 root }

def withSeeds (e : Executor σ) (seeds : List (List TestInput)) : Executor σ :=
  if seeds.isEmpty then e
  else { e with seeds := e.seeds.insert 0 (seeds.map fun unused ↦ { unused }) }

/-- Removes a state that ended, with its place in the tree and its seeds. -/
def drop (e : Executor σ) (id : StateId) : Executor σ :=
  { e with
    tree := match e.states[id]?.bind (·.node) with
      | some node => e.tree.terminate node
      | none => e.tree
    states := e.states.erase id
    seeds := e.seeds.erase id }

/-- Takes note of the states that came up and that ended, of which `current` may be one that was
stepped. -/
def update (current : Option StateId) : Session σ StepReport := do
  let e ← get
  let added := e.added.filter (!e.removed.contains ·)
  let removed := e.removed.filter (!e.added.contains ·)
  let e := e.removed.foldl drop e
  let silent := current.isNone ∧ added.isEmpty ∧ removed.isEmpty
  set { e with
    added := []
    removed := []
    searcher := if silent then e.searcher else e.searcher.update current added removed }
  return { state := current, added, removed }

/-- Works on one of the live states, if it is there. -/
def visit (id : StateId) (work : Exec σ α) : Session σ (Option (Except PathError α)) := do
  let e ← get
  match e.states[id]? with
  | none => return none
  | some s =>
    let (result, focus) ← work.run.run ⟨{ e with states := e.states.erase id }, s⟩
    set { focus.executor with states := focus.executor.states.insert id focus.state }
    return some result

def stepState (id : StateId) : Session σ (Except PathError StepReport) := do
  match ← visit id Exec.step with
  | none => throw .ended
  | some result =>
    let report ← update (some id)
    return result.map fun _ ↦ report

/-- Executes one instruction of the state that the searcher picks, if there is one. -/
def step : Session σ (Except PathError (Option StepReport)) := do
  let _ ← update none
  let (id, searcher) := (← get).searcher.select
  modify fun e ↦ { e with searcher }
  match id with
  | none => return .ok none
  | some id => return (← stepState id).map some

def giveUp (ids : List StateId) (reason : String) : Session σ Unit := do
  for id in ids do
    let _ ← visit id (Exec.terminateEarly reason)
  let _ ← update none

def giveUpAll (reason : String) : Session σ Unit := do giveUp (← get).states.keys reason

def abort (error : PathError) : Session σ PathError := do
  giveUpAll "execution aborted"
  modify fun e ↦ { e with errors := e.errors ++ [error] }
  return error

def halt : Session σ PathError := do
  giveUpAll "execution halting"
  abort ⟨(← get).location, .stoppedByWatchdog⟩

/-- The memory by which the limit has to be exceeded before states are given up. -/
def memoryMargin : Nat := 100 * 1024 * 1024

/-- The memory that is counted for a state beyond what grows with it. -/
def stateOverhead : Nat := 512

/-- Looks at the memory that the states hold. Far beyond the limit some of them are given up at
random. -/
def checkMemory : Session σ Unit := do
  let e ← get
  match e.config.maxMemory with
  | none => return
  | some limit =>
    let used := (e.states.values.map fun s ↦ stateOverhead + s.footprint).foldr (· + ·) 0
    modify fun e ↦ { e with atMemoryLimit := limit < used }
    if used ≤ min (limit + memoryMargin) (wordLimit - 1) then return
    let ids := e.states.keys
    let keep := min (ids.length * limit) (wordLimit - 1) / max used 1
    let (shuffled, rng) := e.rng.shuffle ids.toArray
    modify fun e ↦ { e with rng }
    giveUp (shuffled.toList.take (max (ids.length - keep) 1)) "memory limit"

/-- Asks the watchdog at every so many steps whether to stop. -/
def stops (counter : Nat) : Session σ Bool := do
  let w := (← get).watchdog
  if counter % max w.pollEvery 1 ≠ 0 then return false
  modify fun e ↦ { e with watchdog := w.poll.2 }
  return w.poll.1

/-- The state with seeds after `cursor`, or else the first one. -/
def nextSeeded (e : Executor σ) (cursor : Option StateId) : Option StateId :=
  (cursor.bind fun c ↦ e.seeds.keys.find? (c < ·)).or e.seeds.keys.head?

/-- Steps the states with seeds in turn until none is left. -/
def followSeeds : Nat → Nat → Option StateId → Session σ (Except PathError Unit)
  | 0, _, _ => throw .overflow
  | fuel + 1, counter, cursor => do
    let e ← get
    match e.nextSeeded cursor with
    | none => finish
    | some id =>
      if ← stops counter then return ← finish
      if e.config.seedTime.any (·.toMilliseconds = 0) then return ← finish
      match ← stepState id with
      | .error error => return .error error
      | .ok _ => followSeeds fuel (counter + 1) (some id)
where
  finish : Session σ (Except PathError Unit) := do
    modify fun e ↦ { e with seeds := {} }
    return .ok ()

def explore : Nat → Nat → Session σ (Except PathError Unit)
  | 0, _ => throw .overflow
  | fuel + 1, counter => do
    let e ← get
    if e.searcher.isEmpty then return .ok ()
    if ← stops counter then return .error (← halt)
    if e.config.memoryCheckInterval ≠ 0 ∧ counter % e.config.memoryCheckInterval = 0 then checkMemory
    match ← step with
    | .error error => return .error (← abort error)
    | .ok _ => explore fuel (counter + 1)

/-- Explores the program, with the seeds first. The result is the error that ended the run, if one
did. The number of steps is a machine word. -/
def run : Session σ (Except PathError Unit) := do
  let _ ← update none
  unless (← get).seeds.isEmpty do
    if let .error error ← followSeeds wordLimit 0 none then return .error (← abort error)
    if ← stops 0 then return .error (← halt)
    if (← get).config.onlySeed then
      giveUpAll "only seeding"
      return .ok ()
  explore wordLimit 0

end Executor

end Symex

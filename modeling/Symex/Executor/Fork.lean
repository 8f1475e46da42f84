import Symex.Executor.Outcome

namespace Symex

/-- The states that go on where a condition holds and where it does not. -/
abbrev Sides := Option Branch × Option Branch

namespace Exec

variable {σ : Type}

/-- A copy of the state with an id of its own, which is not among the live states yet. -/
def spawn : Exec σ State := do
  let focus ← get
  let e := focus.executor
  let id := e.nextStateId
  let (parent, child) := focus.state.branch id
  match parent.node with
  | none =>
    set { focus with
      executor := { e with nextStateId := id + 1, added := e.added ++ [id] }, state := parent }
    return child
  | some node =>
    let ((left, right), tree) ← e.tree.split node parent.id id
    set ({
      executor := { e with nextStateId := id + 1, added := e.added ++ [id], tree }
      state := { parent with node := some left } } : Focus σ)
    return { child with node := some right }

def insertState (s : State) : Exec σ Unit :=
  modifyExecutor fun e ↦ { e with states := e.states.insert s.id s }

def seeds? : Exec σ (Option (List Seed)) := do
  let focus ← get
  return focus.executor.seeds[focus.state.id]?

def setSeeds (id : StateId) (seeds : List Seed) : Exec σ Unit :=
  modifyExecutor fun e ↦ { e with seeds := e.seeds.insert id seeds }

def dropSeeds (id : StateId) : Exec σ Unit :=
  modifyExecutor fun e ↦ { e with seeds := e.seeds.erase id }

def recordSide (side internal : Bool) : Exec σ Unit := do
  unless internal do updateState fun s ↦ return { s with path := s.path ++ [side] }

def forkInhibited : Exec σ Bool := do
  let focus ← get
  let e := focus.executor
  return (e.config.maxMemoryInhibit && e.atMemoryLimit) || focus.state.forkDisabled ||
    e.config.inhibitForking || e.config.maxForks.any (· ≤ e.statistics.forks)

/-- The only value that `e` can have, or `e` itself. -/
def toUnique (e : Expr) : Exec σ Expr := do
  if e.isConst then return e
  match ← ask (Solver.value · e) with
  | .error _ => return e
  | .ok value =>
    let same ← Expr.mkEq e value
    match ← ask (Solver.mustBeTrue · same) with
    | .ok true => return value
    | _ => return e

/-- Gives seeds that do not satisfy `condition` the contents of some solution. -/
def patchSeeds (condition : Expr) : Exec σ Unit := do
  let some seeds ← seeds? | return
  if seeds.all (·.satisfies condition) then return
  let s ← state
  let some values ← query (Solver.initialValues · s.arrays) | return
  let bindings := s.arrays.zip values
  setSeeds s.id (seeds.map fun seed ↦
    if seed.satisfies condition then seed
    else bindings.foldl (fun seed (array, bytes) ↦ seed.bind array.name bytes) seed)

def addConstraint (condition : Expr) : Exec σ Unit := do
  updateState (·.addConstraint condition)
  patchSeeds condition

/-- Goes on with one side of a condition that may go either way. -/
def takeSide (condition : Expr) (side : Bool) : Exec σ Validity := do
  addConstraint (if side then condition else condition.isZero)
  return if side then .always else .never

def replaySide (condition : Expr) (validity : Validity) : Exec σ Validity := do
  match (← executor).replayPath with
  | none => return validity
  | some [] => fail .replayPathExhausted
  | some (side :: rest) =>
    modifyExecutor fun e ↦ { e with replayPath := some rest }
    match validity, side with
    | .always, false | .never, true => fail .replayInvalidBranch
    | .sometimes, side => takeSide condition side
    | validity, _ => return validity

def followSeeds (condition : Expr) (seeds : List Seed) : Exec σ Validity := do
  let holds := seeds.any (·.satisfies condition)
  let fails := seeds.any (!·.satisfies condition)
  if holds != fails then takeSide condition holds else return .sometimes

/-- What is left of a condition after the policies for forks. -/
def restrict (condition : Expr) (internal : Bool) (validity : Validity) : Exec σ Validity := do
  let e ← executor
  let seeds ← seeds?
  if !internal && seeds.isNone && e.replayPath.isSome then replaySide condition validity
  else if validity = .sometimes then
    match seeds with
    | some seeds =>
      if (← state).forkDisabled || e.config.onlyReplaySeeds then followSeeds condition seeds
      else return validity
    | none =>
      if ← forkInhibited then takeSide condition (← draw Rng.coin) else return validity
  else return validity

/-- Makes a second state for the side where the condition fails. -/
def split (condition : Expr) (internal : Bool) : Exec σ Sides := do
  modifyExecutor fun e ↦ { e with statistics.forks := e.statistics.forks + 1 }
  let child ← spawn
  let id := (← state).id
  if let some seeds ← seeds? then
    dropSeeds id
    let (holds, fails) := seeds.partition (·.satisfies condition)
    unless holds.isEmpty do setSeeds id holds
    unless fails.isEmpty do setSeeds child.id fails
  recordSide true internal
  addConstraint condition
  let (result, child) ← within child do
    recordSide false internal
    addConstraint condition.isZero
  MonadExcept.ofExcept result
  let maxDepth := (← executor).config.maxDepth
  if maxDepth ≠ 0 ∧ maxDepth ≤ (← state).depth then
    terminateEarly "max-depth exceeded"
    insertState child
    let _ ← visit child.id (terminateEarly "max-depth exceeded")
    return (none, none)
  insertState child
  return (some .current, some (.forked child.id))

/-- Divides the state by a condition. Forks that the machine makes for its own checks are internal, and
no part of the path. -/
def fork (condition : Expr) (internal : Bool) : Exec σ Sides := do
  let validity ← query (Solver.evaluate · condition)
  match ← restrict condition internal validity with
  | .always =>
    recordSide true internal
    return (some .current, none)
  | .never =>
    recordSide false internal
    return (none, some .current)
  | .sometimes => split condition internal

/-- Divides the state at `branch`, with sides as seen from here. -/
def forkOn (branch : Branch) (condition : Expr) (internal : Bool) : Exec σ Sides := do
  match ← onBranch branch (fork condition internal) with
  | none => return (none, none)
  | some (holds, fails) => return (holds.map (·.relativeTo branch), fails.map (·.relativeTo branch))

/-- A copy of the state at `branch` as a live state. -/
def duplicate (branch : Branch) : Exec σ Branch := do
  let child ← match branch with
    | .current => spawn
    | .forked id =>
      match ← visit id spawn with
      | some child => pure child
      | none => spawn
  insertState child
  return .forked child.id

/-- The places of `count` states, of which the first is this one. Each of the others is a copy of one
before it. -/
def arms (count : Nat) : Exec σ (List (Option Branch)) := do
  if 1 < count ∧ (← forkInhibited) then
    let chosen ← draw (·.index count)
    return (List.range count).map fun i ↦ if i = chosen then some .current else none
  modifyExecutor fun e ↦ { e with statistics.forks := e.statistics.forks + (count - 1) }
  let all ← (List.range (count - 1)).foldlM (fun (all : Array Branch) i ↦ do
    let parent ← draw (·.index (i + 1))
    return all.push (← duplicate (all[parent]?.getD .current))) #[.current]
  return all.toList.map some

/-- Finds the condition that a seed satisfies first, or else any. -/
def armOf (conditions : List Expr) (seed : Seed) : Exec σ Nat :=
  match conditions.findIdx? (seed.satisfies ·) with
  | some i => return i
  | none => draw (·.index conditions.length)

/-- Gives the seeds of an arm to its state. Where only paths with seeds count, a state without seeds is
given up. -/
def seedArm (arm : Option Branch) (seeds : List Seed) : Exec σ (Option Branch) := do
  match arm with
  | none => return none
  | some branch =>
    if seeds.isEmpty then
      if (← executor).config.onlyReplaySeeds then
        let _ ← onBranch branch (terminateEarly "Unseeded path during replay")
        return none
      return some branch
    let id ← match branch with
      | .current => pure (← state).id
      | .forked id => pure id
    setSeeds id seeds
    return some branch

/-- Divides the seeds of the state among its arms. -/
def seedArms (conditions : List Expr) (arms : List (Option Branch)) :
    Exec σ (List (Option Branch)) := do
  match ← seeds? with
  | none => return arms
  | some seeds =>
    dropSeeds (← state).id
    let placed ← seeds.mapM fun seed ↦ return (← armOf conditions seed, seed)
    arms.zipIdx.mapM fun (arm, i) ↦
      seedArm arm ((placed.filter (·.1 = i)).map (·.2))

/-- Divides the state by conditions of which one holds. -/
def branch (conditions : List Expr) : Exec σ (List (Option Branch)) := do
  if conditions.isEmpty then return []
  let arms ← seedArms conditions (← arms conditions.length)
  for (arm, condition) in arms.zip conditions do
    onSide arm (addConstraint condition)
  return arms

/-- A value that `e` can have, and has from now on. -/
def toConstant (e : Expr) : Exec σ Expr := do
  if e.isConst then return e
  let value ← query (Solver.value · e)
  addConstraint (← Expr.mkEq e value)
  return value

end Exec

end Symex

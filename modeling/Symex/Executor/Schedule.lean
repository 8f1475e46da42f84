import Symex.Executor.Fork

namespace Symex

namespace Exec

variable {σ : Type}

/-- Runs a thread. It is a preemption if it takes the place of another one that could go on. -/
def switchTo (thread : ThreadId) (preempts : Bool) : Exec σ Unit :=
  updateState fun s ↦
    { s with preemptions := s.preemptions + (if preempts then 1 else 0) }.scheduleNext thread

/-- Picks the thread that runs next. The current one goes on if it can, unless it yields. Where schedules
are explored there is a state for each thread that can run. -/
def schedule (yields : Bool) : Exec σ Unit := do
  let s ← state
  let config := (← executor).config
  let enabled := s.enabledThreads
  if enabled.isEmpty then fail .deadlock
  let goesOn := enabled.contains s.current
  let mayPreempt := config.maxPreemptions = 0 ∨ s.preemptions < config.maxPreemptions
  if config.forkOnSchedule ∧ 1 < enabled.length ∧ mayPreempt then
    let arms ← branch (enabled.map fun _ ↦ .bool true)
    for (arm, thread) in arms.zip enabled do
      onSide arm (switchTo thread (goesOn && thread != s.current))
  else if goesOn ∧ !yields then switchTo s.current false
  else
    match s.nextThread s.current with
    | none => fail .deadlock
    | some thread => switchTo thread false

/-- The value of an argument that has to be known. -/
def knownArgument (argument : Expr) (intrinsic : String) : Exec σ Nat := do
  match (← toUnique argument).value? with
  | some value => return value
  | none => fail (.symbolicIntrinsicArgument intrinsic)

/-- Starts a thread at the function with the address `function`. -/
def createThread (function argument : Expr) (destination : Option Register) : Exec σ Unit := do
  let address ← knownArgument function "thread_create"
  let program := (← executor).program
  match program.functionAt? address with
  | none => fail .invalidThreadFunction
  | some id =>
    let callee ← program.function id
    if callee.isExternal then fail .invalidThreadFunction
    let (thread, s) := (← state).createThread id callee.registers
    let s ←
      if 0 < callee.parameters then
        match s.thread? thread with
        | some t => pure (s.setThread (← t.modifyFrame (·.write 0 argument)))
        | none => pure s
      else pure s
    setState s
    writeResult destination (← Expr.constant thread 64)

/-- Ends the current thread, and the program with the last one. -/
def exitThread : Exec σ Unit := do
  updateState fun s ↦ s.terminateThread s.current
  if (← state).threads.isEmpty then terminateOnExit else schedule false

def sleep (list : Expr) : Exec σ Unit := do
  let list ← knownArgument list "thread_sleep"
  updateState (·.sleep list)
  schedule false

/-- Wakes the first thread on a list, or all of them. -/
def notify (list : Expr) (all : Bool) : Exec σ Unit := do
  let list ← knownArgument list (Intrinsic.threadNotify all).name
  if all then updateState fun s ↦ return s.notifyAll list
  else
    match ((← state).sleepers list).head? with
    | some thread => updateState fun s ↦ return s.notifyOne list thread
    | none => return

end Exec

end Symex

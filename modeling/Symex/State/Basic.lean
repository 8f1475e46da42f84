import Symex.Memory.AddressSpace
import Symex.Memory.Pool
import Symex.State.Thread
import Symex.TestCase

namespace Symex

/-- An object whose contents were made an input. -/
structure SymbolicInput where
  object : MemoryObject
  array : NamedArray

/-- The program at one point of one path. -/
structure State where
  id : StateId
  /-- The threads in the order of their ids. -/
  threads : List Thread
  current : ThreadId := 0
  nextThreadId : ThreadId := 1
  /-- The threads asleep on each wait list, in the order of their ids. -/
  waitLists : Std.TreeMap WaitListId (List ThreadId) := {}
  nextWaitList : WaitListId := 0
  /-- The number of times that a running thread was replaced by force. -/
  preemptions : Nat := 0
  memory : AddressSpace := {}
  pool : AddressPool := .initial
  constraints : ConstraintSet := {}
  /-- The inputs in the order of their creation. -/
  symbolics : List SymbolicInput := []
  /-- The number of forks on the path. -/
  depth : Nat := 0
  forkDisabled : Bool := false
  /-- The sides taken at forks. -/
  path : List Bool := []
  /-- The place in the process tree. -/
  node : Option NodeId := none
  /-- The number of instructions on the path. -/
  steps : Nat := 0
  /-- The time that questions about the state took, in milliseconds. -/
  queryCost : Nat := 0
  /-- The last instruction of the current thread once it has ended. -/
  exitedAt : Option Location := none

namespace State

def start (id : StateId) (function : FunctionId) (registers : Nat) : State :=
  { id, threads := [.start 0 function registers] }

/-- The state after a fork, and a copy of it that is called `id`. -/
def branch (s : State) (id : StateId) : State × State :=
  let s := { s with depth := s.depth + 1, memory := s.memory.fork }
  (s, { s with id, node := none })

def addConstraint (s : State) (c : Expr) : Checked State := do
  return { s with constraints := ← s.constraints.add c }

def addSymbolic (s : State) (object : MemoryObject) (array : NamedArray) : State :=
  { s with symbolics := s.symbolics ++ [⟨object, array⟩] }

def arrays (s : State) : List NamedArray := s.symbolics.map (·.array)

def thread? (s : State) (id : ThreadId) : Option Thread := s.threads.find? (·.id == id)

def thread (s : State) : Checked Thread := Checked.ofOption (s.thread? s.current)

def hasCurrent (s : State) : Bool := (s.thread? s.current).isSome

def setThread (s : State) (t : Thread) : State :=
  { s with threads := s.threads.map fun u ↦ if u.id = t.id then t else u }

def modifyThread (s : State) (f : Thread → Checked Thread) : Checked State := do
  return s.setThread (← f (← s.thread))

def frame (s : State) : Checked Frame := do (← s.thread).frame

def modifyFrame (s : State) (f : Frame → Checked Frame) : Checked State :=
  s.modifyThread (·.modifyFrame f)

def write (s : State) (r : Register) (value : Expr) : Checked State := s.modifyFrame (·.write r value)

/-- The instruction that was executed last, even if the thread that did so has ended. -/
def location (s : State) : Location :=
  match s.thread? s.current with
  | some t => t.prevPc
  | none => s.exitedAt.getD default

def unbindAll (s : State) (objects : List MemoryObject) : Checked State := do
  return { s with memory := ← objects.foldlM (·.unbind) s.memory }

def pushFrame (s : State) (caller : Option CallSite) (function : FunctionId) (registers : Nat) :
    Checked State :=
  s.modifyThread fun t ↦ return { t with stack := .enter function caller registers :: t.stack }

/-- Adds an object to memory that ends with the innermost frame. -/
def bindLocal (s : State) (contents : ObjectState) : Checked State := do
  let s := { s with memory := ← s.memory.bind contents }
  s.modifyFrame fun f ↦ return { f with allocas := f.allocas ++ [contents.object] }

/-- Leaves the innermost frame, whose objects are freed. -/
def popFrame (s : State) : Checked (Option Frame × State) := do
  let t ← s.thread
  match t.stack with
  | [] => return (none, s)
  | top :: rest => return (some top, ← (s.setThread { t with stack := rest }).unbindAll top.objects)

def createThread (s : State) (function : FunctionId) (registers : Nat) : ThreadId × State :=
  (s.nextThreadId, { s with
    threads := s.threads ++ [.start s.nextThreadId function registers]
    nextThreadId := s.nextThreadId + 1 })

/-- Removes a thread, if it is there, and frees the objects of its frames. -/
def terminateThread (s : State) (id : ThreadId) : Checked State :=
  match s.thread? id with
  | none => return s
  | some t =>
    let rest : State := { s with
      threads := s.threads.filter (·.id ≠ id)
      exitedAt := if id = s.current then some t.prevPc else s.exitedAt
      waitLists := s.waitLists.map fun _ sleepers ↦ sleepers.filter (· ≠ id) }
    rest.unbindAll (t.stack.reverse.flatMap (·.objects))

def newWaitList (s : State) : WaitListId × State :=
  (s.nextWaitList, { s with nextWaitList := s.nextWaitList + 1 })

def sleepers (s : State) (list : WaitListId) : List ThreadId := s.waitLists.getD list []

/-- Adds to a list in ascending order, unless it is there. -/
def insertSorted (id : ThreadId) : List ThreadId → List ThreadId
  | [] => [id]
  | x :: rest =>
    if id < x then id :: x :: rest else if id = x then x :: rest else x :: insertSorted id rest

def sleep (s : State) (list : WaitListId) : Checked State := do
  let s ← s.modifyThread fun t ↦ return t.sleepOn list
  return { s with waitLists := s.waitLists.insert list (insertSorted s.current (s.sleepers list)) }

def notifyOne (s : State) (list : WaitListId) (id : ThreadId) : State :=
  { s with
    waitLists := s.waitLists.modify list (·.filter (· ≠ id))
    threads := s.threads.map fun t ↦ if t.id = id then t.wake else t }

def notifyAll (s : State) (list : WaitListId) : State :=
  let woken := s.sleepers list
  { s with
    waitLists := s.waitLists.erase list
    threads := s.threads.map fun t ↦ if woken.contains t.id then t.wake else t }

def enabledThreads (s : State) : List ThreadId := (s.threads.filter (·.enabled)).map (·.id)

/-- The first thread that can run among those after `after`, and then among the others. -/
def nextThread (s : State) (after : ThreadId) : Option ThreadId :=
  let (later, earlier) := s.enabledThreads.partition (after < ·)
  (later ++ earlier).head?

def scheduleNext (s : State) (id : ThreadId) : Checked State := do
  let t ← Checked.ofOption (s.thread? id)
  demand t.enabled .misuse
  return { s with current := id, exitedAt := none }

/-- The calls of a stack; `location` is where the innermost one is. -/
def traceFrom (p : Program) : Location → List Frame → Checked (List StackTraceEntry)
  | _, [] => return []
  | location, f :: rest => do
    let entry := ⟨(← p.function f.function).name, location⟩
    return entry :: (← traceFrom p ((f.caller.map (·.call)).getD location) rest)

/-- The calls of the current thread, innermost first. -/
def stackTrace (s : State) (p : Program) : Checked (List StackTraceEntry) :=
  match s.thread? s.current with
  | none => return []
  | some t => traceFrom p t.prevPc t.stack

/-- The memory that the state alone holds and that grows with it. -/
def footprint (s : State) : Nat :=
  let locals := ((s.threads.flatMap (·.stack)).map (·.locals.size)).foldr (· + ·) 0
  8 * locals + 8 * s.constraints.all.size + s.memory.footprint

end State

end Symex

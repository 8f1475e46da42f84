import Symex.ExecError
import Symex.Memory.Object

namespace Symex

abbrev ThreadId := Nat
abbrev WaitListId := Nat

/-- Where a call returns to. -/
structure CallSite where
  /-- The call itself. -/
  call : Location
  /-- The register for the result. -/
  destination : Option Register
deriving DecidableEq, Inhabited

/-- What is kept of a call that has not returned. -/
structure Frame where
  function : FunctionId
  /-- Nothing at the bottom of a stack. -/
  caller : Option CallSite := none
  /-- The registers; those that were never written have no value. -/
  locals : Array (Option Expr)
  /-- The objects on the stack, in the order of their allocation. -/
  allocas : List MemoryObject := []
  /-- The object that holds the variadic arguments. -/
  varargs : Option MemoryObject := none

namespace Frame

def enter (function : FunctionId) (caller : Option CallSite) (registers : Nat) : Frame :=
  { function, caller, locals := Array.replicate registers none }

def read? (f : Frame) (r : Register) : Option Expr := f.locals[r]?.join

/-- The value of a register, which is an error at `location` where it has none. -/
def read (f : Frame) (r : Register) (location : Location) : Except PathError Expr :=
  match f.read? r with
  | some e => .ok e
  | none => .error ⟨location, .undefinedRegister r⟩

def write (f : Frame) (r : Register) (value : Expr) : Checked Frame := do
  demand (r < f.locals.size) .missing
  return { f with locals := f.locals.setIfInBounds r (some value) }

def objects (f : Frame) : List MemoryObject := f.allocas ++ f.varargs.toList

def sameShape (f g : Frame) : Bool :=
  f.function == g.function && f.caller == g.caller && f.locals.size == g.locals.size &&
    f.allocas.map (·.id) == g.allocas.map (·.id) && f.varargs.map (·.id) == g.varargs.map (·.id)

end Frame

structure Thread where
  id : ThreadId
  /-- The calls that have not returned, innermost first. -/
  stack : List Frame
  /-- The next instruction. -/
  pc : Location
  /-- The instruction before. -/
  prevPc : Location
  /-- The block from which the current block was entered. -/
  incoming : Option BlockId := none
  /-- The thread can run. -/
  enabled : Bool := true
  /-- The wait list it sleeps on. -/
  waitingOn : Option WaitListId := none

namespace Thread

def start (id : ThreadId) (function : FunctionId) (registers : Nat) : Thread :=
  { id, stack := [.enter function none registers], pc := .entry function, prevPc := .entry function }

def frame (t : Thread) : Checked Frame := Checked.ofOption t.stack.head?

def modifyFrame (t : Thread) (f : Frame → Checked Frame) : Checked Thread :=
  match t.stack with
  | [] => .error .missing
  | top :: rest => return { t with stack := (← f top) :: rest }

/-- Goes to the start of a block of the function that was executed last. -/
def jumpTo (t : Thread) (block : BlockId) : Thread :=
  { t with incoming := some t.prevPc.block, pc := ⟨t.prevPc.function, block, 0⟩ }

def advance (t : Thread) : Thread := { t with prevPc := t.pc, pc := t.pc.next }

def sleepOn (t : Thread) (list : WaitListId) : Thread :=
  { t with enabled := false, waitingOn := some list }

def wake (t : Thread) : Thread := { t with enabled := true, waitingOn := none }

/-- The two threads are at the same point of the program. -/
def sameShape (t u : Thread) : Bool :=
  t.id == u.id && t.pc == u.pc && t.enabled == u.enabled && t.waitingOn == u.waitingOn &&
    t.stack.length == u.stack.length && (t.stack.zip u.stack).all fun (f, g) ↦ f.sameShape g

end Thread

end Symex

import Symex.Text
import Std.Data.TreeMap

namespace Symex

inductive HostError where
  | unsupported (name : String)
  | failed (name reason : String)
  | invalidAccess (address len : Nat)
deriving DecidableEq

def HostError.message : HostError → String
  | unsupported name => "No host implementation is available for " ++ name
  | failed name reason => name ++ " failed: " ++ reason
  | invalidAccess address len =>
    "Access to " ++ decimal len ++ " bytes at " ++ hexadecimal address ++
      " is outside the concrete memory image"

/-- A concrete image of memory: regions of bytes by address. -/
structure HostMemory where
  regions : Std.TreeMap Nat ByteArray := {}

namespace HostMemory

/-- Puts a region at `address` in place of the one that starts there. -/
def map (m : HostMemory) (address : Nat) (bytes : ByteArray) : HostMemory :=
  ⟨m.regions.insert address bytes⟩

def region? (m : HostMemory) (address : Nat) : Option ByteArray := m.regions[address]?

/-- The region and the offset in it where an access lies. Only the region that starts last at or
before the address counts. -/
def locate (m : HostMemory) (address len : Nat) : Except HostError (Nat × ByteArray × Nat) :=
  match m.regions.getEntryLE? address with
  | none => .error (.invalidAccess address len)
  | some (start, bytes) =>
    let offset := address - start
    if offset + len ≤ bytes.size then .ok (start, bytes, offset)
    else .error (.invalidAccess address len)

def read (m : HostMemory) (address len : Nat) : Except HostError ByteArray := do
  let (_, bytes, offset) ← m.locate address len
  return bytes.extract offset (offset + len)

def write (m : HostMemory) (address : Nat) (bytes : ByteArray) : Except HostError HostMemory := do
  let (start, region, offset) ← m.locate address bytes.size
  return m.map start (bytes.copySlice 0 region offset bytes.size)

end HostMemory

/-- A host function: from arguments and memory to a result, if it has one, and memory. Memory counts
also where the call fails. -/
abbrev HostFunction := List Nat → HostMemory → Except HostError (Option Nat) × HostMemory

/-- Host functions by name. -/
structure Host where
  functions : Std.TreeMap String HostFunction := {}

namespace Host

def knows (h : Host) (name : String) : Bool := h.functions.contains name

def call (h : Host) (name : String) : HostFunction := fun arguments memory ↦
  match h.functions[name]? with
  | some f => f arguments memory
  | none => (.error (.unsupported name), memory)

def text (h : Host) : String :=
  "FunctionTableDispatcher \x7b functions: [" ++ ", ".intercalate (h.functions.keys.map Quoted.encode) ++
    "] \x7d"

end Host

/-- A call of a host function. -/
structure HostCall where
  name : String
  arguments : List Nat
  memory : HostMemory

/-- What answers the host calls of a run. It may keep a state of its own, so that the answer to a call
depends on all calls before. -/
structure Dispatcher where
  answer : List HostCall → HostCall → Except HostError (Option Nat) × HostMemory := fun _ call ↦
    (.error (.unsupported call.name), call.memory)
  /-- The calls so far, the latest first. -/
  calls : List HostCall := []

namespace Dispatcher

@[coe] def ofHost (h : Host) : Dispatcher where
  answer _ call := h.call call.name call.arguments call.memory

instance : Coe Host Dispatcher := ⟨ofHost⟩

def ofMachine {τ : Type} (start : τ) (step : τ → HostCall → (Except HostError (Option Nat) × HostMemory) × τ) :
    Dispatcher where
  answer calls call := (step (calls.foldr (fun c state ↦ (step state c).2) start) call).1

def call (d : Dispatcher) (call : HostCall) :
    (Except HostError (Option Nat) × HostMemory) × Dispatcher :=
  (d.answer d.calls call, { d with calls := call :: d.calls })

end Dispatcher

end Symex

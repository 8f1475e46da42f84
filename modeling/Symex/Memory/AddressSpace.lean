import Symex.AvlMap
import Symex.Host
import Symex.Memory.Contents
import Symex.Solver.Front

namespace Symex

/-- The objects bound in memory with their contents, ordered by address. -/
structure AddressSpace where
  /-- Contents of this epoch belong to this address space alone. -/
  epoch : Nat := 1
  objects : AvlMap ObjectKey ObjectState := ∅

/-- The objects that an address may point into. -/
structure Resolution where
  objects : List ObjectState := []
  /-- There may be others. -/
  incomplete : Bool := false

namespace AddressSpace

/-- Two address spaces with the same contents, neither of which owns them. -/
def fork (s : AddressSpace) : AddressSpace := { s with epoch := s.epoch + 1 }

def size (s : AddressSpace) : Nat := s.objects.size

def toList (s : AddressSpace) : List ObjectState := s.objects.values

def bind (s : AddressSpace) (contents : ObjectState) : Checked AddressSpace := do
  let (previous, objects) := s.objects.insert contents.object.key { contents with owner := s.epoch }
  demand previous.isNone .unbound
  return { s with objects }

def unbind (s : AddressSpace) (object : MemoryObject) : Checked AddressSpace := do
  let (previous, objects) := s.objects.erase object.key
  demand previous.isSome .unbound
  return { s with objects }

def find? (s : AddressSpace) (object : MemoryObject) : Option ObjectState :=
  s.objects.get? object.key

/-- Changes the contents of a bound object, which this address space then owns. -/
def modify (s : AddressSpace) (object : MemoryObject)
    (f : ObjectState → Checked ObjectState) : Checked AddressSpace :=
  match s.objects.get? object.key with
  | none => .error .unbound
  | some contents => do
    let contents ← f { contents with owner := s.epoch }
    return { s with objects := s.objects.modify object.key fun _ ↦ contents }

def resolveOne (s : AddressSpace) (address : Nat) : Option ObjectState :=
  (s.objects.floor? (.last address)).bind fun (_, contents) ↦
    if contents.object.contains address then some contents else none

variable {σ : Type}

/-- The first of `candidates` that `address` may point into, up to the first for which `stop` has to
hold. -/
def firstPossible (constraints : ConstraintSet) (address : Expr) (stop : Expr → Expr → Checked Expr) :
    List (ObjectKey × ObjectState) → Ask σ (Option ObjectState)
  | [] => return none
  | (_, contents) :: rest => do
    if ← Solver.mayBeTrue constraints (← Ask.checked (contents.object.pointerInside address)) then
      return some contents
    if ← Solver.mustBeTrue constraints (← Ask.checked (stop address contents.object.base)) then
      return none
    firstPossible constraints address stop rest

/-- An object that `address` may point into. The one that an example value points into comes first,
then those below in descending order, then those above in ascending order. -/
def resolveSymbolic (s : AddressSpace) (constraints : ConstraintSet) (address : Expr) :
    Ask σ (Option ObjectState) := do
  if let some a := address.value? then return s.resolveOne a
  let a := (← Solver.value constraints address).value?.getD 0
  if let some contents := s.resolveOne a then return some contents
  let start := ObjectKey.last a
  match ← firstPossible constraints address Expr.mkUge (s.objects.downFrom start) with
  | some contents => return some contents
  | none => firstPossible constraints address Expr.mkUlt (s.objects.upAfter start)

/-- How a search for objects goes on after one of them. -/
inductive Progress where
  /-- With the next object. -/
  | onward
  /-- All objects in this direction were seen. -/
  | turned
  /-- Every possible object was found. -/
  | complete
  /-- The search was cut off. -/
  | cutOff
deriving DecidableEq

/-- Looks at one more object. `found` are the objects found before, the latest first. -/
def consider (constraints : ConstraintSet) (address : Expr) (stop : Expr → Expr → Checked Expr)
    (limit : Nat) (contents : ObjectState) (found : List ObjectState) :
    StateT (Solver σ) Checked (List ObjectState × Progress) := do
  let inside ← contents.object.pointerInside address
  match ← (Solver.mayBeTrue constraints inside).attempt with
  | .error _ => return (found, .cutOff)
  | .ok false => turn found
  | .ok true =>
    let found := contents :: found
    if found.length = 1 then
      match ← (Solver.mustBeTrue constraints inside).attempt with
      | .error _ => return (found, .cutOff)
      | .ok true => return (found, .complete)
      | .ok false => if found.length = limit then return (found, .cutOff) else turn found
    else if found.length = limit then return (found, .cutOff)
    else turn found
where
  turn (found : List ObjectState) : StateT (Solver σ) Checked (List ObjectState × Progress) := do
    match ← (Solver.mustBeTrue constraints (← stop address contents.object.base)).attempt with
    | .error _ => return (found, .cutOff)
    | .ok true => return (found, .turned)
    | .ok false => return (found, .onward)

/-- Goes through objects in one direction. The search started when the clock showed `started`, and is cut
off once it has lasted for longer than `timeout`. -/
def sweep (constraints : ConstraintSet) (address : Expr) (stop : Expr → Expr → Checked Expr)
    (limit : Nat) (timeout : Option Nat) (started : Nat) :
    List (ObjectKey × ObjectState) → List ObjectState →
      StateT (Solver σ) Checked (List ObjectState × Progress)
  | [], found => return (found, .turned)
  | (_, contents) :: rest, found => do
    if Solver.exceeds timeout started (← Solver.now) then return (found, .cutOff)
    match ← consider constraints address stop limit contents found with
    | (found, .onward) => sweep constraints address stop limit timeout started rest found
    | result => return result

/-- All objects that `address` may point into, unless `limit` of them are found first, a question
goes unanswered, or the time is up before one of the candidates. -/
def resolve (s : AddressSpace) (constraints : ConstraintSet) (address : Expr) (limit : Nat)
    (timeout : Option Nat) : StateT (Solver σ) Checked Resolution := do
  if let some a := address.value? then return { objects := (s.resolveOne a).toList }
  let started ← Solver.now
  match ← (Solver.value constraints address).attempt with
  | .error _ => return { incomplete := true }
  | .ok example_ =>
    let start := ObjectKey.last (example_.value?.getD 0)
    let (found, progress) ←
      sweep constraints address Expr.mkUge limit timeout started (s.objects.downFrom start) []
    let (found, progress) ←
      if progress = .turned then
        sweep constraints address Expr.mkUlt limit timeout started (s.objects.upAfter start) found
      else pure (found, progress)
    return { objects := found.reverse, incomplete := progress = .cutOff }

/-- Puts the concrete bytes of every object into the image. -/
def copyOut (s : AddressSpace) (memory : HostMemory) : HostMemory :=
  s.toList.foldl (fun m contents ↦ m.map contents.object.address contents.bytes) memory

/-- The places where `new` differs from `old`, as far as both go. -/
def differences (old new : ByteArray) : List (Nat × UInt8) :=
  (List.range (min old.size new.size)).filterMap fun i ↦
    let b := new[i]?.getD 0
    if old[i]?.getD 0 = b then none else some (i, b)

/-- The bytes that changed in the image, by object; nothing if one of the objects is read only. -/
def changes (memory : HostMemory) : List ObjectState → Option (List (MemoryObject × List (Nat × UInt8)))
  | [] => some []
  | contents :: rest =>
    match memory.region? contents.object.address with
    | none => changes memory rest
    | some image =>
      match differences contents.bytes image with
      | [] => changes memory rest
      | changed =>
        if contents.readOnly then none
        else (changes memory rest).map ((contents.object, changed) :: ·)

/-- Takes the bytes that changed in the image over, or nothing at all if that would change an object
that is read only. -/
def copyIn (s : AddressSpace) (memory : HostMemory) : Checked (Bool × AddressSpace) := do
  match changes memory s.toList with
  | none => return (false, s)
  | some changed =>
    let s ← changed.foldlM (fun s (object, bytes) ↦
      s.modify object fun contents ↦ bytes.foldlM (fun c (i, b) ↦ c.writeByte i b) contents) s
    return (true, s)

/-- The contents that belong to this address space alone. -/
def owned (s : AddressSpace) : List ObjectState := s.toList.filter (·.owner = s.epoch)

def footprint (s : AddressSpace) : Nat := (s.owned.map (·.footprint)).foldr (· + ·) 0

end AddressSpace

end Symex

import Symex.Executor.Access

namespace Symex

namespace Exec

variable {σ : Type}

/-- Larger allocations than this one are refused where the size is not known. -/
def hugeAllocation : Nat := pow2 31

/-- The size that is aimed at where the size is not known. -/
def smallAllocation : Nat := 128

def reserve (size : Nat) (isLocal : Bool) (site : AllocationSite) (name : String) :
    Exec σ (Option MemoryObject) := do
  let focus ← get
  match focus.executor.allocator.allocate focus.state.pool size isLocal false site name with
  | none => return none
  | some (object, allocator, pool) =>
    set { focus with executor.allocator := allocator, state.pool := pool }
    return some object

/-- Copies the bytes of `old` as far as both contents go. -/
def copyBytes (old contents : ObjectState) : Checked ObjectState :=
  (List.range (min old.size contents.size)).foldlM (fun c i ↦ do c.write8 i (← old.readByte i))
    contents

/-- Makes an object of a known size, with the bytes of the one it replaces, and gives its address to
`destination`. Where there is no room that is null. -/
def allocate (size : Nat) (isLocal : Bool) (destination : Option Register)
    (replaced : Option MemoryObject) : Exec σ Unit := do
  let site := AllocationSite.instruction (← executor).location
  match ← reserve size isLocal site (if isLocal then "alloca" else "malloc") with
  | none => writeResult destination (.pointer 0)
  | some object =>
    let contents ← ObjectState.zeroed object
    let contents ← match replaced with
      | none => pure contents
      | some old =>
        let contents ← match (← state).memory.find? old with
          | some bytes => copyBytes bytes contents
          | none => pure contents
        updateState (·.unbindAll [old])
        pure contents
    if isLocal then updateState (·.bindLocal contents)
    else updateState fun s ↦ return { s with memory := ← s.memory.bind contents }
    writeResult destination object.base

/-- Halves an example of a size as long as the half is possible and the example is not small. -/
def shrink (size : Expr) (example_ : Nat) : Exec σ Nat := do
  if smallAllocation < example_ then
    let half ← Expr.mkEq (← Expr.constant (example_ / 2) size.width) size
    if ← query (Solver.mayBeTrue · half) then shrink size (example_ / 2) else return example_
  else return example_
termination_by example_
decreasing_by simp only [smallAllocation] at *; omega

/-- Allocates where the size is one of several that are left after the first try. -/
def allocateRest (size : Expr) (isLocal : Bool) (destination : Option Register)
    (replaced : Option MemoryObject) : Exec σ Unit := do
  let value ← query (Solver.value · size)
  let same ← Expr.mkEq value size
  if ← query (Solver.mustBeTrue · same) then
    return ← allocate (value.value?.getD 0) isLocal destination replaced
  let (huge, small) ← fork (← Expr.mkUlt (← Expr.constant hugeAllocation size.width) size) true
  onSide huge (writeResult destination (.pointer 0))
  onSide small do
    terminateOnError ⟨(← executor).location, .concretizedSymbolicSize⟩
      (some ("size expression: " ++ size.text))

/-- Makes an object. Where the size is not known, the state is divided by one size that is possible;
what is left may have one size only, or gets null if the size is huge, or ends. -/
def allocateSized (size : Expr) (isLocal : Bool) (destination : Option Register)
    (replaced : Option MemoryObject) : Exec σ Unit := do
  let size ← toUnique (← Expr.mkZext size 64)
  match size.value? with
  | some value => allocate value isLocal destination replaced
  | none =>
    let example_ := (← query (Solver.value · size)).value?.getD 0
    let example_ ← shrink size example_
    let (fixed, other) ← fork (← Expr.mkEq (← Expr.constant example_ size.width) size) true
    onSide fixed (allocate example_ isLocal destination replaced)
    onSide other (allocateRest size isLocal destination replaced)

def demandHeap (object : MemoryObject) : Exec σ Unit := do
  if object.isLocal then fail .freeOfAlloca
  if object.isGlobal then fail .freeOfGlobal

/-- Works on the objects that the pointer on a side is the start of. -/
def onObjects (side : Option Branch) (pointer : Expr) (operation : String)
    (work : MemoryObject → Exec σ Unit) : Exec σ Unit := do
  match side with
  | none => return
  | some side =>
    let resolved := (← onBranch side (resolveExact pointer operation)).getD []
    for (branch, object) in resolved do
      onSide (some (branch.relativeTo side)) (work object)

/-- Frees the object that a pointer is the start of; null is left alone. -/
def free (pointer : Expr) (destination : Option Register) : Exec σ Unit := do
  let (null, pointing) ← fork pointer.isZero true
  onSide null (writeResult destination (.pointer 0))
  onObjects pointing pointer "free" fun object ↦ do
    demandHeap object
    updateState (·.unbindAll [object])
    writeResult destination (.pointer 0)

/-- Moves an object to one of another size. No size frees it, and null allocates. -/
def reallocate (pointer size : Expr) (destination : Option Register) : Exec σ Unit := do
  let size ← Expr.mkZext size 64
  let (empty, sized) ← fork size.isZero true
  onSide empty (free pointer destination)
  onSide sized do
    let (null, pointing) ← fork pointer.isZero true
    onSide null (allocateSized size false destination none)
    onObjects pointing pointer "realloc" fun object ↦ do
      demandHeap object
      allocateSized size false destination (some object)

end Exec

end Symex

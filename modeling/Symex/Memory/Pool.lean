import Symex.Memory.Object

namespace Symex

/-- Addresses that objects start at are multiples of this one. -/
def allocationAlignment : Nat := 8

/-- The next aligned address, as far as there is one. -/
def alignUp (address : Nat) : Nat :=
  min (address + (allocationAlignment - 1)) (wordLimit - 1) / allocationAlignment *
    allocationAlignment

/-- A range of addresses that is handed out from the bottom. -/
structure AddressPool where
  next : Nat
  limit : Nat
deriving DecidableEq, Inhabited

namespace AddressPool

def ofRange (start size : Nat) : AddressPool := ⟨alignUp start, min (start + size) (wordLimit - 1)⟩

def initial : AddressPool := ofRange 0x10000000 (pow2 40)

def reserve (p : AddressPool) (size : Nat) : Option (Nat × AddressPool) :=
  let stop := p.next + max size 1
  if wordLimit ≤ stop ∨ p.limit < stop then none else some (p.next, { p with next := alignUp stop })

def remaining (p : AddressPool) : Nat := p.limit - p.next

end AddressPool

/-- Hands out ids, and refuses objects that are too large. -/
structure Allocator where
  nextId : Nat := 1
  maxSize : Nat
deriving Inhabited

namespace Allocator

/-- An object of `size` bytes from the pool, if it is not too large and fits. -/
def allocate (a : Allocator) (p : AddressPool) (size : Nat) (isLocal isGlobal : Bool)
    (site : AllocationSite) (name : String) : Option (MemoryObject × Allocator × AddressPool) :=
  if a.maxSize < size then none
  else
    (p.reserve size).map fun (address, p) ↦
      ({ id := a.nextId, address, size, name, isLocal, isGlobal, site },
        { a with nextId := a.nextId + 1 }, p)

/-- An object at an address of the caller's choice. -/
def allocateFixed (a : Allocator) (address size : Nat) (site : AllocationSite) (name : String) :
    MemoryObject × Allocator :=
  ({ id := a.nextId, address, size, name, isGlobal := true, isFixed := true, site },
    { a with nextId := a.nextId + 1 })

def allocated (a : Allocator) : Nat := a.nextId - 1

end Allocator

end Symex

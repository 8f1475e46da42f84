import Symex.Memory.Contents
import Symex.Program.Form

namespace Symex

def AllocationSite.ofForm? (j : Json) : Option AllocationSite := do
  match j with
  | .null => return .unknown
  | j =>
    match ← j.tagged? with
    | ("Unknown", none) => return .unknown
    | ("Global", some g) => return .global (← g.half?)
    | ("Instruction", some l) => return .instruction (← Location.ofForm? l)
    | ("Varargs", some l) => return .varargs (← Location.ofForm? l)
    | _ => none

def MemoryObject.ofForm? (j : Json) : Option MemoryObject := do
  let flag (name : String) := (j.field name).orElse? false Json.bool?
  return {
    id := ← (j.field "id").word?
    address := ← (j.field "address").word?
    size := ← (j.field "size").word?
    name := ← (j.field "name").str?
    isLocal := ← flag "local"
    isGlobal := ← flag "global"
    isFixed := ← flag "fixed"
    site := ← AllocationSite.ofForm? (j.field "site") }

namespace ObjectState

/-- Initial contents: zeros, given bytes, or an input. -/
def ofForm (object : MemoryObject) (j : Json) : Checked ObjectState := do
  match j.field "bytes", j.field "array" with
  | .null, .null => zeroed object
  | .null, a => ofArray object (← Checked.ofOption (NamedArray.ofForm? a))
  | b, _ => withBytes object (← Checked.ofOption b.hex?)

/-- One mark for each byte: whether it is concrete. -/
def marks (s : ObjectState) : String :=
  match s.concreteMask with
  | none => String.ofList (List.replicate s.size '1')
  | some mask => String.ofList (mask.toList.map fun concrete ↦ if concrete then '1' else '0')

/-- The concrete bytes, the marks, and the array where there is one. -/
def toForm (s : ObjectState) : Json :=
  .object [("bytes", .hex s.bytes), ("mask", .str s.marks),
    ("updates", .ofOption (fun u ↦ .str u.text) s.updates?)]

end ObjectState

end Symex

import Symex.Memory.Form
import Symex.State.Basic

namespace Symex

def CallSite.ofForm? (j : Json) : Option CallSite := do
  return ⟨← Location.ofForm? (j.item 0), ← (j.item 1).optional? Json.half?⟩

namespace Frame

def toForm (f : Frame) : Json :=
  .object [("function", .nat f.function),
    ("caller", .ofOption (fun c ↦ .list [.str c.call.text, .ofOption .nat c.destination]) f.caller),
    ("locals", .ofList (.ofOption fun e ↦ .list [.str e.text, .nat e.width]) f.locals.toList),
    ("allocas", .ofList (fun o ↦ .nat o.id) f.allocas),
    ("varargs", .ofOption (fun o ↦ .nat o.id) f.varargs)]

end Frame

namespace Thread

def toForm (t : Thread) : Json :=
  .object [("id", .str ("thread" ++ decimal t.id)), ("pc", .str t.pc.text),
    ("prev_pc", .str t.prevPc.text), ("incoming", .ofOption .nat t.incoming),
    ("enabled", .bool t.enabled), ("waiting_on", .ofOption .nat t.waitingOn),
    ("frames", .ofList Frame.toForm t.stack.reverse)]

end Thread

namespace ObjectState

/-- The number of bytes up to which all of them are shown. -/
def shownBytes : Nat := 64

/-- Contents with their object. Of large ones only the first bytes are shown. -/
def toLongForm (s : ObjectState) : Json :=
  let (bytes, mask) :=
    if s.size ≤ shownBytes then (s.bytes, Json.str s.marks)
    else (s.bytes.extract 0 shownBytes, .bool s.isAllConcrete)
  .object [("bytes", .hex bytes), ("mask", mask),
    ("updates", .ofOption (fun u ↦ .str u.text) s.updates?),
    ("info", .str s.object.info), ("read_only", .bool s.readOnly)]

end ObjectState

namespace AddressPool

def toForm (p : AddressPool) : Json := .object [("end", .nat p.limit), ("next", .nat p.next)]

end AddressPool

namespace State

def toForm (s : State) : Json :=
  .object [("id", .str ("state" ++ decimal s.id)), ("current", .nat s.current),
    ("has_current", .bool s.hasCurrent), ("location", .str s.location.text),
    ("threads", .ofList Thread.toForm s.threads),
    ("objects", .ofList ObjectState.toLongForm s.memory.toList),
    ("constraints", .ofList (fun e ↦ .str e.text) s.constraints.toList),
    ("symbolics", .ofList (fun i ↦ .list [.nat i.object.id, .str i.array.name, .nat i.array.size])
      s.symbolics),
    ("depth", .nat s.depth), ("path", .ofList .bool s.path),
    ("fork_disabled", .bool s.forkDisabled), ("preemptions", .nat s.preemptions),
    ("steps", .nat s.steps), ("node", .ofOption .nat s.node), ("pool", s.pool.toForm)]

end State

end Symex

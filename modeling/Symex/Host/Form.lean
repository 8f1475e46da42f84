import Symex.Host
import Symex.Json

namespace Symex

namespace HostError

def kindName : HostError → String
  | unsupported _ => "Unsupported"
  | failed _ _ => "Failed"
  | invalidAccess _ _ => "InvalidMemoryAccess"

def toForm (e : HostError) : Json :=
  .object [("error", .str e.kindName), ("message", .str e.message)]

end HostError

def HostMemory.toForm (m : HostMemory) : Json :=
  .ofList (fun (address, bytes) ↦ .list [.nat address, .hex bytes]) m.regions.toList

end Symex

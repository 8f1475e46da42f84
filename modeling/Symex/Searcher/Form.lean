import Symex.Json
import Symex.Searcher
import Symex.Watchdog

namespace Symex

/-- A strategy by its name; a random one is given with its seed. -/
def Searcher.ofForm? : Json → Option Searcher
  | .null | .str "dfs" => some {}
  | .str "bfs" => some { strategy := .breadthFirst }
  | j => do return { strategy := .random (.ofSeed (← (j.field "random").word?)) }

/-- A watchdog that stops from one of its polls on. -/
def Watchdog.ofForm? : Json → Option Watchdog
  | .null => some .never
  | j => do
    return { pollEvery := ← (j.field "every").word?, stopFrom := some (← (j.field "stop_at").word?) }

end Symex

import Symex.ProcessTree
import Symex.Random

namespace Symex

/-- How the next state is picked. -/
inductive Strategy where
  /-- The newest state. -/
  | depthFirst
  /-- The state that waited longest; a state that forks goes to the back. -/
  | breadthFirst
  /-- Any state. -/
  | random (rng : Rng)

/-- The live states in the order in which they joined, and how one is picked. -/
structure Searcher where
  strategy : Strategy := .depthFirst
  states : List StateId := []

namespace Searcher

def name (s : Searcher) : String :=
  match s.strategy with
  | .depthFirst => "dfs"
  | .breadthFirst => "bfs"
  | .random _ => "random"

def isEmpty (s : Searcher) : Bool := s.states.isEmpty

def select (s : Searcher) : Option StateId × Searcher :=
  match s.strategy with
  | .depthFirst => (s.states.getLast?, s)
  | .breadthFirst => (s.states.head?, s)
  | .random rng =>
    if s.states.isEmpty then (none, s)
    else
      let (i, rng) := rng.index s.states.length
      (s.states[i]?, { s with strategy := .random rng })

/-- Moves `id` to the end of the queue, if it is in it. -/
def requeue (states : List StateId) (id : StateId) : List StateId :=
  if states.contains id then states.erase id ++ [id] else states

/-- Takes note of states that came up and states that ended while `current` was stepped. -/
def update (s : Searcher) (current : Option StateId) (added removed : List StateId) : Searcher :=
  let states :=
    match s.strategy, current with
    | .breadthFirst, some id =>
      if added.isEmpty || removed.contains id then s.states else requeue s.states id
    | _, _ => s.states
  { s with states := (states ++ added).filter (!removed.contains ·) }

end Searcher

end Symex

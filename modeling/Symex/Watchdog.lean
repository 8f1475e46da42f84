namespace Symex

/-- A watchdog that is polled now and then, and asks to stop from one of the polls on. -/
structure Watchdog where
  /-- The number of steps from one poll to the next. -/
  pollEvery : Nat
  /-- The first poll at which it asks to stop. -/
  stopFrom : Option Nat := none
  /-- The polls so far. -/
  polls : Nat := 0

namespace Watchdog

def usualInterval : Nat := 100

def never : Watchdog := { pollEvery := 1000000000000 }

def flag (raised : Bool) (pollEvery : Nat := usualInterval) : Watchdog :=
  { pollEvery, stopFrom := if raised then some 0 else none }

/-- Asks to stop once a budget of whole seconds is used up. The clock stands still, so only an empty
budget is. -/
def deadline (seconds : Nat) (pollEvery : Nat := usualInterval) : Watchdog :=
  flag (seconds = 0) pollEvery

def poll (w : Watchdog) : Bool × Watchdog :=
  (w.stopFrom.any (· ≤ w.polls), { w with polls := w.polls + 1 })

end Watchdog

end Symex

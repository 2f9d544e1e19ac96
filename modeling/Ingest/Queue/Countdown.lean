/-!
# Countdowns

A countdown waits for a number of arrivals. The last one makes it act, once; a countdown of nobody
acts at once. Later arrivals change nothing.
-/

namespace Ingest

structure Countdown where
  remaining : Nat
  completed : Bool := false
  deriving DecidableEq, Repr

namespace Countdown

/-- Waits for `n` arrivals. -/
def ofParties (n : Nat) : Countdown :=
  { remaining := n, completed := n = 0 }

/-- One arrival: whether it was the last, which then has to act and to `complete`. -/
def arrive (c : Countdown) : Bool × Countdown :=
  if c.remaining = 0 then (false, c) else (c.remaining = 1, { c with remaining := c.remaining - 1 })

def complete (c : Countdown) : Countdown :=
  { c with completed := true }

/-- How often the countdown acted: once if it is completed. -/
def timesActed (c : Countdown) : Nat :=
  if c.completed then 1 else 0

/-- An arrival together with what the last one does. -/
def arriveAndAct (c : Countdown) : Countdown :=
  let (last, c) := c.arrive
  if last then c.complete else c

end Countdown

end Ingest

import Ingest.Error

/-!
# Signals

A signal says whether a piece of work has been cancelled. Whoever wants to be told adds a listener
and gets a number for it, counted from 1; a cancellation takes all listeners out, in the order of
their numbers, and happens once.
-/

namespace Ingest

structure Signal (α : Type) where
  cancelled : Bool := false
  next : Nat := 1
  /-- The listeners with their numbers, which increase. -/
  listeners : List (Nat × α) := []
  deriving DecidableEq, Repr

namespace Signal

variable {α : Type}

/-- Adds a listener and gives its number. A cancelled signal takes none and gives 0. -/
def listen (s : Signal α) (x : α) : Nat × Signal α :=
  if s.cancelled then (0, s)
  else (s.next, { s with next := s.next + 1, listeners := s.listeners ++ [(s.next, x)] })

/-- Takes the listener with a number out. -/
def forget (s : Signal α) (id : Nat) : Signal α :=
  { s with listeners := s.listeners.filter fun l => l.1 != id }

/-- Cancels, and gives the listeners to be told. A second time nothing happens. -/
def cancel (s : Signal α) : List α × Signal α :=
  if s.cancelled then ([], s)
  else (s.listeners.map Prod.snd, { s with cancelled := true, listeners := [] })

/-- The error of a cancelled signal. -/
def error? (s : Signal α) : Option Error :=
  if s.cancelled then some .contextCancelled else none

end Signal

end Ingest

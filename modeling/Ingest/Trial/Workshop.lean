import Ingest.Trial.World

/-!
# Trials of whole runs

Feeds and storages are gathered step by step, and any number of runs carried out over them. A run
takes one request strictly after the other: an exchange ends only once everything that the ones
before it caused is over.
-/

namespace Ingest.Trial

open Pipeline

structure Workshop where
  lines : List Line := []
  writers : List String := []
  workers : Nat
  limit : Limit
  shared : Shared World
  /-- The latest run. -/
  run : Option Run := none

/-- What a run came to. -/
structure Outcome where
  result : Option Error
  /-- How many exchanges it began. -/
  calls : Nat
  log : List LogLine

namespace Workshop

def addLines (t : Workshop) (lines : List Line) : Workshop :=
  { t with lines := t.lines ++ lines }

def addWriters (t : Workshop) (ids : List String) : Workshop :=
  { t with writers := t.writers ++ ids }

def setWorkers (t : Workshop) (n : Nat) : Workshop :=
  { t with workers := n }

def cancel (t : Workshop) (context : String) : Workshop :=
  { t with shared := t.shared.cancel context }

def closeStore (t : Workshop) (id : String) : Workshop :=
  { t with shared := { t.shared with world := t.shared.world.closeStore id } }

def submitted (t : Workshop) : Nat :=
  match t.run with
  | some r => r.submitted
  | none => 0

def callsOf (r : Run) : Nat :=
  match r.cursor.batch with
  | some b => b.begun.length
  | none => 0

/-- Carries out a run of all lines. Without lines there is nothing to do, and no run. -/
def carryOut (t : Workshop) (context : String) : Outcome × Workshop :=
  if t.lines.isEmpty then (⟨none, 0, []⟩, t)
  else
    let world := t.shared.world.renew t.limit
    let pace : Pace :=
      { asksLast := t.limit.isScripted, sendsLast := true, cancels := cancelsOf t.lines }
    let (r, s) :=
      Run.carryOut (world.services t.lines t.limit t.writers) pace context (feedsOf t.lines)
        t.workers { t.shared with world := world, log := [] }
    (⟨r.returned?.join, callsOf r, s.log⟩, { t with shared := s, run := some r })

end Workshop

end Ingest.Trial

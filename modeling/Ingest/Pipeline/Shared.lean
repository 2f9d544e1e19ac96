import Ingest.Catalog
import Ingest.Error.Registers
import Ingest.Log
import Ingest.Signal.Basic

/-!
# What the threads of a pipeline share

The contexts with their listeners, the registers of errors, the log, and the world that requests and
storages act on. A context comes into being, not cancelled, when it is first named.
-/

namespace Ingest.Pipeline

/-- Who is told when a context is cancelled. -/
inductive Waker where
  /-- A batch, whose own context is derived from the one it listens to. -/
  | batch
  /-- Someone who waits at a queue. -/
  | receiver
  /-- Anybody else. -/
  | outsider (label : String)
  deriving DecidableEq, Repr

structure Shared (σ : Type) where
  contexts : Catalog (Signal Waker) := {}
  registers : Registers := []
  log : List LogLine := []
  world : σ

namespace Shared

variable {σ : Type}

def signal (s : Shared σ) (context : String) : Signal Waker :=
  (s.contexts.get? context).getD {}

def setSignal (s : Shared σ) (context : String) (signal : Signal Waker) : Shared σ :=
  { s with contexts := s.contexts.set context signal }

def isCancelled (s : Shared σ) (context : String) : Bool :=
  (s.signal context).cancelled

def listenerCount (s : Shared σ) (context : String) : Nat :=
  (s.signal context).listeners.length

def cancel (s : Shared σ) (context : String) : Shared σ :=
  s.setSignal context (s.signal context).cancel.2

/-- Adds a listener: its number, or 0 if the context is cancelled. -/
def listen (s : Shared σ) (context : String) (w : Waker) : Nat × Shared σ :=
  let (id, signal) := (s.signal context).listen w
  (id, s.setSignal context signal)

def forget (s : Shared σ) (context : String) (id : Nat) : Shared σ :=
  s.setSignal context ((s.signal context).forget id)

/-- Opens a register, below another one or on its own: its number. -/
def openSlot (s : Shared σ) (above : Option Nat) : Nat × Shared σ :=
  (s.registers.next, { s with registers := s.registers.openSlot above })

/-- Notes an error in one register only. -/
def note (s : Shared σ) (slot : Nat) (e : Error) : Shared σ :=
  { s with registers := s.registers.note slot e }

def say (s : Shared σ) (lines : List LogLine) : Shared σ :=
  { s with log := s.log ++ lines }

end Shared

end Ingest.Pipeline

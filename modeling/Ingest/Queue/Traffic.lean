import Ingest.Queue.Basic
import Ingest.Signal.Basic
import Ingest.Catalog

/-!
# Traffic on a queue

Any number of callers at one queue, some of whom watch a signal while they wait. A call has three
steps: `start` brings the caller to the queue and adds a listener if the call watches a signal,
`decide?` settles the call's answer once the queue lets it, and `leave?` takes the listener away and
ends the call. Other callers may do anything between them. `settle` ends every call that can end.
-/

namespace Ingest

namespace Queue

/-- What a caller asks of a queue. -/
inductive Call (α : Type) where
  | send (a : α)
  | receive
  /-- Receives unless the signal with this name is cancelled. -/
  | receiveWatching (signal : String)
  deriving DecidableEq, Repr

inductive Answer (α : Type) where
  | sent (accepted : Bool)
  | received (r : Received α)
  deriving DecidableEq, Repr

/-- A caller whose call has begun. -/
structure Caller (α : Type) where
  name : String
  call : Call α
  /-- The number of the listener that the call holds, 0 if none. -/
  listener : Nat
  /-- What the call was answered, if it only has to leave. -/
  answer : Option (Answer α) := none
  deriving DecidableEq, Repr

structure Traffic (α : Type) where
  queue : Queue α
  signals : Catalog (Signal String) := {}
  callers : List (Caller α) := []
  answers : Catalog (Answer α) := {}
  deriving DecidableEq, Repr

namespace Traffic

variable {α : Type}

/-- A new queue, with nobody at it. -/
def ofCapacity (n : Nat) : Traffic α :=
  { queue := .ofCapacity n }

/-- The signal with a name, which is there from its first use on. -/
def signal (t : Traffic α) (name : String) : Signal String :=
  match t.signals.get? name with
  | some s => s
  | none => {}

def setSignal (t : Traffic α) (name : String) (s : Signal String) : Traffic α :=
  { t with signals := t.signals.set name s }

/-- What a call answers now, and the queue after it. -/
def attempt? (t : Traffic α) : Call α → Option (Answer α × Queue α)
  | .send a => (t.queue.send? a).map fun p => (.sent p.1, p.2)
  | .receive => t.queue.receive?.map fun p => (.received p.1, p.2)
  | .receiveWatching name =>
    (t.queue.receiveUnless? (t.signal name).cancelled).map fun p => (.received p.1, p.2)

/-- A call begins. -/
def start (t : Traffic α) (name : String) (c : Call α) : Traffic α :=
  match c with
  | .receiveWatching watched =>
    let (listener, signal) := (t.signal watched).listen name
    let t := t.setSignal watched signal
    { t with callers := t.callers ++ [{ name, call := c, listener }] }
  | _ => { t with callers := t.callers ++ [{ name, call := c, listener := 0 }] }

/-- The answer of the call of the caller in place `k` is settled, if the queue lets it. -/
def decide? (t : Traffic α) (k : Nat) : Option (Traffic α) :=
  match t.callers[k]? with
  | none => none
  | some c =>
    match c.answer with
    | some _ => none
    | none => (t.attempt? c.call).map fun p =>
      { t with queue := p.2, callers := t.callers.set k { c with answer := some p.1 } }

/-- The caller in place `k`, whose call is answered, takes its listener away and leaves. -/
def leave? (t : Traffic α) (k : Nat) : Option (Traffic α) :=
  match t.callers[k]? with
  | none => none
  | some c =>
    c.answer.map fun a =>
      let t :=
        match c.call with
        | .receiveWatching watched => t.setSignal watched ((t.signal watched).forget c.listener)
        | _ => t
      { t with callers := t.callers.eraseIdx k, answers := t.answers.set c.name a }

def close (t : Traffic α) : Bool × Traffic α :=
  let (first, queue) := t.queue.close
  (first, { t with queue := queue })

def cancel (t : Traffic α) (name : String) : Traffic α :=
  t.setSignal name (t.signal name).cancel.2

/-- Ends the call of the caller in place `k`, if the queue lets it end. -/
def finish? (t : Traffic α) (k : Nat) : Option (Traffic α) :=
  (t.decide? k).bind (·.leave? k)

/-- Ends the first call that the queue lets end, and keeps its answer for the caller. -/
def finishFirst? (t : Traffic α) : Option (Traffic α) :=
  (List.range t.callers.length).findSome? t.finish?

/-- Ends calls until none of those left can end. -/
def settleWithin : Nat → Traffic α → Traffic α
  | 0, t => t
  | n + 1, t =>
    match t.finishFirst? with
    | some t => settleWithin n t
    | none => t

def settle (t : Traffic α) : Traffic α :=
  settleWithin t.callers.length t

/-- Takes the answer that was kept for a caller. -/
def collect (t : Traffic α) (name : String) : Option (Answer α) × Traffic α :=
  (t.answers.get? name, { t with answers := t.answers.erase name })

/-- Makes a call and waits for its answer; none if the wait would have no end. -/
def callNow? (t : Traffic α) (name : String) (c : Call α) : Option (Option (Answer α) × Traffic α) :=
  ((t.start name c).finish? t.callers.length).map fun t => (t.settle.collect name)

end Traffic

end Queue

end Ingest

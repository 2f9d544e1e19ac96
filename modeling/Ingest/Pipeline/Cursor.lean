import Ingest.Pipeline.Batch

/-!
# Cursors

A cursor gives the results of a batch to one consumer, in the order in which they come. The batch
starts with the first `advance`, under the context of that call; every call may bring a context of
its own, and ends early when that one is cancelled.

Once a call has answered that there is no more, the cursor stays as it is. A call runs in steps
(`Cursor.step?`), beside the workers of the batch, and has answered (`Cursor.more`) once the cursor
rests again.
-/

namespace Ingest.Pipeline

namespace Cursor

inductive State where
  | unstarted
  | running
  | exhausted
  | cancelled
  | errored
  deriving DecidableEq, Repr

/-- The states that a cursor never leaves. -/
def State.isTerminal : State → Bool
  | exhausted | cancelled | errored => true
  | unstarted | running => false

/-- Where the consumer's call is. -/
inductive Phase where
  | resting
  /-- About to start the batch. -/
  | starting (context : String)
  /-- About to listen to the context of the call. -/
  | entering (context : String)
  /-- Waiting for a result. -/
  | waiting (context : String) (listener : Nat)
  /-- With what was received. -/
  | leaving (context : String) (listener : Nat) (r : Received Fetched)
  /-- Waiting for the workers to be gone. -/
  | joining

end Cursor

structure Cursor where
  feeds : List Feed
  workers : Nat
  /-- The register of the cursor's own failures. -/
  slot : Nat
  state : Cursor.State := .unstarted
  closed : Bool := false
  current : Option Fetched := none
  error : Option Error := none
  batch : Option Batch := none
  phase : Cursor.Phase := .resting
  /-- What the latest `advance` has answered. -/
  more : Bool := false
  /-- All results that were brought, in order; no step looks at them. -/
  delivered : List Fetched := []

namespace Cursor

variable {σ : Type}

/-- A cursor over the results of feeds. Failures are recorded in a register of its own and, if there
is one, in the register `above`. -/
def ofFeeds (feeds : List Feed) (workers : Nat) (above : Option Nat) (s : Shared σ) :
    Cursor × Shared σ :=
  let (slot, s) := s.openSlot above
  ({ feeds := feeds, workers := workers, slot := slot }, s)

def isResting (c : Cursor) : Bool :=
  match c.phase with
  | .resting => true
  | _ => false

/-- Calls for the next result. -/
def advance (c : Cursor) (context : String) (s : Shared σ) : Cursor :=
  if c.closed || c.state.isTerminal then { c with more := false }
  else if c.state = .unstarted then
    if s.isCancelled context then
      { c with state := .cancelled, error := some .contextCancelled, more := false }
    else { c with phase := .starting context }
  else { c with phase := .entering context }

/-- Ends a call with what was received. A call during which the end was called for brings nothing. -/
def conclude (c : Cursor) (rs : Registers) (r : Received Fetched) : Cursor :=
  if c.closed then { c with more := false }
  else
    match r with
    | .value f =>
      { c with current := some f, error := none, more := true, delivered := c.delivered ++ [f] }
    | .cancelled => { c with state := .cancelled, error := some .contextCancelled, more := false }
    | .closed =>
      match rs.error? c.slot with
      | some e => { c with state := .errored, error := some e, more := false }
      | none => { c with state := .exhausted, error := none, more := false }

/-- The end is called for: the first half of `close`, which others can make while a call waits. -/
def shut (c : Cursor) : Cursor :=
  { c with closed := true }

/-- Stops the outstanding requests: the second half of `close`. None if there is no batch. -/
def halt? (c : Cursor) (s : Shared σ) : Option (Cursor × Shared σ) :=
  match c.batch with
  | none => none
  | some b =>
    let (b, s) := b.stop s
    some ({ c with batch := some b }, s)

/-- Calls for the end and waits for the workers to be gone. A second time nothing happens. -/
def close (c : Cursor) (s : Shared σ) : Cursor × Shared σ :=
  if c.closed then (c, s)
  else
    match c.shut.halt? s with
    | none => (c.shut, s)
    | some (c, s) => ({ c with phase := .joining }, s)

/-- One step of the consumer's call. None if it has to wait or the cursor rests. -/
def step? (c : Cursor) (s : Shared σ) : Option (Cursor × Shared σ) :=
  match c.phase with
  | .resting => none
  | .starting context =>
    let (b, s) := Batch.start context c.feeds c.workers c.slot s
    some ({ c with batch := some b, state := .running, phase := .entering context }, s)
  | .entering context =>
    let (listener, s) := s.listen context .receiver
    some ({ c with phase := .waiting context listener }, s)
  | .waiting context listener =>
    match c.batch with
    | none => none
    | some b =>
      match b.results.receiveUnless? (s.isCancelled context) with
      | none => none
      | some (r, q) =>
        some ({ c with
          batch := some { b with results := q }
          phase := .leaving context listener r }, s)
  | .leaving context listener r =>
    some ({ c with phase := .resting }.conclude s.registers r, s.forget context listener)
  | .joining =>
    match c.batch with
    | none => none
    | some b => if b.isOver then some ({ c with phase := .resting }, s) else none

/-- One step of a worker of the batch. -/
def stepWorker? (sv : Services σ) (c : Cursor) (k : Nat) (s : Shared σ) :
    Option (Cursor × Shared σ) :=
  match c.batch with
  | none => none
  | some b => (b.step? sv k s).map fun p => ({ c with batch := some p.1 }, p.2)

/-- The batch takes note of a caller who was cancelled. -/
def heed? (c : Cursor) (s : Shared σ) : Option Cursor :=
  (c.batch.bind fun b => b.heed? s).map fun b => { c with batch := some b }

end Cursor

end Ingest.Pipeline

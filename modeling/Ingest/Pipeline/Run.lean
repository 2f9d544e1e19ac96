import Ingest.Accept.Format
import Ingest.Pipeline.Cursor
import Ingest.Pipeline.Delivery

/-!
# Runs

A run takes the results of a batch one after the other, negotiates the format of each response and
hands its body over to a delivery. A response that cannot be decoded ends it early. In the end it
waits for the couriers, stops the batch, and reports the first error that any part has recorded, or
else the error that the cursor ended with.

A run is many threads: its own loop, the workers of the batch and the couriers. An `Event` names one
of them, or a cancellation from outside, and `Run.step?` makes its next step; every order of events
is a possible history.
-/

namespace Ingest.Pipeline

namespace Run

/-- Where the loop of a run is. -/
inductive Phase where
  /-- About to call for the next result. -/
  | calling
  /-- In the call. -/
  | advancing
  /-- With a result. -/
  | handling
  /-- Recording an error, in these registers still. -/
  | noting (e : Error) (slots : List Nat)
  | submitting (u : Upsert)
  /-- About to close the delivery. -/
  | closing
  /-- Waiting for the couriers to be gone. -/
  | draining
  /-- About to stop the batch. -/
  | stopping
  /-- Waiting for the workers of the batch to be gone. -/
  | joining
  | reporting
  | returned (result : Option Error)

inductive Event where
  | loop
  | fetch (worker : Nat)
  | deliver (courier : Nat)
  /-- The batch takes note of the context's cancellation. -/
  | heed
  | cancel (context : String)
  deriving DecidableEq, Repr

end Run

structure Run where
  context : String
  /-- The register of the whole run. -/
  slot : Nat
  cursor : Cursor
  delivery : Delivery
  phase : Run.Phase := .calling
  /-- How many payloads were handed over. -/
  submitted : Nat := 0
  /-- The error that the cursor ended with. -/
  ended : Option Error := none

namespace Run

variable {σ : Type}

/-- Starts a run of feeds under a context, with so many workers in the batch and so many couriers.
The delivery has room for every response. -/
def start (context : String) (feeds : List Feed) (workers : Nat) (s : Shared σ) : Run × Shared σ :=
  let (slot, s) := s.openSlot none
  let (cursor, s) := Cursor.ofFeeds feeds workers (some slot) s
  ({ context := context
     slot := slot
     cursor := cursor
     delivery := (Delivery.ofCapacity feeds.length slot).start context workers }, s)

def undecodable (contentType url : String) : Error :=
  ⟨.unsupportedDecodeType,
    "unsupported decode type \"" ++ contentType ++ "\": \"" ++ url ++ "\""⟩

/-- The payload that a response brings, if its format is known. -/
def payloadOf (f : Fetched) (r : Http.Response) : Except Error Upsert :=
  let contentType := r.header "Content-Type"
  match Format.ofHeader contentType with
  | .unknown => .error (undecodable contentType f.url)
  | format => .ok ⟨f.destination.table, f.destination.database, r.body, format⟩

/-- What to do with a result. A failure has been recorded already. -/
def handle (r : Run) (rs : Registers) : Phase :=
  match r.cursor.current with
  | none => .calling
  | some f =>
    match f.outcome with
    | .error _ => .calling
    | .ok rsp =>
      match payloadOf f rsp with
      | .error e => .noting e (rs.path r.slot)
      | .ok u => .submitting u

/-- How a run ends: with the first error recorded, and else with the cursor's. -/
def result (r : Run) (rs : Registers) : Option Error :=
  match rs.error? r.slot with
  | some e => some (e.wrap "failed to upsert data")
  | none => r.ended.map fun e => e.wrap "error iterating over requests"

/-- A run warns of the errors that it does not report. -/
def warnings (r : Run) (rs : Registers) : List LogLine :=
  if (rs.error? r.slot).isSome && 0 < rs.dropped r.slot then
    [.warning (toString (rs.dropped r.slot) ++
      " further errors were dropped; reporting the first")]
  else []

/-- One step of the cursor's call, or else the phase after it. -/
def call? (r : Run) (s : Shared σ) (after : Phase) : Option (Run × Shared σ) :=
  if r.cursor.isResting then some ({ r with phase := after }, s)
  else (r.cursor.step? s).map fun p => ({ r with cursor := p.1 }, p.2)

/-- One step of the loop. None if it has to wait or has returned. -/
def stepLoop? (r : Run) (s : Shared σ) : Option (Run × Shared σ) :=
  match r.phase with
  | .calling => some ({ r with cursor := r.cursor.advance r.context s, phase := .advancing }, s)
  | .advancing => r.call? s (if r.cursor.more then .handling else .closing)
  | .handling => some ({ r with phase := r.handle s.registers }, s)
  | .noting _ [] => some ({ r with phase := .closing }, s)
  | .noting e (slot :: slots) => some ({ r with phase := .noting e slots }, s.note slot e)
  | .submitting u =>
    match r.delivery.submit? u with
    | none => none
    | some (true, d) =>
      some ({ r with delivery := d, submitted := r.submitted + 1, phase := .calling }, s)
    | some (false, d) => some ({ r with delivery := d, phase := .closing }, s)
  | .closing => some ({ r with delivery := r.delivery.close, phase := .draining }, s)
  | .draining => if r.delivery.isOver then some ({ r with phase := .stopping }, s) else none
  | .stopping =>
    let (cursor, s) := r.cursor.close s
    some ({ r with ended := r.cursor.error, cursor := cursor, phase := .joining }, s)
  | .joining => r.call? s .reporting
  | .reporting =>
    some ({ r with phase := .returned (r.result s.registers) }, s.say (r.warnings s.registers))
  | .returned _ => none

/-- The next step of what an event names. None if that has to wait or is over. -/
def step? (sv : Services σ) (r : Run) (s : Shared σ) : Event → Option (Run × Shared σ)
  | .loop => r.stepLoop? s
  | .fetch k => (r.cursor.stepWorker? sv k s).map fun p => ({ r with cursor := p.1 }, p.2)
  | .deliver k => (r.delivery.step? sv k s).map fun p => ({ r with delivery := p.1 }, p.2)
  | .heed => (r.cursor.heed? s).map fun c => ({ r with cursor := c }, s)
  | .cancel context => some (r, s.cancel context)

/-- What a run has returned, once it has. -/
def returned? (r : Run) : Option (Option Error) :=
  match r.phase with
  | .returned result => some result
  | _ => none

end Run

end Ingest.Pipeline

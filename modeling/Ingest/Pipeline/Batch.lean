import Ingest.Pipeline.Services
import Ingest.Pipeline.Shared
import Ingest.Queue.Basic
import Ingest.Queue.Countdown

/-!
# Batches

A batch of feeds that is fetched by workers, each of which takes one job after the other from a
queue that is filled and closed before any of them runs. Every job leads to one result, whether it
failed or not; the last worker to leave closes the results.

A worker moves in steps (`Batch.step?`), each of which touches the shared state once, so that any
number of workers can be interleaved with each other and with everything else. A failure is recorded
unless the batch was stopped and the caller did not ask for that.

`begun`, `exchanged`, `excused` and `published` tell what happened so far; no step looks at them.
-/

namespace Ingest.Pipeline

/-- What became of a feed: where its data goes, and how fetching it ended. The type carries that this
is with a response or with an error, never with both and never with neither. -/
structure Fetched where
  url : String
  destination : Destination
  outcome : Except Error Http.Response

namespace Fetched

def ofJob (j : Job) (outcome : Except Error Http.Response) : Fetched :=
  ⟨j.feed.request.url, j.feed.destination, outcome⟩

def error? (f : Fetched) : Option Error :=
  match f.outcome with
  | .error e => some e
  | .ok _ => none

end Fetched

/-- Where a worker of a batch is. -/
inductive Fetcher where
  /-- About to take a job. -/
  | idle
  /-- About to ask the limiter. -/
  | asking (j : Job)
  /-- Asleep in the limiter, from `since` until `ready` at least. -/
  | asleep (j : Job) (since ready : Int)
  /-- Past the limiter. -/
  | cleared (j : Job)
  /-- In an exchange. -/
  | sending (j : Job)
  /-- About to decide whether the failure counts. -/
  | failing (j : Job) (e : Error)
  /-- Recording the failure, in these registers still. -/
  | noting (j : Job) (e : Error) (slots : List Nat)
  | publishing (f : Fetched)
  /-- Out of jobs. -/
  | leaving
  /-- The last one to leave. -/
  | closing
  | gone

namespace Fetcher

/-- A job has failed while it was at `occasion`. -/
def fail (occasion : String) (j : Job) (e : Error) : Fetcher :=
  .failing j (e.wrap (occasion ++ " " ++ j.feed.request.url))

def isGone : Fetcher → Bool
  | gone => true
  | _ => false

end Fetcher

structure Batch where
  /-- The context that the batch was started with. -/
  caller : String
  /-- The listener that the batch keeps there. -/
  link : Nat
  /-- Whether the batch's own context is cancelled. -/
  cancelled : Bool
  /-- The register that failures are recorded in. -/
  slot : Nat
  jobs : Queue Job
  results : Queue Fetched
  arrivals : Countdown
  workers : List Fetcher
  /-- The numbers of the jobs whose exchange has begun, in order. -/
  begun : List Nat := []
  /-- The exchanges that have ended, in order. -/
  exchanged : List (Job × Except Error Http.Response) := []
  /-- The failures that were the batch's own doing, in order. -/
  excused : List Error := []
  /-- All that was published, in order. -/
  published : List Fetched := []

namespace Batch

variable {σ : Type}

def jobsOf (feeds : List Feed) : List Job :=
  feeds.zipIdx.map fun p => ⟨p.2, p.1⟩

/-- The number of workers asked for, which 0 leaves to the number of cores. -/
def workersOr (cores workers : Nat) : Nat :=
  if workers = 0 then cores else workers

/-- How many workers a batch of `n` feeds gets. -/
def workerCount (workers n : Nat) : Nat :=
  max 1 (min workers n)

/-- Starts a batch under the context `caller`. The results have room for the whole batch. -/
def start (caller : String) (feeds : List Feed) (workers slot : Nat) (s : Shared σ) :
    Batch × Shared σ :=
  let n := feeds.length
  let count := workerCount workers n
  let (link, s) := s.listen caller .batch
  ({ caller := caller
     link := link
     cancelled := s.isCancelled caller
     slot := slot
     jobs := { (Queue.ofCapacity n : Queue Job) with items := jobsOf feeds, closed := true }
     results := .ofCapacity n
     arrivals := .ofParties count
     workers := List.replicate count .idle }, s)

/-- Takes note of a caller who was cancelled. -/
def heed? (b : Batch) (s : Shared σ) : Option Batch :=
  if !b.cancelled && s.isCancelled b.caller then some { b with cancelled := true } else none

/-- Cancels the batch's own context, which then leaves the caller's. -/
def stop (b : Batch) (s : Shared σ) : Batch × Shared σ :=
  ({ b with cancelled := true }, s.forget b.caller b.link)

/-- Whether every worker is gone. -/
def isOver (b : Batch) : Bool :=
  b.workers.all Fetcher.isGone

/-- Whether an error is the batch's own doing: it was stopped, and the caller was not cancelled. -/
def isOwnDoing (b : Batch) (s : Shared σ) (e : Error) : Bool :=
  e.code = .cancelled && !s.isCancelled b.caller

/-- One step of a worker: the phase it is in then. None if it has to wait or is gone. -/
def work? (sv : Services σ) (b : Batch) (s : Shared σ) :
    Fetcher → Option (Fetcher × Batch × Shared σ)
  | .idle =>
    match b.jobs.receive? with
    | none => none
    | some (.value j, q) => some (.asking j, { b with jobs := q }, s)
    | some (_, q) => some (.leaving, { b with jobs := q }, s)
  | .asking j =>
    match sv.limiter.ask b.cancelled s.world with
    | (.go, w) => some (.cleared j, b, { s with world := w })
    | (.refuse e, w) => some (.fail sv.limiter.occasion j e, b, { s with world := w })
    | (.sleep since ready, w) => some (.asleep j since ready, b, { s with world := w })
  | .asleep j _ ready =>
    if b.cancelled then
      match sv.limiter.giveUp s.world with
      | (e, w) => some (.fail sv.limiter.occasion j e, b, { s with world := w })
    else some (.cleared j, b, { s with world := sv.limiter.wake ready s.world })
  | .cleared j => some (.sending j, { b with begun := b.begun ++ [j.number] }, s)
  | .sending j =>
    match sv.send j s.world with
    | (.ok r, lines, w) =>
      some (.publishing (.ofJob j (.ok r)), { b with exchanged := b.exchanged ++ [(j, .ok r)] },
        { s with world := w }.say lines)
    | (.error e, lines, w) =>
      some (.fail "fetch" j e, { b with exchanged := b.exchanged ++ [(j, .error e)] },
        { s with world := w }.say lines)
  | .failing j e =>
    if b.isOwnDoing s e then
      some (.publishing (.ofJob j (.error e)), { b with excused := b.excused ++ [e] }, s)
    else some (.noting j e (s.registers.path b.slot), b, s)
  | .noting j e [] => some (.publishing (.ofJob j (.error e)), b, s)
  | .noting j e (slot :: slots) => some (.noting j e slots, b, s.note slot e)
  | .publishing f =>
    match b.results.send? f with
    | none => none
    | some (accepted, q) =>
      let published := b.published ++ if accepted then [f] else []
      some (.idle, { b with results := q, published := published }, s)
  | .leaving =>
    let (last, arrivals) := b.arrivals.arrive
    some (if last then .closing else .gone, { b with arrivals := arrivals }, s)
  | .closing =>
    some (.gone, { b with results := b.results.close.2, arrivals := b.arrivals.complete }, s)
  | .gone => none

/-- One step of the worker with number `k`. -/
def step? (sv : Services σ) (b : Batch) (k : Nat) (s : Shared σ) : Option (Batch × Shared σ) :=
  match b.workers[k]? with
  | none => none
  | some w =>
    match b.work? sv s w with
    | none => none
    | some (w, b, s) => some ({ b with workers := b.workers.set k w }, s)

end Batch

end Ingest.Pipeline

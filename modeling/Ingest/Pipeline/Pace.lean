import Ingest.Pipeline.Run

/-!
# Paces

Of all the histories of a pipeline, the one that is carried out: at every moment the first move that
can be made, in a fixed order. A pace holds some moves of a batch back until nothing else moves, and
then makes the one with the lowest job number, so that one request comes after the other although
many workers are there. A short sleep is a move like any other, a long one is held back.

`settle` makes moves until none is left. Its bound only has to be large enough: `stepBound` exceeds
what a run of so many feeds, workers and storages can take.
-/

namespace Ingest.Pipeline

/-- Makes moves until none is left, at most so many. -/
def settle {τ : Type} (next? : τ → Option τ) : Nat → τ → τ
  | 0, t => t
  | n + 1, t =>
    match next? t with
    | some t => settle next? n t
    | none => t

/-- Makes moves until one leads to what is wanted or none is left, at most so many. -/
def settleUntil {τ : Type} (wanted : τ → Bool) (next? : τ → Option τ) : Nat → τ → τ
  | 0, t => t
  | n + 1, t =>
    if wanted t then t
    else
      match next? t with
      | some t => settleUntil wanted next? n t
      | none => t

def stepBound (feeds workers writers : Nat) : Nat :=
  (feeds + 1) * (40 + 4 * writers) + 20 * workers + 40

structure Pace where
  /-- Whether the limiter is asked only when nothing else moves. -/
  asksLast : Bool := false
  /-- Whether an exchange ends only when nothing else moves. -/
  sendsLast : Bool := false
  /-- If given, only the exchanges of jobs with a lower number end. -/
  reach : Option Nat := none
  /-- Whether long sleeps end at all. -/
  wakes : Bool := true
  /-- The context that a job's exchange cancels before it ends. -/
  cancels : Nat → Option String := fun _ => none

/-- A move of a batch, or of what its exchanges do to contexts. -/
inductive Move where
  | work (k : Nat)
  | cancel (context : String)
  deriving DecidableEq, Repr

namespace Pace

variable {σ : Type}

def reaches (p : Pace) (number : Nat) : Bool :=
  match p.reach with
  | some n => number < n
  | none => true

/-- Whether a sleep takes more than a second. -/
def isLong (since ready : Int) : Bool :=
  Rate.second < ready - since

/-- The number of a worker's job if the worker is held back. -/
def held? (p : Pace) (b : Batch) : Fetcher → Option Nat
  | .asking j => if p.asksLast then some j.number else none
  | .asleep j since ready =>
    if isLong since ready && !b.cancelled then some j.number else none
  | .sending j => if p.sendsLast || !p.reaches j.number then some j.number else none
  | _ => none

/-- Whether a worker may not move at all. -/
def bars (p : Pace) : Fetcher → Bool
  | .sending j => !p.reaches j.number
  | .asleep _ _ _ => !p.wakes
  | _ => false

/-- The move of a worker: what its exchange cancels comes before its own step. -/
def moveOf (p : Pace) (s : Shared σ) (k : Nat) : Fetcher → Move
  | .sending j =>
    match p.cancels j.number with
    | some context => if s.isCancelled context then .work k else .cancel context
    | none => .work k
  | _ => .work k

/-- The moves of workers that are not held back. -/
def prompt (p : Pace) (b : Batch) (s : Shared σ) : List Move :=
  b.workers.zipIdx.filterMap fun (w, k) =>
    match p.held? b w with
    | none => some (p.moveOf s k w)
    | some _ => none

/-- Of numbered things, one with the lowest number. -/
def lowest {α : Type} : List (Nat × α) → Option α
  | [] => none
  | x :: xs => some (xs.foldl (fun best y => if y.1 < best.1 then y else best) x).2

/-- The move of the held back worker whose turn is next. -/
def late (p : Pace) (b : Batch) (s : Shared σ) : Option Move :=
  lowest <| b.workers.zipIdx.filterMap fun (w, k) =>
    if p.bars w then none else (p.held? b w).map fun n => (n, p.moveOf s k w)

end Pace

namespace Batch

variable {σ : Type}

def make? (sv : Services σ) (t : Batch × Shared σ) : Move → Option (Batch × Shared σ)
  | .work k => t.1.step? sv k t.2
  | .cancel context => some (t.1, t.2.cancel context)

/-- The next move of a batch. -/
def next? (sv : Services σ) (p : Pace) (t : Batch × Shared σ) : Option (Batch × Shared σ) :=
  match t.1.heed? t.2 with
  | some b => some (b, t.2)
  | none => (p.prompt t.1 t.2 ++ (p.late t.1 t.2).toList).findSome? (make? sv t)

end Batch

namespace Cursor

variable {σ : Type}

def make? (sv : Services σ) (t : Cursor × Shared σ) : Move → Option (Cursor × Shared σ)
  | .work k => t.1.stepWorker? sv k t.2
  | .cancel context => some (t.1, t.2.cancel context)

/-- The next move of a cursor with its batch. -/
def next? (sv : Services σ) (p : Pace) (t : Cursor × Shared σ) : Option (Cursor × Shared σ) :=
  match t.1.heed? t.2 with
  | some c => some (c, t.2)
  | none =>
    match t.1.batch with
    | none => t.1.step? t.2
    | some b =>
      match (p.prompt b t.2).findSome? (make? sv t) with
      | some t => some t
      | none =>
        match t.1.step? t.2 with
        | some t => some t
        | none => (p.late b t.2).bind (make? sv t)

end Cursor

namespace Run

variable {σ : Type}

def eventOf : Move → Event
  | .work k => .fetch k
  | .cancel context => .cancel context

/-- The events of a run in the order in which they are tried. -/
def candidates (p : Pace) (r : Run) (s : Shared σ) : List Event :=
  let prompt := match r.cursor.batch with | some b => p.prompt b s | none => []
  let late := match r.cursor.batch with | some b => (p.late b s).toList | none => []
  [.heed] ++ prompt.map eventOf ++ [.loop] ++
    (List.range r.delivery.couriers.length).map Event.deliver ++ late.map eventOf

def next? (sv : Services σ) (p : Pace) (t : Run × Shared σ) : Option (Run × Shared σ) :=
  (t.1.candidates p t.2).findSome? (t.1.step? sv t.2)

/-- Carries out a run of feeds: the run at its end. -/
def carryOut (sv : Services σ) (p : Pace) (context : String) (feeds : List Feed) (workers : Nat)
    (s : Shared σ) : Run × Shared σ :=
  settle (next? sv p) (stepBound feeds.length workers sv.writers.length)
    (start context feeds workers s)

end Run

end Ingest.Pipeline

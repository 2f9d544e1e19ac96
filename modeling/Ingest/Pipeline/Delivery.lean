import Ingest.Pipeline.Services
import Ingest.Pipeline.Shared
import Ingest.Queue.Basic
import Ingest.Queue.Countdown

/-!
# Deliveries

Couriers take payloads from a queue and write each to every storage. A storage that fails is
recorded, and the payload still goes to the storages after it. A courier leaves once the queue is
closed and empty, or as soon as the context is cancelled, whatever is queued then.

`accepted`, `taken` and `writes` tell what happened so far; no step looks at them.
-/

namespace Ingest.Pipeline

/-- Where a courier is. -/
inductive Courier where
  /-- About to listen to the context. -/
  | entering
  /-- Waiting for a payload. -/
  | waiting (listener : Nat)
  /-- With what was received. -/
  | holding (listener : Nat) (r : Received Upsert)
  /-- About to write to the storage with number `k`. -/
  | writing (u : Upsert) (k : Nat)
  /-- Recording the failure of the storage with number `k`, in these registers still. -/
  | noting (u : Upsert) (k : Nat) (e : Error) (slots : List Nat)
  | leaving
  | gone
  deriving DecidableEq, Repr

namespace Courier

def isGone : Courier → Bool
  | gone => true
  | _ => false

end Courier

/-- One write of a payload to the storage with number `storage`, and what went wrong, if anything. -/
structure Write where
  storage : Nat
  upsert : Upsert
  failure : Option Error := none
  deriving DecidableEq, Repr

structure Delivery where
  /-- The context that the couriers work under. -/
  context : String := ""
  /-- The register that failures are recorded in. -/
  slot : Nat
  queue : Queue Upsert
  /-- The couriers, and who of them has not left yet; none before the start. -/
  couriers : List Courier := []
  arrivals : Option Countdown := none
  /-- How many writes have succeeded. -/
  upserted : Nat := 0
  /-- The payloads that were accepted, in order. -/
  accepted : List Upsert := []
  /-- The payloads that couriers took, in order. -/
  taken : List Upsert := []
  /-- Every write, in order. -/
  writes : List Write := []
  deriving DecidableEq, Repr

namespace Delivery

variable {σ : Type}

def ofCapacity (n slot : Nat) : Delivery :=
  { slot := slot, queue := .ofCapacity n }

/-- Starts couriers under a context. -/
def start (d : Delivery) (context : String) (workers : Nat) : Delivery :=
  { d with
    context := context
    couriers := List.replicate workers .entering
    arrivals := some (.ofParties workers) }

/-- Submits a payload: whether it was accepted. None while the queue is full. -/
def submit? (d : Delivery) (u : Upsert) : Option (Bool × Delivery) :=
  match d.queue.send? u with
  | none => none
  | some (accepted, q) =>
    some (accepted, { d with queue := q, accepted := d.accepted ++ if accepted then [u] else [] })

def close (d : Delivery) : Delivery :=
  { d with queue := d.queue.close.2 }

/-- Whether a wait for the couriers ends: all have left, or none was ever started. -/
def isOver (d : Delivery) : Bool :=
  d.couriers.all Courier.isGone &&
    match d.arrivals with
    | some c => c.completed
    | none => true

/-- A failed write, as it is recorded. -/
def failure (u : Upsert) (type : String) (e : Error) : Error :=
  e.wrap ("upsert " ++ u.table ++ " into " ++ type)

/-- One step of a courier: the phase it is in then. None if it has to wait or is gone. -/
def work? (sv : Services σ) (d : Delivery) (s : Shared σ) :
    Courier → Option (Courier × Delivery × Shared σ)
  | .entering =>
    let (listener, s) := s.listen d.context .receiver
    some (.waiting listener, d, s)
  | .waiting listener =>
    match d.queue.receiveUnless? (s.isCancelled d.context) with
    | none => none
    | some (.value u, q) =>
      some (.holding listener (.value u), { d with queue := q, taken := d.taken ++ [u] }, s)
    | some (r, q) => some (.holding listener r, { d with queue := q }, s)
  | .holding listener (.value u) => some (.writing u 0, d, s.forget d.context listener)
  | .holding listener _ => some (.leaving, d, s.forget d.context listener)
  | .writing u k =>
    match sv.writers[k]? with
    | none => some (.entering, d, s)
    | some storage =>
      match storage.upsert (s.isCancelled d.context) u s.world with
      | (.ok _, w) =>
        let d := { d with upserted := d.upserted + 1, writes := d.writes ++ [⟨k, u, none⟩] }
        some (.writing u (k + 1), d, { s with world := w })
      | (.error e, w) =>
        let e := failure u storage.type e
        let d := { d with writes := d.writes ++ [⟨k, u, some e⟩] }
        some (.noting u k e (s.registers.path d.slot), d, { s with world := w })
  | .noting u k _ [] => some (.writing u (k + 1), d, s)
  | .noting u k e (slot :: slots) => some (.noting u k e slots, d, s.note slot e)
  | .leaving =>
    some (.gone, { d with arrivals := d.arrivals.map Countdown.arriveAndAct }, s)
  | .gone => none

/-- One step of the courier with number `k`. -/
def step? (sv : Services σ) (d : Delivery) (k : Nat) (s : Shared σ) :
    Option (Delivery × Shared σ) :=
  match d.couriers[k]? with
  | none => none
  | some c =>
    match d.work? sv s c with
    | none => none
    | some (c, d, s) => some ({ d with couriers := d.couriers.set k c }, s)

end Delivery

end Ingest.Pipeline

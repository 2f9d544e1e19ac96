import Ingest.Trial.World

/-!
# Trials of a batch

A batch that is fetched to its end, or up to a pause in which it is stopped or its context is
cancelled.
-/

namespace Ingest.Trial

open Pipeline

/-- What happens to a batch in a pause. -/
inductive Interruption where
  | stop
  | cancel
  deriving DecidableEq, Repr

/-- A pause: it comes once so many results are there and every worker sleeps for long or is gone. -/
structure Pause where
  results : Nat
  interruption : Option Interruption := none
  deriving DecidableEq, Repr

def interrupt (context : String) (t : Batch × Shared World) :
    Option Interruption → Batch × Shared World
  | some .stop => t.1.stop t.2
  | some .cancel => (t.1, t.2.cancel context)
  | none => t

/-- Fetches lines under a context, which may be cancelled from the start: the batch after it was
stopped, and what is shared. -/
def fetch (context : String) (cancelled : Bool) (lines : List Line) (workers : Nat) (l : Limit)
    (pause : Option Pause) : Batch × Shared World :=
  let world := ({} : World).renew l
  let s : Shared World := { world := world }
  let (slot, s) := (if cancelled then s.cancel context else s).openSlot none
  let t := Batch.start context (feedsOf lines) workers slot s
  let sv := world.services lines l []
  let pace : Pace := { cancels := cancelsOf lines }
  let bound := stepBound lines.length workers 0
  let t :=
    match pause with
    | none => t
    | some p =>
      let t :=
        settleUntil (fun t => p.results ≤ t.1.published.length) (Batch.next? sv pace) bound t
      interrupt context (settle (Batch.next? sv { pace with wakes := false }) bound t)
        p.interruption
  let (b, s) := settle (Batch.next? sv pace) bound t
  b.stop s

end Ingest.Trial

import Ingest.Pipeline.Pace
import Ingest.Store.Recorder

/-!
# Trials

Pipelines with scripted surroundings: a client whose reply to each job is known beforehand, a
limiter that may follow a script, and storages that can note and refuse. They are for trying a
pipeline out without a network.
-/

namespace Ingest.Trial

open Pipeline

/-- The end of an exchange, and the context that the exchange cancels before. -/
structure Reply where
  outcome : Except Error Http.Response
  cancels : Option String := none

/-- A feed and what its client will bring. -/
structure Line where
  feed : Feed
  reply : Reply

inductive Limit where
  | absent
  /-- The answer to each request in order, an error refuses it; beyond the end all pass. -/
  | scripted (answers : List (Option Error))
  | bucket (r : RateLimit)
  deriving Repr

structure World where
  /-- What a scripted limiter is still going to answer. -/
  answers : List (Option Error) := []
  /-- The bucket, once it was used. -/
  meter : Option (Rate.Meter Float) := none
  stores : Catalog Store.Recorder := {}

namespace Limit

def isScripted : Limit → Bool
  | scripted _ => true
  | _ => false

def answers : Limit → List (Option Error)
  | scripted as => as
  | _ => []

/-- A scripted limiter does not look at the context. -/
def askScript (_ : Bool) (w : World) : Pass × World :=
  (match w.answers.head?.join with | some e => .refuse e | none => .go,
    { w with answers := w.answers.tail })

def limiter : Limit → Limiter World
  | absent => .absent
  | scripted _ =>
    { (Limiter.absent : Limiter World) with occasion := "rate limiter", ask := askScript }
  | bucket r =>
    .ofMeter (fun w : World => w.meter.getD (.ofLimit r)) fun m w => { w with meter := some m }

end Limit

namespace World

/-- The world in which a limit is as new. -/
def renew (w : World) (l : Limit) : World :=
  { w with answers := l.answers, meter := none }

def closeStore (w : World) (id : String) : World :=
  { w with stores := w.stores.modify id Store.Recorder.close }

def writer (id : String) (r : Store.Recorder) : Writer World :=
  { type := r.type
    upsert := fun cancelled u w =>
      let (result, r) := ((w.stores.get? id).getD r).upsert cancelled u
      (result, { w with stores := w.stores.set id r }) }

def writers (w : World) (ids : List String) : List (Writer World) :=
  ids.filterMap fun id => (w.stores.get? id).map (writer id)

def unscripted : Error :=
  ⟨.requestFailed, "no reply scripted"⟩

/-- The services of a world, for lines, a limit and the storages with the given names. -/
def services (w : World) (lines : List Line) (l : Limit) (ids : List String) : Services World :=
  { limiter := l.limiter
    send := fun j w =>
      match lines[j.number]? with
      | some line => (line.reply.outcome, [], w)
      | none => (.error unscripted, [], w)
    writers := w.writers ids }

end World

def cancelsOf (lines : List Line) (number : Nat) : Option String :=
  lines[number]?.bind fun line => line.reply.cancels

def feedsOf (lines : List Line) : List Feed :=
  lines.map Line.feed

end Ingest.Trial

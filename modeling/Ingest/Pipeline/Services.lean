import Ingest.Feed
import Ingest.Log
import Ingest.Rate.Bucket
import Ingest.Store.Basic

/-!
# Services

What a pipeline needs of the world `σ`: a limiter to ask before each request, a client that sends
requests, and the storages to write to. Nothing is assumed of them but that each call returns.
-/

namespace Ingest.Pipeline

/-- A feed of a batch, with its number there. -/
structure Job where
  number : Nat
  feed : Feed
  deriving DecidableEq, Repr

/-- What a limiter says to a request. -/
inductive Pass where
  | go
  | refuse (e : Error)
  /-- The request has to sleep, from `since` until `ready` at least. -/
  | sleep (since ready : Int)
  deriving DecidableEq, Repr

structure Limiter (σ : Type) where
  /-- What a request was doing that did not pass. -/
  occasion : String
  /-- Asks for one request; the flag says whether its context is cancelled. -/
  ask : Bool → σ → Pass × σ
  /-- A sleeper goes on. -/
  wake : Int → σ → σ
  /-- A sleeper was cancelled. -/
  giveUp : σ → Error × σ

namespace Limiter

variable {σ : Type}

/-- Lets everything pass whose context is not cancelled. -/
def absent : Limiter σ :=
  { occasion := "fetch"
    ask := fun cancelled w => (if cancelled then .refuse .contextCancelled else .go, w)
    wake := fun _ w => w
    giveUp := fun w => (.contextCancelled, w) }

/-- Keeps the rate of a token bucket in the world. -/
def ofMeter {α : Type} [Quantity α] (get : σ → Rate.Meter α) (set : Rate.Meter α → σ → σ) :
    Limiter σ :=
  { occasion := "rate limiter"
    ask := fun cancelled w =>
      if cancelled then (.refuse .contextCancelled, w)
      else
        match (get w).reserve with
        | (.now, m) => (.go, set m w)
        | (.later ready, m) => (.sleep m.now ready, set m w)
    wake := fun ready w => set ((get w).sleepUntil ready) w
    giveUp := fun w => (Rate.sleepCancelled, set (get w).handBack w) }

end Limiter

/-- A storage to write to. -/
structure Writer (σ : Type) where
  type : String
  /-- Writes one payload; the flag says whether the context is cancelled. -/
  upsert : Bool → Upsert → σ → Except Error Nat × σ

structure Services (σ : Type) where
  limiter : Limiter σ := .absent
  /-- Sends a request and brings the response, with what is worth a line in the log. -/
  send : Job → σ → Except Error Http.Response × List LogLine × σ
  writers : List (Writer σ) := []

end Ingest.Pipeline

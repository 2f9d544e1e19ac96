import Ingest.Http.Client

/-!
# Scripted transports

A transport that answers each address from a script and keeps what it was asked, in order. An
address without a reply, and without one for all others, cannot be reached.
-/

namespace Ingest.Http

structure Script where
  usable : Bool := true
  replies : List (String × Reply) := []
  /-- The reply for every other address. -/
  others : Option Reply := none
  asked : List Exchange := []
  deriving DecidableEq, Repr

namespace Script

def unreachable : Reply :=
  { failure := some "Could not connect to server" }

def replyTo (s : Script) (url : String) : Reply :=
  match s.replies.find? fun p => p.1 = url with
  | some p => p.2
  | none => s.others.getD unreachable

def perform (e : Exchange) (s : Script) : Reply × Script :=
  (s.replyTo e.url, { s with asked := s.asked ++ [e] })

/-- The transport that follows the script. -/
def transport : Transport Script :=
  ⟨Script.usable, perform⟩

end Script

end Ingest.Http

import Ingest.Http.Message
import Ingest.Error
import Ingest.Log

/-!
# Exchanges

What a request and the client's options ask of a transport (`Client.exchange`), and what the
transport's reply means (`Client.outcome`). A text that the transport receives ends at the character
with code 0; a body is sent in full.
-/

namespace Ingest.Http

/-- What a transport is asked to do. -/
structure Exchange where
  url : String
  /-- The method, unless it is `GET`. -/
  method : Option String
  /-- Header lines. -/
  lines : List String
  /-- The body, unless it is empty. -/
  body : Option Payload
  timeoutSeconds : Int
  maxRedirects : Int
  userAgent : String
  deriving DecidableEq, Repr

/-- What a transport brings back: header lines and pieces of the body as they arrived, the status,
and why the exchange failed, if it did. -/
structure Reply where
  lines : List String := []
  chunks : List Payload := []
  status : Int := 200
  failure : Option String := none
  deriving DecidableEq, Repr

/-- A transport in a world `σ`. -/
structure Transport (σ : Type) where
  /-- Whether the transport can be used at all. -/
  available : σ → Bool
  perform : Exchange → σ → Reply × σ

namespace Client

structure Options where
  timeoutSeconds : Int := 30
  maxRedirects : Int := 5
  userAgent : String := "siphon/1.0"
  /-- Headers for every request that has no value for them. -/
  defaults : Headers := []
  deriving DecidableEq, Repr

def exchange (o : Options) (r : Request) : Exchange :=
  { url := untilNul r.url
    method := if r.method = "GET" then none else some (untilNul r.method)
    lines := (r.headers.withDefaults o.defaults).map fun h => untilNul (Headers.line h)
    body := if r.body.isEmpty then none else some r.body
    timeoutSeconds := o.timeoutSeconds
    maxRedirects := o.maxRedirects
    userAgent := untilNul o.userAgent }

def unavailable : Error :=
  ⟨.requestFailed, "curl_easy_init failed"⟩

def failed (r : Request) (reason : String) : Error :=
  ⟨.requestFailed, "failed to make request " ++ r.method ++ " " ++ r.url ++ ": " ++ reason⟩

/-- The response that a reply to a request amounts to; its status has 32 bits. -/
def response (r : Request) (reply : Reply) : Response :=
  { status := reply.status.bmod 0x100000000
    url := r.url
    headers := reply.lines.foldl Headers.receiveLine []
    body := reply.chunks.flatten }

def outcome (r : Request) (reply : Reply) : Except Error Response :=
  match reply.failure with
  | some reason => .error (failed r (untilNul reason))
  | none => .ok (response r reply)

/-- A response with a status from 400 on is worth a warning. -/
def warnings (r : Request) : Except Error Response → List LogLine
  | .ok rsp =>
    if 400 ≤ rsp.status then
      [.warning (r.method ++ " " ++ r.url ++ " returned status " ++ toString rsp.status)]
    else []
  | .error _ => []

/-- Makes one exchange. -/
def send {σ : Type} (t : Transport σ) (o : Options) (r : Request) (w : σ) :
    Except Error Response × List LogLine × σ :=
  if t.available w then
    let (reply, w) := t.perform (exchange o r) w
    let result := outcome r reply
    (result, warnings r result, w)
  else (.error unavailable, [], w)

end Client

end Ingest.Http

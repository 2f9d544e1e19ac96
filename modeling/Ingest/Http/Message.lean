import Ingest.Text.Ascii

/-!
# Messages

Requests, responses and their headers. A header's name is looked up without regard to case, and the
first one with the name counts.

`Headers.receiveLine` is how a response's header lines build its headers: a status line starts the
headers of a new response, so only those of the last one remain.
-/

namespace Ingest

/-- The bytes of a body or of a record. -/
abbrev Payload := List UInt8

namespace Http

abbrev Headers := List (String × String)

namespace Headers

def sameName (a b : String) : Bool :=
  Text.sameIgnoringCase a.toList b.toList

/-- The value of the first header with a name; the empty text if there is none. -/
def value (hs : Headers) (name : String) : String :=
  match hs.find? fun h => sameName h.1 name with
  | some h => h.2
  | none => ""

/-- A request's headers, and each default for which the request has no value. -/
def withDefaults (request defaults : Headers) : Headers :=
  request ++ defaults.filter fun h => (request.value h.1).isEmpty

/-- A line without the line end characters at its end. -/
def chomp (line : List Char) : List Char :=
  Text.dropEndWhile (fun c => c == '\n' || c == '\r') line

/-- The name before the first colon of a line and the value after it, without the spaces and tabs
that the value starts with. -/
def ofLine? (line : List Char) : Option (String × String) :=
  (Text.cut [':'] line).map fun (name, value) =>
    (String.ofList name, String.ofList (value.dropWhile fun c => c == ' ' || c == '\t'))

/-- Takes one line of a response into the headers collected so far. A status line drops them, and a
line without a colon says nothing. -/
def receiveLine (hs : Headers) (line : String) : Headers :=
  let line := chomp line.toList
  if "HTTP/".toList.isPrefixOf line then []
  else
    match ofLine? line with
    | some h => hs ++ [h]
    | none => hs

/-- The line that sends a header. -/
def line (h : String × String) : String :=
  h.1 ++ ": " ++ h.2

end Headers

structure Request where
  method : String := "GET"
  url : String
  headers : Headers := []
  body : Payload := []
  deriving DecidableEq, Repr

structure Response where
  status : Int
  /-- The address that the request named. -/
  url : String
  headers : Headers
  body : Payload
  deriving DecidableEq, Repr

namespace Response

def header (r : Response) (name : String) : String :=
  r.headers.value name

end Response

/-- The path of an address: what stands before a query or a fragment and, if a scheme is named,
from the first slash after it. -/
def pathOf (url : String) : List Char :=
  let bare := url.toList.takeWhile fun c => c != '?' && c != '#'
  match Text.cut "://".toList bare with
  | some (_, rest) => rest.dropWhile (· != '/')
  | none => bare

end Http

end Ingest

import Ingest.Accept.Range

/-!
# Formats

The formats that a response body can be decoded from, and which one a `Content-Type` header asks
for: `Format.ofHeader` takes the first candidate that has a decoder. A blank header accepts JSON.
-/

namespace Ingest

inductive Format where
  | unknown
  | json
  deriving DecidableEq, Repr

namespace Format

def name : Format → String
  | json => "json"
  | unknown => "unknown"

/-- The name of the format with a number; a number without a format is unknown too. -/
def nameOfNumber (n : Int) : String :=
  if n = 1 then json.name else unknown.name

end Format

namespace Accept.MediaRange

/-- A range that JSON falls into. -/
def isJson (r : MediaRange) : Bool :=
  if r.type = "application" then r.subtype = "json" || r.subtype = "*"
  else r.type = "*" && r.subtype = "*"

end Accept.MediaRange

/-- The format of the first candidate of a header that has a decoder. -/
def Format.ofHeader (header : String) : Format :=
  if (Text.trim header.toList).isEmpty then .json
  else if (Accept.candidates header).any Accept.MediaRange.isJson then .json
  else .unknown

end Ingest

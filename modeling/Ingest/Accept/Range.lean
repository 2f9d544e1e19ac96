import Ingest.Accept.Ranking
import Ingest.Number.Reading

/-!
# Media ranges

A header such as `application/json;q=0.8, text/*` is a list of candidates separated by commas. Each
part contributes one `MediaRange` or none, and what it contributes depends on that part alone
(`MediaRange.ofPart?`).

A part has a type and a subtype around a slash, then parameters after semicolons. The parameter `q`
is the candidate's quality: a number from 0 to 1 that has to be read to its end. A part with a bad
quality, or whose last quality is zero, contributes nothing.
-/

namespace Ingest.Accept

structure MediaRange where
  type : String
  subtype : String
  quality : Binary64
  /-- The parameters other than `q`, in the order of the header. -/
  params : List (String × String)
  deriving DecidableEq, Repr

namespace MediaRange

/-- A quality that the value of a `q` parameter names: a number from 0 to 1. Reading stops at the
character with code 0, and the bounds refuse only what is a number outside them. -/
def quality? (value : List Char) : Option Binary64 :=
  if value.isEmpty then none
  else (Binary64.read? (Text.beforeNul value)).filter fun q => !q.isNegative && !q.exceedsOne

/-- A parameter's key in lower case and its value, without the blanks around them. Without an
equals sign the value is empty. -/
def keyValue (param : List Char) : List Char × List Char :=
  match Text.cut ['='] param with
  | some (key, value) => (Text.lower (Text.trim key), Text.trim value)
  | none => (Text.lower (Text.trim param), [])

/-- Reads one parameter into a candidate; none if it is a bad quality. A blank parameter says
nothing. -/
def readParam (r : MediaRange) (field : List Char) : Option MediaRange :=
  let param := Text.trim field
  if param.isEmpty then some r
  else
    let (key, value) := keyValue param
    if key = ['q'] then (quality? value).map fun q => { r with quality := q }
    else some { r with params := r.params ++ [(String.ofList key, String.ofList value)] }

/-- The type and subtype before the parameters, in lower case. A wildcard type has only the
wildcard subtype. -/
def ofMedia? (field : List Char) : Option MediaRange := do
  let (type, subtype) ← Text.cut ['/'] (Text.trim field)
  let type := Text.lower (Text.trim type)
  let subtype := Text.lower (Text.trim subtype)
  if type.isEmpty || subtype.isEmpty then none
  else if type = ['*'] ∧ subtype ≠ ['*'] then none
  else some ⟨String.ofList type, String.ofList subtype, .one, []⟩

/-- What one part of a header contributes. -/
def ofPart? (part : List Char) : Option MediaRange :=
  match part.splitOn ';' with
  | [] => none
  | media :: fields =>
    (ofMedia? media).bind fun r =>
      (fields.foldlM readParam r).filter fun r => !r.quality.isAtMostZero

def hasConcreteType (r : MediaRange) : Bool :=
  r.type != "*"

def hasConcreteSubtype (r : MediaRange) : Bool :=
  r.subtype != "*"

/-- A concrete type counts for more than a concrete subtype. -/
def specificity (r : MediaRange) : Nat :=
  (if r.hasConcreteType then 4 else 0) + (if r.hasConcreteSubtype then 2 else 0)

/-- Whether `a` has to stand before `b`: a greater quality, then a more specific range, then more
parameters. -/
def precedes (a b : MediaRange) : Bool :=
  if !a.quality.eq b.quality then b.quality.lt a.quality
  else if a.specificity ≠ b.specificity then b.specificity < a.specificity
  else b.params.length < a.params.length

end MediaRange

/-- What the parts of a header contribute, in header order. -/
def contributions (header : List Char) : List MediaRange :=
  (header.splitOn ',').filterMap MediaRange.ofPart?

/-- The candidates of a header in order of priority; header order decides among equals. -/
def candidates (header : String) : List MediaRange :=
  Ranking.sort MediaRange.precedes (contributions header.toList)

end Ingest.Accept

/-!
# Errors

An error has a code, which says what kind of thing went wrong, and a message for people. Wrapping
puts a context in front of the message and keeps the code. Each cause that several places report
has its wording here.
-/

namespace Ingest

inductive ErrorCode where
  | missingConfigField
  | missingRateLimitField
  | invalidRateLimit
  | noRequests
  | unableToParse
  | requestFailed
  | unsupportedDecodeType
  | storageFailed
  | transactionFailed
  | cancelled
  | invalidState
  deriving DecidableEq, Repr

namespace ErrorCode

/-- The codes in the order of their numbers. -/
def all : List ErrorCode :=
  [missingConfigField, missingRateLimitField, invalidRateLimit, noRequests, unableToParse,
    requestFailed, unsupportedDecodeType, storageFailed, transactionFailed, cancelled, invalidState]

/-- The stage of the work that a code belongs to. -/
def category : ErrorCode → String
  | missingConfigField | missingRateLimitField | invalidRateLimit | noRequests | unableToParse =>
    "configuration"
  | requestFailed => "transport"
  | unsupportedDecodeType => "negotiation"
  | storageFailed | transactionFailed => "persistence"
  | cancelled | invalidState => "lifecycle"

/-- The code with a number. -/
def ofNumber? (n : Int) : Option ErrorCode :=
  if 0 ≤ n then all[n.toNat]? else none

/-- The category of the code with a number; a number without a code has the category `unknown`. -/
def categoryOfNumber (n : Int) : String :=
  match ofNumber? n with
  | some c => c.category
  | none => "unknown"

end ErrorCode

structure Error where
  code : ErrorCode
  message : String
  deriving DecidableEq, Repr

namespace Error

/-- The same error, said to have happened in `context`. -/
def wrap (e : Error) (context : String) : Error :=
  { e with message := context ++ ": " ++ e.message }

def missingField (field : String) : Error :=
  ⟨.missingConfigField, "missing config field: " ++ field⟩

def missingRateField (field : String) : Error :=
  ⟨.missingRateLimitField, "missing rate limit field: " ++ field⟩

def unreadable (name : String) : Error :=
  ⟨.unableToParse, name ++ " unable to parse"⟩

/-- What a wait answers once its context is cancelled. -/
def contextCancelled : Error :=
  ⟨.cancelled, "context canceled"⟩

end Error

end Ingest

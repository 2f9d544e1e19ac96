import Ingest.Error

/-!
# Rate limits

A limit of so many requests per interval, with a burst that may be saved up.
-/

namespace Ingest

structure RateLimit where
  requests : Int
  intervalMs : Int
  burst : Int := 1
  deriving DecidableEq, Repr

namespace RateLimit

def invalid (reason : String) : Error :=
  ⟨.invalidRateLimit, "invalid rate limit configuration: " ++ reason⟩

/-- What is wrong with a limit: requests and interval have to be positive, and the burst may not be
negative. -/
def problem? (r : RateLimit) : Option Error :=
  if r.requests ≤ 0 then some (invalid "requests must be positive")
  else if r.intervalMs ≤ 0 then some (invalid "interval must be positive")
  else if r.burst < 0 then some (invalid "burst must not be negative")
  else none

/-- The burst that holds: without any, nothing could pass. -/
def effectiveBurst (r : RateLimit) : Int :=
  max r.burst 1

end RateLimit

end Ingest

import Ingest.Rate.Limit

/-!
# Token buckets

A bucket holds at most its burst of tokens and gains them at a steady rate. Whoever waits takes a
token at once, even one that is not there yet, and then sleeps until it is; a sleeper who is
cancelled hands the token back. So sleepers are served in the order in which they came, unless one
of them is cancelled.

Time is a whole number of nanoseconds, read off a clock of 64 bits, and a sleep that is too long for
this clock is over at once. The tokens are counted in any type with the operations of `Quantity`:
the running program counts in floating point, and laws hold over the rationals.
-/

namespace Ingest

/-- Numbers that a bucket can count tokens in. -/
class Quantity (α : Type) extends Add α, Sub α, Mul α, Div α, Neg α where
  ofInt : Int → α
  /-- The least whole number that is not below. -/
  ceil : α → Int
  lt : α → α → Bool

instance : Quantity Float where
  ofInt := Float.ofInt
  ceil x :=
    let whole := x.ceil
    if whole < 0 then -Int.ofNat (-whole).toUInt64.toNat else Int.ofNat whole.toUInt64.toNat
  lt x y := x < y

instance : Quantity Rat where
  ofInt n := n
  ceil := Rat.ceil
  lt x y := x < y

namespace Rate

/-- The nanoseconds of a second. -/
def second : Int := 1000000000

/-- The first time that is too late for the clock. -/
def clockEnd : Int := 9223372036854775808

/-- When a delay that begins `now` is over, in the 64 bits of the clock. A delay that they cannot hold
is taken for one into the past. -/
def deadline (now delay : Int) : Int :=
  (now + if delay < clockEnd then delay else 1 - clockEnd).bmod 18446744073709551616

/-- When a wait may go on. -/
inductive Admission where
  | now
  | later (ready : Int)
  deriving DecidableEq, Repr

structure Bucket (α : Type) where
  /-- Tokens per second. -/
  rate : α
  burst : Int
  tokens : α
  /-- When `tokens` was brought up to date. -/
  last : Int
  deriving Repr

namespace Bucket

variable {α : Type} [Quantity α]

open Quantity

def least (a b : α) : α :=
  if lt b a then b else a

/-- The full bucket of a limit. -/
def ofLimit (r : RateLimit) (now : Int) : Bucket α :=
  { rate := ofInt r.requests * ofInt 1000 / ofInt r.intervalMs
    burst := r.effectiveBurst
    tokens := ofInt r.effectiveBurst
    last := now }

/-- Brings the tokens up to date. -/
def refill (b : Bucket α) (now : Int) : Bucket α :=
  if now ≤ b.last then b
  else
    { b with
      tokens := least (ofInt b.burst) (b.tokens + ofInt (now - b.last) / ofInt second * b.rate)
      last := now }

/-- Takes a token: it may be there now, or else at a later time. -/
def reserve (b : Bucket α) (now : Int) : Admission × Bucket α :=
  let b := b.refill now
  let b := { b with tokens := b.tokens - ofInt 1 }
  if lt b.tokens (ofInt 0) then
    (.later (deadline now (ceil (-b.tokens / b.rate * ofInt second))), b)
  else (.now, b)

/-- Hands a token back. -/
def handBack (b : Bucket α) (now : Int) : Bucket α :=
  let b := b.refill now
  { b with tokens := least (ofInt b.burst) (b.tokens + ofInt 1) }

end Bucket

/-- What a wait answers that was cancelled in its sleep. -/
def sleepCancelled : Error :=
  ⟨.cancelled, "rate limiter wait: context canceled"⟩

/-- A bucket with a clock that moves on only while someone sleeps. -/
structure Meter (α : Type) where
  bucket : Bucket α
  now : Int := 0
  deriving Repr

namespace Meter

variable {α : Type} [Quantity α]

def ofLimit (r : RateLimit) : Meter α :=
  { bucket := .ofLimit r 0 }

def reserve (m : Meter α) : Admission × Meter α :=
  let (admission, bucket) := m.bucket.reserve m.now
  (admission, { m with bucket := bucket })

/-- Lets the time pass until `ready`. -/
def sleepUntil (m : Meter α) (ready : Int) : Meter α :=
  { m with now := max m.now ready }

def handBack (m : Meter α) : Meter α :=
  { m with bucket := m.bucket.handBack m.now }

/-- Waits for a token; none is taken if the context is cancelled already. -/
def wait (m : Meter α) (cancelled : Bool) : Option Error × Meter α :=
  if cancelled then (some .contextCancelled, m)
  else
    match m.reserve with
    | (.now, m) => (none, m)
    | (.later ready, m) => (none, m.sleepUntil ready)

/-- Waits for a token and is cancelled once asleep. The first component says whether it came to
that. -/
def waitCancelledAsleep (m : Meter α) (cancelled : Bool) : Bool × Option Error × Meter α :=
  if cancelled then (false, some .contextCancelled, m)
  else
    match m.reserve with
    | (.now, m) => (false, none, m)
    | (.later ready, m) =>
      if ready ≤ m.now then (false, none, m) else (true, some sleepCancelled, m.handBack)

end Meter

end Rate

end Ingest

import Ingest.Rate.Bucket

/-!
# Lines at a bucket

Any number of waits at one bucket. A wait takes a token when it comes, and either goes on at once or
sleeps until the token is there. A sleeper whose context is cancelled hands its token back, and the
others keep the times that they were told.

The bucket is held by one at a time, who reads the clock meanwhile, so that the readings never
decrease. A wait whose context is cancelled when it comes does not get as far as the bucket.
-/

namespace Ingest.Rate

/-- What has become of a wait. -/
inductive Fate where
  | asleep
  | admitted
  /-- Cancelled in its sleep, when so many waits had come in all. -/
  | left (after : Nat)
  deriving DecidableEq, Repr

/-- A wait that has taken a token. -/
structure Visit (α : Type) where
  /-- When it came. -/
  called : Int
  /-- When it may go on. -/
  ready : Int
  fate : Fate
  /-- The tokens that it left in the bucket; no step looks at them. -/
  balance : α
  deriving Repr

structure Line (α : Type) where
  bucket : Bucket α
  /-- The latest reading of the clock. -/
  now : Int
  /-- The waits in the order in which they came. -/
  visits : List (Visit α) := []
  deriving Repr

namespace Line

variable {α : Type} [Quantity α]

inductive Event where
  /-- A wait comes. -/
  | come (now : Int)
  /-- A sleeper goes on. -/
  | wake (k : Nat) (now : Int)
  /-- A sleeper is cancelled. -/
  | leave (k : Nat) (now : Int)
  deriving DecidableEq, Repr

/-- What the clock shows at an event. -/
def Event.now : Event → Int
  | come now | wake _ now | leave _ now => now

/-- Nobody has come yet to the full bucket of a limit. -/
def ofLimit (r : RateLimit) (now : Int) : Line α :=
  { bucket := .ofLimit r now, now := now }

def come (l : Line α) (now : Int) : Line α :=
  let (admission, bucket) := l.bucket.reserve now
  let visit : Visit α :=
    match admission with
    | .now => { called := now, ready := now, fate := .admitted, balance := bucket.tokens }
    | .later ready => { called := now, ready := ready, fate := .asleep, balance := bucket.tokens }
  { bucket := bucket, now := now, visits := l.visits ++ [visit] }

/-- The sleeper with number `k`, if there is one. -/
def sleeper? (l : Line α) (k : Nat) : Option (Visit α) :=
  match l.visits[k]? with
  | none => none
  | some v => if v.fate = .asleep then some v else none

/-- The sleeper with number `k` goes on. None before its time. -/
def wake? (l : Line α) (k : Nat) (now : Int) : Option (Line α) :=
  match l.sleeper? k with
  | none => none
  | some v =>
    if v.ready ≤ now then
      some { l with now := now, visits := l.visits.set k { v with fate := .admitted } }
    else none

/-- The sleeper with number `k` is cancelled, before its time or after it. -/
def leave? (l : Line α) (k : Nat) (now : Int) : Option (Line α) :=
  match l.sleeper? k with
  | none => none
  | some v =>
    some
      { bucket := l.bucket.handBack now
        now := now
        visits := l.visits.set k { v with fate := .left l.visits.length } }

/-- A line after an event. None if it cannot happen. -/
def act? (l : Line α) (e : Event) : Option (Line α) :=
  if l.now ≤ e.now ∧ e.now < clockEnd then
    match e with
    | .come now => some (l.come now)
    | .wake k now => l.wake? k now
    | .leave k now => l.leave? k now
  else none

end Line

end Ingest.Rate

/-!
# Queues

A bounded queue between producers and consumers. A send waits while the queue is full, a receive
while it is empty; closing ends both waits, and what is buffered is still received before a receiver
learns that the queue is closed. An operation that would have to wait answers `none`.
-/

namespace Ingest

structure Queue (α : Type) where
  capacity : Nat
  items : List α := []
  closed : Bool := false
  deriving DecidableEq, Repr

/-- What a receive brings. -/
inductive Received (α : Type) where
  | value (a : α)
  | closed
  | cancelled
  deriving DecidableEq, Repr

namespace Queue

variable {α : Type}

/-- An open queue with room for `n` items, and at least for one. -/
def ofCapacity (n : Nat) : Queue α :=
  { capacity := max n 1 }

def isFull (q : Queue α) : Bool :=
  q.capacity ≤ q.items.length

/-- Sends an item: whether it was accepted. -/
def send? (q : Queue α) (a : α) : Option (Bool × Queue α) :=
  if q.closed then some (false, q)
  else if q.isFull then none
  else some (true, { q with items := q.items ++ [a] })

/-- Receives the item that was accepted first. -/
def receive? (q : Queue α) : Option (Received α × Queue α) :=
  match q.items with
  | a :: rest => some (.value a, { q with items := rest })
  | [] => if q.closed then some (.closed, q) else none

/-- Receives unless `cancelled`, which goes before anything buffered. -/
def receiveUnless? (q : Queue α) (cancelled : Bool) : Option (Received α × Queue α) :=
  if cancelled then some (.cancelled, q) else q.receive?

/-- Closes the queue: whether this call did it. -/
def close (q : Queue α) : Bool × Queue α :=
  (!q.closed, { q with closed := true })

end Queue

end Ingest

import Ingest.Signal.Basic
import Ingest.Catalog

/-!
# Registries of contexts

A context is known by names, its handles, any number of which may share it. It can be derived from
another, and is then cancelled when that one is; for that it keeps a listener there, which it takes
away once it is cancelled itself or nobody holds it any more.

A cancellation runs the listeners one after the other. A listener notes its label and may then
cancel contexts and add further listeners, and the entry of a derived context stands for that
context's whole cancellation. `Registry.settle` works through what there is to do in this order; its
bound is `Registry.load`, which every single thing done makes smaller.
-/

namespace Ingest

/-- What is done when a listener runs: its label is noted, then the context with the name in
`cancels`, if there is one, is cancelled, and then a further listener is added. A listener can do any
number of such things one after the other. -/
inductive Listener where
  | note (label : String) (cancels : Option String)
  | noteThen (label : String) (cancels : Option String) (on : String) (following : Listener)
  | andThen (first second : Listener)
  deriving DecidableEq, Repr

namespace Listener

/-- A bound on what running the listener can lead to. -/
def load : Listener → Nat
  | note _ _ => 3
  | noteThen _ _ _ following => following.load + 4
  | andThen first second => first.load + second.load + 1

end Listener

namespace Signal

/-- An entry among a context's listeners. -/
inductive Entry where
  | listener (l : Listener)
  /-- The context with this number was derived from the one that holds the entry. -/
  | derived (cell : Nat)
  deriving DecidableEq, Repr

def Entry.load : Entry → Nat
  | .listener l => l.load
  | .derived _ => 1

/-- A context: its signal and, if it is derived, where its entry stands. -/
structure Cell where
  signal : Signal Entry := {}
  source : Option (Nat × Nat) := none
  /-- The context that it was derived from; no step looks at it. -/
  origin : Option Nat := none
  deriving DecidableEq, Repr

def Cell.load (c : Cell) : Nat :=
  c.signal.listeners.foldr (fun e n => e.2.load + n) 0

/-- A listener that is taken away again when its guard goes; the guard holds the context. -/
structure Guard where
  cell : Nat
  listener : Nat
  deriving DecidableEq, Repr

/-- One thing to do in the course of a cancellation. -/
inductive Task where
  | cancel (cell : Nat)
  | cancelNamed (name : String)
  | run (l : Listener)
  | add (name : String) (l : Listener)
  deriving DecidableEq, Repr

def Task.load : Task → Nat
  | .cancel _ => 1
  | .cancelNamed _ => 2
  | .run l => l.load
  | .add _ l => l.load + 1

structure Registry where
  cells : List Cell := []
  handles : Catalog Nat := {}
  guards : Catalog Guard := {}
  /-- The labels of the listeners that ran, in order. -/
  fired : List String := []
  deriving DecidableEq, Repr

namespace Registry

def cell (r : Registry) (i : Nat) : Cell :=
  match r.cells[i]? with
  | some c => c
  | none => {}

def modifyCell (r : Registry) (i : Nat) (f : Cell → Cell) : Registry :=
  { r with cells := r.cells.modify i f }

/-- The number of the context with a name. -/
def named? (r : Registry) (name : String) : Option Nat :=
  r.handles.get? name

def isCancelled (r : Registry) (i : Nat) : Bool :=
  (r.cell i).signal.cancelled

def listenerCount (r : Registry) (i : Nat) : Nat :=
  (r.cell i).signal.listeners.length

/-- Takes the entry of a derived context away from the context it was derived from. -/
def detach (r : Registry) (i : Nat) : Registry :=
  match (r.cell i).source with
  | none => r
  | some (above, listener) =>
    (r.modifyCell above fun c => { c with signal := c.signal.forget listener }).modifyCell i
      fun c => { c with source := none }

def taskOf : Entry → Task
  | .listener l => .run l
  | .derived i => .cancel i

/-- Does one thing: what it leaves to be done at once, and the registry after it. -/
def perform (r : Registry) : Task → List Task × Registry
  | .cancel i =>
    if r.isCancelled i then ([], r)
    else
      let (entries, signal) := (r.cell i).signal.cancel
      (entries.map taskOf, (r.modifyCell i fun c => { c with signal := signal }).detach i)
  | .cancelNamed name =>
    match r.named? name with
    | some i => ([.cancel i], r)
    | none => ([], r)
  | .run (.note label cancels) =>
    ((cancels.map Task.cancelNamed).toList, { r with fired := r.fired ++ [label] })
  | .run (.noteThen label cancels on following) =>
    ((cancels.map Task.cancelNamed).toList ++ [.add on following],
      { r with fired := r.fired ++ [label] })
  | .run (.andThen first second) => ([.run first, .run second], r)
  | .add name l =>
    match r.named? name with
    | none => ([], r)
    | some i =>
      if r.isCancelled i then ([.run l], r)
      else ([], r.modifyCell i fun c => { c with signal := (c.signal.listen (.listener l)).2 })

/-- A bound on how much is left to do. -/
def load (r : Registry) (ts : List Task) : Nat :=
  r.cells.foldr (fun c n => c.load + n) 0 + ts.foldr (fun t n => t.load + n) 0

/-- Does at most `bound` things, each with all that it leads to before the next. -/
def settleWithin : Nat → List Task → Registry → Registry
  | 0, _, r => r
  | _ + 1, [], r => r
  | bound + 1, t :: ts, r =>
    let (more, r) := r.perform t
    settleWithin bound (more ++ ts) r

/-- Does everything, each thing with all that it leads to before the next. -/
def settle (ts : List Task) (r : Registry) : Registry :=
  settleWithin (r.load ts) ts r

/-- Whether anybody holds a context. -/
def isHeld (r : Registry) (i : Nat) : Bool :=
  r.handles.entries.any (fun e => e.2 == i) || r.guards.entries.any (fun e => e.2.cell == i)

/-- Lets go of a context: it ends if nobody holds it any more. -/
def release (r : Registry) (i : Nat) : Registry :=
  if r.isHeld i then r else r.detach i

/-- Makes `name` a handle of a context and lets go of the one it was a handle of before. -/
def bindName (r : Registry) (name : String) (i : Nat) : Registry :=
  let before := r.named? name
  let r := { r with handles := r.handles.set name i }
  match before with
  | some j => r.release j
  | none => r

/-- A new context. -/
def create (r : Registry) (name : String) : Registry :=
  ({ r with cells := r.cells ++ [{}] } : Registry).bindName name r.cells.length

/-- A new context derived from another: cancelled if that one is, and else with an entry there. -/
def derive (r : Registry) (i : Nat) (name : String) : Registry :=
  let fresh := r.cells.length
  if r.isCancelled i then
    let ended : Cell := { signal := { cancelled := true }, origin := some i }
    ({ r with cells := r.cells ++ [ended] } : Registry).bindName name fresh
  else
    let (listener, signal) := (r.cell i).signal.listen (.derived fresh)
    let r := r.modifyCell i fun c => { c with signal := signal }
    let derived : Cell := { source := some (i, listener), origin := some i }
    ({ r with cells := r.cells ++ [derived] } : Registry).bindName name fresh

/-- A further handle. -/
def share (r : Registry) (i : Nat) (name : String) : Registry :=
  r.bindName name i

/-- Forgets a handle. -/
def dropName (r : Registry) (name : String) : Registry :=
  match r.named? name with
  | some i => ({ r with handles := r.handles.erase name } : Registry).release i
  | none => r

def cancel (r : Registry) (i : Nat) : Registry :=
  r.settle [.cancel i]

/-- Adds a listener: its number, or 0 if the context is cancelled and the listener ran at once. -/
def listen (r : Registry) (i : Nat) (l : Listener) : Nat × Registry :=
  if r.isCancelled i then (0, r.settle [.run l])
  else
    let (id, signal) := (r.cell i).signal.listen (.listener l)
    (id, r.modifyCell i fun c => { c with signal := signal })

def forget (r : Registry) (i : Nat) (listener : Nat) : Registry :=
  r.modifyCell i fun c => { c with signal := c.signal.forget listener }

/-- Ends a guard: its listener goes, and then its hold on the context. -/
def endGuard (r : Registry) (g : Guard) : Registry :=
  (r.forget g.cell g.listener).release g.cell

/-- Sets a guard with a listener, in place of one of its name. -/
def guardWith (r : Registry) (i : Nat) (name : String) (l : Listener) : Registry :=
  let (listener, r) := r.listen i l
  let before := r.guards.get? name
  let r := { r with guards := r.guards.set name ⟨i, listener⟩ }
  match before with
  | some g => r.endGuard g
  | none => r

def dropGuard (r : Registry) (name : String) : Registry :=
  match r.guards.get? name with
  | some g => ({ r with guards := r.guards.erase name } : Registry).endGuard g
  | none => r

/-- What a registry can be told. A context is meant by one of its handles (`on`), and without such a
handle nothing happens. -/
inductive Command where
  | create (name : String)
  | derive (on name : String)
  | share (on name : String)
  | dropName (name : String)
  | cancel (on : String)
  | listen (on : String) (l : Listener)
  | forget (on : String) (listener : Nat)
  | guardWith (on name : String) (l : Listener)
  | dropGuard (name : String)
  deriving DecidableEq, Repr

/-- Does what it is told, and gives the number of a listener that was added. -/
def obey (r : Registry) : Command → Option Nat × Registry
  | .create name => (none, r.create name)
  | .derive on name => (none, match r.named? on with | some i => r.derive i name | none => r)
  | .share on name => (none, match r.named? on with | some i => r.share i name | none => r)
  | .dropName name => (none, r.dropName name)
  | .cancel on => (none, match r.named? on with | some i => r.cancel i | none => r)
  | .listen on l =>
    match r.named? on with
    | some i => (some (r.listen i l).1, (r.listen i l).2)
    | none => (none, r)
  | .forget on listener =>
    (none, match r.named? on with | some i => r.forget i listener | none => r)
  | .guardWith on name l =>
    (none, match r.named? on with | some i => r.guardWith i name l | none => r)
  | .dropGuard name => (none, r.dropGuard name)

end Registry

end Signal

end Ingest

import Ingest.Store.Work

/-!
# Sessions

A storage that comes and goes, and the transactions on it, driven by commands one after the other,
each under a context of its own.
-/

namespace Ingest.Store

inductive Command where
  | step (context : String) (a : Step)
  | send (name : String) (unit : Work)
  /-- Opens a storage by its address, in place of the one that is there. -/
  | openAt (address : String)
  /-- A PostgreSQL storage that is not connected yet, in place of the one that is there. -/
  | unconnected (conninfo : String)
  | connect
  /-- A transaction on nothing whose engine answers from a script. -/
  | beginScripted (context name : String) (commit rollback : Option Error)
  /-- Ends the transactions and then the storage. -/
  | dropAll

/-- What a command answers. -/
inductive Reply where
  | nothing
  | outcome (r : Outcome)
  /-- A storage was opened: its type. -/
  | opened (type : String)
  | result (e : Option Error)
  deriving Repr

structure Session (σ : Type) where
  store : Option Store
  transactions : Catalog Transaction := {}
  around : Surroundings σ

namespace Session

variable {σ : Type}

/-- The session's desk. Without a storage there are only transactions on nothing, and no storage
comes to be. -/
def desk (n : Session σ) : Desk σ :=
  { store := n.store.getD (.memory {}), transactions := n.transactions, around := n.around }

/-- The session with its desk as it is now. -/
def withDesk (n : Session σ) (d : Desk σ) : Session σ :=
  { store := n.store.map fun _ => d.store, transactions := d.transactions, around := d.around }

/-- Whether a step is made on the storage itself. -/
def needsStore : Step → Bool
  | .call _ | .begin _ => true
  | .cancel | .commit _ | .rollback _ | .drop _ => false

/-- Puts a storage in place of the one that is there, which ends. -/
def replaceStore (srv : Postgres.Server σ) (n : Session σ) (s : Store) : Session σ :=
  { n with
    store := some s
    around :=
      match n.store with
      | some before => { n.around with server := before.release srv n.around.server }
      | none => n.around }

/-- Ends the transactions and then the storage. -/
def dropAll (srv : Postgres.Server σ) (n : Session σ) : Session σ :=
  let d := n.desk.dropAll srv
  { store := none
    around :=
      match n.store with
      | some s => { d.around with server := s.release srv d.around.server }
      | none => d.around }

def obey (srv : Postgres.Server σ) (n : Session σ) : Command → Reply × Session σ
  | .step context a =>
    if n.store.isNone && needsStore a then (.nothing, n)
    else
      match n.desk.step srv context a with
      | (r, d) => (.outcome r, n.withDesk d)
  | .send name unit =>
    match n.desk.send (unit.act srv) name with
    | (r, d) => (.outcome r, n.withDesk d)
  | .openAt address =>
    match Store.openAt srv address n.around.server with
    | (.error e, w) => (.result (some e), { n with around := { n.around with server := w } })
    | (.ok s, w) =>
      (.opened s.typeName,
        ({ n with around := { n.around with server := w } } : Session σ).replaceStore srv s)
  | .unconnected conninfo => (.result none, n.replaceStore srv (.postgres { conninfo := conninfo }))
  | .connect =>
    match n.store with
    | some (.postgres p) =>
      match p.connect srv n.around.server with
      | (e, p, w) =>
        (.result e, { n with store := some (.postgres p), around := { n.around with server := w } })
    | _ => (.nothing, n)
  | .beginScripted context name commit rollback =>
    (.result none,
      n.withDesk <| n.desk.keep srv name
        { context := context, scope := .memory {}, engine := .scripted commit rollback })
  | .dropAll => (.nothing, n.dropAll srv)

end Session

end Ingest.Store

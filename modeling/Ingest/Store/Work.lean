import Ingest.Store.Transaction

/-!
# Units of work

Whoever works with a storage calls it and keeps transactions on it, each under a name (`Desk`). A
transaction that takes the name of another ends that one's life once it has begun itself.

A unit of work does the same with the scope of its transaction. It is a program that goes on as each
outcome tells it to (`Work`), so that it may begin transactions on the scope, send units to them and
end them, to any depth. What it has begun ends with it.
-/

namespace Ingest.Store

/-- One step of whoever works with a storage, other than to send a unit. -/
inductive Step where
  | call (c : Call)
  /-- Cancels the context that one works under. -/
  | cancel
  | begin (name : String)
  | commit (name : String)
  | rollback (name : String)
  | drop (name : String)
  deriving DecidableEq, Repr

/-- What came of a step. -/
inductive Outcome where
  /-- There was nothing to do it to. -/
  | nothing
  | called (c : Call) (a : Answer)
  | cancelled
  | began (name : String) (e : Option Error)
  /-- A unit ran: what came of its steps, and the error that it returned. -/
  | ran (name : String) (steps : List Outcome) (e : Option Error)
  /-- A unit was sent and did not run. -/
  | skipped (name : String)
  | committed (name : String) (e : Option Error)
  | rolledBack (name : String) (e : Option Error)
  | dropped (name : String)
  deriving Repr

def Outcome.error? : Outcome → Option Error
  | called _ a => a.error?
  | began _ e | committed _ e | rolledBack _ e => e
  | nothing | cancelled | ran _ _ _ | skipped _ | dropped _ => none

inductive Work where
  /-- The end, with the error that the unit returns. -/
  | done (e : Option Error)
  | step (a : Step) (next : Outcome → Work)
  | send (name : String) (unit : Work) (next : Outcome → Work)

/-- Calls one after the other, up to the first that fails, whose error the unit returns. -/
def Work.calls : List Call → Work
  | [] => .done none
  | c :: cs => .step (.call c) fun r =>
    match r.error? with
    | some e => .done (some e)
    | none => calls cs

/-- A storage and the transactions on it. -/
structure Desk (σ : Type) where
  store : Store
  transactions : Catalog Transaction := {}
  around : Surroundings σ

namespace Desk

variable {σ : Type}

/-- Keeps a transaction under a name, in place of one that has the name and now ends. -/
def keep (srv : Postgres.Server σ) (d : Desk σ) (name : String) (t : Transaction) : Desk σ :=
  { d with
    transactions := d.transactions.set name t
    around :=
      match d.transactions.get? name with
      | some before => before.drop srv d.around
      | none => d.around }

/-- Ends the transactions, the last name first. -/
def dropAll (srv : Postgres.Server σ) (d : Desk σ) : Desk σ :=
  { d with
    transactions := {}
    around := d.transactions.entries.foldr (fun e o => e.2.drop srv o) d.around }

def step (srv : Postgres.Server σ) (context : String) (d : Desk σ) : Step → Outcome × Desk σ
  | .call c =>
    match d.store.perform srv (d.around.isCancelled context) c d.around.server with
    | (a, s, w) => (.called c a, { d with store := s, around := { d.around with server := w } })
  | .cancel => (.cancelled, { d with around := d.around.cancel context })
  | .begin name =>
    match d.store.begin srv context d.around with
    | (.error e, o) => (.began name (some e), { d with around := o })
    | (.ok t, o) => (.began name none, ({ d with around := o } : Desk σ).keep srv name t)
  | .commit name =>
    match d.transactions.get? name with
    | none => (.nothing, d)
    | some t =>
      match t.commit srv d.store d.around with
      | (e, s, t, o) =>
        (.committed name e,
          { store := s, transactions := d.transactions.set name t, around := o })
  | .rollback name =>
    match d.transactions.get? name with
    | none => (.nothing, d)
    | some t =>
      match t.rollback srv d.around with
      | (e, t, o) =>
        (.rolledBack name e, { d with transactions := d.transactions.set name t, around := o })
  | .drop name =>
    match d.transactions.get? name with
    | none => (.nothing, d)
    | some t =>
      (.dropped name,
        { d with transactions := d.transactions.erase name, around := t.drop srv d.around })

/-- Sends a unit to the transaction of a name. -/
def send (work : Transaction.Action σ (List Outcome)) (name : String) (d : Desk σ) :
    Outcome × Desk σ :=
  match d.transactions.get? name with
  | none => (.nothing, d)
  | some t =>
    match t.send work d.around with
    | (answer, t, o) =>
      let d := { d with transactions := d.transactions.set name t, around := o }
      match answer with
      | some (steps, e) => (.ran name steps e, d)
      | none => (.skipped name, d)

/-- What is done at a desk, as a unit: at a desk of its own over the scope, where the transactions
that are left end with the unit. -/
def apart (srv : Postgres.Server σ)
    (work : String → Desk σ → List Outcome × Option Error × Desk σ) :
    Transaction.Action σ (List Outcome) :=
  fun context scope o =>
    match work context { store := scope, around := o } with
    | (rs, e, d) => let d := d.dropAll srv; (rs, e, d.store, d.around)

end Desk

namespace Work

variable {σ : Type}

/-- Runs a unit at a desk, up to its end. -/
def run (srv : Postgres.Server σ) (context : String) :
    Work → Desk σ → List Outcome × Option Error × Desk σ
  | done e, d => ([], e, d)
  | step a next, d =>
    match d.step srv context a with
    | (r, d) =>
      match run srv context (next r) d with
      | (rs, e, d) => (r :: rs, e, d)
  | send name unit next, d =>
    match d.send (Desk.apart srv fun context d => run srv context unit d) name with
    | (r, d) =>
      match run srv context (next r) d with
      | (rs, e, d) => (r :: rs, e, d)

/-- A unit as a transaction takes it. -/
def act (srv : Postgres.Server σ) (unit : Work) : Transaction.Action σ (List Outcome) :=
  Desk.apart srv fun context d => unit.run srv context d

end Work

end Ingest.Store

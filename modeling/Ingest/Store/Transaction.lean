import Ingest.Log
import Ingest.Store.Any

/-!
# Transactions

A transaction runs each unit of work as it is sent, on a scope of its own: a storage in memory that
is filled apart and merged at the commit, or a connection of its own between `BEGIN` and `COMMIT`.
After the first failure later units are skipped, and the commit becomes a rollback that reports it.

`Transaction.send` takes any unit of work, whatever it does with the scope.
-/

namespace Ingest.Store

/-- The two calls that end a transaction on the side of the engine. -/
inductive EngineCall where
  | commit
  | rollback
  deriving DecidableEq, Repr

/-- What lies around storages and transactions. -/
structure Surroundings (σ : Type) where
  server : σ
  /-- The contexts that have been cancelled. -/
  cancelled : List String := []
  log : List LogLine := []
  /-- The calls to engines that answer from a script. -/
  calls : List EngineCall := []

namespace Surroundings

variable {σ : Type}

def isCancelled (o : Surroundings σ) (context : String) : Bool :=
  o.cancelled.contains context

def cancel (o : Surroundings σ) (context : String) : Surroundings σ :=
  { o with cancelled := context :: o.cancelled }

def warn (o : Surroundings σ) (text : String) : Surroundings σ :=
  { o with log := o.log ++ [.warning ("transaction: " ++ text)] }

/-- Warns of an error, if there is one. -/
def warnOf (o : Surroundings σ) (occasion : String) : Option Error → Surroundings σ
  | some e => o.warn (occasion ++ ": " ++ e.message)
  | none => o

end Surroundings

/-- How the engine commits and rolls back. -/
inductive Engine where
  /-- As the scope's kind of storage does. -/
  | scope
  /-- As the script says: the error of each call. -/
  | scripted (commit rollback : Option Error)
  deriving DecidableEq, Repr

structure Transaction where
  context : String
  scope : Store
  engine : Engine := .scope
  failure : Option Error := none
  finished : Bool := false
  deriving DecidableEq, Repr

/-- Starts a transaction on a storage. -/
def begin {σ : Type} (srv : Postgres.Server σ) (context : String) (s : Store)
    (o : Surroundings σ) : Except Error Transaction × Surroundings σ :=
  if o.isCancelled context then (.error .contextCancelled, o)
  else
    match s with
    | memory m =>
      if m.closed then (.error Memory.closedError, o)
      else (.ok { context := context, scope := .memory m.stage }, o)
    | postgres p =>
      match ({ conninfo := p.conninfo } : Postgres).connect srv o.server with
      | (some e, _, w) => (.error e, { o with server := w })
      | (none, p, w) =>
        match p.command srv .start w with
        | (some e, w) => (.error e, { o with server := (p.close srv w).2 })
        | (none, w) => (.ok { context := context, scope := .postgres p }, { o with server := w })

namespace Transaction

variable {σ ρ : Type}

/-- A unit of work: from the transaction's context and scope to an answer, the error that the unit
returns, and what it leaves. -/
abbrev Action (σ ρ : Type) :=
  String → Store → Surroundings σ → ρ × Option Error × Store × Surroundings σ

/-- The engine's commit; what it does to the storage that the transaction was started on. -/
def engineCommit (srv : Postgres.Server σ) (t : Transaction) (parent : Store)
    (o : Surroundings σ) : Option Error × Store × Surroundings σ :=
  match t.engine with
  | .scripted answer _ => (answer, parent, { o with calls := o.calls ++ [.commit] })
  | .scope =>
    match t.scope, parent with
    | .memory staged, .memory m => (none, .memory (m.merge staged), o)
    | .memory _, .postgres p => (none, .postgres p, o)
    | .postgres p, parent =>
      match p.command srv .commit o.server with
      | (e, w) => (e, parent, { o with server := w })

def engineRollback (srv : Postgres.Server σ) (t : Transaction) (o : Surroundings σ) :
    Option Error × Transaction × Surroundings σ :=
  match t.engine with
  | .scripted _ answer => (answer, t, { o with calls := o.calls ++ [.rollback] })
  | .scope =>
    match t.scope with
    | .memory staged => (none, { t with scope := .memory staged.discard }, o)
    | .postgres p =>
      match p.command srv .rollback o.server with
      | (e, w) => (e, t, { o with server := w })

/-- The failure of a unit, as the transaction keeps it. -/
def unitFailure (e : Error) : Error :=
  ⟨.transactionFailed, e.message⟩

/-- Sends a unit: its answer and its error. It runs unless the transaction is finished or has failed or
its context is cancelled; no answer means that it did not. -/
def send (work : Action σ ρ) (t : Transaction) (o : Surroundings σ) :
    Option (ρ × Option Error) × Transaction × Surroundings σ :=
  if t.finished then (none, t, o.warn "unit sent after commit or rollback was dropped")
  else if t.failure.isSome then (none, t, o)
  else if o.isCancelled t.context then
    (none, { t with failure := some (Error.contextCancelled.wrap "transaction") }, o)
  else
    match work t.context t.scope o with
    | (answer, e, scope, o) =>
      (some (answer, e), { t with scope := scope, failure := e.map unitFailure }, o)

def alreadyFinished : Error :=
  ⟨.invalidState, "transaction already finished"⟩

/-- Commits, or rolls back if a unit has failed or the commit fails. -/
def commit (srv : Postgres.Server σ) (t : Transaction) (parent : Store) (o : Surroundings σ) :
    Option Error × Store × Transaction × Surroundings σ :=
  if t.finished then (some alreadyFinished, parent, t, o)
  else
    let t := { t with finished := true }
    match t.failure with
    | some failure =>
      match t.engineRollback srv o with
      | (e, t, o) =>
        (some (failure.wrap "transaction rolled back"), parent, t,
          o.warnOf "rollback after failed unit" e)
    | none =>
      match t.engineCommit srv parent o with
      | (none, parent, o) => (none, parent, t, o)
      | (some e, parent, o) =>
        match t.engineRollback srv o with
        | (e', t, o) =>
          (some ⟨.transactionFailed, "commit: " ++ e.message⟩, parent, t,
            o.warnOf "rollback after failed commit" e')

def rollback (srv : Postgres.Server σ) (t : Transaction) (o : Surroundings σ) :
    Option Error × Transaction × Surroundings σ :=
  if t.finished then (none, t, o) else { t with finished := true }.engineRollback srv o

/-- Ends a transaction's life: one that is not finished is rolled back, and its scope goes. -/
def drop (srv : Postgres.Server σ) (t : Transaction) (o : Surroundings σ) : Surroundings σ :=
  let (t, o) :=
    if t.finished then (t, o)
    else
      match { t with finished := true }.engineRollback srv o with
      | (e, t, o) => (t, o.warnOf "implicit rollback" e)
  { o with server := t.scope.release srv o.server }

end Transaction

end Ingest.Store

import Ingest.Store.Memory
import Ingest.Store.Postgres.Basic

/-!
# Storages of either kind

`Store.openAt` opens a storage by its address, whose scheme says which kind it is.
-/

namespace Ingest

inductive Store where
  | memory (m : Store.Memory)
  | postgres (p : Store.Postgres)
  deriving DecidableEq, Repr

namespace Store

variable {σ : Type}

def typeName : Store → String
  | memory _ => "memory"
  | postgres _ => "postgres"

def perform (srv : Postgres.Server σ) (cancelled : Bool) (c : Call) (s : Store) (w : σ) :
    Answer × Store × σ :=
  match s with
  | memory m =>
    match m.perform cancelled c with
    | (a, m) => (a, .memory m, w)
  | postgres p =>
    match p.perform srv cancelled c w with
    | (a, p, w) => (a, .postgres p, w)

def upsert (srv : Postgres.Server σ) (cancelled : Bool) (u : Upsert) (s : Store) (w : σ) :
    Except Error Nat × Store × σ :=
  match s with
  | memory m =>
    match m.upsert cancelled u with
    | (r, m) => (r, .memory m, w)
  | postgres p =>
    match p.upsert srv cancelled u w with
    | (r, p, w) => (r, .postgres p, w)

def truncate (srv : Postgres.Server σ) (cancelled : Bool) (ds : List Destination) (s : Store)
    (w : σ) : Option Error × Store × σ :=
  match s with
  | memory m =>
    match m.truncate cancelled ds with
    | (e, m) => (e, .memory m, w)
  | postgres p =>
    match p.truncate srv cancelled ds w with
    | (e, w) => (e, .postgres p, w)

def close (srv : Postgres.Server σ) (s : Store) (w : σ) : Store × σ :=
  match s with
  | memory m => (.memory m.close, w)
  | postgres p =>
    match p.close srv w with
    | (p, w) => (.postgres p, w)

/-- Ends a storage: its connection is finished. -/
def release (srv : Postgres.Server σ) (s : Store) (w : σ) : σ :=
  match s with
  | memory _ => w
  | postgres p => (p.close srv w).2

/-- Opens the storage that an address names. -/
def openAt (srv : Postgres.Server σ) (address : String) (w : σ) : Except Error Store × σ :=
  match Text.cut "://".toList address.toList with
  | none => (.error (.unreadable ("storage dsn \"" ++ address ++ "\"")), w)
  | some (scheme, _) =>
    let scheme := String.ofList scheme
    if scheme = "memory" then (.ok (.memory {}), w)
    else if scheme = "postgres" ∨ scheme = "postgresql" then
      match ({ conninfo := address } : Postgres).connect srv w with
      | (some e, _, w) => (.error e, w)
      | (none, p, w) => (.ok (.postgres p), w)
    else (.error ⟨.unableToParse, "unsupported storage scheme \"" ++ scheme ++ "\""⟩, w)

end Store

end Ingest

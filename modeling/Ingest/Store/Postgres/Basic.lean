import Ingest.Number.Reading
import Ingest.Store.Basic
import Ingest.Store.Postgres.Server

/-!
# Storage in PostgreSQL

A storage with one connection. It learns the columns and the key of a table from the catalog before
its first upsert there and remembers them. A storage without a connection answers every statement
with an error and sends none.
-/

namespace Ingest.Store

structure Postgres where
  conninfo : String
  connection : Option Nat := none
  /-- The shapes learnt so far. -/
  shapes : Catalog Postgres.Shape := {}
  deriving DecidableEq, Repr

namespace Postgres

variable {σ : Type}

/-- A server's message without the line ends and spaces at its end. -/
def tidy (message : String) : String :=
  String.ofList (Text.dropEndWhile (fun c => c == '\n' || c == ' ') (untilNul message).toList)

def failed (message : String) : Error :=
  ⟨.storageFailed, message⟩

/-- The error of a call, from the error of a statement it needed. -/
def callError (call : String) (cause : Error) : Error :=
  failed ("postgres: " ++ call ++ ": " ++ cause.message)

def unsupported (f : Format) : Error :=
  failed ("postgres: unsupported data type " ++ f.name)

def missing (d : Destination) : Error :=
  failed ("table " ++ qualified d ++ " does not exist")

/-- Connects, unless there is a connection. -/
def connect (srv : Server σ) (p : Postgres) (w : σ) : Option Error × Postgres × σ :=
  match p.connection with
  | some _ => (none, p, w)
  | none =>
    match srv.connect (untilNul p.conninfo) w with
    | ((n, some message), w) =>
      (some (failed ("postgres: connect failed: " ++ tidy message)), p, srv.finish n w)
    | ((n, none), w) => (none, { p with connection := some n }, w)

def close (srv : Server σ) (p : Postgres) (w : σ) : Postgres × σ :=
  match p.connection with
  | some n => ({ p with connection := none }, srv.finish n w)
  | none => (p, w)

/-- The reply as texts that end at the character with code 0. -/
def Reply.read (r : Reply) : Reply :=
  ⟨r.rows.map fun row => row.map untilNul, untilNul r.affected⟩

/-- Sends a statement over the storage's connection. -/
def execute (srv : Server σ) (p : Postgres) (q : Statement) (w : σ) : Except Error Reply × σ :=
  match p.connection with
  | none => (.error (failed "not connected"), w)
  | some n =>
    match srv.execute n q.wire w with
    | (.ok r, w) => (.ok r.read, w)
    | (.error message, w) => (.error (failed (tidy message)), w)

/-- The name that a table's shape is remembered under. -/
def shapeKey (d : Destination) : String :=
  d.database ++ "." ++ d.table

def column (i : Nat) (row : List String) : String :=
  (row[i]?).getD ""

/-- Asks the catalog for the shape of a table. -/
def askShape (srv : Server σ) (p : Postgres) (d : Destination) (w : σ) : Except Error Shape × σ :=
  match p.execute srv (.columnsOf d) w with
  | (.error e, w) => (.error e, w)
  | (.ok columns, w) =>
    if columns.rows.isEmpty then (.error (missing d), w)
    else
      match p.execute srv (.keysOf d) w with
      | (.error e, w) => (.error e, w)
      | (.ok key, w) => (.ok ⟨columns.rows.map (column 0), key.rows.map (column 1)⟩, w)

/-- The shape of a table, asked for once. -/
def shape (srv : Server σ) (p : Postgres) (d : Destination) (w : σ) :
    Except Error Shape × Postgres × σ :=
  match p.shapes.get? (shapeKey d) with
  | some s => (.ok s, p, w)
  | none =>
    match p.askShape srv d w with
    | (.error e, w) => (.error e, p, w)
    | (.ok s, w) => (.ok s, { p with shapes := p.shapes.set (shapeKey d) s }, w)

def upsert (srv : Server σ) (p : Postgres) (cancelled : Bool) (u : Upsert) (w : σ) :
    Except Error Nat × Postgres × σ :=
  if cancelled then (.error .contextCancelled, p, w)
  else if u.format ≠ .json then (.error (unsupported u.format), p, w)
  else
    match p.shape srv u.destination w with
    | (.error e, p, w) => (.error (callError ("upsert into " ++ u.table) e), p, w)
    | (.ok s, p, w) =>
      match p.execute srv (.insert u.destination s u.data) w with
      | (.error e, w) => (.error (callError ("upsert into " ++ u.table) e), p, w)
      | (.ok r, w) => (.ok (Whole.readCount r.affected.toList), p, w)

/-- Counts the records of tables, one statement each. -/
def countAll (srv : Server σ) (p : Postgres) :
    List String → Catalog Nat → σ → Except Error (Catalog Nat) × σ
  | [], sizes, w => (.ok sizes, w)
  | table :: rest, sizes, w =>
    match p.execute srv (.countOf table) w with
    | (.error e, w) => (.error (callError ("count " ++ table) e), w)
    | (.ok r, w) =>
      let n := Whole.readCount (column 0 ((r.rows.head?).getD [])).toList
      countAll srv p rest (sizes.set table n) w

def sizes (srv : Server σ) (p : Postgres) (cancelled : Bool) (w : σ) :
    Except Error (Catalog Nat) × σ :=
  if cancelled then (.error .contextCancelled, w)
  else
    match p.execute srv .tableNames w with
    | (.error e, w) => (.error (callError "list tables" e), w)
    | (.ok r, w) => p.countAll srv (r.rows.map (column 0)) {} w

def primaryKeys (srv : Server σ) (p : Postgres) (cancelled : Bool) (w : σ) :
    Except Error (Catalog (List String)) × σ :=
  if cancelled then (.error .contextCancelled, w)
  else
    match p.execute srv (.keysOf ⟨"", ""⟩) w with
    | (.error e, w) => (.error (callError "list primary keys" e), w)
    | (.ok r, w) =>
      (.ok (r.rows.foldl (fun c row => c.append (column 0 row) [column 1 row]) {}), w)

def truncate (srv : Server σ) (p : Postgres) (cancelled : Bool) (ds : List Destination) (w : σ) :
    Option Error × σ :=
  if cancelled then (some .contextCancelled, w)
  else if ds.isEmpty then (none, w)
  else
    match p.execute srv (.truncate ds) w with
    | (.error e, w) => (some (callError "truncate" e), w)
    | (.ok _, w) => (none, w)

/-- Runs a statement that has no rows to bring. -/
def command (srv : Server σ) (p : Postgres) (q : Statement) (w : σ) : Option Error × σ :=
  match p.execute srv q w with
  | (.error e, w) => (some (callError q.sql e), w)
  | (.ok _, w) => (none, w)

def perform (srv : Server σ) (p : Postgres) (cancelled : Bool) (c : Call) (w : σ) :
    Answer × Postgres × σ :=
  match c with
  | .upsert u =>
    match p.upsert srv cancelled u w with
    | (r, p, w) => (.ofCount r, p, w)
  | .truncate ds =>
    match p.truncate srv cancelled ds w with
    | (r, w) => (.ofError? r, p, w)
  | .tables =>
    match p.sizes srv cancelled w with
    | (r, w) => (.ofTables r, p, w)
  | .keys =>
    match p.primaryKeys srv cancelled w with
    | (r, w) => (.ofKeys r, p, w)
  | .close =>
    match p.close srv w with
    | (p, w) => (.done, p, w)
  | .type => (.type "postgres", p, w)
  | .records _ => (.records [], p, w)

end Postgres

end Ingest.Store

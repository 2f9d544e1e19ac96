import Ingest.Accept.Format
import Ingest.Catalog
import Ingest.Error
import Ingest.Feed

/-!
# Storages: what they are asked and what they answer
-/

namespace Ingest

/-- A payload to be kept in a table. -/
structure Upsert where
  table : String
  database : String := ""
  data : Payload
  format : Format := .json
  deriving DecidableEq, Repr

namespace Upsert

def destination (u : Upsert) : Destination :=
  ⟨u.database, u.table⟩

end Upsert

namespace Store

/-- What a storage can be asked. -/
inductive Call where
  | upsert (u : Upsert)
  | truncate (ds : List Destination)
  | tables
  | keys
  | close
  | type
  | records (name : String)
  deriving DecidableEq, Repr

inductive Answer where
  | count (n : Nat)
  | done
  /-- Table names with how many records each holds. -/
  | tables (sizes : Catalog Nat)
  /-- Table names with the columns of their primary keys. -/
  | keys (columns : Catalog (List String))
  | type (name : String)
  | records (rs : List Payload)
  | failed (e : Error)
  deriving DecidableEq, Repr

namespace Answer

def error? : Answer → Option Error
  | failed e => some e
  | _ => none

def ofCount : Except Error Nat → Answer
  | .ok n => count n
  | .error e => failed e

def ofTables : Except Error (Catalog Nat) → Answer
  | .ok t => tables t
  | .error e => failed e

def ofKeys : Except Error (Catalog (List String)) → Answer
  | .ok k => keys k
  | .error e => failed e

def ofError? : Option Error → Answer
  | some e => failed e
  | none => done

end Answer

end Store

end Ingest

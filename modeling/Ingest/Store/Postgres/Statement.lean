import Ingest.Http.Message
import Ingest.Feed

/-!
# Statements

The SQL text of each statement that a PostgreSQL storage sends. A name is written between double
quotes with each double quote in it doubled, so it can hold any character and stays one name
(`quoted`); a value travels as a parameter and never stands in the text.
-/

namespace Ingest.Store.Postgres

inductive Param where
  | text (s : String)
  | json (data : Payload)
  deriving DecidableEq, Repr

namespace Param

/-- What the server receives: a parameter ends at the character with code 0. -/
def wire : Param → Param
  | text s => text (untilNul s)
  | json data => json (data.takeWhile (· != 0))

end Param

structure Statement where
  sql : String
  params : List Param := []
  deriving DecidableEq, Repr

namespace Statement

/-- What the server receives: the text ends at the character with code 0 too. -/
def wire (s : Statement) : Statement :=
  ⟨untilNul s.sql, s.params.map Param.wire⟩

end Statement

/-- The characters of a name, with each double quote written twice. -/
def doubled (s : List Char) : List Char :=
  s.flatMap fun c => if c = '\x22' then ['\x22', '\x22'] else [c]

/-- A name as an identifier. -/
def quoted (name : String) : String :=
  "\"" ++ String.ofList (doubled name.toList) ++ "\""

/-- Names as identifiers, separated by commas. -/
def quotedList (names : List String) : String :=
  ", ".intercalate (names.map quoted)

/-- A table in a schema; the empty schema is left out. -/
def qualified (d : Destination) : String :=
  if d.database.isEmpty then quoted d.table else quoted d.database ++ "." ++ quoted d.table

/-- The columns and the primary key of a table, as the catalog lists them. -/
structure Shape where
  columns : List String
  key : List String
  deriving DecidableEq, Repr

namespace Shape

/-- The columns that are not part of the key. -/
def values (s : Shape) : List String :=
  s.columns.filter fun c => !s.key.contains c

end Shape

namespace Statement

def start : Statement := ⟨"BEGIN", []⟩
def commit : Statement := ⟨"COMMIT", []⟩
def rollback : Statement := ⟨"ROLLBACK", []⟩

/-- Asks for the columns of a table, in their order. -/
def columnsOf (d : Destination) : Statement :=
  ⟨"SELECT column_name FROM information_schema.columns " ++
    "WHERE table_schema = COALESCE(NULLIF($1, ''), current_schema()) AND table_name = $2 " ++
    "ORDER BY ordinal_position",
    [.text d.database, .text d.table]⟩

/-- Asks for tables with the columns of their primary keys; an empty table name asks for all. -/
def keysOf (d : Destination) : Statement :=
  ⟨"SELECT tc.table_name, kcu.column_name " ++
    "FROM information_schema.table_constraints tc " ++
    "JOIN information_schema.key_column_usage kcu " ++
    "  ON tc.constraint_name = kcu.constraint_name " ++
    " AND tc.table_schema = kcu.table_schema AND tc.table_name = kcu.table_name " ++
    "WHERE tc.constraint_type = 'PRIMARY KEY' " ++
    "  AND tc.table_schema = COALESCE(NULLIF($1, ''), current_schema()) " ++
    "  AND ($2 = '' OR tc.table_name = $2) " ++
    "ORDER BY tc.table_name, kcu.ordinal_position",
    [.text d.database, .text d.table]⟩

def tableNames : Statement :=
  ⟨"SELECT tablename FROM pg_tables WHERE schemaname = current_schema() ORDER BY tablename", []⟩

def countOf (table : String) : Statement :=
  ⟨"SELECT count(*) FROM " ++ quoted table, []⟩

/-- Empties tables, all at once. -/
def truncate (ds : List Destination) : Statement :=
  ⟨"TRUNCATE " ++ ", ".intercalate (ds.map qualified), []⟩

/-- What happens to a row whose key is there already: nothing if every column is part of the key,
and otherwise the other columns are overwritten. -/
def onConflict (s : Shape) : String :=
  if s.key.isEmpty then ""
  else
    " ON CONFLICT (" ++ quotedList s.key ++ ") DO " ++
      if s.values.isEmpty then "NOTHING"
      else "UPDATE SET " ++
        ", ".intercalate (s.values.map fun c => quoted c ++ " = EXCLUDED." ++ quoted c)

/-- Writes the objects of a JSON document, one object or an array of them, as rows of a table. -/
def insert (d : Destination) (s : Shape) (data : Payload) : Statement :=
  ⟨"INSERT INTO " ++ qualified d ++ " (" ++ quotedList s.columns ++ ") SELECT " ++
    quotedList s.columns ++ " FROM jsonb_populate_recordset(NULL::" ++ qualified d ++
    ", CASE jsonb_typeof($1::jsonb) WHEN 'array' THEN $1::jsonb" ++
    " ELSE jsonb_build_array($1::jsonb) END)" ++ onConflict s,
    [.json data]⟩

end Statement

end Ingest.Store.Postgres

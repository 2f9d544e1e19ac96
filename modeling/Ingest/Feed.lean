import Ingest.Http.Message

/-!
# Feeds

A feed is a request together with the place where the data it brings is kept. A feed that names no
table uses the path of its address, without the slashes.
-/

namespace Ingest

/-- A table in a database. An empty database is the storage's own; no name is taken apart. -/
structure Destination where
  database : String
  table : String
  deriving DecidableEq, Repr

structure Feed where
  request : Http.Request
  database : String := ""
  table : String := ""
  deriving DecidableEq, Repr

namespace Feed

/-- The table that the feed names, or else its address's path without slashes. -/
def resolvedTable (f : Feed) : String :=
  if f.table.isEmpty then String.ofList ((Http.pathOf f.request.url).filter (· != '/'))
  else f.table

def destination (f : Feed) : Destination :=
  ⟨f.database, f.resolvedTable⟩

end Feed

end Ingest

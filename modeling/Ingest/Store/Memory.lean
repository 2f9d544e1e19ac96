import Ingest.Store.Basic

/-!
# Storage in memory

Every upsert appends its payload as one record to the table's list. A closed storage answers every
call with an error and keeps what it holds.

Tables are kept under a name made of database and table (`Memory.key`). `Memory.merge` appends the
records of a storage that a transaction has filled apart from this one.
-/

namespace Ingest.Store

structure Memory where
  tables : Catalog (List Payload) := {}
  keys : Catalog (List String) := {}
  closed : Bool := false
  deriving DecidableEq, Repr

namespace Memory

def closedError : Error :=
  ⟨.storageFailed, "memory storage is closed"⟩

def unsupported (f : Format) : Error :=
  ⟨.storageFailed, "unsupported data type " ++ f.name⟩

/-- The name that a destination's records are kept under. -/
def key (d : Destination) : String :=
  if d.database.isEmpty then d.table else d.database ++ "." ++ d.table

/-- The records under a name. -/
def records (m : Memory) (name : String) : List Payload :=
  m.tables.listAt name

def insert (m : Memory) (u : Upsert) : Memory :=
  { m with tables := m.tables.append (key u.destination) [u.data] }

def upsert (m : Memory) (cancelled : Bool) (u : Upsert) : Except Error Nat × Memory :=
  if cancelled then (.error .contextCancelled, m)
  else if u.table.isEmpty then (.error (.missingField "table"), m)
  else if u.format ≠ .json then (.error (unsupported u.format), m)
  else if m.closed then (.error closedError, m)
  else (.ok 1, m.insert u)

/-- What keeps a storage from being read: its context, or that it is closed. -/
def refusal? (m : Memory) (cancelled : Bool) : Option Error :=
  if cancelled then some .contextCancelled
  else if m.closed then some closedError
  else none

def sizes (m : Memory) (cancelled : Bool) : Except Error (Catalog Nat) :=
  match m.refusal? cancelled with
  | some e => .error e
  | none => .ok (m.tables.map List.length)

def primaryKeys (m : Memory) (cancelled : Bool) : Except Error (Catalog (List String)) :=
  match m.refusal? cancelled with
  | some e => .error e
  | none => .ok m.keys

/-- Empties a table that is there. -/
def clear (m : Memory) (d : Destination) : Memory :=
  { m with tables := m.tables.modify (key d) fun _ => [] }

def truncate (m : Memory) (cancelled : Bool) (ds : List Destination) : Option Error × Memory :=
  match m.refusal? cancelled with
  | some e => (some e, m)
  | none => (none, ds.foldl clear m)

def close (m : Memory) : Memory :=
  { m with closed := true }

/-- Appends every record of a storage that was filled apart. -/
def merge (m staged : Memory) : Memory :=
  { m with tables := staged.tables.entries.foldl (fun t e => t.append e.1 e.2) m.tables }

/-- The empty storage with the same primary keys, for a transaction to fill. -/
def stage (m : Memory) : Memory :=
  { keys := m.keys }

/-- Throws all records away. -/
def discard (m : Memory) : Memory :=
  { m with tables := {} }

def perform (m : Memory) (cancelled : Bool) : Call → Answer × Memory
  | .upsert u => let p := m.upsert cancelled u; (.ofCount p.1, p.2)
  | .truncate ds => let p := m.truncate cancelled ds; (.ofError? p.1, p.2)
  | .tables => (.ofTables (m.sizes cancelled), m)
  | .keys => (.ofKeys (m.primaryKeys cancelled), m)
  | .close => (.done, m.close)
  | .type => (.type "memory", m)
  | .records name => (.records (m.records name), m)

end Memory

end Ingest.Store

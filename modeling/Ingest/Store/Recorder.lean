import Ingest.Store.Memory

/-!
# Recording storages

A storage in memory that can note what it was given and refuse it: a stand-in for a storage of any
type, to try a run without one.
-/

namespace Ingest.Store

structure Recorder where
  type : String := "memory"
  memory : Memory := {}
  /-- The error of a refused upsert. -/
  refusal : Option Error := none
  /-- The tables that are refused; all if none are named. -/
  refused : Option (List String) := none
  seen : List Upsert := []
  deriving DecidableEq, Repr

namespace Recorder

/-- Whether this is a plain storage in memory, which notes and refuses nothing. -/
def isPlain (r : Recorder) : Bool :=
  r.type = "memory"

def refuses? (r : Recorder) (u : Upsert) : Option Error :=
  match r.refused with
  | some tables => if tables.contains u.table then r.refusal else none
  | none => r.refusal

def upsert (r : Recorder) (cancelled : Bool) (u : Upsert) : Except Error Nat × Recorder :=
  let keep := fun (r : Recorder) =>
    let p := r.memory.upsert cancelled u
    (p.1, { r with memory := p.2 })
  if r.isPlain then keep r
  else
    let r := { r with seen := r.seen ++ [u] }
    match r.refuses? u with
    | some e => (.error e, r)
    | none => keep r

def close (r : Recorder) : Recorder :=
  { r with memory := r.memory.close }

end Recorder

end Ingest.Store

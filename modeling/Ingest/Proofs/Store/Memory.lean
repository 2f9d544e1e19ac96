import Ingest.Proofs.Catalog
import Ingest.Store.Memory

/-!
# What storages in memory hold

Each operation by what it does to the records under every name.
-/

namespace Ingest.Store

/-- The payloads of upserts whose records are kept under a name, in order. -/
def dataUnder (name : String) (us : List Upsert) : List Payload :=
  us.flatMap fun u => if Memory.key u.destination = name then [u.data] else []

@[simp] theorem dataUnder_nil (name : String) : dataUnder name [] = [] := rfl

@[simp] theorem dataUnder_append (name : String) (us us' : List Upsert) :
    dataUnder name (us ++ us') = dataUnder name us ++ dataUnder name us' :=
  List.flatMap_append

theorem dataUnder_singleton (name : String) (u : Upsert) :
    dataUnder name [u] = if Memory.key u.destination = name then [u.data] else [] :=
  List.flatMap_singleton ..

namespace Memory

@[simp] theorem records_stage (m : Memory) (name : String) : m.stage.records name = [] := rfl

theorem records_insert (m : Memory) (u : Upsert) (name : String) :
    (m.insert u).records name = m.records name ++ dataUnder name [u] := by
  rw [dataUnder_singleton]
  exact Catalog.listAt_append ..

theorem records_merge (m : Memory) {staged : Memory} (h : staged.tables.Sorted) (name : String) :
    (m.merge staged).records name = m.records name ++ staged.records name :=
  Catalog.listAt_foldl_append _ h _

theorem records_clear (m : Memory) (d : Destination) (name : String) :
    (m.clear d).records name = if key d = name then [] else m.records name :=
  Catalog.listAt_modify_nil ..

theorem records_foldl_clear (m : Memory) (ds : List Destination) (name : String) :
    (ds.foldl clear m).records name = if name ∈ ds.map key then [] else m.records name := by
  induction ds generalizing m with
  | nil => simp
  | cons d ds ih =>
    rw [List.foldl_cons, ih, records_clear, List.map_cons]
    by_cases hd : key d = name <;> simp [hd, Ne.symm]

theorem upsert_cases (m : Memory) (cancelled : Bool) (u : Upsert) :
    m.upsert cancelled u = (.ok 1, m.insert u) ∨ ∃ e, m.upsert cancelled u = (.error e, m) := by
  unfold upsert
  split_ifs
  exacts [.inr ⟨_, rfl⟩, .inr ⟨_, rfl⟩, .inr ⟨_, rfl⟩, .inr ⟨_, rfl⟩, .inl rfl]

/-- A payload of JSON is taken as one record, unless the context is cancelled, the table has no name or
the storage is closed. -/
theorem upsert_of_json {u : Upsert} (hformat : u.format = .json) (m : Memory) (cancelled : Bool) :
    ((m.upsert cancelled u).1.isOk = true ↔ cancelled = false ∧ u.table ≠ "" ∧ m.closed = false)
      ∧ ∀ name, (m.upsert cancelled u).2.records name = m.records name
        ++ if (m.upsert cancelled u).1.isOk ∧ key u.destination = name then [u.data] else [] := by
  constructor
  · unfold upsert
    split_ifs <;> simp_all [Except.isOk, Except.toBool]
  · intro name
    rcases m.upsert_cases cancelled u with h | ⟨e, h⟩ <;> rw [h]
    · simp [records_insert, dataUnder_singleton, Except.isOk, Except.toBool]
    · simp [Except.isOk, Except.toBool]

theorem sorted_foldl_clear {m : Memory} (h : m.tables.Sorted) (ds : List Destination) :
    (ds.foldl clear m).tables.Sorted := by
  induction ds generalizing m with
  | nil => exact h
  | cons d ds ih => exact ih (h.modify _ _)

theorem sorted_perform {m : Memory} (h : m.tables.Sorted) (cancelled : Bool) (c : Call) :
    (m.perform cancelled c).2.tables.Sorted := by
  cases c with
  | upsert u =>
    rcases m.upsert_cases cancelled u with h' | ⟨e, h'⟩ <;> simp only [perform, h']
    · exact h.append _ _
    · exact h
  | truncate ds =>
    simp only [perform, truncate]
    cases m.refusal? cancelled with
    | some e => exact h
    | none => exact sorted_foldl_clear h ds
  | _ => exact h

end Memory

end Ingest.Store

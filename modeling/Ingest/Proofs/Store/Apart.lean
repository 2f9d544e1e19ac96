import Ingest.Proofs.Destination
import Ingest.Proofs.Store.Keeping

/-!
# Destinations that are kept apart

A storage in memory keeps the records of a destination under its database and its table with a dot
between. Another destination has the same name if the table of one spans a dot that stands between
the names of the other (`key_eq_key_iff`), and then what is done to one is done to both. All others
are kept apart, whatever is done to them (`kept_iff_apart`).
-/

namespace Ingest

/-- The table of `d` spans a dot: after it stands the table of `d'`, and before it, together with the
database of `d`, the database of `d'`. -/
def Destination.Spans (d d' : Destination) : Prop :=
  d'.database ≠ "" ∧ ∃ s, d'.database = (if d.database = "" then s else d.database ++ "." ++ s)
    ∧ d.table = s ++ "." ++ d'.table

namespace Store

/-- The destinations that a call writes to or truncates. -/
def Call.destinations : Call → List Destination
  | .upsert u => [u.destination]
  | .truncate ds => ds
  | .tables | .keys | .close | .type | .records _ => []

namespace Memory

theorem key_eq_key_iff (d d' : Destination) :
    key d = key d' ↔ d = d' ∨ d.Spans d' ∨ d'.Spans d := by
  obtain ⟨db, t⟩ := d
  obtain ⟨db', t'⟩ := d'
  unfold key Destination.Spans
  by_cases hdb : db = "" <;> by_cases hdb' : db' = ""
  · simp [hdb, hdb']
  · simp [hdb, hdb', Ne.symm hdb']
  · simpa [hdb, hdb'] using eq_comm
  · simp [hdb, hdb', dotted_eq_dotted_iff]

theorem records_perform {c : Call} {name : String} (hc : ∀ d ∈ c.destinations, key d ≠ name)
    (m : Memory) (cancelled : Bool) : (m.perform cancelled c).2.records name = m.records name := by
  cases c with
  | upsert u =>
    have hu : key u.destination ≠ name := hc _ List.mem_cons_self
    rcases m.upsert_cases cancelled u with h | ⟨e, h⟩ <;> simp only [perform, h]
    rw [records_insert, dataUnder_singleton, if_neg hu, List.append_nil]
  | truncate ds =>
    simp only [perform, truncate]
    cases m.refusal? cancelled with
    | some e => rfl
    | none =>
      rw [records_foldl_clear, if_neg]
      intro hname
      obtain ⟨d, hd, hkey⟩ := List.mem_map.mp hname
      exact hc d hd hkey
  | _ => rfl

section

variable {C : Call → Prop} {name : String}

theorem keeps_records (hC : ∀ c, C c → ∀ d ∈ c.destinations, key d ≠ name) (rs : List Payload) :
    Keeps C (fun m => m.records name = rs) fun m => m.tables.Sorted ∧ m.records name = [] where
  perform m cancelled c hc h := (records_perform (hC c hc) m cancelled).trans h
  merge m staged h hstaged := by
    rw [records_merge m hstaged.1, h, hstaged.2, List.append_nil]

theorem keepsScopes_records (hC : ∀ c, C c → ∀ d ∈ c.destinations, key d ≠ name) :
    KeepsScopes C fun m => m.tables.Sorted ∧ m.records name = [] where
  perform m cancelled c hc h :=
    ⟨sorted_perform h.1 cancelled c, (keeps_records hC []).perform m cancelled c hc h.2⟩
  merge m staged h hstaged :=
    ⟨h.1.foldl_append _, (keeps_records hC []).merge m staged h.2 hstaged⟩
  stage m := ⟨Catalog.sorted_empty, m.records_stage name⟩
  discard _ _ := ⟨Catalog.sorted_empty, rfl⟩

end

end Memory

namespace Session

variable {σ : Type}

/-- Whatever the commands do to destinations of a set, by calls and in the units of transactions to
any depth, the records of `d` stay, in every state of the storage: this is true if and only if the
set has neither `d` nor a destination that spans it or is spanned by it. -/
theorem kept_iff_apart [Inhabited σ] (srv : Postgres.Server σ) (d : Destination)
    (others : Set Destination) :
    (∀ (m : Memory) (o : Surroundings σ) (cs : List Command),
      (∀ c ∈ cs, c.Only fun c => ∀ d' ∈ c.destinations, d' ∈ others) →
      ∃ m', (obeyAll srv cs { store := some (.memory m), around := o }).2.store
          = some (.memory m')
        ∧ m'.records (Memory.key d) = m.records (Memory.key d))
      ↔ ∀ d' ∈ others, d' ≠ d ∧ ¬ d.Spans d' ∧ ¬ d'.Spans d := by
  constructor
  · intro h d' hd'
    by_contra hspans
    have hkey : Memory.key d = Memory.key d' := by
      rw [Memory.key_eq_key_iff]
      tauto
    let m : Memory := { tables := ({} : Catalog (List Payload)).append (Memory.key d) [[]] }
    obtain ⟨m', hm', hrecords⟩ := h m { server := default } [.step "" (.call (.truncate [d']))]
      (by simpa [Command.Only, Step.Only, Call.destinations] using hd')
    obtain rfl : m.clear d' = m' := by
      simpa [obeyAll, obey_call srv, Surroundings.isCancelled, Memory.perform, Memory.truncate,
        Memory.refusal?, m] using hm'
    rw [Memory.records_clear, if_pos hkey.symm] at hrecords
    simp [m, Memory.records, Catalog.listAt_append] at hrecords
  · intro hothers m o cs hcs
    have hkeys : ∀ c : Call, (∀ d' ∈ c.destinations, d' ∈ others) →
        ∀ d' ∈ c.destinations, Memory.key d' ≠ Memory.key d := by
      intro c hc d' hd' hkey
      obtain ⟨hne, hspans, hspanned⟩ := hothers d' (hc d' hd')
      rcases (Memory.key_eq_key_iff d' d).mp hkey with h | h | h
      exacts [hne h, hspanned h, hspans h]
    have hstart := Fits.start (fun m' => m'.records (Memory.key d) = m.records (Memory.key d))
      (fun m' => m'.tables.Sorted ∧ m'.records (Memory.key d) = []) rfl o
    exact (hstart.obeyAll (Memory.keeps_records hkeys _) (Memory.keepsScopes_records hkeys) srv
      hcs).store

/-- The table `a.b` has a record, and another table is truncated, `b` of the database `a`. The record
is gone. -/
theorem records_lost_to_another :
    let n := (obeyAll Postgres.Script.server
      [.step "ctx" (.call (.upsert { table := "a.b", data := [1] }))]
      { store := some (.memory {}), around := { server := {} } }).2
    ∃ m m', n.store = some (.memory m)
      ∧ (obeyAll Postgres.Script.server [.step "ctx" (.call (.truncate [⟨"a", "b"⟩]))] n).2.store
        = some (.memory m')
      ∧ m.records (Memory.key ⟨"", "a.b"⟩) = [[1]]
      ∧ m'.records (Memory.key ⟨"", "a.b"⟩) = [] :=
  ⟨_, _, rfl, rfl, by decide +kernel, by decide +kernel⟩

end Session

end Store

end Ingest

import Ingest.Proofs.Store.Shapes
import Ingest.Store.Any

/-!
# What calls send

A call to a storage in PostgreSQL that does not close it sends statements of its own kind, over the
connection of the storage and no other, and keeps that connection. Without one it sends nothing
(`Postgres.talks_perform`).
-/

namespace Ingest.Store

/-- The statements that a call may send. -/
inductive Call.Sends : Call → Postgres.Statement → Prop where
  | columnsOf (u : Upsert) : Sends (.upsert u) (.columnsOf u.destination)
  | keysOf (u : Upsert) : Sends (.upsert u) (.keysOf u.destination)
  | insert (u : Upsert) (s : Postgres.Shape) : Sends (.upsert u) (.insert u.destination s u.data)
  | truncate (ds : List Destination) : Sends (.truncate ds) (.truncate ds)
  | tableNames : Sends .tables .tableNames
  | countOf (table : String) : Sends .tables (.countOf table)
  | allKeys : Sends .keys (.keysOf ⟨"", ""⟩)

namespace Postgres

@[simp] theorem Statement.wire_start : Statement.start.wire = .start := rfl

@[simp] theorem Statement.wire_commit : Statement.commit.wire = .commit := rfl

@[simp] theorem Statement.wire_rollback : Statement.rollback.wire = .rollback := rfl

/-- What calls send begins with other letters than what begins and ends a transaction. -/
theorem prefix_of_sends {c : Call} {q : Statement} (h : c.Sends q) :
    ∃ a, a ∈ ['I', 'S', 'T'] ∧ [a] <+: q.wire.sql.toList := by
  have hwire : ∀ a, a ∈ ['I', 'S', 'T'] → [a] <+: q.sql.toList →
      ∃ a, a ∈ ['I', 'S', 'T'] ∧ [a] <+: q.wire.sql.toList := by
    intro a ha hq
    refine ⟨a, ha, prefix_wire hq ?_⟩
    fin_cases ha <;> simp
  have hselect : ['S'] <+: "SELECT".toList := by decide
  have hinsert : ['I'] <+: "INSERT".toList := by decide
  cases h with
  | columnsOf u => exact hwire 'S' (by simp) (hselect.trans (prefix_columnsOf _))
  | keysOf u => exact hwire 'S' (by simp) (hselect.trans (prefix_keysOf _))
  | insert u s => exact hwire 'I' (by simp) (hinsert.trans (prefix_insert _ s _))
  | truncate ds => exact hwire 'T' (by simp) (toList_prefix_append (by decide))
  | tableNames => exact hwire 'S' (by simp) (by decide +kernel)
  | countOf table => exact hwire 'S' (by simp) (toList_prefix_append (by decide))
  | allKeys => exact hwire 'S' (by simp) (hselect.trans (prefix_keysOf _))

/-- No call sends a statement that begins or ends a transaction. -/
theorem wire_ne_of_sends {c : Call} {q : Statement} (h : c.Sends q) :
    q.wire ≠ .start ∧ q.wire ≠ .commit ∧ q.wire ≠ .rollback := by
  obtain ⟨a, ha, hq⟩ := prefix_of_sends h
  refine ⟨?_, ?_, ?_⟩ <;> rintro hwire <;> rw [hwire] at hq <;> fin_cases ha <;> revert hq <;>
    decide

variable {σ : Type}

/-- Statements with `Q`, if any, are sent over the connection, and nothing else happens. -/
inductive Server.Talks (srv : Server σ) (connection : Option Nat) (Q : Statement → Prop) :
    σ → σ → Prop where
  | quiet (w : σ) : Talks srv connection Q w w
  | sent {n : Nat} {q : Statement} {w w' : σ} (hn : connection = some n) (hq : Q q)
      (h : Talks srv connection Q (srv.execute n q.wire w).2 w') : Talks srv connection Q w w'

variable {srv : Server σ} {connection : Option Nat} {Q : Statement → Prop} {p : Postgres}
  {w w' w'' : σ}

namespace Server.Talks

theorem trans (h : Talks srv connection Q w w') (h' : Talks srv connection Q w' w'') :
    Talks srv connection Q w w'' := by
  induction h with
  | quiet w => exact h'
  | sent hn hq _ ih => exact .sent hn hq (ih h')

end Server.Talks

theorem command_of_none (hp : p.connection = none) (q : Statement) (w : σ) :
    p.command srv q w = (some (callError q.sql (failed "not connected")), w) := by
  simp [command, execute, hp]

variable (srv)

theorem talks_execute (p : Postgres) {q : Statement} (hq : Q q) (w : σ) :
    srv.Talks p.connection Q w (p.execute srv q w).2 := by
  rcases hp : p.connection with _ | n <;> simp only [execute, hp]
  · exact .quiet w
  · refine .sent rfl hq ?_
    rcases srv.execute n q.wire w with ⟨message | r, w'⟩ <;> exact .quiet w'

/-- The shape of a table, asked for or remembered. -/
theorem talks_shape (p : Postgres) (d : Destination) (hcolumns : Q (.columnsOf d))
    (hkeys : Q (.keysOf d)) (w : σ) : srv.Talks p.connection Q w (p.shape srv d w).2.2
      ∧ ∃ shapes, (p.shape srv d w).2.1 = { p with shapes := shapes } := by
  have hask : srv.Talks p.connection Q w (p.askShape srv d w).2 := by
    have h := talks_execute srv p hcolumns w
    unfold askShape
    rcases hreply : p.execute srv (.columnsOf d) w with ⟨e | columns, w'⟩ <;> rw [hreply] at h
    · exact h
    · have h' := h.trans (talks_execute srv p hkeys w')
      simp only
      split_ifs
      · exact h
      · rcases hreply' : p.execute srv (.keysOf d) w' with ⟨e | key, w''⟩ <;> rwa [hreply'] at h'
  unfold shape
  rcases p.shapes.get? (shapeKey d) with _ | s
  · rcases hreply : p.askShape srv d w with ⟨e | s, w'⟩ <;> rw [hreply] at hask <;>
      exact ⟨hask, _, rfl⟩
  · exact ⟨.quiet w, _, rfl⟩

theorem talks_upsert (p : Postgres) (cancelled : Bool) (u : Upsert) (w : σ) :
    srv.Talks p.connection (Call.Sends (.upsert u)) w (p.upsert srv cancelled u w).2.2
      ∧ ∃ shapes, (p.upsert srv cancelled u w).2.1 = { p with shapes := shapes } := by
  unfold upsert
  split_ifs
  · exact ⟨.quiet w, _, rfl⟩
  · exact ⟨.quiet w, _, rfl⟩
  · obtain ⟨hshape, shapes, hp⟩ :=
      talks_shape srv p u.destination (Call.Sends.columnsOf u) (Call.Sends.keysOf u) w
    rcases hreply : p.shape srv u.destination w with ⟨e | s, p', w'⟩ <;>
      rw [hreply] at hshape hp <;> obtain rfl := hp
    · exact ⟨hshape, _, rfl⟩
    · have hinsert := talks_execute srv { p with shapes := shapes }
        (Call.Sends.insert u s) w'
      have h := hshape.trans hinsert
      rcases hreply' : ({ p with shapes := shapes } : Postgres).execute srv
          (.insert u.destination s u.data) w' with ⟨e | r, w''⟩ <;>
        rw [hreply'] at h <;> simp only [hreply'] <;> exact ⟨h, _, rfl⟩

theorem talks_countAll (p : Postgres) (tables : List String) (sizes : Catalog Nat) (w : σ) :
    srv.Talks p.connection (Call.Sends .tables) w (p.countAll srv tables sizes w).2 := by
  induction tables generalizing sizes w with
  | nil => exact .quiet w
  | cons table rest ih =>
    have h := talks_execute srv p (Call.Sends.countOf table) w
    unfold countAll
    rcases hreply : p.execute srv (.countOf table) w with ⟨e | r, w'⟩ <;> rw [hreply] at h
    · exact h
    · exact h.trans (ih _ w')

theorem talks_sizes (p : Postgres) (cancelled : Bool) (w : σ) :
    srv.Talks p.connection (Call.Sends .tables) w (p.sizes srv cancelled w).2 := by
  unfold sizes
  split_ifs
  · exact .quiet w
  · have h := talks_execute srv p Call.Sends.tableNames w
    rcases hreply : p.execute srv .tableNames w with ⟨e | r, w'⟩ <;> rw [hreply] at h
    · exact h
    · exact h.trans (talks_countAll srv p _ _ w')

theorem talks_primaryKeys (p : Postgres) (cancelled : Bool) (w : σ) :
    srv.Talks p.connection (Call.Sends .keys) w (p.primaryKeys srv cancelled w).2 := by
  unfold primaryKeys
  split_ifs
  · exact .quiet w
  · have h := talks_execute srv p Call.Sends.allKeys w
    rcases hreply : p.execute srv (.keysOf ⟨"", ""⟩) w with ⟨e | r, w'⟩ <;> rwa [hreply] at h

theorem talks_truncate (p : Postgres) (cancelled : Bool) (ds : List Destination) (w : σ) :
    srv.Talks p.connection (Call.Sends (.truncate ds)) w (p.truncate srv cancelled ds w).2 := by
  unfold truncate
  split_ifs
  · exact .quiet w
  · exact .quiet w
  · have h := talks_execute srv p (Call.Sends.truncate ds) w
    rcases hreply : p.execute srv (.truncate ds) w with ⟨e | r, w'⟩ <;> rwa [hreply] at h

theorem talks_perform (p : Postgres) (cancelled : Bool) {c : Call} (hc : c ≠ .close) (w : σ) :
    srv.Talks p.connection c.Sends w (p.perform srv cancelled c w).2.2
      ∧ ∃ shapes, (p.perform srv cancelled c w).2.1 = { p with shapes := shapes } := by
  cases c with
  | upsert u => exact talks_upsert srv p cancelled u w
  | truncate ds => exact ⟨talks_truncate srv p cancelled ds w, _, rfl⟩
  | tables => exact ⟨talks_sizes srv p cancelled w, _, rfl⟩
  | keys => exact ⟨talks_primaryKeys srv p cancelled w, _, rfl⟩
  | close => exact absurd rfl hc
  | type => exact ⟨.quiet w, _, rfl⟩
  | records name => exact ⟨.quiet w, _, rfl⟩

theorem connection_close (p : Postgres) (w : σ) : (p.close srv w).1.connection = none := by
  rcases hp : p.connection with _ | n <;> simp [close, hp]

theorem connection_perform (p : Postgres) (cancelled : Bool) (c : Call) (w : σ) :
    (p.perform srv cancelled c w).2.1.connection = p.connection
      ∨ (p.perform srv cancelled c w).2.1.connection = none := by
  by_cases hc : c = .close
  · subst hc
    exact .inr (connection_close srv p w)
  · obtain ⟨-, shapes, hp⟩ := p.talks_perform srv cancelled hc w
    rw [hp]
    exact .inl rfl

end Postgres

/-- The connection of a storage. -/
def connection? : Store → Option Nat
  | memory _ => none
  | postgres p => p.connection

theorem connection?_eq_some {s : Store} {n : Nat} :
    s.connection? = some n ↔ ∃ p, s = postgres p ∧ p.connection = some n := by
  cases s <;> simp [connection?]

variable {σ : Type} {srv : Postgres.Server σ}

theorem perform_postgres (p : Postgres) (cancelled : Bool) (c : Call) (w : σ) :
    (postgres p).perform srv cancelled c w
      = ((p.perform srv cancelled c w).1, .postgres (p.perform srv cancelled c w).2.1,
        (p.perform srv cancelled c w).2.2) := rfl

variable (srv)

theorem talks_perform (s : Store) (cancelled : Bool) {c : Call} (hc : c ≠ .close) (w : σ) :
    srv.Talks s.connection? c.Sends w (s.perform srv cancelled c w).2.2
      ∧ (s.perform srv cancelled c w).2.1.connection? = s.connection? := by
  cases s with
  | memory m => exact ⟨.quiet w, rfl⟩
  | postgres p =>
    obtain ⟨h, shapes, hp⟩ := p.talks_perform srv cancelled hc w
    rw [perform_postgres, hp]
    exact ⟨h, rfl⟩

theorem perform_close (s : Store) (cancelled : Bool) (w : σ) :
    s.perform srv cancelled .close w = (.done, s.close srv w) := by
  cases s <;> rfl

theorem close_snd (s : Store) (w : σ) :
    (s.close srv w).2 = s.release srv w := by
  cases s <;> rfl

theorem connection?_close (s : Store) (w : σ) :
    (s.close srv w).1.connection? = none := by
  cases s with
  | memory m => rfl
  | postgres p => exact p.connection_close srv w

variable {srv}

theorem release_of_none {s : Store} (h : s.connection? = none) (w : σ) :
    s.release srv w = w := by
  cases s with
  | memory m => rfl
  | postgres p => simp [release, Postgres.close, show p.connection = none from h]

theorem release_of_some {s : Store} {n : Nat} (h : s.connection? = some n) (w : σ) :
    s.release srv w = srv.finish n w := by
  obtain ⟨p, rfl, hp⟩ := connection?_eq_some.mp h
  simp [release, Postgres.close, hp]

end Ingest.Store

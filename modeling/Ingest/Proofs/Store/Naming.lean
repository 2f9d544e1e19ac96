import Ingest.Proofs.Store.Insertion

/-!
# Statements name their tables

A text that names a table says which one it is, and a truncation says which tables it empties and in
which order: read by the rules of SQL, each name between quotes comes out as it went in, whatever
quotes, dots and commas it holds (`named?_qualified`, `emptied?_truncate`). So no two tables have one
text, and no two lists of tables have one (`tables_named_unambiguously`).
-/

namespace Ingest.Store.Postgres

namespace Token

/-- The table that tokens name: a name, with another one and a dot in front if there is a schema. -/
def table? : List Token → Option Destination
  | [.name t] => some ⟨"", t⟩
  | [.name s, .sign ".", .name t] => some ⟨s, t⟩
  | _ => none

/-- The table that a text names. -/
def named? (s : String) : Option Destination :=
  (lex? s).bind table?

/-- The tables that a truncation empties, with commas between. -/
def emptied? (s : String) : Option (List Destination) :=
  match lex? s with
  | some (.word "TRUNCATE" :: ts) => (ts.splitOn (.sign ",")).mapM table?
  | _ => none

theorem table?_target (d : Destination) : table? (target d) = some d := by
  obtain ⟨database, table⟩ := d
  unfold target
  split_ifs with h
  · obtain rfl : database = "" := h
    rfl
  · rfl

theorem mapM_table?_target (ds : List Destination) : (ds.map target).mapM table? = some ds := by
  induction ds with
  | nil => rfl
  | cons d ds ih => simp [table?_target, ih]

theorem comma_not_mem_target (d : Destination) : sign "," ∉ target d := by
  unfold target
  split_ifs <;> simp

theorem named?_qualified (d : Destination) : named? (qualified d) = some d := by
  rw [named?, (reads_qualified d).lex?, Option.bind_some, table?_target]

theorem lex?_truncate (ds : List Destination) :
    lex? (Statement.truncate ds).sql
      = some (word "TRUNCATE" :: [sign ","].intercalate (ds.map target)) := by
  have htruncate : Settles "TRUNCATE " [word "TRUNCATE"] := settles_of_run? (by decide +kernel)
  exact (htruncate.append (reads_commas reads_qualified ds)).lex?

theorem emptied?_truncate {ds : List Destination} (h : ds ≠ []) :
    emptied? (Statement.truncate ds).sql = some ds := by
  have hcomma : ∀ ts ∈ ds.map target, sign "," ∉ ts := by
    intro ts hts
    obtain ⟨d, -, rfl⟩ := List.mem_map.mp hts
    exact comma_not_mem_target d
  have hpieces : ([sign ","].intercalate (ds.map target)).splitOn (sign ",") = ds.map target :=
    List.splitOn_intercalate _ hcomma (by simpa using h)
  rw [emptied?, lex?_truncate]
  simp only [hpieces, mapM_table?_target]

end Token

open Token

variable {σ : Type}

theorem sent_truncate (srv : Server σ) (p : Postgres) {ds : List Destination} (h : ds ≠ [])
    (w : σ) : (p.truncate srv.recording false ds (w, [])).2.2
      = if p.connection = none then [] else [(Statement.truncate ds).wire] := by
  have hsent : (p.execute srv.recording (.truncate ds) (w, [])).2.2
      = if p.connection = none then [] else [(Statement.truncate ds).wire] :=
    sent_execute _ w []
  rw [← hsent, truncate, if_neg Bool.false_ne_true, if_neg (by simpa using h)]
  split <;> rename_i hexecute <;> rw [hexecute]

/-- Two tables have different texts, and so have two lists of tables that truncations empty: by the
rules of SQL either text is read back as what it was made from, whatever characters the names have.
The latter text is what a truncation sends over a connection, and it arrives whole unless a name has
the character with code 0. -/
theorem tables_named_unambiguously (srv : Server σ) (p : Postgres) (w : σ) :
    Function.Injective qualified ∧ (∀ d, named? (qualified d) = some d)
      ∧ Set.InjOn (fun ds => (Statement.truncate ds).sql) {ds | ds ≠ []}
      ∧ ∀ ds, ds ≠ [] → emptied? (Statement.truncate ds).sql = some ds
        ∧ (p.truncate srv.recording false ds (w, [])).2.2
          = (if p.connection = none then [] else [(Statement.truncate ds).wire])
        ∧ ((∀ d ∈ ds, d.Plain) → (Statement.truncate ds).wire = .truncate ds) := by
  refine ⟨fun d d' heq => ?_, named?_qualified, fun ds hds ds' hds' heq => ?_, fun ds hds =>
    ⟨emptied?_truncate hds, sent_truncate srv p hds w, wire_truncate⟩⟩
  · have hread := congrArg named? heq
    rw [named?_qualified, named?_qualified] at hread
    exact Option.some.inj hread
  · have hread := congrArg emptied? heq
    rw [emptied?_truncate hds, emptied?_truncate hds'] at hread
    exact Option.some.inj hread

/-- Dots, quotes and commas in names beside those between them. -/
example : emptied? "TRUNCATE \"a.b\".\"\", \"a\".\"b\"\", \"\"c\", \"\""
    = some [⟨"a.b", ""⟩, ⟨"a", "b\", \"c"⟩, ⟨"", ""⟩] := by
  decide +kernel

end Ingest.Store.Postgres

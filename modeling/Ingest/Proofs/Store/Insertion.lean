import Ingest.Proofs.Store.Statements
import Ingest.Proofs.Store.Tokens
import Ingest.Proofs.Truncation

/-!
# No name alters an insertion

The tokens of the insertion that an upsert sends are fixed but for the names in it (`skeleton`): the
target, the columns, and the key with what happens to a row whose key is there already. Read by the
rules of SQL the text has these tokens, and each name comes out as it went in, whatever characters it
has (`insertion_has_skeleton`).
-/

namespace Ingest.Store.Postgres

variable {σ : Type}

namespace Token

/-- Names with commas between. -/
def names (ns : List String) : List Token :=
  [sign ","].intercalate (ns.map fun n => [name n])

/-- A table in a schema; the empty schema is left out. -/
def target (d : Destination) : List Token :=
  if d.database = "" then [name d.table] else [name d.database, sign ".", name d.table]

/-- What is to be done about a row whose key is there already. -/
def resolution (s : Shape) : List Token :=
  if ∀ c ∈ s.columns, c ∈ s.key then [word "NOTHING"]
  else [word "UPDATE", word "SET"] ++ [sign ","].intercalate
    ((s.columns.filter (· ∉ s.key)).map fun c => [name c, sign "=", word "EXCLUDED", sign ".", name c])

def conflict (s : Shape) : List Token :=
  if s.key = [] then []
  else [word "ON", word "CONFLICT", sign "("] ++ names s.key ++ [sign ")", word "DO"] ++ resolution s

/-- The first parameter, as JSON. -/
def document : List Token :=
  [param 1, sign "::", word "jsonb"]

/-- The rows of a document: the document itself if it is an array, and else an array of it. -/
def rows : List Token :=
  [word "CASE", word "jsonb_typeof", sign "("] ++ document ++ [sign ")", word "WHEN", literal "array",
    word "THEN"] ++ document ++ [word "ELSE", word "jsonb_build_array", sign "("] ++ document
    ++ [sign ")", word "END"]

/-- The tokens of an insertion into a table of a shape. -/
def skeleton (d : Destination) (s : Shape) : List Token :=
  [word "INSERT", word "INTO"] ++ target d ++ [sign "("] ++ names s.columns
    ++ [sign ")", word "SELECT"] ++ names s.columns
    ++ [word "FROM", word "jsonb_populate_recordset", sign "(", word "NULL", sign "::"] ++ target d
    ++ ([sign ","] ++ rows ++ [sign ")"]) ++ conflict s

theorem reads_qualified (d : Destination) : Reads (qualified d) (target d) := by
  unfold qualified target
  by_cases h : d.database = ""
  · simpa [h] using reads_quoted d.table
  · have hdot : Settles "." [sign "."] := settles_of_run? (by decide +kernel)
    rw [if_neg (by simpa using h), if_neg h]
    exact ((reads_quoted d.database).append hdot (by decide +kernel)).append (reads_quoted d.table)

theorem reads_quotedList (ns : List String) : Reads (quotedList ns) (names ns) :=
  reads_commas reads_quoted ns

theorem reads_assignment (c : String) : Reads (quoted c ++ " = EXCLUDED." ++ quoted c)
    [name c, sign "=", word "EXCLUDED", sign ".", name c] := by
  have hequals : Settles " = EXCLUDED." [sign "=", word "EXCLUDED", sign "."] :=
    settles_of_run? (by decide +kernel)
  exact ((reads_quoted c).append hequals (by decide +kernel)).append (reads_quoted c)

theorem values_eq_filter (s : Shape) : s.values = s.columns.filter (· ∉ s.key) := by
  unfold Shape.values
  congr 1
  funext c
  simp

theorem lex?_onConflict (s : Shape) : lex? (Statement.onConflict s) = some (conflict s) := by
  unfold Statement.onConflict conflict resolution
  by_cases hkey : s.key = []
  · simp only [hkey, List.isEmpty_nil, ↓reduceIte]
    rfl
  have hon : Settles " ON CONFLICT (" [word "ON", word "CONFLICT", sign "("] :=
    settles_of_run? (by decide +kernel)
  have hdo : Settles ") DO " [sign ")", word "DO"] := settles_of_run? (by decide +kernel)
  have hhead := (hon.append (reads_quotedList s.key)).append hdo (by decide +kernel)
  have hvalues : s.values.isEmpty = true ↔ ∀ c ∈ s.columns, c ∈ s.key := by
    rw [List.isEmpty_iff, values_eq_filter, List.filter_eq_nil_iff]
    simp
  rw [if_neg (by simpa using hkey), if_neg hkey]
  refine hhead.lex?_append ?_
  by_cases hall : ∀ c ∈ s.columns, c ∈ s.key
  · rw [if_pos (hvalues.mpr hall), if_pos hall]
    decide +kernel
  · have hset : Settles "UPDATE SET " [word "UPDATE", word "SET"] :=
      settles_of_run? (by decide +kernel)
    rw [if_neg (by rwa [hvalues]), if_neg hall, values_eq_filter]
    exact (hset.append (reads_commas reads_assignment _)).lex?

/-- The text of an insertion has the tokens of its skeleton. -/
theorem lex?_insert (d : Destination) (s : Shape) (data : Payload) :
    lex? (Statement.insert d s data).sql = some (skeleton d s) := by
  have hinto : Settles "INSERT INTO " [word "INSERT", word "INTO"] :=
    settles_of_run? (by decide +kernel)
  have hopen : Settles " (" [sign "("] := settles_of_run? (by decide +kernel)
  have hselect : Settles ") SELECT " [sign ")", word "SELECT"] :=
    settles_of_run? (by decide +kernel)
  have hfrom : Settles " FROM jsonb_populate_recordset(NULL::"
      [word "FROM", word "jsonb_populate_recordset", sign "(", word "NULL", sign "::"] :=
    settles_of_run? (by decide +kernel)
  have hrows : Settles (", CASE jsonb_typeof($1::jsonb) WHEN 'array' THEN $1::jsonb" ++
      " ELSE jsonb_build_array($1::jsonb) END)") ([sign ","] ++ rows ++ [sign ")"]) :=
    settles_of_run? (by decide +kernel)
  have htarget := hinto.append (reads_qualified d)
  have hcolumns := (htarget.append hopen (by decide +kernel)).append (reads_quotedList s.columns)
  have hselected :=
    (hcolumns.append hselect (by decide +kernel)).append (reads_quotedList s.columns)
  have htyped := (hselected.append hfrom (by decide +kernel)).append (reads_qualified d)
  have hall := (htyped.append hrows (by decide +kernel)).lex?_append (lex?_onConflict s)
  rw [← String.append_assoc] at hall
  exact hall

end Token

/-! ### What the server receives -/

/-- No name in the shape has the character with code 0. -/
structure Shape.Plain (s : Shape) : Prop where
  columns : ∀ c ∈ s.columns, Ingest.Plain c
  key : ∀ c ∈ s.key, Ingest.Plain c

theorem plain_quotedList {names : List String} (h : ∀ n ∈ names, Plain n) :
    Plain (quotedList names) := by
  refine .intercalate (by decide) fun t ht => ?_
  obtain ⟨n, hn, rfl⟩ := List.mem_map.mp ht
  exact plain_quoted (h n hn)

theorem plain_onConflict {s : Shape} (h : s.Plain) : Plain (Statement.onConflict s) := by
  unfold Statement.onConflict
  split_ifs
  · exact plain_empty
  · exact .append (.append (.append (by decide) (plain_quotedList h.key)) (by decide)) (by decide)
  · refine .append (.append (.append (by decide) (plain_quotedList h.key)) (by decide)) ?_
    refine .append (by decide) (.intercalate (by decide) fun t ht => ?_)
    obtain ⟨c, hc, rfl⟩ := List.mem_map.mp ht
    have hplain := plain_quoted (h.columns c (List.mem_of_mem_filter hc))
    exact .append (.append hplain (by decide)) hplain

/-- An insertion without the character with code 0 in its names arrives whole. -/
theorem sql_wire_insert {d : Destination} (hd : d.Plain) {s : Shape} (hs : s.Plain)
    (data : Payload) : (Statement.insert d s data).wire.sql = (Statement.insert d s data).sql := by
  have htarget := plain_qualified hd
  have hcolumns := plain_quotedList hs.columns
  refine Plain.untilNul ?_
  unfold Statement.insert
  refine .append (.append (.append (.append (.append (.append (.append (.append (.append (.append ?_
    htarget) ?_) hcolumns) ?_) hcolumns) ?_) htarget) ?_) ?_) (plain_onConflict hs)
  all_goals decide +kernel

theorem params_wire_insert (d : Destination) (s : Shape) (data : Payload) :
    (Statement.insert d s data).wire.params = [.json (data.takeWhile (· != 0))] := rfl

/-- A payload arrives whole if and only if it has no zero byte. -/
theorem params_wire_eq_iff (data : Payload) :
    [Param.json (data.takeWhile (· != 0))] = [.json data] ↔ 0 ∉ data := by
  rw [List.cons.injEq, Param.json.injEq, and_iff_left rfl, List.takeWhile_eq_self_iff]
  constructor
  · intro h hzero
    simpa using h 0 hzero
  · intro h b hb
    simpa using ne_of_mem_of_not_mem hb h

/-- What is read from a reply has no character with code 0. -/
theorem plain_column {r : Reply} {row : List String} (h : row ∈ r.read.rows) (i : ℕ) :
    Plain (column i row) := by
  obtain ⟨row, -, rfl⟩ := List.mem_map.mp h
  unfold column
  rw [List.getElem?_map]
  cases row[i]? with
  | none => exact plain_empty
  | some s => exact plain_untilNul s

section Upsert

variable {srv : Server σ} {p p' : Postgres} {w w' : σ}

theorem read_of_execute {q : Statement} {r : Reply} (h : p.execute srv q w = (.ok r, w')) :
    ∃ r₀ : Reply, r = r₀.read := by
  unfold execute at h
  split at h
  · cases h
  split at h
  · obtain ⟨hr, -⟩ := Prod.mk.inj h
    exact ⟨_, (Except.ok.inj hr).symm⟩
  · cases h

theorem Shape.plain_of_askShape {d : Destination} {s : Shape}
    (h : p.askShape srv d w = (.ok s, w')) : s.Plain := by
  unfold askShape at h
  split at h
  · cases h
  rename_i columns w₁ hcolumns
  split_ifs at h
  · cases h
  split at h
  · cases h
  rename_i key w₂ hkey
  obtain ⟨rfl⟩ := Except.ok.inj (Prod.mk.inj h).1
  obtain ⟨columns, rfl⟩ := read_of_execute hcolumns
  obtain ⟨key, rfl⟩ := read_of_execute hkey
  constructor <;> intro c hc <;> obtain ⟨row, hrow, rfl⟩ := List.mem_map.mp hc
  · exact plain_column hrow 0
  · exact plain_column hrow 1

/-- The shape of a table has no character with code 0, unless one that is remembered has. -/
theorem Shape.plain_of_shape {d : Destination} {s : Shape}
    (hknown : ∀ s ∈ p.shapes.get? (shapeKey d), s.Plain)
    (h : p.shape srv d w = (.ok s, p', w')) : s.Plain := by
  unfold shape at h
  split at h
  · rename_i s' hs'
    obtain rfl := Except.ok.inj (Prod.mk.inj h).1
    exact hknown _ hs'
  split at h
  · cases h
  · rename_i s' w₁ hask
    obtain rfl := Except.ok.inj (Prod.mk.inj h).1
    exact Shape.plain_of_askShape hask

/-- What is recorded more is what was sent. -/
theorem recorded_of_talks {connection : Option ℕ} {Q : Statement → Prop}
    {w w' : σ × List Statement} (h : srv.recording.Talks connection Q w w') :
    ∃ qs, w'.2 = w.2 ++ qs ∧ ∀ q ∈ qs, ∃ q₀, Q q₀ ∧ q = q₀.wire := by
  induction h with
  | quiet w => exact ⟨[], by simp⟩
  | @sent n q w w' hn hq h ih =>
    obtain ⟨qs, hqs, hsent⟩ := ih
    refine ⟨q.wire :: qs, ?_, List.forall_mem_cons.mpr ⟨⟨q, hq, rfl⟩, hsent⟩⟩
    rw [hqs]
    simp [Server.recording]

/-- A storage asks the catalog without inserting anything. -/
theorem filter_isInsert_shape (srv : Server σ) (p : Postgres) (d : Destination) (w : σ) :
    (p.shape srv.recording d (w, [])).2.2.2.filter Statement.isInsert = [] := by
  have htalks := (talks_shape srv.recording p d
    (Q := fun q => q = .columnsOf d ∨ q = .keysOf d) (.inl rfl) (.inr rfl) (w, [])).1
  obtain ⟨qs, hqs, hsent⟩ := recorded_of_talks htalks
  rw [hqs, List.nil_append, List.filter_eq_nil_iff]
  intro q hq
  obtain ⟨q₀, rfl | rfl, rfl⟩ := hsent q hq
  · simp [isInsert_columnsOf]
  · simp [isInsert_keysOf]

theorem sent_execute (q : Statement) (w : σ) (sent : List Statement) :
    (p.execute srv.recording q (w, sent)).2.2
      = sent ++ if p.connection = none then [] else [q.wire] := by
  rcases hp : p.connection with _ | n
  · simp [execute, hp]
  · rw [execute_snd hp, if_neg (by simp)]
    rfl

/-- Once an upsert has the shape of its table, it makes its insertion. -/
theorem upsert_of_shape_ok {u : Upsert} (hformat : u.format = .json) {s : Shape}
    (hshape : p.shape srv u.destination w = (.ok s, p', w')) :
    (p.upsert srv false u w).2 = (p', (p'.execute srv (.insert u.destination s u.data) w').2) := by
  simp only [upsert, hformat, hshape, Bool.false_eq_true, ne_eq, not_true_eq_false, if_false]
  split <;> rename_i hexecute <;> rw [hexecute]

/-- After that the server is as its answer to the insertion has left it. -/
theorem world_of_upsert {u : Upsert} (hformat : u.format = .json) {n : ℕ}
    (hp : p.connection = some n) {s : Shape}
    (hshape : p.shape srv u.destination w = (.ok s, p', w')) : (p.upsert srv false u w).2.2
      = (srv.execute n (Statement.insert u.destination s u.data).wire w').2 := by
  have hsame := (talks_shape srv p u.destination (Q := fun _ => True) trivial trivial w).2
  rw [hshape] at hsame
  obtain ⟨shapes, rfl⟩ := hsame
  rw [upsert_of_shape_ok hformat hshape]
  exact execute_snd hp _ _

/-- The insertions that an upsert sends. -/
def insertions (srv : Server σ) (p : Postgres) (cancelled : Bool) (u : Upsert) (w : σ) :
    List Statement :=
  (p.upsert srv.recording cancelled u (w, [])).2.2.2.filter Statement.isInsert

/-- An upsert of JSON over a connection sends one insertion once it has the shape of the table, and
any other upsert none. -/
theorem insertions_eq (srv : Server σ) (p : Postgres) (cancelled : Bool) (u : Upsert) (w : σ) :
    insertions srv p cancelled u w =
      match (p.shape srv.recording u.destination (w, [])).1 with
      | .error _ => []
      | .ok s =>
        if cancelled = false ∧ u.format = .json ∧ p.connection ≠ none
        then [(Statement.insert u.destination s u.data).wire] else [] := by
  have hquiet := filter_isInsert_shape srv p u.destination w
  have hsame := (talks_shape srv.recording p u.destination (Q := fun _ => True) trivial trivial
    (w, [])).2
  rcases hshape : p.shape srv.recording u.destination (w, []) with ⟨e | s, p', w', sent⟩ <;>
    rw [hshape] at hquiet hsame
  · simp only [insertions, upsert, hshape]
    split_ifs <;> first | rfl | exact hquiet
  obtain ⟨shapes, rfl⟩ := hsame
  by_cases hjson : cancelled = false ∧ u.format = .json
  · obtain ⟨rfl, hformat⟩ := hjson
    rw [insertions, upsert_of_shape_ok hformat hshape, sent_execute, List.filter_append, hquiet]
    by_cases hp : p.connection = none
    · simp [hp]
    · simp [hp, hformat, isInsert_insert]
  · have hnone : insertions srv p cancelled u w = [] := by
      unfold insertions upsert
      split_ifs with hcancelled hformat
      · rfl
      · rfl
      · exact absurd ⟨by simpa using hcancelled, by simpa using hformat⟩ hjson
    rw [hnone]
    exact (if_neg fun h => hjson ⟨h.1, h.2.1⟩).symm

/-- No name alters an insertion. Whatever the server answers: what an upsert inserts with has, read by
the rules of SQL, the tokens of the skeleton for its destination and the shape of the table as it was
asked for or remembered, with each name as it is there. Every upsert of JSON over a connection that
has the shape inserts so, once. -/
theorem insertion_has_skeleton (srv : Server σ) (p : Postgres) (cancelled : Bool) {u : Upsert}
    (hu : u.destination.Plain) (hknown : ∀ s ∈ p.shapes.get? (shapeKey u.destination), s.Plain)
    (w : σ) :
    (∀ q ∈ insertions srv p cancelled u w, ∃ s,
      (p.shape srv.recording u.destination (w, [])).1 = .ok s
        ∧ Token.lex? q.sql = some (Token.skeleton u.destination s))
    ∧ (cancelled = false → u.format = .json → p.connection ≠ none →
      ∀ s, (p.shape srv.recording u.destination (w, [])).1 = .ok s →
        ∃ q, insertions srv p cancelled u w = [q]) := by
  rw [insertions_eq]
  rcases hshape : p.shape srv.recording u.destination (w, []) with ⟨e | s, p', w'⟩
  · simp
  have hs := Shape.plain_of_shape hknown hshape
  refine ⟨fun q hq => ⟨s, rfl, ?_⟩, fun hopen hformat hp _ _ => ⟨_, if_pos ⟨hopen, hformat, hp⟩⟩⟩
  simp only at hq
  split_ifs at hq
  · rw [List.mem_singleton.mp hq, sql_wire_insert hu hs]
    exact Token.lex?_insert u.destination s u.data
  · cases hq

/-- A connected storage that has learnt no shape. -/
def fresh : Postgres :=
  { conninfo := "", connection := some 1 }

/-- A server that lists two columns, the first of them the key. -/
def listing : Script :=
  { replies := [.ok ⟨[["a\", \"b"], ["\"c.d"]], ""⟩, .ok ⟨[["t", "a\", \"b"]], ""⟩, .ok {}] }

/-- Names of quotes, dots, commas and words of SQL. -/
theorem insertion_has_skeleton_quotes :
    ∃ q, insertions Script.server fresh false ⟨"t\"; DROP TABLE x", "a.b", [], .json⟩ listing = [q]
      ∧ Token.lex? q.sql = some (Token.skeleton ⟨"a.b", "t\"; DROP TABLE x"⟩
        ⟨["a\", \"b", "\"c.d"], ["a\", \"b"]⟩) := by
  have hplain : Destination.Plain ⟨"a.b", "t\"; DROP TABLE x"⟩ := ⟨by decide, by decide⟩
  have hshape : (fresh.shape Script.server.recording ⟨"a.b", "t\"; DROP TABLE x"⟩ (listing, [])).1
      = .ok ⟨["a\", \"b", "\"c.d"], ["a\", \"b"]⟩ := by rfl
  obtain ⟨hreads, hsends⟩ := insertion_has_skeleton Script.server fresh false
    (u := ⟨"t\"; DROP TABLE x", "a.b", [], .json⟩) hplain (by simp [fresh]) listing
  obtain ⟨q, hq⟩ := hsends rfl rfl (by simp [fresh]) _ hshape
  obtain ⟨s, hs, hlex⟩ := hreads q (hq ▸ List.mem_singleton_self q)
  obtain rfl := Except.ok.inj (hshape.symm.trans hs)
  exact ⟨q, hq, hlex⟩

end Upsert

end Ingest.Store.Postgres

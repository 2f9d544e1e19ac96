import Ingest.Proofs.Catalog
import Ingest.Proofs.Destination
import Ingest.Store.Postgres.Basic

/-!
# Shapes that are remembered

A PostgreSQL storage remembers the shape of a table under the names of its schema and of the table
with a dot between. Where no two tables of a set have one such text, its upserts to them are as if it
asked for the shape each time (`Learnt.upsert`). Two that have one are mistaken for each other, and
these are the only ones (`upserts_as_forgetting_iff`).
-/

namespace Ingest.Store.Postgres

variable {σ : Type}

/-! ### What is sent and answered -/

/-- What the server receives of the names of a table. -/
def asked (d : Destination) : Destination :=
  ⟨untilNul d.database, untilNul d.table⟩

inductive Statement.ForUpsert : Statement → Prop where
  | columnsOf (d : Destination) : ForUpsert (columnsOf d)
  | keysOf (d : Destination) : ForUpsert (keysOf d)
  | insert (d : Destination) (s : Shape) (data : Payload) : ForUpsert (insert d s data)

/-- The server's answers to the statements of upserts depend on nothing but the statement. -/
def Server.Steady (srv : Server σ) (answers : Statement → Except String Reply) : Prop :=
  ∀ q : Statement, q.ForUpsert → ∀ n w, (srv.execute n q.wire w).1 = answers q.wire

/-- The server, with the statements that it is sent. -/
def Server.recording (srv : Server σ) : Server (σ × List Statement) where
  connect conninfo w :=
    match srv.connect conninfo w.1 with
    | (r, w') => (r, w', w.2)
  execute n q w :=
    match srv.execute n q w.1 with
    | (r, w') => (r, w', w.2 ++ [q])
  finish n w := (srv.finish n w.1, w.2)

def Statement.isInsert (q : Statement) : Bool :=
  q.sql.toList.take 6 = "INSERT".toList

def forget (p : Postgres) : Postgres :=
  { p with shapes := {} }

/-- Upserts one after the other, the storage prepared before each: what each answers, and the
insertions that it sends. -/
def upserts (srv : Server σ) (prepare : Postgres → Postgres) :
    List (Bool × Upsert) → Postgres → σ → List (Except Error Nat × List Statement)
  | [], _, _ => []
  | c :: us, p, w =>
    match (prepare p).upsert srv.recording c.1 c.2 (w, []) with
    | (r, p, w, sent) => (r, sent.filter Statement.isInsert) :: upserts srv prepare us p w

/-! ### Upserts without a memory -/

section

variable (answers : Statement → Except String Reply)

/-- A server's answer, as the storage reads it. -/
def reply (q : Statement) : Except Error Reply :=
  match answers q.wire with
  | .ok r => .ok r.read
  | .error message => .error (failed (tidy message))

/-- The shape of a table by the catalog. -/
def catalogShape (d : Destination) : Except Error Shape :=
  match reply answers (.columnsOf d) with
  | .error e => .error e
  | .ok columns =>
    if columns.rows.isEmpty then .error (missing d)
    else
      match reply answers (.keysOf d) with
      | .error e => .error e
      | .ok key => .ok ⟨columns.rows.map (column 0), key.rows.map (column 1)⟩

/-- The upsert, by the shape of its table or the error that there was instead. -/
def byShape (u : Upsert) : Except Error Shape → Except Error Nat × List Statement
  | .error e => (.error (callError ("upsert into " ++ u.table) e), [])
  | .ok s =>
    (match reply answers (.insert u.destination s u.data) with
      | .error e => .error (callError ("upsert into " ++ u.table) e)
      | .ok r => .ok (Whole.readCount r.affected.toList),
      [(Statement.insert u.destination s u.data).wire])

/-- The upsert of a storage that asks for the shape each time. -/
def direct (cancelled : Bool) (u : Upsert) : Except Error Nat × List Statement :=
  if cancelled then (.error .contextCancelled, [])
  else if u.format ≠ .json then (.error (unsupported u.format), [])
  else byShape answers u (catalogShape answers u.destination)

end

theorem toList_prefix_append {s t : String} {cs : List Char} (h : cs <+: s.toList) :
    cs <+: (s ++ t).toList := by
  rw [String.toList_append]
  exact h.trans (List.prefix_append _ _)

/-- A statement keeps the word that it begins with on its way to the server. -/
theorem prefix_wire {q : Statement} {word : List Char} (hword : word <+: q.sql.toList)
    (hplain : ∀ c ∈ word, (c != '\x00') = true) : word <+: q.wire.sql.toList := by
  obtain ⟨rest, hrest⟩ := hword
  rw [Statement.wire, untilNul, String.toList_ofList, ← hrest, Text.beforeNul,
    List.takeWhile_append_of_pos hplain]
  exact List.prefix_append _ _

theorem isInsert_wire {q : Statement} {word : List Char} (hword : word <+: q.sql.toList)
    (hlength : word.length = 6) (hplain : ∀ c ∈ word, (c != '\x00') = true) :
    q.wire.isInsert = decide (word = "INSERT".toList) := by
  obtain ⟨rest, hrest⟩ := prefix_wire hword hplain
  rw [Statement.isInsert, ← hrest, ← hlength, List.take_left]

theorem prefix_columnsOf (d : Destination) :
    "SELECT".toList <+: (Statement.columnsOf d).sql.toList := by
  unfold Statement.columnsOf
  dsimp only
  repeat apply toList_prefix_append
  decide +kernel

theorem prefix_keysOf (d : Destination) :
    "SELECT".toList <+: (Statement.keysOf d).sql.toList := by
  unfold Statement.keysOf
  dsimp only
  repeat apply toList_prefix_append
  decide +kernel

theorem prefix_insert (d : Destination) (s : Shape) (data : Payload) :
    "INSERT".toList <+: (Statement.insert d s data).sql.toList := by
  unfold Statement.insert
  dsimp only
  repeat apply toList_prefix_append
  decide +kernel

theorem isInsert_columnsOf (d : Destination) : (Statement.columnsOf d).wire.isInsert = false := by
  rw [isInsert_wire (prefix_columnsOf d) (by simp) (by simp)]
  simp

theorem isInsert_keysOf (d : Destination) : (Statement.keysOf d).wire.isInsert = false := by
  rw [isInsert_wire (prefix_keysOf d) (by simp) (by simp)]
  simp

theorem isInsert_insert (d : Destination) (s : Shape) (data : Payload) :
    (Statement.insert d s data).wire.isInsert = true := by
  rw [isInsert_wire (prefix_insert d s data) (by simp) (by simp)]
  simp

/-! ### One upsert -/

section

variable {srv : Server σ} {answers : Statement → Except String Reply} {p : Postgres} {n : Nat}

theorem execute_recording (hsrv : srv.Steady answers) (hp : p.connection = some n)
    {q : Statement} (hq : q.ForUpsert) (w : σ) (sent : List Statement) :
    ∃ w', p.execute srv.recording q (w, sent) = (reply answers q, w', sent ++ [q.wire]) := by
  refine ⟨(srv.execute n q.wire w).2, ?_⟩
  have hanswer := hsrv q hq n w
  rcases hexecute : srv.execute n q.wire w with ⟨_ | r, w'⟩ <;> rw [hexecute] at hanswer <;>
    simp [execute, hp, Server.recording, hexecute, reply, ← hanswer]

theorem askShape_recording (hsrv : srv.Steady answers) (hp : p.connection = some n)
    (d : Destination) (w : σ) : ∃ w' sent, p.askShape srv.recording d (w, [])
      = (catalogShape answers d, w', sent) ∧ sent.filter Statement.isInsert = [] := by
  obtain ⟨w₁, hcolumns⟩ := execute_recording hsrv hp (.columnsOf d) w []
  obtain ⟨w₂, hkeys⟩ := execute_recording hsrv hp (.keysOf d) w₁ [(Statement.columnsOf d).wire]
  have hsent₁ := isInsert_columnsOf d
  have hsent₂ := isInsert_keysOf d
  unfold askShape catalogShape
  rw [hcolumns]
  rcases reply answers (.columnsOf d) with e | columns
  · exact ⟨_, _, rfl, by simp [hsent₁]⟩
  · simp only [List.nil_append, hkeys]
    split_ifs
    · exact ⟨_, _, rfl, by simp [hsent₁]⟩
    · rcases reply answers (.keysOf d) with e | key <;>
        exact ⟨_, _, rfl, by simp [hsent₁, hsent₂]⟩

theorem upsert_of_shape (hsrv : srv.Steady answers) {u : Upsert} (hformat : u.format = .json)
    {w w' : σ} {sent : List Statement} {r : Except Error Shape} {p' : Postgres}
    (hshape : p.shape srv.recording u.destination (w, []) = (r, p', w', sent))
    (hsent : sent.filter Statement.isInsert = []) (hp' : p'.connection = some n) :
    ∃ w'' sent', p.upsert srv.recording false u (w, []) = ((byShape answers u r).1, p', w'', sent')
      ∧ sent'.filter Statement.isInsert = (byShape answers u r).2 := by
  cases r with
  | error e => exact ⟨w', sent, by simp [upsert, hformat, hshape, byShape], hsent⟩
  | ok s =>
    obtain ⟨w'', hinsert⟩ :=
      execute_recording hsrv hp' (.insert u.destination s u.data) w' sent
    refine ⟨w'', sent ++ [(Statement.insert u.destination s u.data).wire], ?_, ?_⟩
    · rcases hreply : reply answers (.insert u.destination s u.data) with e | r <;>
        simp [upsert, hformat, hshape, hinsert, hreply, byShape]
    · simp [hsent, isInsert_insert, byShape]

end

/-! ### Upserts with a memory -/

/-- Tables of the set that are remembered under one text are one table to the server. -/
def KeptApart (D : Set Destination) : Prop :=
  ∀ d ∈ D, ∀ d' ∈ D, shapeKey d = shapeKey d' → asked d = asked d'

theorem keptApart_iff {D : Set Destination} : KeptApart D ↔ ∀ d ∈ D, ∀ d' ∈ D, ∀ s,
    d'.database = d.database ++ "." ++ s → d.table = s ++ "." ++ d'.table → asked d = asked d' := by
  constructor
  · intro h d hd d' hd' s hdatabase htable
    exact h d hd d' hd' (dotted_eq_dotted_iff.mpr (.inr (.inl ⟨s, hdatabase, htable⟩)))
  · intro h d hd d' hd' hkey
    rcases dotted_eq_dotted_iff.mp hkey with ⟨hdatabase, htable⟩ | ⟨s, hs⟩ | ⟨s, hs⟩
    · simp [asked, hdatabase, htable]
    · exact h d hd d' hd' s hs.1 hs.2
    · exact (h d' hd' d hd s hs.1 hs.2).symm

theorem wire_columnsOf (d : Destination) : (Statement.columnsOf d).wire
    = ⟨(Statement.columnsOf ⟨"", ""⟩).wire.sql, [.text (asked d).database, .text (asked d).table]⟩ :=
  rfl

theorem wire_keysOf (d : Destination) : (Statement.keysOf d).wire
    = ⟨(Statement.keysOf ⟨"", ""⟩).wire.sql, [.text (asked d).database, .text (asked d).table]⟩ :=
  rfl

theorem catalogShape_congr {answers : Statement → Except String Reply} {d d' : Destination}
    {s : Shape} (h : asked d = asked d') (hs : catalogShape answers d = .ok s) :
    catalogShape answers d' = .ok s := by
  have hcolumns : reply answers (.columnsOf d) = reply answers (.columnsOf d') := by
    rw [reply, wire_columnsOf, h, ← wire_columnsOf, reply]
  have hkeys : reply answers (.keysOf d) = reply answers (.keysOf d') := by
    rw [reply, wire_keysOf, h, ← wire_keysOf, reply]
  unfold catalogShape at hs ⊢
  rw [hcolumns, hkeys] at hs
  generalize reply answers (.columnsOf d') = columns at hs ⊢
  rcases columns with e | columns
  · cases hs
  · simp only at hs ⊢
    split_ifs at hs ⊢
    exact hs

/-- A connected storage that has learnt shapes of tables of the set. -/
structure Learnt (answers : Statement → Except String Reply) (D : Set Destination) (n : Nat)
    (p : Postgres) : Prop where
  connection : p.connection = some n
  shapes : ∀ key, ∀ s ∈ p.shapes.get? key,
    ∃ d ∈ D, shapeKey d = key ∧ catalogShape answers d = .ok s

namespace Learnt

variable {srv : Server σ} {answers : Statement → Except String Reply} {D : Set Destination}
  {n : Nat} {p : Postgres}

theorem learn (h : Learnt answers D n p) {d : Destination} (hd : d ∈ D) {s : Shape}
    (hs : catalogShape answers d = .ok s) :
    Learnt answers D n { p with shapes := p.shapes.set (shapeKey d) s } := by
  refine ⟨h.connection, fun key s' hs' => ?_⟩
  by_cases hkey : key = shapeKey d
  · rw [hkey, Catalog.get?_set_self] at hs'
    obtain rfl := Option.mem_some.mp hs'
    exact ⟨d, hd, hkey.symm, hs⟩
  · rw [Catalog.get?_set_of_ne _ hkey] at hs'
    exact h.shapes key s' hs'

theorem shape (h : Learnt answers D n p) (hD : KeptApart D) (hsrv : srv.Steady answers)
    {d : Destination} (hd : d ∈ D) (w : σ) : ∃ p' w' sent, p.shape srv.recording d (w, [])
      = (catalogShape answers d, p', w', sent) ∧ sent.filter Statement.isInsert = []
      ∧ Learnt answers D n p' := by
  unfold Postgres.shape
  rcases hget : p.shapes.get? (shapeKey d) with _ | s
  · obtain ⟨w', sent, hask, hsent⟩ := askShape_recording hsrv h.connection d w
    rcases hshape : catalogShape answers d with e | s <;> simp only [hask, hshape]
    · exact ⟨p, w', sent, rfl, hsent, h⟩
    · exact ⟨_, w', sent, rfl, hsent, h.learn hd hshape⟩
  · obtain ⟨d', hd', hkey, hs⟩ := h.shapes _ s hget
    rw [catalogShape_congr (hD d' hd' d hd hkey) hs]
    exact ⟨p, w, [], rfl, rfl, h⟩

theorem upsert (h : Learnt answers D n p) (hD : KeptApart D) (hsrv : srv.Steady answers)
    (cancelled : Bool) {u : Upsert} (hu : u.destination ∈ D) (w : σ) : ∃ p' w' sent,
      p.upsert srv.recording cancelled u (w, []) = ((direct answers cancelled u).1, p', w', sent)
      ∧ sent.filter Statement.isInsert = (direct answers cancelled u).2
      ∧ Learnt answers D n p' := by
  unfold direct
  split_ifs with hcancelled hformat
  · exact ⟨p, w, [], by simp [Postgres.upsert, hcancelled], rfl, h⟩
  · exact ⟨p, w, [], by simp [Postgres.upsert, hcancelled, hformat], rfl, h⟩
  · obtain ⟨p', w', sent, hshape, hsent, h'⟩ := h.shape hD hsrv hu w
    obtain ⟨w'', sent', hupsert, hsent'⟩ :=
      upsert_of_shape hsrv (not_not.mp hformat) hshape hsent h'.connection
    rw [Bool.eq_false_iff.mpr hcancelled]
    exact ⟨p', w'', sent', hupsert, hsent', h'⟩

/-- Where tables are kept apart, a memory makes no difference. -/
theorem upserts_eq (h : Learnt answers D n p) (hD : KeptApart D) (hsrv : srv.Steady answers)
    {us : List (Bool × Upsert)} (hus : ∀ c ∈ us, c.2.destination ∈ D) (w : σ) :
    upserts srv id us p w = us.map fun c => direct answers c.1 c.2 := by
  induction us generalizing p w with
  | nil => rfl
  | cons c us ih =>
    obtain ⟨p', w', sent, hupsert, hsent, h'⟩ :=
      h.upsert hD hsrv c.1 (hus c List.mem_cons_self) w
    have hrest := ih h' (fun c hc => hus c (List.mem_cons_of_mem _ hc)) w'
    simp [upserts, hupsert, hsent, hrest]

end Learnt

/-- A storage that has just forgotten every shape knows no table but that of the next upsert. -/
theorem upserts_forget {srv : Server σ} {answers : Statement → Except String Reply}
    (hsrv : srv.Steady answers) {p : Postgres} {n : Nat} (hp : p.connection = some n)
    (us : List (Bool × Upsert)) (w : σ) :
    upserts srv forget us p w = us.map fun c => direct answers c.1 c.2 := by
  induction us generalizing p w with
  | nil => rfl
  | cons c us ih =>
    have hlearnt : Learnt answers {c.2.destination} n p.forget := ⟨hp, by simp [forget]⟩
    have hD : KeptApart {c.2.destination} := by
      rintro d rfl d' rfl -
      rfl
    obtain ⟨p', w', sent, hupsert, hsent, h'⟩ := hlearnt.upsert hD hsrv c.1 rfl w
    have hrest := ih h'.connection w'
    simp [upserts, hupsert, hsent, hrest]

/-! ### Tables that are mistaken for each other -/

/-- A server that is always in one state. -/
def Server.constant (answers : Statement → Except String Reply) : Server Unit where
  connect _ w := ((1, none), w)
  execute _ q w := (answers q, w)
  finish _ w := w

theorem Server.steady_constant (answers : Statement → Except String Reply) :
    (constant answers).Steady answers :=
  fun _ _ _ _ => rfl

/-- An upsert of nothing to the table. -/
def blank (d : Destination) : Bool × Upsert :=
  (false, { table := d.table, database := d.database, data := [] })

/-- A server that has the one table. -/
def having (d : Destination) (q : Statement) : Except String Reply :=
  .ok ⟨if q = (Statement.columnsOf d).wire then [["x"]] else [], ""⟩

theorem asked_of_columnsOf {d d' : Destination}
    (h : (Statement.columnsOf d).wire = (Statement.columnsOf d').wire) : asked d = asked d' := by
  have hparams : [Param.text (asked d).database, .text (asked d).table]
      = [.text (asked d').database, .text (asked d').table] := congrArg Statement.params h
  simpa [asked] using hparams

theorem reply_having (d : Destination) (q : Statement) : reply (having d) q
    = .ok (Reply.read ⟨if q.wire = (Statement.columnsOf d).wire then [["x"]] else [], ""⟩) :=
  rfl

theorem catalogShape_having_self (d : Destination) : ∃ s, catalogShape (having d) d = .ok s := by
  unfold catalogShape
  rw [reply_having, reply_having, if_pos rfl]
  exact ⟨_, rfl⟩

theorem catalogShape_having_of_ne {d d' : Destination} (h : asked d ≠ asked d') :
    catalogShape (having d) d' = .error (missing d') := by
  unfold catalogShape
  rw [reply_having, if_neg fun hwire => h (asked_of_columnsOf hwire).symm]
  rfl

/-- The first upsert teaches the storage a shape, which it then takes for that of another table. -/
theorem upserts_mistaken {d d' : Destination} (hkey : shapeKey d = shapeKey d')
    (h : asked d ≠ asked d') {p : Postgres} {n : Nat} (hp : p.connection = some n)
    (hshapes : p.shapes = {}) :
    upserts (Server.constant (having d)) id [blank d, blank d'] p ()
      ≠ [blank d, blank d'].map fun c => direct (having d) c.1 c.2 := by
  have hsrv := Server.steady_constant (having d)
  obtain ⟨s, hs⟩ := catalogShape_having_self d
  obtain ⟨p', hp'⟩ : ∃ p' : Postgres, p' = { p with shapes := p.shapes.set (shapeKey d) s } :=
    ⟨_, rfl⟩
  obtain ⟨w, sent, hask, hsent⟩ := askShape_recording hsrv hp d ()
  have hlearn : p.shape (Server.constant (having d)).recording d ((), [])
      = (.ok s, p', w, sent) := by
    simp [shape, hask, hs, hp', hshapes]
  have hconnected : p'.connection = some n := by
    rw [hp']
    exact hp
  obtain ⟨w₁, _, hfirst, -⟩ := upsert_of_shape hsrv (u := (blank d).2) rfl hlearn hsent hconnected
  have hmistake : p'.shape (Server.constant (having d)).recording d' (w₁, [])
      = (.ok s, p', w₁, []) := by
    simp [shape, hp', ← hkey]
  obtain ⟨_, _, hsecond, -⟩ :=
    upsert_of_shape hsrv (u := (blank d').2) rfl hmistake rfl hconnected
  obtain ⟨e, hdirect⟩ : ∃ e, (direct (having d) false (blank d').2).1 = .error e := by
    have hmissing : catalogShape (having d) (blank d').2.destination = .error (missing d') :=
      catalogShape_having_of_ne h
    unfold direct
    rw [hmissing]
    exact ⟨_, rfl⟩
  obtain ⟨k, hinsert⟩ : ∃ k, (byShape (having d) (blank d').2 (.ok s)).1 = .ok k := by
    rw [byShape, reply_having]
    exact ⟨_, rfl⟩
  have hlive : ∀ d, (blank d).1 = false := fun _ => rfl
  intro heq
  have hanswers := congrArg (List.map Prod.fst) heq
  simp [upserts, hlive, hfirst, hsecond, hinsert, hdirect] at hanswers

/-- A storage that remembers shapes makes the same insertions and gives the same answers as one that
forgets them before each upsert, whatever it is asked to upsert to tables of a set and whatever a
server answers whose answers depend on the statements alone: this is true if and only if no dot in
the names of a table of the set is where those of another part, but for tables that the server cannot
tell apart either. -/
theorem upserts_as_forgetting_iff (conninfo : String) (n : Nat) (D : Set Destination) :
    (∀ (σ : Type) (srv : Server σ) (answers : Statement → Except String Reply),
      srv.Steady answers → ∀ us : List (Bool × Upsert), (∀ c ∈ us, c.2.destination ∈ D) → ∀ w,
      upserts srv id us { conninfo := conninfo, connection := some n } w
        = upserts srv forget us { conninfo := conninfo, connection := some n } w)
      ↔ ∀ d ∈ D, ∀ d' ∈ D, ∀ s, d'.database = d.database ++ "." ++ s →
        d.table = s ++ "." ++ d'.table → asked d = asked d' := by
  rw [← keptApart_iff]
  constructor
  · intro h d hd d' hd' hkey
    by_contra hasked
    have hsrv := Server.steady_constant (having d)
    refine upserts_mistaken hkey hasked (n := n) rfl rfl
      ((h Unit _ _ hsrv _ (by simp [blank, Upsert.destination, hd, hd']) ()).trans ?_)
    exact upserts_forget hsrv (n := n) (by rfl) _ ()
  · intro hD σ srv answers hsrv us hus w
    have hlearnt : Learnt answers D n { conninfo := conninfo, connection := some n } :=
      ⟨rfl, by simp⟩
    rw [hlearnt.upserts_eq hD hsrv hus, upserts_forget hsrv hlearnt.connection]

/-- A server has the table `c` of the schema `a.b` and no table `b.c` of the schema `a`. An upsert to
the one and then one to the other: what comes of them is not the same with a memory and without. -/
theorem upserts_differ_by_memory :
    let answers := having ⟨"a.b", "c"⟩
    let us := [blank ⟨"a.b", "c"⟩, blank ⟨"a", "b.c"⟩]
    let p : Postgres := { conninfo := "postgres://h/db", connection := some 1 }
    (Server.constant answers).Steady answers
      ∧ upserts (Server.constant answers) id us p ()
        ≠ upserts (Server.constant answers) forget us p () := by
  intro answers us p
  have hsrv := Server.steady_constant answers
  refine ⟨hsrv, ?_⟩
  rw [upserts_forget hsrv (by rfl)]
  exact upserts_mistaken (by decide +kernel) (by decide +kernel) rfl rfl

end Ingest.Store.Postgres

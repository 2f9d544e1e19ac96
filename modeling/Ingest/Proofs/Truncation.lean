import Ingest.Cli
import Ingest.Proofs.Pipeline.World
import Ingest.Proofs.Settings
import Ingest.Proofs.Store.Memory
import Ingest.Proofs.Store.Transcript

/-!
# A run writes where it has emptied

The program that is asked to empties the destinations of its feeds in every storage, and only then
begins its run (`Cli.run_of_emptied`). Whatever is written in the run goes to one of these
destinations (`Cli.run_writes_where_emptied`): a server was sent each name that it gets rows for in
the statement that emptied tables, and what a storage in memory holds under these names in the end is
what this run has written.
-/

namespace Ingest

open Pipeline Store Store.Postgres

/-! ### Statements without the character with code 0 -/

structure Destination.Plain (d : Destination) : Prop where
  database : Ingest.Plain d.database
  table : Ingest.Plain d.table

theorem Feed.Plain.destination {f : Feed} (h : f.Plain) : f.destination.Plain :=
  ⟨h.database, h.resolvedTable⟩

theorem Plain.append {s t : String} (hs : Plain s) (ht : Plain t) : Plain (s ++ t) := by
  intro h
  rw [String.toList_append] at h
  exact (List.mem_append.mp h).elim hs ht

theorem Plain.intercalate {s : String} {ts : List String} (hs : Plain s)
    (hts : ∀ t ∈ ts, Plain t) : Plain (s.intercalate ts) := by
  intro h
  rw [String.toList_intercalate, List.intercalate, List.mem_flatten] at h
  obtain ⟨cs, hcs, hc⟩ := h
  obtain ⟨i, hi⟩ := List.mem_iff_getElem?.mp hcs
  rw [List.getElem?_intersperse] at hi
  split_ifs at hi
  · obtain ⟨t, ht, rfl⟩ := List.mem_map.mp (List.mem_of_getElem? hi)
    exact hts t ht hc
  · obtain rfl := Option.some.inj hi
    exact hs hc

namespace Store.Postgres

theorem plain_quoted {name : String} (h : Plain name) : Plain (quoted name) := by
  refine .append (.append (by decide) fun hc => ?_) (by decide)
  rw [String.toList_ofList, doubled, List.mem_flatMap] at hc
  obtain ⟨c, hname, hc⟩ := hc
  have hne : '\x00' ≠ c := fun heq => h (heq ▸ hname)
  split_ifs at hc <;> simp_all

theorem plain_qualified {d : Destination} (h : d.Plain) : Plain (qualified d) := by
  unfold qualified
  split_ifs
  · exact plain_quoted h.table
  · exact .append (.append (plain_quoted h.database) (by decide)) (plain_quoted h.table)

theorem wire_truncate {ds : List Destination} (h : ∀ d ∈ ds, d.Plain) :
    (Statement.truncate ds).wire = Statement.truncate ds := by
  have hplain : Plain ("TRUNCATE " ++ ", ".intercalate (ds.map qualified)) := by
    refine .append (by decide) (.intercalate (by decide) fun t ht => ?_)
    obtain ⟨d, hd, rfl⟩ := List.mem_map.mp ht
    exact plain_qualified (h d hd)
  simp only [Statement.wire, Statement.truncate, hplain.untilNul, List.map_nil]

/-- An insertion names its table at its beginning, also as the server receives it. -/
theorem prefix_wire_insert {d : Destination} (h : d.Plain) (s : Shape) (data : Payload) :
    ("INSERT INTO " ++ qualified d ++ " (").toList
      <+: (Statement.insert d s data).wire.sql.toList := by
  refine prefix_wire ?_ fun c hc => ?_
  · unfold Statement.insert
    dsimp only
    iterate 8 apply toList_prefix_append
    exact List.prefix_rfl
  · have hplain : Plain ("INSERT INTO " ++ qualified d ++ " (") :=
      .append (.append (by decide) (plain_qualified h)) (by decide)
    simpa using ne_of_mem_of_not_mem hc hplain

/-- Of what an upsert sends, only the insertion begins as one. -/
theorem eq_insert_of_sends {u : Upsert} {q : Statement} (h : (Call.upsert u).Sends q)
    (hq : q.wire.isInsert = true) : ∃ s, q = .insert u.destination s u.data := by
  cases h with
  | columnsOf =>
    rw [isInsert_columnsOf] at hq
    cases hq
  | keysOf =>
    rw [isInsert_keysOf] at hq
    cases hq
  | insert _ s => exact ⟨s, rfl⟩

theorem execute_snd {σ : Type} {srv : Server σ} {p : Postgres} {n : ℕ} (hp : p.connection = some n)
    (q : Statement) (w : σ) : (p.execute srv q w).2 = (srv.execute n q.wire w).2 := by
  simp only [execute, hp]
  split <;> rename_i heq <;> rw [heq]

end Store.Postgres

/-! ### What upserts that succeed leave in a storage -/

namespace Pipeline

/-- The payloads that the storage with number `k` has taken, in order. -/
def takenBy (k : ℕ) (ws : List Write) : List Upsert :=
  (ws.filter fun w => w.storage = k && w.failure.isNone).map Write.upsert

theorem takenBy_concat (k : ℕ) (ws : List Write) (w : Write) : takenBy k (ws ++ [w])
    = takenBy k ws ++ if w.storage = k ∧ w.failure = none then [w.upsert] else [] := by
  unfold takenBy
  rw [List.filter_append, List.map_append, List.filter_singleton]
  by_cases hk : w.storage = k <;> cases w.failure <;> simp [hk]

end Pipeline

namespace Store

variable {us : List Upsert} {s₀ s : Store}

/-- What a storage has become that took upserts since: its connection is the same, and in memory it
has their payloads more. -/
def Took (us : List Upsert) : Store → Store → Prop
  | memory m, memory m' => ∀ name, m'.records name = m.records name ++ dataUnder name us
  | postgres p, postgres p' => p'.connection = p.connection
  | _, _ => False

theorem took_nil (s : Store) : Took [] s s := by
  cases s <;> simp [Took]

theorem Took.connection? (h : Took us s₀ s) : s.connection? = s₀.connection? := by
  cases s₀ <;> cases s <;> first | exact h.elim | rfl | exact h

theorem upsert_memory (m : Memory) (cancelled : Bool) (u : Upsert) (w : Script) :
    (memory m).upsert Script.server cancelled u w
      = ((m.upsert cancelled u).1, .memory (m.upsert cancelled u).2, w) := rfl

theorem upsert_postgres (p : Postgres) (cancelled : Bool) (u : Upsert) (w : Script) :
    (postgres p).upsert Script.server cancelled u w
      = ((p.upsert Script.server cancelled u w).1,
        .postgres (p.upsert Script.server cancelled u w).2.1,
        (p.upsert Script.server cancelled u w).2.2) := rfl

theorem Took.upsert (h : Took us s₀ s) (cancelled : Bool) (u : Upsert) (w : Script) :
    Took (us ++ if (s.upsert Script.server cancelled u w).1.isOk then [u] else []) s₀
      (s.upsert Script.server cancelled u w).2.1 := by
  cases s with
  | memory m =>
    cases s₀ with
    | postgres => exact h.elim
    | memory m₀ =>
      rw [upsert_memory]
      rcases m.upsert_cases cancelled u with hm | ⟨e, hm⟩ <;> rw [hm] <;> intro name
      · rw [Memory.records_insert, h name, List.append_assoc, ← dataUnder_append]
        rfl
      · simpa [Except.isOk, Except.toBool] using h name
  | postgres p =>
    cases s₀ with
    | memory => exact h.elim
    | postgres p₀ =>
      obtain ⟨-, shapes, hp⟩ := talks_upsert Script.server p cancelled u w
      rw [upsert_postgres, hp]
      exact h

/-- What a call adds to the log goes over the storage's connection. -/
theorem log_perform (s : Store) (cancelled : Bool) {c : Call} (hc : c ≠ .close) (w : Script) :
    ∃ sent, (s.perform Script.server cancelled c w).2.2.log = w.log ++ sent
      ∧ ∀ e ∈ sent, ∃ n q, s.connection? = some n ∧ c.Sends q ∧ e = .sent n q.wire := by
  obtain ⟨sent, hfollows, hsent⟩ :=
    Script.follows_of_talks (s.talks_perform Script.server cancelled hc w).1
  exact ⟨sent, hfollows.log, hsent⟩

theorem upsert_snd_snd (s : Store) (cancelled : Bool) (u : Upsert) (w : Script) :
    (s.upsert Script.server cancelled u w).2.2
      = (s.perform Script.server cancelled (.upsert u) w).2.2 := by
  cases s <;> rfl

theorem truncate_snd_snd (s : Store) (cancelled : Bool) (ds : List Destination) (w : Script) :
    (s.truncate Script.server cancelled ds w).2.2
      = (s.perform Script.server cancelled (.truncate ds) w).2.2 := by
  cases s <;> rfl

end Store

/-! ### The world of the program -/

namespace Cli

variable {τ : Type} {s : Settings} {opened stores : List Store} {ds : List Destination}
  {base : List LogEntry} {ws : List Write} {w : World τ Script}

/-- What an upsert to one of the destinations sends, over the connection of one of the storages. -/
inductive SentTo (stores : List Store) (ds : List Destination) : LogEntry → Prop where
  | upsert {k : ℕ} {p : Postgres} {n : ℕ} {u : Upsert} {q : Statement}
    (hk : stores[k]? = some (.postgres p)) (hn : p.connection = some n) (hu : u.destination ∈ ds)
    (hq : (Call.upsert u).Sends q) : SentTo stores ds (.sent n q.wire)

/-- Every insertion among it names one of the destinations. -/
theorem SentTo.names {n : ℕ} {q : Statement} (h : SentTo stores ds (.sent n q))
    (hds : ∀ d ∈ ds, d.Plain) (hinsert : q.isInsert = true) :
    ∃ d ∈ ds, ("INSERT INTO " ++ qualified d ++ " (").toList <+: q.sql.toList := by
  rcases h with ⟨-, -, hu, hq⟩
  obtain ⟨shape, rfl⟩ := eq_insert_of_sends hq hinsert
  exact ⟨_, hu, prefix_wire_insert (hds _ hu) shape _⟩

/-- What has come of storages and of a log by writes to destinations `ds`. -/
structure Holds (stores : List Store) (base : List LogEntry) (ds : List Destination)
    (ws : List Write) (w : World τ Script) : Prop where
  writes : ∀ x ∈ ws, x.upsert.destination ∈ ds
  took : ∀ k s₀, stores[k]? = some s₀ → ∃ s, w.stores[k]? = some s ∧ Took (takenBy k ws) s₀ s
  log : ∃ sent, w.server.log = base ++ sent ∧ ∀ e ∈ sent, SentTo stores ds e

theorem Holds.congr {w' : World τ Script} (h : Holds stores base ds ws w)
    (hserver : w'.server = w.server) (hstores : w'.stores = w.stores) :
    Holds stores base ds ws w' := by
  refine ⟨h.writes, ?_, ?_⟩
  · rw [hstores]
    exact h.took
  · rw [hserver]
    exact h.log

theorem Holds.write (h : Holds stores base ds ws w) {k : ℕ} {s₀ : Store} (hk : stores[k]? = some s₀)
    {u : Upsert} (hu : u.destination ∈ ds) {cancelled : Bool} {result : Except Error ℕ}
    {w' : World τ Script}
    (hw : (writer Script.server s₀ k).upsert cancelled u w = (result, w'))
    {failure : Option Error} (hfailure : failure.isNone = result.isOk) :
    Holds stores base ds (ws ++ [⟨k, u, failure⟩]) w' := by
  obtain ⟨s, hs, htook⟩ := h.took k s₀ hk
  have hget : (w.stores[k]?).getD s₀ = s := by rw [hs, Option.getD_some]
  simp only [writer, hget] at hw
  obtain ⟨rfl, rfl⟩ := Prod.mk.inj hw
  refine ⟨?_, fun j t hj => ?_, ?_⟩
  · rw [List.forall_mem_append]
    exact ⟨h.writes, by simpa using hu⟩
  · obtain ⟨t', ht', htook'⟩ := h.took j t hj
    rw [takenBy_concat]
    by_cases hjk : k = j
    · subst hjk
      obtain rfl := Option.some.inj (hk.symm.trans hj)
      have hlt : k < w.stores.length := (List.getElem?_eq_some_iff.mp hs).1
      refine ⟨_, List.getElem?_set_self hlt, ?_⟩
      have htaken := htook.upsert cancelled u w.server
      rw [← hfailure] at htaken
      simpa [Option.isNone_iff_eq_none] using htaken
    · refine ⟨t', by rw [List.getElem?_set_ne hjk]; exact ht', ?_⟩
      simpa [hjk] using htook'
  · obtain ⟨sent, hlog, hsent⟩ := h.log
    obtain ⟨sent', hlog', hsent'⟩ :=
      s.log_perform cancelled (c := .upsert u) Call.noConfusion w.server
    refine ⟨sent ++ sent', by rw [upsert_snd_snd, hlog', hlog, List.append_assoc], ?_⟩
    rw [List.forall_mem_append]
    refine ⟨hsent, fun e he => ?_⟩
    obtain ⟨n, q, hn, hq, rfl⟩ := hsent' e he
    rw [htook.connection?] at hn
    obtain ⟨p, rfl, hp⟩ := connection?_eq_some.mp hn
    exact .upsert hk hp hu hq

/-- Nothing is taken under a name that belongs to no destination. -/
theorem Holds.dataUnder_takenBy (h : Holds stores base ds ws w) (k : ℕ) {name : String}
    (hname : name ∉ ds.map Memory.key) : dataUnder name (takenBy k ws) = [] := by
  refine List.flatMap_eq_nil_iff.mpr fun u hu => if_neg fun hkey => hname ?_
  obtain ⟨x, hx, rfl⟩ := List.mem_map.mp hu
  rw [← hkey]
  exact List.mem_map_of_mem (h.writes x (List.mem_of_mem_filter hx))

theorem Holds.records (h : Holds stores base ds ws w) {k : ℕ} {m : Memory}
    (hk : stores[k]? = some (.memory m)) : ∃ m', w.stores[k]? = some (.memory m')
      ∧ ∀ name, m'.records name = m.records name ++ dataUnder name (takenBy k ws) := by
  obtain ⟨s, hs, htook⟩ := h.took k _ hk
  cases s with
  | postgres => exact htook.elim
  | memory m' => exact ⟨m', hs, htook⟩

theorem exists_of_writers {ρ : Type} {srv : Server ρ} {t : Http.Transport τ} {k : ℕ}
    {storage : Writer (World τ ρ)} (h : (services t srv s stores).writers[k]? = some storage) :
    ∃ s₀, stores[k]? = some s₀ ∧ storage = writer srv s₀ k := by
  simp only [services, List.getElem?_map, List.getElem?_zipIdx, Option.map_map, Nat.zero_add,
    Option.map_eq_some_iff] at h
  obtain ⟨s₀, hk, rfl⟩ := h
  exact ⟨s₀, hk, rfl⟩

/-- What the program's services keep: what does not look at the token bucket, whatever is exchanged and
written to a storage. -/
theorem keeps_of {ρ : Type} {srv : Server ρ} {t : Http.Transport τ} {D : Destination → Prop}
    {I : List Write → World τ ρ → Prop}
    (hmeter : ∀ {ws} {w : World τ ρ}, I ws w → ∀ m, I ws { w with meter := m })
    (hsend : ∀ {ws w}, I ws w → ∀ j, I ws (send t s j w).2.2)
    (hwrite : ∀ {ws w k s₀ u cancelled result w' failure}, stores[k]? = some s₀ → D u.destination →
      (writer srv s₀ k).upsert cancelled u w = (result, w') → failure.isNone = result.isOk →
      I ws w → I (ws ++ [⟨k, u, failure⟩]) w') :
    (services t srv s stores).Keeps D I where
  ask h cancelled := by
    cases hlimit : s.rateLimit <;>
      simp only [services, hlimit, limiter, Limiter.absent, Limiter.ofMeter]
    · exact h
    · split_ifs
      · exact h
      · split <;> exact hmeter h _
  wake h ready := by
    cases hlimit : s.rateLimit <;>
      simp only [services, hlimit, limiter, Limiter.absent, Limiter.ofMeter]
    · exact h
    · exact hmeter h _
  giveUp h := by
    cases hlimit : s.rateLimit <;>
      simp only [services, hlimit, limiter, Limiter.absent, Limiter.ofMeter]
    · exact h
    · exact hmeter h _
  send h j := hsend h j
  write hk hu hw h := by
    obtain ⟨s₀, hs₀, rfl⟩ := exists_of_writers hk
    exact hwrite hs₀ hu hw rfl h
  fail hk hu hw h := by
    obtain ⟨s₀, hs₀, rfl⟩ := exists_of_writers hk
    exact hwrite hs₀ hu hw rfl h

/-- Only couriers touch the storages and the server. -/
theorem keeps_holds (t : Http.Transport τ) (s : Settings) (stores : List Store)
    (base : List LogEntry) (ds : List Destination) :
    (services t Script.server s stores).Keeps (· ∈ ds) (Holds stores base ds) :=
  keeps_of (fun h _ => h.congr rfl rfl) (fun h _ => h.congr rfl rfl)
    fun hk hu hw hfailure h => h.write hk hu hw hfailure

theorem holds_start (stores : List Store) (ds : List Destination) (web : τ) (w : Script) :
    Holds stores w.log ds [] { web := web, server := w, stores := stores } where
  writes := by simp
  took k s₀ hk := ⟨s₀, hk, took_nil s₀⟩
  log := ⟨[], by simp, by simp⟩

/-! ### The truncation -/

/-- A storage that was emptied without an error: in memory nothing is kept under the names of the
destinations, and a server was told to empty them all, over the storage's connection. -/
theorem truncate_eq_none {s₀ s : Store} {v v' : Script}
    (h : s₀.truncate Script.server false ds v = (none, s, v')) :
    (∀ m₀, s₀ = .memory m₀ → ∃ m, s = .memory m
        ∧ ∀ name, m.records name = if name ∈ ds.map Memory.key then [] else m₀.records name)
      ∧ ∀ p, s₀ = .postgres p → s = .postgres p ∧ (ds ≠ [] → ∃ n, p.connection = some n
        ∧ .sent n (Statement.truncate ds).wire ∈ v'.log) := by
  cases s₀ with
  | memory m₀ =>
    refine ⟨?_, by simp⟩
    rintro _ ⟨⟩
    cases hclosed : m₀.closed <;>
      simp [Store.truncate, Memory.truncate, Memory.refusal?, hclosed] at h
    exact ⟨_, h.1.symm, fun name => m₀.records_foldl_clear ds name⟩
  | postgres p =>
    refine ⟨by simp, ?_⟩
    rintro _ ⟨⟩
    simp only [Store.truncate, Postgres.truncate, Bool.false_eq_true, if_false] at h
    split_ifs at h with hds
    · obtain ⟨-, rfl, -⟩ := by simpa only [Prod.mk.injEq] using h
      exact ⟨rfl, fun hne => absurd (List.isEmpty_iff.mp hds) hne⟩
    · cases hp : p.connection with
      | none => simp [Postgres.execute, hp] at h
      | some n =>
        rcases hreply : p.execute Script.server (.truncate ds) v with ⟨e | r, v₁⟩ <;>
          rw [hreply] at h <;> simp only [Prod.mk.injEq, reduceCtorEq, false_and] at h
        obtain ⟨-, rfl, rfl⟩ := h
        refine ⟨rfl, fun _ => ⟨n, rfl, ?_⟩⟩
        have hworld : v₁ = (Script.server.execute n (Statement.truncate ds).wire v).2 := by
          rw [← execute_snd hp, hreply]
        rw [hworld]
        exact List.mem_append_right _ (List.mem_singleton_self _)

theorem log_truncate (s : Store) (ds : List Destination) (v : Script) :
    v.log <+: (s.truncate Script.server false ds v).2.2.log := by
  obtain ⟨sent, hlog, -⟩ := s.log_perform false (c := .truncate ds) Call.noConfusion v
  rw [truncate_snd_snd, hlog]
  exact List.prefix_append _ _

/-- Every storage was emptied if no error came up, and the log has not lost anything since. -/
theorem truncateAll_eq_none {v v' : Script}
    (h : truncateAll Script.server ds opened v = (none, stores, v')) :
    v.log <+: v'.log ∧ ∀ (k : ℕ) (s₀ : Store), opened[k]? = some s₀ →
      ∃ (v₁ : Script) (s₁ : Store) (v₂ : Script),
        s₀.truncate Script.server false ds v₁ = (none, s₁, v₂) ∧ stores[k]? = some s₁
          ∧ v₂.log <+: v'.log := by
  induction opened generalizing stores v with
  | nil =>
    simp only [truncateAll, Prod.mk.injEq, true_and] at h
    rw [h.2]
    exact ⟨List.prefix_rfl, by simp⟩
  | cons s₀ opened ih =>
    have hlog := log_truncate s₀ ds v
    unfold truncateAll at h
    rcases hfirst : s₀.truncate Script.server false ds v with ⟨_ | e, s₁, v₁⟩ <;>
      simp only [hfirst, Prod.mk.injEq, reduceCtorEq, false_and] at h hlog
    obtain ⟨herror, rfl, rfl⟩ := h
    obtain ⟨hlog', hrest⟩ := ih (v := v₁) (Prod.ext herror rfl)
    refine ⟨hlog.trans hlog', fun k t hk => ?_⟩
    cases k with
    | zero =>
      obtain rfl := Option.some.inj hk
      exact ⟨v, s₁, v₁, hfirst, rfl, hlog'⟩
    | succ k => exact hrest k t hk

/-! ### The run -/

/-- A program that is to empty its storages, and can, carries out one of the runs that are possible
then, and closes the storages after it. -/
theorem run_of_emptied {ρ : Type} (t : Http.Transport τ) {srv : Server ρ} (cores : ℕ)
    {arguments : List String} (hs : Settings.ofArguments arguments = .ok s) (hhelp : s.help = false)
    (htruncate : s.truncate = true) {v₀ v v' : ρ}
    (hopened : openAll srv s.storages [] v₀ = (none, opened, v))
    (hemptied : truncateAll srv (s.feeds.map Feed.destination) opened v = (none, stores, v'))
    (web : τ) : ∃ (es : List Run.Event) (r : Run) (u : Shared (World τ ρ)),
      follow? (Run.act? (services t srv s stores))
        (Run.start context s.feeds (Batch.workersOr cores s.workers)
          { world := { web := web, server := v', stores := stores } }) es = some (r, u)
      ∧ (run t srv cores arguments web v₀).server
        = releaseAll srv (closeAll srv u.world.stores u.world.server).1
          (closeAll srv u.world.stores u.world.server).2 := by
  obtain ⟨es, hes⟩ := Run.carryOut_follows (services t srv s stores) pace context s.feeds
    (Batch.workersOr cores s.workers) { world := { web := web, server := v', stores := stores } }
  have hrun : run t srv cores arguments web v₀ = ingest srv (engine t srv cores) s stores web v' := by
    simp only [run, runBy, hs, hhelp, execute, hopened, htruncate, hemptied, Bool.false_eq_true,
      if_false, if_true]
  rcases hcarry : Run.carryOut (services t srv s stores) pace context s.feeds
    (Batch.workersOr cores s.workers) { world := { web := web, server := v', stores := stores } }
    with ⟨r, u⟩
  rw [hcarry] at hes
  refine ⟨es, r, u, hes, ?_⟩
  rw [hrun, ingest, engine, hcarry]
  rfl

/-- Once the storages are emptied, in every run with the settings of a command line, whatever the
transport and the server answer and whenever which context is cancelled: what is written to a storage
goes to the destination of a feed, and every storage was asked to empty that one before the run.

All that a server is sent in the run goes over the connections of the storages. Such a connection has
brought the server one statement that empties tables, and every insertion over it names one of
these tables by the same text.

A storage in memory holds nothing under the names of these destinations before the run, and then
what the run has written there. What it holds under other names stays as it was. -/
theorem run_writes_where_emptied (t : Http.Transport τ) {cores : ℕ} (hcores : 0 < cores)
    {arguments : List String} (hs : Settings.ofArguments arguments = .ok s) (hhelp : s.help = false)
    {v v' : Script} (hemptied : truncateAll Script.server (s.feeds.map Feed.destination) opened v
      = (none, stores, v')) (web : τ) {es : List Run.Event} {r : Run} {u : Shared (World τ Script)}
    (h : follow? (Run.act? (services t Script.server s stores))
      (Run.start context s.feeds (Batch.workersOr cores s.workers)
        { world := { web := web, server := v', stores := stores } }) es = some (r, u)) :
    ((∀ x ∈ r.delivery.writes, ∃ f ∈ s.feeds, x.upsert.destination = f.destination)
      ∧ ∀ (k : ℕ) (s₀ : Store), opened[k]? = some s₀ → ∃ v₁ s₁ v₂,
        s₀.truncate Script.server false (s.feeds.map Feed.destination) v₁ = (none, s₁, v₂)
          ∧ stores[k]? = some s₁)
    ∧ (∃ sent, u.world.server.log = v'.log ++ sent
      ∧ (∀ e ∈ sent, ∃ (k : ℕ) (p : Postgres) (n : ℕ) (q : Statement),
        stores[k]? = some (.postgres p) ∧ p.connection = some n ∧ e = .sent n q)
      ∧ ∀ (k : ℕ) (p : Postgres), opened[k]? = some (.postgres p) →
        stores[k]? = some (.postgres p) ∧ ∃ n, p.connection = some n
          ∧ .sent n ⟨"TRUNCATE " ++ ", ".intercalate (s.feeds.map fun f => qualified f.destination),
            []⟩ ∈ v'.log
          ∧ ∀ q, .sent n q ∈ sent → q.isInsert = true →
            ∃ f ∈ s.feeds,
              ("INSERT INTO " ++ qualified f.destination ++ " (").toList <+: q.sql.toList)
    ∧ ∀ (k : ℕ) (m₀ : Memory), opened[k]? = some (.memory m₀) → ∃ m m',
      stores[k]? = some (.memory m) ∧ u.world.stores[k]? = some (.memory m')
        ∧ ∀ name, (name ∈ s.feeds.map (fun f => Memory.key f.destination) →
            m.records name = [] ∧ m'.records name = dataUnder name (takenBy k r.delivery.writes))
          ∧ (name ∉ s.feeds.map (fun f => Memory.key f.destination) →
            m.records name = m₀.records name ∧ m'.records name = m₀.records name) := by
  obtain ⟨hplain, hfeeds⟩ := Settings.plain_of_ofArguments hs
  replace hplain : ∀ d ∈ s.feeds.map Feed.destination, d.Plain := by
    intro d hd
    obtain ⟨f, hf, rfl⟩ := List.mem_map.mp hd
    exact (hplain f hf).destination
  obtain ⟨-, hstores⟩ := truncateAll_eq_none hemptied
  have hholds := Run.keeps_of_follow?
    (keeps_holds t s stores v'.log (s.feeds.map Feed.destination))
    (Batch.workersOr_pos hcores s.workers) Registers.valid_nil (holds_start ..) h
  refine ⟨⟨fun x hx => ?_, fun k s₀ hk => ?_⟩, ?_, fun k m₀ hk => ?_⟩
  · obtain ⟨f, hf, hfx⟩ := List.mem_map.mp (hholds.writes x hx)
    exact ⟨f, hf, hfx.symm⟩
  · obtain ⟨v₁, s₁, v₂, htruncate, hk', -⟩ := hstores k s₀ hk
    exact ⟨v₁, s₁, v₂, htruncate, hk'⟩
  · obtain ⟨sent, hlog, hsent⟩ := hholds.log
    refine ⟨sent, hlog, fun e he => ?_, fun k p hk => ?_⟩
    · obtain ⟨hk, hn, -, -⟩ := hsent e he
      exact ⟨_, _, _, _, hk, hn, rfl⟩
    · obtain ⟨v₁, s₁, v₂, htruncate, hk', hlog'⟩ := hstores k _ hk
      obtain ⟨rfl, htold⟩ := (truncate_eq_none htruncate).2 p rfl
      obtain ⟨n, hn, htold⟩ := htold (by simpa using hfeeds hhelp)
      rw [wire_truncate hplain, Statement.truncate, List.map_map] at htold
      refine ⟨hk', n, hn, hlog'.subset htold, fun q hq hinsert => ?_⟩
      obtain ⟨d, hd, hnames⟩ := (hsent _ hq).names hplain hinsert
      obtain ⟨f, hf, rfl⟩ := List.mem_map.mp hd
      exact ⟨f, hf, hnames⟩
  · obtain ⟨v₁, s₁, v₂, htruncate, hk', -⟩ := hstores k _ hk
    obtain ⟨m, rfl, hm⟩ := (truncate_eq_none htruncate).1 m₀ rfl
    obtain ⟨m', hm', hrecords⟩ := hholds.records hk'
    have hkeys : s.feeds.map (fun f => Memory.key f.destination)
        = (s.feeds.map Feed.destination).map Memory.key := by rw [List.map_map]; rfl
    rw [hkeys]
    refine ⟨m, m', hk', hm', fun name => ⟨fun hname => ?_, fun hname => ?_⟩⟩
    · rw [hrecords, hm, if_pos hname]
      exact ⟨rfl, List.nil_append _⟩
    · rw [hrecords, hm, if_neg hname, hholds.dataUnder_takenBy k hname]
      exact ⟨rfl, List.append_nil _⟩

/-- A transport that answers every request with the same body. -/
def answering (body : Payload) : Http.Transport Unit :=
  ⟨fun _ => true, fun _ w => ({ chunks := [body] }, w)⟩

/-- One feed, a storage in memory that has two tables, and one on a server: one of the tables is
emptied and then has what the feed brought, and the other one is as it was. -/
theorem run_writes_where_emptied_once : ∃ (s : Settings) (stores : List Store) (v' : Script)
    (es : List Run.Event) (r : Run) (u : Shared (World Unit Script)),
    Settings.ofArguments ["", "--url", "h/t", "--truncate"] = .ok s ∧ s.help = false
      ∧ truncateAll Script.server (s.feeds.map Feed.destination)
        [.memory { tables := ⟨[("ht", [[1]]), ("x", [[2]])]⟩ }, .postgres ⟨"", some 1, {}⟩]
        { replies := [.ok {}, .ok ⟨[["c"]], ""⟩, .ok {}, .ok {}] } = (none, stores, v')
      ∧ follow? (Run.act? (services (answering [3]) Script.server s stores))
        (Run.start context s.feeds (Batch.workersOr 1 s.workers)
          { world := { web := (), server := v', stores := stores } }) es = some (r, u)
      ∧ r.delivery.writes.length = 2
      ∧ (∀ x ∈ r.delivery.writes, ∃ f ∈ s.feeds, x.upsert.destination = f.destination)
      ∧ .sent 1 (Statement.insert ⟨"", "ht"⟩ ⟨["c"], []⟩ [3]).wire ∈ u.world.server.log
      ∧ ∃ m', u.world.stores[0]? = some (.memory m') ∧ m'.records "ht" = [[3]]
        ∧ m'.records "x" = [[2]] := by
  have hrun : ∃ (s : Settings) (stores : List Store) (v' : Script) (es : List Run.Event) (r : Run)
      (u : Shared (World Unit Script)),
      Settings.ofArguments ["", "--url", "h/t", "--truncate"] = .ok s ∧ s.help = false
        ∧ truncateAll Script.server (s.feeds.map Feed.destination)
          [.memory { tables := ⟨[("ht", [[1]]), ("x", [[2]])]⟩ }, .postgres ⟨"", some 1, {}⟩]
          { replies := [.ok {}, .ok ⟨[["c"]], ""⟩, .ok {}, .ok {}] } = (none, stores, v')
        ∧ follow? (Run.act? (services (answering [3]) Script.server s stores))
          (Run.start context s.feeds (Batch.workersOr 1 s.workers)
            { world := { web := (), server := v', stores := stores } }) es = some (r, u)
        ∧ r.delivery.writes.length = 2
        ∧ .sent 1 (Statement.insert ⟨"", "ht"⟩ ⟨["c"], []⟩ [3]).wire ∈ u.world.server.log
        ∧ "ht" ∈ s.feeds.map (fun f => Memory.key f.destination)
        ∧ "x" ∉ s.feeds.map (fun f => Memory.key f.destination)
        ∧ dataUnder "ht" (takenBy 0 r.delivery.writes) = [[3]] := by
    exact ⟨_, _, _, List.flatten [List.replicate 3 .loop, List.replicate 8 (.fetch 0),
      List.replicate 5 .loop, List.replicate 6 (.deliver 0)], _, _, rfl, rfl, rfl, rfl, rfl,
      List.mem_of_getElem? (i := 3) rfl, by decide +kernel, by decide +kernel, rfl⟩
  obtain ⟨s, stores, v', es, r, u, hs, hhelp, hemptied, h, htwo, hinsert, hht, hx, hdata⟩ := hrun
  obtain ⟨⟨hwrites, -⟩, -, hmemory⟩ :=
    run_writes_where_emptied (answering [3]) (by decide) hs hhelp hemptied () h
  obtain ⟨m, m', -, hm', hrecords⟩ := hmemory 0 _ rfl
  refine ⟨s, stores, v', es, r, u, hs, hhelp, hemptied, h, htwo, hwrites, hinsert, m', hm', ?_, ?_⟩
  · rw [((hrecords "ht").1 hht).2, hdata]
  · rw [((hrecords "x").2 hx).2]
    rfl

end Cli

end Ingest

import Ingest.Proofs.Opening
import Ingest.Proofs.Pipeline.Returning

/-!
# In which order the program acts

The program acts on a server and, through its transport, on the web. Whatever its arguments are,
whatever the server answers and however a run's threads take turns, it does nothing before its settings
are good, sends no statement before every storage is open, and makes no exchange before every storage is
emptied that is to be (`Cli.Course`). Each connection is finished exactly once (`Cli.effects_in_order`).
-/

namespace Ingest

open Pipeline Store Store.Postgres

/-- What an upsert sends does not empty tables. -/
theorem Store.Postgres.not_truncate_of_sends {u : Upsert} {q : Statement}
    (h : (Call.upsert u).Sends q) : ¬ "TRUNCATE".toList <+: q.wire.sql.toList := by
  have hfirst : ∃ a, a ≠ 'T' ∧ [a] <+: q.wire.sql.toList := by
    have hselect : ['S'] <+: "SELECT".toList := by decide
    have hinsert : ['I'] <+: "INSERT".toList := by decide
    cases h with
    | columnsOf =>
      exact ⟨'S', by decide, prefix_wire (hselect.trans (prefix_columnsOf _)) (by simp)⟩
    | keysOf => exact ⟨'S', by decide, prefix_wire (hselect.trans (prefix_keysOf _)) (by simp)⟩
    | insert _ s =>
      exact ⟨'I', by decide, prefix_wire (hinsert.trans (prefix_insert _ s _)) (by simp)⟩
  rintro ⟨rest, hrest⟩
  obtain ⟨a, ha, rest', hrest'⟩ := hfirst
  rw [← hrest] at hrest'
  exact ha (List.cons.inj hrest').1

namespace Cli

variable {τ : Type} {t : Http.Transport τ} {s : Settings} {stores : List Store}
  {ds : List Destination} {s₀ : Script} {base : List LogEntry} {web : τ} {ws : List Write}
  {w w' : World τ Script}

/-- What the exchanges make of the web. -/
def exchanged {ρ : Type} (t : Http.Transport τ) (web : τ) (xs : List (Http.Exchange × ρ)) : τ :=
  xs.foldl (fun web x => (t.perform x.1 web).2) web

/-! ### What a run keeps -/

/-- What has come of the world in a run over storages, since the server's log was `base`. -/
structure Orderly (t : Http.Transport τ) (stores : List Store) (s₀ : Script) (base : List LogEntry)
    (ds : List Destination) (web : τ) (ws : List Write) (w : World τ Script) : Prop where
  holds : Holds stores base ds ws w
  connected : w.stores.map Store.connection? = stores.map Store.connection?
  books : Books s₀ ∅ ∅ (heldBy stores) w.server
  exchanges : ∀ x ∈ w.exchanges, base <+: x.2.log
  web : w.web = exchanged t web w.exchanges

namespace Orderly

/-- An exchange sees all that the server had been asked before the run. -/
theorem send (h : Orderly t stores s₀ base ds web ws w) (s : Settings) (j : Job) :
    Orderly t stores s₀ base ds web ws (send t s j w).2.2 := by
  have hprefix : base <+: w.server.log := by
    obtain ⟨sent, hlog, -⟩ := h.holds.log
    exact hlog ▸ List.prefix_append _ _
  refine ⟨h.holds.congr rfl rfl, h.connected, h.books, ?_, ?_⟩
  · show ∀ x ∈ if t.available w.web then _ else _, _
    split_ifs
    · rw [List.forall_mem_append, List.forall_mem_singleton]
      exact ⟨h.exchanges, hprefix⟩
    · exact h.exchanges
  · simp only [Cli.send, Http.Client.send]
    split_ifs
    · simp [exchanged, h.web]
    · exact h.web

/-- The storage that is written to is the holder of the connection that is used. -/
theorem write (h : Orderly t stores s₀ base ds web ws w) {k : ℕ} {opened : Store}
    (hk : stores[k]? = some opened) {u : Upsert} (hu : u.destination ∈ ds) {cancelled : Bool}
    {result : Except Error ℕ}
    (hw : (writer Script.server opened k).upsert cancelled u w = (result, w'))
    {failure : Option Error} (hfailure : failure.isNone = result.isOk) :
    Orderly t stores s₀ base ds web (ws ++ [⟨k, u, failure⟩]) w' := by
  have hholds := h.holds.write hk hu hw hfailure
  obtain ⟨s, hs, -⟩ := h.holds.took k opened hk
  have hget : (w.stores[k]?).getD opened = s := by rw [hs, Option.getD_some]
  simp only [writer, hget] at hw
  obtain ⟨-, rfl⟩ := Prod.mk.inj hw
  obtain ⟨l₁, l₂, hl, hset⟩ := exists_split_of_getElem? hs
  have hsame := (s.talks_perform Script.server cancelled (c := .upsert u) Call.noConfusion w.server).2
  have hkeeps : (s.upsert Script.server cancelled u w.server).2.1.connection? = s.connection? := by
    cases s <;> exact hsame
  refine ⟨hholds, ?_, ?_, h.exchanges, h.web⟩
  · rw [← h.connected]
    show (w.stores.set k _).map _ = _
    rw [hset, hl]
    simp only [List.map_append, List.map_cons, hkeeps]
  · have hperm : (heldBy stores).Perm (s.holders .direct ++ (heldBy l₁ ++ heldBy l₂)) := by
      rw [← heldBy_congr h.connected, hl, heldBy, List.flatMap_append, List.flatMap_cons]
      exact List.perm_append_comm_assoc _ _ _
    have hbooks := books_perform (.inl rfl) (h.books.perm hperm) (c := .upsert u)
      Call.noConfusion cancelled
    rw [← upsert_snd_snd, holders_congr hsame] at hbooks
    exact hbooks.perm hperm.symm

end Orderly

theorem keeps_orderly (t : Http.Transport τ) (s : Settings) (stores : List Store) (s₀ : Script)
    (base : List LogEntry) (ds : List Destination) (web : τ) :
    (services t Script.server s stores).Keeps (· ∈ ds) (Orderly t stores s₀ base ds web) :=
  keeps_of (fun h _ => ⟨h.holds.congr rfl rfl, h.connected, h.books, h.exchanges, h.web⟩)
    (fun h j => h.send s j) fun hk hu hw hfailure h => h.write hk hu hw hfailure

/-! ### The runs of an engine -/

/-- What an engine carries out is a history that is possible, whoever moves when and whichever contexts
are cancelled, and has returned. -/
def Engine.Possible {ρ : Type} (go : Engine τ ρ) (t : Http.Transport τ) (srv : Server ρ)
    (cores : ℕ) : Prop :=
  ∀ s stores web server, (∃ es, follow? (Run.act? (services t srv s stores))
      (Run.start context s.feeds (Batch.workersOr cores s.workers)
        { world := { web := web, server := server, stores := stores } }) es
        = some (go s stores web server))
    ∧ (go s stores web server).1.returned? ≠ none

/-- So is what the program carries out at its own pace. -/
theorem engine_possible {ρ : Type} (t : Http.Transport τ) (srv : Server ρ) {cores : ℕ}
    (hcores : 0 < cores) : (engine t srv cores).Possible t srv cores := by
  intro s stores web server
  have hfree : pace.Free := ⟨rfl, rfl, fun _ => rfl⟩
  exact ⟨Run.carryOut_follows .., Run.returned_carryOut _ hfree _ _
    (Batch.workersOr_pos hcores s.workers) Registers.valid_nil⟩

variable {go : Engine τ Script} {cores : ℕ} {start v : Script}

theorem Engine.Possible.orderly (hgo : go.Possible t Script.server cores) (hcores : 0 < cores)
    (s : Settings) (web : τ) (hbooks : Books start ∅ ∅ (heldBy stores) v) :
    ∃ ws, Orderly t stores start v.log (s.feeds.map Feed.destination) web ws
      (go s stores web v).2.world := by
  obtain ⟨es, hes⟩ := (hgo s stores web v).1
  exact ⟨_, Run.keeps_of_follow? (keeps_orderly t s stores start v.log _ web)
    (Batch.workersOr_pos hcores s.workers) Registers.valid_nil
    ⟨holds_start .., rfl, hbooks, by simp, rfl⟩ hes⟩

theorem conclude_server {ρ : Type} (srv : Server ρ) (s : Settings) (r : Run)
    (shared : Shared (World τ ρ)) : (conclude srv s r shared).server
      = releaseAll srv shared.world.stores shared.world.server := by
  obtain ⟨hnone, hreleased⟩ := closeAll_eq srv shared.world.stores shared.world.server
  exact (releaseAll_of_connections_eq_nil hnone _).trans hreleased

/-- The statement of an upsert to a destination of these. -/
def IsUpsert (ds : List Destination) (q : Statement) : Prop :=
  (∃ u q', u.destination ∈ ds ∧ (Call.upsert u).Sends q' ∧ q = q'.wire)
    ∧ ¬ "TRUNCATE".toList <+: q.sql.toList

theorem SentTo.isUpsert {x : LogEntry} (h : SentTo stores ds x) :
    ∃ n q, x = .sent n q ∧ n ∈ connections stores ∧ IsUpsert ds q := by
  cases h with
  | @upsert k p n u q hk hn hu hq =>
    have hmem : n ∈ connections stores :=
      List.mem_filterMap.mpr ⟨.postgres p, List.mem_of_getElem? hk, hn⟩
    exact ⟨n, q.wire, rfl, hmem, ⟨u, q, hu, hq, rfl⟩, not_truncate_of_sends hq⟩

/-- A run over open storages, whose connections are finished after it. -/
structure Ingested (t : Http.Transport τ) (go : Engine τ Script) (s : Settings)
    (stores : List Store) (web : τ) (start v : Script) (e : Ending τ Script) : Prop where
  books : Books start ∅ ∅ [] e.server
  log : ∃ during, e.server.log = v.log ++ during ++ finishing stores
    ∧ ∀ x ∈ during, ∃ n q, x = .sent n q ∧ n ∈ connections stores
      ∧ IsUpsert (s.feeds.map Feed.destination) q
  exchanges : ∀ x ∈ e.exchanges, v.log <+: x.2.log
  code : e.code = 0 ∧ (go s stores web v).1.returned? = some none
    ∨ e.code = 1 ∧ ∃ why, (go s stores web v).1.returned? = some (some why)
  web : e.web = exchanged t web e.exchanges

theorem ingested (hgo : go.Possible t Script.server cores) (hcores : 0 < cores) (s : Settings)
    (web : τ) (hbooks : Books start ∅ ∅ (heldBy stores) v) :
    Ingested t go s stores web start v (ingest Script.server go s stores web v) := by
  obtain ⟨ws, horderly⟩ := hgo.orderly hcores s web hbooks
  have hreturned := (hgo s stores web v).2
  have hserver := conclude_server Script.server s (go s stores web v).1 (go s stores web v).2
  refine ⟨?_, ?_, horderly.exchanges, ?_, horderly.web⟩
  · have hfinal : Books start ∅ ∅ (heldBy (go s stores web v).2.world.stores ++ [])
        (go s stores web v).2.world.server := by
      rw [List.append_nil, heldBy_congr horderly.connected]
      exact horderly.books
    exact hserver ▸ books_releaseAll hfinal
  · obtain ⟨during, hlog, hduring⟩ := horderly.holds.log
    refine ⟨during, ?_, fun x hx => (hduring x hx).isUpsert⟩
    rw [show (ingest Script.server go s stores web v).server = _ from hserver, log_releaseAll, hlog,
      finishing, finishing, connections_congr horderly.connected]
  · obtain ⟨result, hresult⟩ := Option.ne_none_iff_exists'.mp hreturned
    have hcode : (ingest Script.server go s stores web v).code
        = if (go s stores web v).1.returned?.join.isSome then 1 else 0 := rfl
    rw [hcode, hresult]
    cases result with
    | none => exact .inl ⟨rfl, rfl⟩
    | some why => exact .inr ⟨rfl, why, rfl⟩

/-! ### The program -/

/-- How the program goes once its settings are good, from a server that was asked nothing yet. -/
inductive Course (go : Engine τ Script) (s : Settings) (web : τ) (start : Script)
    (e : Ending τ Script) : Prop where
  /-- The storage at the address `bad` cannot be opened. Those before it were, and none after it is
  tried. -/
  | unopened {good rest : List String} {bad : String} {stores : List Store} {v v' : Script}
    {why : Error} {ends : List LogEntry} (hat : s.storages = good ++ bad :: rest)
    (hgood : openAll Script.server good [] start = (none, stores, v))
    (hbad : Store.openAt Script.server bad v = (.error why, v'))
    (hcode : e.code = 1) (hweb : e.web = web) (hexchanges : e.exchanges = [])
    (hlog : e.server.log = dialling 1 (good ++ [bad]) ++ ends)
    (hends : ∀ x ∈ ends, ∃ n, x = .finished n)
  /-- All are open, and the storage `bad` cannot be emptied. Those before it were, and none after it
  is told to. -/
  | unemptied {stores good rest good' : List Store} {bad bad' : Store} {v u u' : Script}
    {why : Error} (hopened : openAll Script.server s.storages [] start = (none, stores, v))
    (hconnections : connections stores
      = List.range' 1 (s.storages.filterMap Store.dialled?).length)
    (htruncate : s.truncate = true) (hat : stores = good ++ bad :: rest)
    (hgood : truncateAll Script.server (s.feeds.map Feed.destination) good v = (none, good', u))
    (hbad : bad.truncate Script.server false (s.feeds.map Feed.destination) u = (some why, bad', u'))
    (hcode : e.code = 1) (hweb : e.web = web) (hexchanges : e.exchanges = [])
    (hlog : e.server.log = dialling 1 s.storages
      ++ emptying (s.feeds.map Feed.destination) (good ++ [bad]) ++ finishing stores)
  /-- All are open and, if that is asked for, emptied. There is a run then. -/
  | ran {stores stores' : List Store} {v v' : Script} {during : List LogEntry}
    (hopened : openAll Script.server s.storages [] start = (none, stores, v))
    (hconnections : connections stores
      = List.range' 1 (s.storages.filterMap Store.dialled?).length)
    (hemptied : (if s.truncate then
      truncateAll Script.server (s.feeds.map Feed.destination) stores v else (none, stores, v))
        = (none, stores', v'))
    (hlog : e.server.log = dialling 1 s.storages
      ++ (if s.truncate then emptying (s.feeds.map Feed.destination) stores else [])
      ++ during ++ finishing stores)
    (hduring : ∀ x ∈ during, ∃ n q, x = .sent n q ∧ n ∈ connections stores
      ∧ IsUpsert (s.feeds.map Feed.destination) q)
    (hexchanges : ∀ x ∈ e.exchanges, dialling 1 s.storages
      ++ (if s.truncate then emptying (s.feeds.map Feed.destination) stores else []) <+: x.2.log)
    (hcode : e.code = 0 ∧ (go s stores' web v').1.returned? = some none
      ∨ e.code = 1 ∧ ∃ why, (go s stores' web v').1.returned? = some (some why))

/-- Nothing was done. -/
structure Untouched (web : τ) (start : Script) (e : Ending τ Script) : Prop where
  server : e.server = start
  web : e.web = web
  exchanges : e.exchanges = []

theorem dialling_append (n : ℕ) (as bs : List String) : dialling n (as ++ bs)
    = dialling n as ++ dialling (n + (as.filterMap Store.dialled?).length) bs := by
  simp only [dialling, List.filterMap_append, List.zipIdx_append, List.map_append]

/-- An address that is no good has brought at most one attempt, which is finished. -/
theorem log_openAt_error {bad : String} {why : Error} {v' : Script}
    (h : Store.openAt Script.server bad v = (.error why, v')) :
    ∃ ends, v'.log = v.log ++ dialling (v.attempts + 1) [bad] ++ ends
      ∧ ∀ x ∈ ends, ∃ n, x = .finished n := by
  rcases openAt_cases bad v with ⟨hnone, hsame, -⟩ | ⟨c, s, -, -, ho⟩ | ⟨c, e, hc, ho⟩
  · refine ⟨[], ?_, by simp⟩
    rw [h] at hsame
    simp [dialling, hnone, ← show v' = v from hsame]
  · rw [ho] at h
    cases h
  · rw [ho] at h
    obtain ⟨-, rfl⟩ := Prod.mk.inj h
    refine ⟨[.finished (v.attempts + 1)], ?_, by simp⟩
    simp [dialling, hc, Script.connect, Script.finish]

theorem mem_finishing {stores : List Store} {x : LogEntry} (h : x ∈ finishing stores) :
    ∃ n, x = .finished n := by
  obtain ⟨n, -, rfl⟩ := List.mem_map.mp h
  exact ⟨n, rfl⟩

/-- What is said of the program with good settings. -/
structure Executed (t : Http.Transport τ) (go : Engine τ Script) (s : Settings) (web : τ)
    (start : Script) (e : Ending τ Script) : Prop where
  course : Course go s web start e
  books : Books start ∅ ∅ [] e.server
  web : e.web = exchanged t web e.exchanges

theorem books_released (h : Books start ∅ ∅ (heldBy stores) v) :
    Books start ∅ ∅ [] (releaseAll Script.server stores v) :=
  books_releaseAll (by rwa [List.append_nil])

section

variable (hlog : start.log = []) (hattempts : start.attempts = 0)

include hlog hattempts

theorem books_opened (addresses : List String) :
    Books start ∅ ∅ (heldBy (openAll Script.server addresses [] start).2.1)
      (openAll Script.server addresses [] start).2.2 :=
  books_openAll (.fresh hlog hattempts) addresses

theorem executed_of_unopened (go : Engine τ Script) (web : τ) {why : Error}
    (hopen : openAll Script.server s.storages [] start = (some why, stores, v)) :
    Executed t go s web start (execute Script.server go s web start) := by
  have hbooks := books_opened hlog hattempts s.storages
  rw [hopen] at hbooks
  obtain ⟨good, bad, rest, u, hat, hgood, hbad⟩ := openAll_eq_some hopen
  obtain ⟨hopened, -, hcount⟩ := openAll_eq_none hgood
  obtain ⟨ends, hended, hends⟩ := log_openAt_error hbad
  have hrun : execute Script.server go s web start =
      { code := 1, log := kept s [.error why.message], web := web
        server := releaseAll Script.server stores v } := by
    simp only [execute, hopen]
  have hall : (releaseAll Script.server stores v).log
      = dialling 1 (good ++ [bad]) ++ (ends ++ finishing stores) := by
    rw [log_releaseAll, hended, hopened, hcount, hlog, hattempts, dialling_append,
      Nat.add_right_comm]
    simp only [List.nil_append, List.append_assoc]
  rw [hrun]
  refine ⟨.unopened hat hgood hbad rfl rfl rfl hall ?_, books_released hbooks, rfl⟩
  rw [List.forall_mem_append]
  exact ⟨hends, fun x hx => mem_finishing hx⟩

variable (hopen : openAll Script.server s.storages [] start = (none, stores, v))

include hopen

/-- The storages are open, and the log so far has the attempts to connect. -/
theorem opened_all : Books start ∅ ∅ (heldBy stores) v ∧ v.log = dialling 1 s.storages
    ∧ connections stores = List.range' 1 (s.storages.filterMap Store.dialled?).length := by
  have hbooks := books_opened hlog hattempts s.storages
  obtain ⟨hopened, hconnections, -⟩ := openAll_eq_none hopen
  rw [hlog, hattempts, List.nil_append] at hopened
  rw [hattempts] at hconnections
  rw [hopen] at hbooks
  exact ⟨hbooks, hopened, hconnections⟩

theorem executed_of_unemptied (go : Engine τ Script) (hfeeds : s.feeds ≠ []) (web : τ)
    (htruncate : s.truncate = true) {why : Error}
    (htold : truncateAll Script.server (s.feeds.map Feed.destination) stores v
      = (some why, stores', v')) :
    Executed t go s web start (execute Script.server go s web start) := by
  have hds : s.feeds.map Feed.destination ≠ [] := by simpa using hfeeds
  obtain ⟨hbooks, hopened, hconnections⟩ := opened_all hlog hattempts hopen
  have hemptied : Books start ∅ ∅ (heldBy stores') v' := by
    have h := books_truncateAll (G := []) (by rwa [List.append_nil]) (s.feeds.map Feed.destination)
    rwa [htold, List.append_nil] at h
  obtain ⟨good, bad, rest, good', bad', u, rfl, hgood, hbad, rfl⟩ := truncateAll_eq_some htold
  obtain ⟨hbefore, hsame⟩ := truncateAll_eq_none_log hds hgood
  obtain ⟨hlast, hsame'⟩ := truncate_log hds bad u
  rw [hbad] at hlast hsame'
  have hrun : execute Script.server go s web start =
      { code := 1, log := kept s [.error ("truncate: " ++ why.message)], web := web
        server := releaseAll Script.server (good' ++ bad' :: rest) v' } := by
    simp only [execute, hopen, htruncate, htold, if_true]
  rw [hrun]
  refine ⟨.unemptied hopen hconnections htruncate rfl hgood hbad rfl rfl rfl ?_,
    books_released hemptied, rfl⟩
  have hconnected : connections (good' ++ bad' :: rest) = connections (good ++ bad :: rest) :=
    connections_congr (by simp [hsame, hsame'])
  have hjoin : emptying (s.feeds.map Feed.destination) (good ++ [bad])
      = emptying (s.feeds.map Feed.destination) good
        ++ emptying (s.feeds.map Feed.destination) [bad] := by
    simp only [emptying, connections, List.filterMap_append, List.map_append]
  calc (releaseAll Script.server (good' ++ bad' :: rest) v').log
      = v'.log ++ finishing (good ++ bad :: rest) := by
        rw [log_releaseAll, finishing, finishing, hconnected]
    _ = _ := by rw [hlast, hbefore, hopened, hjoin, List.append_assoc (dialling _ _)]

theorem executed_of_ingested (hfeeds : s.feeds ≠ []) (hgo : go.Possible t Script.server cores)
    (hcores : 0 < cores) (web : τ)
    (hemptied : (if s.truncate then
      truncateAll Script.server (s.feeds.map Feed.destination) stores v else (none, stores, v))
        = (none, stores', v')) :
    Executed t go s web start (execute Script.server go s web start) := by
  have hds : s.feeds.map Feed.destination ≠ [] := by simpa using hfeeds
  obtain ⟨hbooks, hopened, hconnections⟩ := opened_all hlog hattempts hopen
  have hready : execute Script.server go s web start = ingest Script.server go s stores' web v'
      ∧ Books start ∅ ∅ (heldBy stores') v'
      ∧ v'.log = dialling 1 s.storages
        ++ (if s.truncate then emptying (s.feeds.map Feed.destination) stores else [])
      ∧ connections stores' = connections stores := by
    split_ifs at hemptied ⊢ with htruncate
    · have h := books_truncateAll (G := []) (by rwa [List.append_nil])
        (s.feeds.map Feed.destination)
      rw [hemptied, List.append_nil] at h
      obtain ⟨htold, hsame⟩ := truncateAll_eq_none_log hds hemptied
      refine ⟨?_, h, hopened ▸ htold, connections_congr hsame⟩
      simp only [execute, hopen, htruncate, hemptied, if_true]
    · obtain ⟨rfl, rfl⟩ := by simpa only [Prod.mk.injEq, true_and] using hemptied
      refine ⟨?_, hbooks, by rw [hopened, List.append_nil], rfl⟩
      simp only [execute, hopen, htruncate, Bool.false_eq_true, if_false]
  obtain ⟨hrun, hheld, hstart, hsame⟩ := hready
  obtain ⟨hsettled, ⟨during, hall, hduring⟩, hexchanges, hcode, hweb⟩ :=
    ingested hgo hcores s web hheld
  rw [hstart, finishing, hsame] at hall
  rw [hsame] at hduring
  rw [hstart] at hexchanges
  rw [hrun]
  exact ⟨.ran hopen hconnections hemptied hall hduring hexchanges hcode, hsettled, hweb⟩

end

theorem executed (hgo : go.Possible t Script.server cores) (hcores : 0 < cores)
    (hfeeds : s.feeds ≠ []) (web : τ) (hlog : start.log = []) (hattempts : start.attempts = 0) :
    Executed t go s web start (execute Script.server go s web start) := by
  rcases hopen : openAll Script.server s.storages [] start with ⟨_ | why, stores, v⟩
  · rcases hemptied : (if s.truncate then
        truncateAll Script.server (s.feeds.map Feed.destination) stores v else (none, stores, v))
      with ⟨_ | why, stores', v'⟩
    · exact executed_of_ingested hlog hattempts hopen hfeeds hgo hcores web hemptied
    · split_ifs at hemptied with htruncate
      · exact executed_of_unemptied hlog hattempts hopen go hfeeds web htruncate hemptied
      · cases hemptied
  · exact executed_of_unopened hlog hattempts go web hopen

/-- Nothing happens before its time. For all arguments, all answers that a server may be scripted to
give, every transport, and however the threads of a run take turns and contexts are cancelled:

* if the arguments are no good the program ends with code 2, if they call for help with code 0, and the
  server and the web are as they were;
* otherwise it takes its course: all storages are opened before any statement is sent, and emptied
  before any exchange is made;
* each connection that was attempted has a whole life in the end, which is finished exactly once;
* the web is what the exchanges have made of it, and these are all that are counted. -/
theorem effects_in_order (t : Http.Transport τ) {cores : ℕ} (hcores : 0 < cores)
    {go : Engine τ Script} (hgo : go.Possible t Script.server cores)
    (connects : List (Option String)) (replies : List (Except String Postgres.Reply))
    (arguments : List String) (web : τ) :
    let start : Script := { connects := connects, replies := replies }
    let e := runBy Script.server go arguments web start
    (∀ why, Settings.ofArguments arguments = .error why → e.code = 2 ∧ Untouched web start e)
      ∧ (∀ s, Settings.ofArguments arguments = .ok s → s.help = true →
        e.code = 0 ∧ Untouched web start e)
      ∧ (∀ s, Settings.ofArguments arguments = .ok s → s.help = false → Course go s web start e)
      ∧ (∀ n, 0 < n → n ≤ e.server.attempts → Turn.Whole (start.transcript n e.server.log))
      ∧ (∀ n, n = 0 ∨ e.server.attempts < n → start.transcript n e.server.log = [])
      ∧ e.web = exchanged t web e.exchanges := by
  intro start e
  have hstart : Books start ∅ ∅ [] start := .fresh rfl rfl
  suffices hall : (∀ why, Settings.ofArguments arguments = .error why →
        e.code = 2 ∧ Untouched web start e)
      ∧ (∀ s, Settings.ofArguments arguments = .ok s → s.help = true →
        e.code = 0 ∧ Untouched web start e)
      ∧ (∀ s, Settings.ofArguments arguments = .ok s → s.help = false → Course go s web start e)
      ∧ Books start ∅ ∅ [] e.server ∧ e.web = exchanged t web e.exchanges by
    obtain ⟨hbad, hhelp, hcourse, hbooks, hweb⟩ := hall
    exact ⟨hbad, hhelp, hcourse, fun n hpos hle => (hbooks.settled n hpos hle (by simp)).1,
      hbooks.unused, hweb⟩
  rcases hs : Settings.ofArguments arguments with why | s
  · have he : e = { code := 2, text := reproach arguments why, web := web, server := start } := by
      simp only [e, runBy, hs]
    rw [he]
    exact ⟨fun _ _ => ⟨rfl, rfl, rfl, rfl⟩, by simp, by simp, hstart, rfl⟩
  cases hhelp : s.help with
  | true =>
    have he : e = { code := 0, text := Settings.usage (arguments.headD ""), web := web
                    server := start } := by
      simp only [e, runBy, hs, hhelp, if_true]
    rw [he]
    exact ⟨by simp, fun _ _ _ => ⟨rfl, rfl, rfl, rfl⟩, by simp [hhelp], hstart, rfl⟩
  | false =>
    have he : e = execute Script.server go s web start := by
      simp only [e, runBy, hs, hhelp, Bool.false_eq_true, if_false]
    have hfeeds := (Settings.plain_of_ofArguments hs).2 hhelp
    have hexecuted : Executed t go s web start (execute Script.server go s web start) :=
      executed hgo hcores hfeeds web rfl rfl
    obtain ⟨hcourse, hbooks, hweb⟩ := hexecuted
    rw [he]
    refine ⟨by simp, ?_, ?_, hbooks, hweb⟩
    · rintro s' ⟨⟩ htrue
      rw [hhelp] at htrue
      cases htrue
    · rintro s' ⟨⟩ -
      exact hcourse

/-- One feed and one server: at the only exchange the server has been asked for the connection and to
empty the table, and in the end the connection's life is whole. -/
theorem effects_in_order_emptied : ∃ (s : Settings) (e : Ending Unit Script),
    Settings.ofArguments ["", "--url", "h/t", "--truncate", "--storage", "postgres://h"] = .ok s
      ∧ e = run (answering [3]) Script.server 1
        ["", "--url", "h/t", "--truncate", "--storage", "postgres://h"] ()
        { replies := [.ok {}, .ok ⟨[["c"]], ""⟩, .ok {}, .ok {}] }
      ∧ Course (engine (answering [3]) Script.server 1) s ()
        { replies := [.ok {}, .ok ⟨[["c"]], ""⟩, .ok {}, .ok {}] } e
      ∧ e.code = 0
      ∧ e.exchanges.map (fun x => x.2.log)
        = [[.connected 1 "postgres://h", .sent 1 ⟨"TRUNCATE \"ht\"", []⟩]]
      ∧ e.server.attempts = 1
      ∧ Turn.Whole (Script.transcript { replies := [.ok {}, .ok ⟨[["c"]], ""⟩, .ok {}, .ok {}] } 1
        e.server.log) := by
  have hrun : ∃ (s : Settings) (e : Ending Unit Script),
      Settings.ofArguments ["", "--url", "h/t", "--truncate", "--storage", "postgres://h"] = .ok s
        ∧ s.help = false
        ∧ e = run (answering [3]) Script.server 1
          ["", "--url", "h/t", "--truncate", "--storage", "postgres://h"] ()
          { replies := [.ok {}, .ok ⟨[["c"]], ""⟩, .ok {}, .ok {}] }
        ∧ e.code = 0
        ∧ e.exchanges.map (fun x => x.2.log)
          = [[.connected 1 "postgres://h", .sent 1 ⟨"TRUNCATE \"ht\"", []⟩]]
        ∧ e.server.attempts = 1 := ⟨_, _, rfl, rfl, rfl, rfl, rfl, rfl⟩
  obtain ⟨s, e, hs, hhelp, he, hcode, hexchanges, hattempts⟩ := hrun
  obtain ⟨-, -, hcourse, hwhole, -, -⟩ := effects_in_order (answering [3]) Nat.one_pos
    (engine_possible (answering [3]) Script.server Nat.one_pos) []
    [.ok {}, .ok ⟨[["c"]], ""⟩, .ok {}, .ok {}]
    ["", "--url", "h/t", "--truncate", "--storage", "postgres://h"] ()
  rw [run] at he
  rw [← he] at hcourse hwhole
  exact ⟨s, e, hs, he, hcourse s hs hhelp, hcode, hexchanges, hattempts,
    hwhole 1 (by decide) hattempts.ge⟩

end Cli

end Ingest

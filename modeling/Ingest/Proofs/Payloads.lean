import Ingest.Proofs.Pipeline.Provenance
import Ingest.Proofs.Store.Insertion
import Ingest.Proofs.Truncation

/-!
# What becomes of the bytes of a response

A body comes in chunks. What a run writes to its storages are the chunks of replies, put together, for
the destinations of the jobs that the replies belong to (`Cli.brought`), and a storage in memory keeps
such a payload as one record, whatever its bytes are. To a server it goes as a parameter that ends at
its first zero byte, so that the server receives all of it if and only if there is none
(`Cli.payloads_arrive_up_to_zero`, `Cli.payload_ends_at_zero`).
-/

namespace Ingest

open Pipeline Store Store.Postgres

namespace Cli

variable {τ ρ : Type} {t : Http.Transport τ} {srv : Server ρ} {s : Settings} {stores : List Store}

/-- What the transport replies in an event to the request for a job, as a list. -/
def replies (t : Http.Transport τ) (s : Settings) (x : Run × Shared (World τ ρ)) :
    Run.Event → List (Job × Http.Reply)
  | .fetch k =>
    match x.1.cursor.batch.bind fun b => b.workers[k]? with
    | some (.sending j) =>
      if t.available x.2.world.web then
        [(j, (t.perform (Http.Client.exchange (clientOptions s) j.feed.request) x.2.world.web).1)]
      else []
    | _ => []
  | _ => []

/-- What a reply to the request for a job brings: the chunks of the body one after the other, if its
headers say that it is JSON. -/
def payloadOf? (x : Job × Http.Reply) : Option Upsert :=
  let headers := x.2.lines.foldl Http.Headers.receiveLine []
  if x.2.failure = none ∧ Format.ofHeader (headers.value "Content-Type") = .json then
    some ⟨x.1.feed.destination.table, x.1.feed.destination.database, x.2.chunks.flatten, .json⟩
  else none

/-- What replies bring while a history runs. -/
def brought (t : Http.Transport τ) (srv : Server ρ) (s : Settings) (stores : List Store)
    (x : Run × Shared (World τ ρ)) (es : List Run.Event) : List Upsert :=
  (along (Run.act? (services t srv s stores)) (replies t s) x es).filterMap payloadOf?

theorem payload?_outcome (j : Job) (reply : Http.Reply) :
    (Exchange.fetched (j, Http.Client.outcome j.feed.request reply)).payload?
      = payloadOf? (j, reply) := by
  unfold Http.Client.outcome payloadOf?
  cases hfailure : reply.failure with
  | some reason => rfl
  | none =>
    simp only [Exchange.payload?_fetched_ok, Http.Response.header, Http.Client.response]
    cases Format.ofHeader _ <;> simp

/-- What an exchange brings is what the reply to it brings. -/
theorem filterMap_answers (x : Run × Shared (World τ ρ)) (e : Run.Event) :
    (Run.answers (services t srv s stores) x e).filterMap (fun y => y.fetched.payload?)
      = (replies t s x e).filterMap payloadOf? := by
  cases e with
  | fetch k =>
    simp only [Run.answers, replies]
    cases x.1.cursor.batch with
    | none => rfl
    | some b =>
      simp only [Option.elim_some, Option.bind_some, Batch.answers]
      rcases b.workers[k]? with _ | w
      · rfl
      cases w with
      | sending j =>
        simp only [services, send, Http.Client.send]
        split_ifs
        · rw [List.filterMap_cons, List.filterMap_cons, ← payload?_outcome]
          rfl
        · rfl
      | _ => rfl
  | _ => rfl

theorem brought_eq (x : Run × Shared (World τ ρ)) (es : List Run.Event) :
    brought t srv s stores x es = ((along (Run.act? (services t srv s stores))
      (Run.answers (services t srv s stores)) x es).map Exchange.fetched).filterMap
        Fetched.payload? := by
  rw [List.filterMap_map]
  exact (filterMap_along filterMap_answers x es).symm

theorem isBuiltIn_limiter (t : Http.Transport τ) (srv : Server ρ) (s : Settings)
    (stores : List Store) : (services t srv s stores).limiter.IsBuiltIn := by
  unfold services limiter
  cases s.rateLimit with
  | none => exact .absent
  | some r => exact .ofMeter _ _

theorem length_writers (t : Http.Transport τ) (srv : Server ρ) (s : Settings)
    (stores : List Store) : (services t srv s stores).writers.length = stores.length := by
  simp [services]

theorem format_of_mem_brought {x : Run × Shared (World τ ρ)} {es : List Run.Event} {v : Upsert}
    (h : v ∈ brought t srv s stores x es) : v.format = .json := by
  obtain ⟨y, -, hy⟩ := List.mem_filterMap.mp h
  unfold payloadOf? at hy
  simp only at hy
  split_ifs at hy
  exact Option.some.inj hy ▸ rfl

theorem writer_upsert {w : World τ ρ} {k : ℕ} {st : Store} (hst : w.stores[k]? = some st)
    (opened : Store) (cancelled : Bool) (v : Upsert) :
    (writer srv opened k).upsert cancelled v w = ((st.upsert srv cancelled v w.server).1, { w with
      stores := w.stores.set k (st.upsert srv cancelled v w.server).2.1
      server := (st.upsert srv cancelled v w.server).2.2 }) := by
  simp [writer, hst]

/-- There are as many storages in the world as at first. -/
theorem keeps_length (t : Http.Transport τ) (srv : Server ρ) (s : Settings) (stores : List Store)
    (ds : List Destination) :
    (services t srv s stores).Keeps (· ∈ ds) fun _ w => w.stores.length = stores.length :=
  keeps_of (fun h _ => h) (fun h _ => h) fun _ _ hw _ h => by
    obtain ⟨-, rfl⟩ := Prod.mk.inj hw
    simpa using h

/-- The step of a courier who is about to write to storage `k`. -/
theorem exists_deliver (t : Http.Transport τ) (srv : Server ρ) (s : Settings) {r : Run}
    {u : Shared (World τ ρ)} {c k : ℕ} {v : Upsert}
    (hc : r.delivery.couriers[c]? = some (.writing v k)) (hk : k < stores.length)
    {st : Store} (hst : u.world.stores[k]? = some st) :
    ∃ (r' : Run) (u' : Shared (World τ ρ)) (failure : Option Error),
      Run.act? (services t srv s stores) (r, u) (.deliver c) = some (r', u')
      ∧ r'.delivery.writes = r.delivery.writes ++ [⟨k, v, failure⟩]
      ∧ (failure = none
        ↔ (st.upsert srv (u.isCancelled r.delivery.context) v u.world.server).1.isOk = true)
      ∧ u'.world.stores[k]?
        = some (st.upsert srv (u.isCancelled r.delivery.context) v u.world.server).2.1
      ∧ u'.world.server
        = (st.upsert srv (u.isCancelled r.delivery.context) v u.world.server).2.2 := by
  have hwriter : (services t srv s stores).writers[k]? = some (writer srv stores[k] k) := by
    simp [services, hk]
  obtain ⟨d, failure, hstep, hwrites, hfailure⟩ := Delivery.exists_write hc hwriter u
  rw [writer_upsert hst] at hstep hfailure
  have hact := congrArg (Option.map fun p => ({ r with delivery := p.1 }, p.2)) hstep
  exact ⟨_, _, failure, hact, hwrites, hfailure,
    List.getElem?_set_self (List.getElem?_eq_some_iff.mp hst).1, rfl⟩

section History

variable {context : String} {feeds : List Feed} {workers : ℕ} {web : τ} {server : ρ}
  {es : List Run.Event} {r : Run} {u : Shared (World τ ρ)}
  (h : follow? (Run.act? (services t srv s stores)) (Run.start context feeds workers
    { world := { web := web, server := server, stores := stores } }) es = some (r, u))
include h

theorem taken_subperm_brought (hw : 0 < workers) :
    r.delivery.taken.Subperm (brought t srv s stores (Run.start context feeds workers
      { world := { web := web, server := server, stores := stores } }) es) := by
  obtain ⟨handled, base, told, hfits⟩ := Run.fits_of_follow? hw Registers.valid_nil h
  rw [brought_eq]
  exact hfits.taken_subperm
    (Run.traced_of_follow? (isBuiltIn_limiter t srv s stores) hw Registers.valid_nil h)

theorem exists_store (hw : 0 < workers) {k : ℕ} (hk : k < stores.length) :
    ∃ st, u.world.stores[k]? = some st := by
  have hlength : u.world.stores.length = stores.length :=
    Run.keeps_of_follow? (keeps_length t srv s stores _) hw Registers.valid_nil rfl h
  exact ⟨_, List.getElem?_eq_getElem (hlength ▸ hk)⟩

end History

/-- Whatever replies come in which chunks, in every run and at every moment of it: all storages are
written the same payloads, each of them the chunks of a reply put together, for the destination of its
job, and no reply's more than once.

A storage in memory that is written to has the bytes as one record more, whatever they are, or refuses
them. To a server over a connection, once the shape of the table is known, goes one insertion, whose
only parameter is the payload up to its first zero byte: all of it if and only if there is none. -/
theorem payloads_arrive_up_to_zero (t : Http.Transport τ) (srv : Server ρ) (s : Settings)
    (stores : List Store) {context : String} {feeds : List Feed} {workers : ℕ} (hw : 0 < workers)
    (web : τ) (server : ρ) {es : List Run.Event} {r : Run} {u : Shared (World τ ρ)}
    (h : follow? (Run.act? (services t srv s stores)) (Run.start context feeds workers
      { world := { web := web, server := server, stores := stores } }) es = some (r, u)) :
    let payloads := brought t srv s stores (Run.start context feeds workers
      { world := { web := web, server := server, stores := stores } }) es
    (∃ vs : List Upsert, vs.Subperm payloads
      ∧ ∀ k < stores.length, (r.delivery.writesTo k).Subperm vs
        ∧ (r.delivery.isOver = true → (r.delivery.writesTo k).Perm vs))
    ∧ ∀ (c : ℕ) (v : Upsert) (k : ℕ), r.delivery.couriers[c]? = some (.writing v k) →
      k < stores.length → v ∈ payloads
      ∧ ∃ (r' : Run) (u' : Shared (World τ ρ)) (failure : Option Error) (st st' : Store),
        Run.act? (services t srv s stores) (r, u) (.deliver c) = some (r', u')
        ∧ r'.delivery.writes = r.delivery.writes ++ [⟨k, v, failure⟩]
        ∧ u.world.stores[k]? = some st ∧ u'.world.stores[k]? = some st'
        ∧ (∀ m, st = .memory m → ∃ m', st' = .memory m'
          ∧ (failure = none ↔ u.isCancelled context = false ∧ v.table ≠ "" ∧ m.closed = false)
          ∧ ∀ name, m'.records name = m.records name
            ++ if failure = none ∧ Memory.key v.destination = name then [v.data] else [])
        ∧ ∀ (p p' : Postgres) (n : ℕ) (shape : Shape) (w : ρ), st = .postgres p →
          p.connection = some n → u.isCancelled context = false →
          p.shape srv v.destination u.world.server = (.ok shape, p', w) →
          ∃ q, u'.world.server = (srv.execute n q w).2
            ∧ q.sql = untilNul (Statement.insert v.destination shape v.data).sql
            ∧ q.params = [.json (v.data.takeWhile (· != 0))]
            ∧ (q.params = [.json v.data] ↔ 0 ∉ v.data) := by
  intro payloads
  obtain ⟨handled, base, told, hfits⟩ := Run.fits_of_follow? hw Registers.valid_nil h
  have htaken : r.delivery.taken.Subperm payloads := taken_subperm_brought h hw
  have hwritten : ∀ k < stores.length, (r.delivery.writesTo k
      ++ r.delivery.couriers.flatMap (Courier.unwritten k)).Perm r.delivery.taken :=
    fun k hk => hfits.delivery.written k (by rwa [length_writers])
  refine ⟨⟨r.delivery.taken, htaken, fun k hk => ⟨?_, fun hover => ?_⟩⟩, fun c v k hc hk => ?_⟩
  · exact (List.sublist_append_left _ _).subperm.trans (hwritten k hk).subperm
  · have hall := hwritten k hk
    rwa [Delivery.flatMap_of_isOver hover rfl, List.append_nil] at hall
  have hv : v ∈ payloads := by
    refine htaken.subset ((hwritten k hk).subset (List.mem_append_right _ ?_))
    exact List.mem_flatMap.mpr ⟨_, List.mem_of_getElem? hc, by simp⟩
  have hformat := format_of_mem_brought hv
  obtain ⟨st, hst⟩ := exists_store h hw hk
  obtain ⟨r', u', failure, hact, hwrites, hfailure, hst', hserver⟩ :=
    exists_deliver t srv s hc hk hst
  rw [hfits.context.trans (Run.context_of_follow? h)] at hfailure hst' hserver
  refine ⟨hv, r', u', failure, st, _, hact, hwrites, hst, hst', ?_, ?_⟩
  · rintro m rfl
    obtain ⟨hok, hrecords⟩ := Memory.upsert_of_json hformat m (u.isCancelled context)
    refine ⟨_, rfl, hfailure.trans hok, fun name => ?_⟩
    simp only [hfailure]
    exact hrecords name
  · rintro p p' n shape w rfl hn hopen hshape
    refine ⟨(Statement.insert v.destination shape v.data).wire, ?_, rfl,
      params_wire_insert _ _ _, params_wire_eq_iff v.data⟩
    rw [hserver, hopen]
    exact world_of_upsert hformat hn hshape

/-- A transport whose replies bring two brackets with a zero byte between them, in three chunks. -/
def bracketing : Http.Transport Unit :=
  ⟨fun _ => true, fun _ w => ({ chunks := [[91], [0], [93]] }, w)⟩

/-- A storage in memory, and one on a server. -/
def bothKinds : List Store :=
  [.memory {}, .postgres ⟨"", some 1, {}⟩]

/-- A server that knows of a table with one column. -/
def oneColumn : Script :=
  { replies := [.ok ⟨[["c"]], ""⟩, .ok {}, .ok {}] }

/-- The storage in memory keeps the zero byte. -/
theorem payloads_arrive_up_to_zero_in_memory :
    ∃ (es : List Run.Event) (r r' : Run) (u u' : Shared (World Unit Script)) (m' : Memory),
      follow? (Run.act? (services bracketing Script.server {} bothKinds))
        (Run.start context [⟨{ url := "h" }, "", "t"⟩] 1
          { world := { web := (), server := oneColumn, stores := bothKinds } }) es = some (r, u)
      ∧ Run.act? (services bracketing Script.server {} bothKinds) (r, u) (.deliver 0) = some (r', u')
      ∧ u'.world.stores[0]? = some (.memory m') ∧ m'.records "t" = [[91, 0, 93]] := by
  have hrun : ∃ (es : List Run.Event) (r : Run) (u : Shared (World Unit Script)),
      follow? (Run.act? (services bracketing Script.server {} bothKinds))
        (Run.start context [⟨{ url := "h" }, "", "t"⟩] 1
          { world := { web := (), server := oneColumn, stores := bothKinds } }) es = some (r, u)
      ∧ r.delivery.couriers[0]? = some (.writing ⟨"t", "", [91, 0, 93], .json⟩ 0)
      ∧ u.world.stores[0]? = some (.memory {}) ∧ u.isCancelled context = false :=
    ⟨List.flatten [List.replicate 3 .loop, List.replicate 8 (.fetch 0), List.replicate 5 .loop,
      List.replicate 3 (.deliver 0)], _, _, rfl, rfl, rfl, rfl⟩
  obtain ⟨es, r, u, h, hc, hm, hopen⟩ := hrun
  obtain ⟨-, hwrites⟩ := payloads_arrive_up_to_zero bracketing Script.server {} bothKinds
    (by decide) () oneColumn h
  obtain ⟨-, r', u', failure, st, st', hact, -, hst, hst', hmemory, -⟩ :=
    hwrites 0 _ 0 hc (by decide)
  obtain ⟨m', rfl, hfailure, hrecords⟩ := hmemory {} (Option.some.inj (hst.symm.trans hm))
  refine ⟨es, r, r', u, u', m', h, hact, hst', ?_⟩
  rw [hrecords "t", if_pos ⟨hfailure.mpr ⟨hopen, by decide, rfl⟩, by decide⟩]
  rfl

/-- Both storages are written all of a payload with a zero byte, and the insertion that the server
receives has only what stands before it. -/
theorem payload_ends_at_zero :
    ∃ (es : List Run.Event) (r : Run) (u : Shared (World Unit Script)),
      follow? (Run.act? (services bracketing Script.server {} bothKinds))
        (Run.start context [⟨{ url := "h" }, "", "t"⟩] 1
          { world := { web := (), server := oneColumn, stores := bothKinds } }) es = some (r, u)
      ∧ brought bracketing Script.server {} bothKinds
        (Run.start context [⟨{ url := "h" }, "", "t"⟩] 1
          { world := { web := (), server := oneColumn, stores := bothKinds } }) es
        = [⟨"t", "", [91, 0, 93], .json⟩]
      ∧ (∀ k < 2, r.delivery.writesTo k = [⟨"t", "", [91, 0, 93], .json⟩])
      ∧ u.world.server.log = [.sent 1 (Statement.columnsOf ⟨"", "t"⟩).wire,
        .sent 1 (Statement.keysOf ⟨"", "t"⟩).wire,
        .sent 1 ⟨untilNul (Statement.insert ⟨"", "t"⟩ ⟨["c"], []⟩ [91, 0, 93]).sql, [.json [91]]⟩] := by
  refine ⟨List.flatten [List.replicate 3 .loop, List.replicate 8 (.fetch 0), List.replicate 5 .loop,
    List.replicate 5 (.deliver 0)], _, _, rfl, ?_, ?_, rfl⟩
  · decide +kernel
  · decide +kernel

end Cli

end Ingest

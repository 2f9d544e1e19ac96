import Ingest.Proofs.Store.Closing
import Ingest.Proofs.Store.Connections

/-!
# A storage in PostgreSQL that is closed

Once it is closed a storage has no connection, and nothing but to connect gives it one again
(`Session.Disconnected.obeyAll`). So all calls that would work with the connection fail and nothing
is sent. A transaction takes no notice: it connects to the server by itself
(`Session.closed_refuses_iff`).
-/

namespace Ingest.Store

open Postgres (LogEntry Script Statement)

/-- The calls that work with what a storage keeps. -/
inductive Call.Working : Call → Prop where
  | upsert (u : Upsert) (hjson : u.format = .json) : Working (.upsert u)
  | truncate (ds : List Destination) (hds : ds ≠ []) : Working (.truncate ds)
  | tables : Working .tables
  | keys : Working .keys

/-- The steps that do, directly or in a transaction. -/
inductive Step.Working : Step → Prop where
  | call {c : Call} (hc : c.Working) : Working (.call c)
  | begin (name : String) : Working (.begin name)

variable {σ : Type} {srv : Postgres.Server σ}

namespace Postgres

variable {p : Postgres}

theorem execute_of_none (hp : p.connection = none) (q : Statement) (w : σ) :
    p.execute srv q w = (.error (failed "not connected"), w) := by
  simp [execute, hp]

/-- A shape is remembered or it is not to be had. -/
theorem shape_of_none (hp : p.connection = none) (d : Destination) (w : σ) :
    p.shape srv d w = (match p.shapes.get? (shapeKey d) with
      | some s => .ok s
      | none => .error (failed "not connected"), p, w) := by
  unfold shape
  rcases p.shapes.get? (shapeKey d) with _ | s
  · simp [askShape, execute_of_none hp]
  · rfl

variable (srv)

/-- Without a connection every call that works with it fails, and nothing else happens. -/
theorem perform_of_none (hp : p.connection = none) {c : Call} (hc : c.Working) (w : σ) :
    ∃ e, e.code = .storageFailed ∧ p.perform srv false c w = (.failed e, p, w) := by
  cases hc with
  | upsert u hjson =>
    simp only [perform, upsert, Bool.false_eq_true, if_false, hjson, ne_eq, not_true_eq_false,
      shape_of_none hp]
    rcases p.shapes.get? (shapeKey u.destination) with _ | s <;>
      simp only [execute_of_none hp] <;>
      exact ⟨_, rfl, rfl⟩
  | truncate ds hds =>
    have hempty : ds.isEmpty = false := by simpa using hds
    simp only [perform, truncate, Bool.false_eq_true, if_false, hempty, execute_of_none hp]
    exact ⟨_, rfl, rfl⟩
  | tables =>
    simp only [perform, sizes, Bool.false_eq_true, if_false, execute_of_none hp]
    exact ⟨_, rfl, rfl⟩
  | keys =>
    simp only [perform, primaryKeys, Bool.false_eq_true, if_false, execute_of_none hp]
    exact ⟨_, rfl, rfl⟩

theorem conninfo_perform (p : Postgres) (cancelled : Bool) (c : Call) (w : σ) :
    (p.perform srv cancelled c w).2.1.conninfo = p.conninfo := by
  by_cases hc : c = .close
  · subst hc
    rcases hp : p.connection with _ | n <;> simp [perform, close, hp]
  · obtain ⟨-, shapes, hshapes⟩ := p.talks_perform srv cancelled hc w
    rw [hshapes]

end Postgres

/-- A commit leaves a storage in PostgreSQL as it is: only the server has to do with it. -/
theorem Transaction.commit_postgres (t : Transaction) (p : Postgres) (o : Surroundings σ) :
    (t.commit srv (.postgres p) o).2.1 = .postgres p := by
  have hcommit : (t.ended.engineCommit srv (.postgres p) o).2.1 = .postgres p := by
    unfold engineCommit
    cases t.ended.engine with
    | scripted commit rollback => rfl
    | scope => cases t.ended.scope <;> rfl
  refine t.commit_cases srv (.postgres p) o (fun _ => rfl) (fun _ failure _ => rfl)
    (fun _ _ parent' o' hengine => ?_) fun _ _ e parent' o' hengine => ?_ <;>
    rwa [hengine] at hcommit

/-- A transaction on a storage in PostgreSQL begins if the server accepts a connection and its
`BEGIN`. -/
theorem begin_postgres_iff (p : Postgres) {context : String} {o : Surroundings Script}
    (hlive : o.isCancelled context = false) :
    match (postgres p).begin Script.server context o with
    | (r, o') => o'.server.attempts = o.server.attempts + 1
      ∧ (∀ e, r = .error e → e.code = .storageFailed)
      ∧ ((∃ t, r = .ok t) ↔ (o.server.connect (untilNul p.conninfo)).1.2 = none ∧ ∃ reply,
        ((o.server.connect (untilNul p.conninfo)).2.execute (o.server.attempts + 1) .start).1
          = .ok reply) := by
  refine begin_postgres_cases p context o (fun hcancelled => ?_)
    (fun _ message e he hrefusal => ?_) (fun _ w hw hrefusal message e he hreply => ?_)
    fun _ w hw hrefusal r hreply => ?_
  · rw [hlive] at hcancelled
    cases hcancelled
  · exact ⟨rfl, by simpa using he, by simp [hrefusal]⟩
  · subst hw
    exact ⟨rfl, by simpa using he, by simp [hreply]⟩
  · subst hw
    exact ⟨rfl, by simp, by simp [hrefusal, hreply]⟩

namespace Session

variable {n : Session σ} {conninfo : String}

/-- The session has a storage in PostgreSQL, which has no connection. -/
def Disconnected (conninfo : String) (n : Session σ) : Prop :=
  ∃ p, n.store = some (.postgres p) ∧ p.connection = none ∧ p.conninfo = conninfo

theorem disconnected_withDesk (n : Session σ) {d : Desk σ} {p : Postgres}
    (hn : n.store.isSome = true) (hd : d.store = .postgres p) (hp : p.connection = none) :
    (n.withDesk d).Disconnected p.conninfo :=
  ⟨p, by rw [store_eq_desk ((isSome_withDesk n d).trans hn), desk_withDesk hn, hd], hp, rfl⟩

theorem disconnected_close {p : Postgres} (hn : n.store = some (.postgres p))
    (srv : Postgres.Server σ) (context : String) :
    (n.obey srv (.step context (.call .close))).2.Disconnected p.conninfo := by
  have hsome : n.store.isSome = true := by simp [hn]
  rw [obey_step hsome]
  have hdesk : n.desk.store = .postgres p := by simp [desk, hn]
  simp only [Desk.step, hdesk, perform_postgres]
  have hconninfo := p.conninfo_perform srv (n.desk.around.isCancelled context) .close
    n.desk.around.server
  rw [← hconninfo]
  exact disconnected_withDesk n hsome rfl (p.connection_close srv _)

namespace Disconnected

theorem obey (h : n.Disconnected conninfo) (srv : Postgres.Server σ) {c : Command}
    (hc : c.Only fun _ => True) : (n.obey srv c).2.Disconnected conninfo := by
  obtain ⟨p, hn, hp, rfl⟩ := h
  have hsome : n.store.isSome = true := by simp [hn]
  have hdesk : n.desk.store = .postgres p := by simp [desk, hn]
  cases c with
  | step context a =>
    rw [obey_step hsome]
    have hsame : ∀ d : Desk σ, d.store = .postgres p → (n.withDesk d).Disconnected p.conninfo :=
      fun d hd => disconnected_withDesk n hsome hd hp
    show (n.withDesk (n.desk.step srv context a).2).Disconnected p.conninfo
    refine n.desk.step_cases srv context a ?call ?cancel ?notBegun ?begun ?absent ?commit ?rollback
      ?drop
    case call =>
      rintro c -
      have hnone := (p.connection_perform srv (n.desk.around.isCancelled context) c
        n.desk.around.server).elim (·.trans hp) id
      rw [hdesk, perform_postgres, ← p.conninfo_perform srv (n.desk.around.isCancelled context) c
        n.desk.around.server]
      exact disconnected_withDesk n hsome rfl hnone
    case commit =>
      rintro name - t -
      rw [hdesk]
      exact hsame _ (t.commit_postgres p n.desk.around)
    case cancel | notBegun | begun | absent | rollback | drop =>
      intros
      exact hsame _ hdesk
  | send name unit =>
    exact disconnected_withDesk n hsome ((store_send (unit.act srv) name n.desk).trans hdesk) hp
  | _ => cases hc

theorem obeyAll (h : n.Disconnected conninfo) (srv : Postgres.Server σ) {cs : List Command}
    (hcs : ∀ c ∈ cs, c.Only fun _ => True) :
    (Session.obeyAll srv cs n).2.Disconnected conninfo := by
  induction cs generalizing n with
  | nil => exact h
  | cons c cs ih =>
    exact ih (h.obey srv (hcs c List.mem_cons_self)) fun c hc => hcs c (List.mem_cons_of_mem _ hc)

/-- A call that works with the connection fails, and leaves everything as it is. -/
theorem call (h : n.Disconnected conninfo) (srv : Postgres.Server σ) {context : String}
    (hlive : n.around.isCancelled context = false) {c : Call} (hc : c.Working) :
    ∃ e, e.code = .storageFailed
      ∧ n.obey srv (.step context (.call c)) = (.outcome (.called c (.failed e)), n) := by
  obtain ⟨p, hn, hp, -⟩ := h
  have hsome : n.store.isSome = true := by simp [hn]
  obtain ⟨e, he, hperform⟩ := p.perform_of_none srv hp hc n.around.server
  refine ⟨e, he, ?_⟩
  have hdesk : n.desk.store = .postgres p := by simp [desk, hn]
  have hstep : n.desk.step srv context (.call c) = (.called c (.failed e), n.desk) := by
    have haround : n.desk.around = n.around := rfl
    simp only [Desk.step, hdesk, haround, hlive, perform_postgres, hperform]
    rw [← hdesk]
    rfl
  rw [obey_step hsome, hstep, withDesk_desk hsome]

/-- A transaction begins as if the storage were connected: it attempts a connection of its own. -/
theorem begin {n : Session Script} (h : n.Disconnected conninfo) {context : String}
    (hlive : n.around.isCancelled context = false) (name : String) :
    let w := n.around.server
    let r := n.obey Script.server (.step context (.begin name))
    r.2.around.server.attempts = w.attempts + 1 ∧ ∃ e, r.1 = .outcome (.began name e)
      ∧ (∀ error, e = some error → error.code = .storageFailed)
      ∧ (e = none ↔ (w.connect (untilNul conninfo)).1.2 = none ∧ ∃ reply,
        ((w.connect (untilNul conninfo)).2.execute (w.attempts + 1) .start).1 = .ok reply) := by
  obtain ⟨p, hn, -, rfl⟩ := h
  have hsome : n.store.isSome = true := by simp [hn]
  have hdesk : n.desk.store = .postgres p := by simp [desk, hn]
  have hbegin := begin_postgres_iff p (o := n.around) hlive
  rw [obey_step hsome]
  simp only [Desk.step, hdesk, show n.desk.around = n.around from rfl]
  rcases hr : (postgres p).begin Script.server context n.around with ⟨e | t, o⟩ <;>
    rw [hr] at hbegin <;> simp only at hbegin ⊢
  · exact ⟨hbegin.1, some e, rfl, by simpa using hbegin.2.1, by simpa using hbegin.2.2⟩
  · refine ⟨?_, none, rfl, by simp, by simpa using hbegin.2.2⟩
    exact (Desk.attempts_keep _ name t).trans hbegin.1

end Disconnected

/-- What is closed does no work. -/
def Refuses (n : Session σ) (srv : Postgres.Server σ) (context : String) (a : Step) : Prop :=
  ∃ r e, n.obey srv (.step context a) = (.outcome r, n) ∧ r.error? = some e
    ∧ e.code = .storageFailed

/-- A storage in PostgreSQL that is closed, whatever has been done to it and the transactions on it
before and whatever is done after, but for connecting it again. Under a context that is not
cancelled, a step that works with what it keeps fails, attempts no connection and sends nothing, if
and only if it does not begin a transaction. To begin one attempts a connection by the address of the
storage, and succeeds if and only if the server accepts it and its `BEGIN`. -/
theorem closed_refuses_iff {n : Session Script} {p : Postgres} (hn : n.store = some (.postgres p))
    (closing : String) {cs : List Command} (hcs : ∀ c ∈ cs, c.Only fun _ => True) {context : String}
    (hlive : (Session.obeyAll Script.server (.step closing (.call .close) :: cs)
      n).2.around.isCancelled context = false) :
    let n' := (Session.obeyAll Script.server (.step closing (.call .close) :: cs) n).2
    let w := n'.around.server
    (∀ a, a.Working → (n'.Refuses Script.server context a ↔ ∀ name, a ≠ .begin name))
      ∧ ∀ name, ∃ e, (n'.obey Script.server (.step context (.begin name))).1
          = .outcome (.began name e)
        ∧ (n'.obey Script.server (.step context (.begin name))).2.around.server.attempts
          = w.attempts + 1
        ∧ (∀ error, e = some error → error.code = .storageFailed)
        ∧ (e = none ↔ (w.connect (untilNul p.conninfo)).1.2 = none ∧ ∃ reply,
          ((w.connect (untilNul p.conninfo)).2.execute (w.attempts + 1) .start).1 = .ok reply) := by
  intro n' w
  have hn' : n'.Disconnected p.conninfo :=
    (disconnected_close hn Script.server closing).obeyAll Script.server hcs
  have hbegin := hn'.begin hlive
  refine ⟨fun a ha => ⟨fun hrefuses => ?_, fun hother => ?_⟩, fun name => ?_⟩
  · rintro name rfl
    obtain ⟨r, e, hobey, -⟩ := hrefuses
    have hattempts := (hbegin name).1
    rw [hobey] at hattempts
    simp at hattempts
  · cases ha with
    | begin name => exact absurd rfl (hother name)
    | call hc =>
      obtain ⟨e, he, hobey⟩ := hn'.call Script.server hlive hc
      exact ⟨_, e, hobey, rfl, he⟩
  · obtain ⟨hattempts, e, hr, herror, hiff⟩ := hbegin name
    exact ⟨e, hr, hattempts, herror, hiff⟩

/-- An upsert that comes after the end leaves all as it is, and so do later calls. -/
theorem closed_refuses_iff_late :
    let n : Session Script := { store := some (.postgres ⟨"postgres://h/db", some 1, {}⟩)
                                around := { server := { attempts := 1, replies := [.ok {}] } } }
    let late : Command := .step "ctx" (.call (.upsert { table := "a", data := [] }))
    let n' := (Session.obeyAll Script.server [.step "ctx" (.call .close), late] n).2
    n'.Refuses Script.server "ctx" (.call .keys) ∧ ¬ n'.Refuses Script.server "ctx" (.begin "tx")
      ∧ (n'.obey Script.server (.step "ctx" (.begin "tx"))).1 = .outcome (.began "tx" none) := by
  intro n late n'
  have honly : ∀ c ∈ [late], c.Only fun _ => True := by simp [late, Command.Only, Step.Only]
  have hlive : n'.around.isCancelled "ctx" = false := rfl
  obtain ⟨hrefuses, hbegin⟩ := closed_refuses_iff rfl "ctx" honly hlive
  refine ⟨(hrefuses _ (.call .keys)).mpr (by simp), ?_, ?_⟩
  · exact fun h => (hrefuses _ (.begin "tx")).mp h "tx" rfl
  · obtain ⟨e, hr, -, -, hiff⟩ := hbegin "tx"
    rw [hr, hiff.mpr ⟨rfl, {}, rfl⟩]

/-- A transaction begins on a storage that has been closed, on a connection of its own. -/
theorem begin_after_close_connects :
    let start : Script := { replies := [.ok {}] }
    let n := (Session.obeyAll Script.server
      [.openAt "postgres://h/db", .step "ctx" (.call .close), .step "ctx" (.begin "tx")]
      { store := none, around := { server := start } }).2
    n.transactions.entries.map Prod.fst = ["tx"]
      ∧ n.around.server.log = [.connected 1 "postgres://h/db", .finished 1,
        .connected 2 "postgres://h/db", .sent 2 .start] := by
  decide +kernel

end Session

end Ingest.Store

import Ingest.Proofs.Store.Books
import Ingest.Proofs.Store.Transaction

/-!
# Storages and transactions as holders of connections

A storage that has connected itself and a transaction that has begun hold one connection each, until
they are closed or end. Each operation of theirs takes the books from one to the other, whoever else
holds connections (`G`).
-/

namespace Ingest.Store

open Postgres (Books Hold Script Settled Statement Turn)

variable {s₀ w w' : Script} {B C : Set Nat} {G : List (Nat × Hold)} {hold : Hold}

/-- The connection of a storage, by how it is held. -/
def holders (hold : Hold) (s : Store) : List (Nat × Hold) :=
  s.connection?.toList.map fun n => (n, hold)

theorem holders_of_none {s : Store} (h : s.connection? = none) : s.holders hold = [] := by
  simp [holders, h]

theorem holders_of_some {s : Store} {n : Nat} (h : s.connection? = some n) :
    s.holders hold = [(n, hold)] := by
  simp [holders, h]

theorem holders_congr {s s' : Store} (h : s'.connection? = s.connection?) :
    s'.holders hold = s.holders hold := by
  simp [holders, h]

theorem books_of_talks {s : Store} {Q : Statement → Prop}
    (hhold : hold = .direct ∨ hold = .begun []) (hQ : ∀ q, Q q → ∃ c : Call, c.Sends q)
    (h : Books s₀ B C (s.holders hold ++ G) w)
    (htalks : Script.server.Talks s.connection? Q w w') :
    Books s₀ B C (s.holders hold ++ G) w' := by
  induction htalks with
  | quiet w => exact h
  | @sent n q w w' hn hq _ ih =>
    refine ih ?_
    obtain ⟨c, hc⟩ := hQ q hq
    rw [holders_of_some hn] at h ⊢
    exact h.sent q.wire fun ts hts => Hold.Fits.call hhold ⟨c, q, hc, rfl⟩ hts

theorem books_perform (hhold : hold = .direct ∨ hold = .begun []) {s : Store}
    (h : Books s₀ B C (s.holders hold ++ G) w) {c : Call} (hc : c ≠ .close) (cancelled : Bool) :
    Books s₀ B C ((s.perform Script.server cancelled c w).2.1.holders hold ++ G)
      (s.perform Script.server cancelled c w).2.2 := by
  obtain ⟨htalks, hconnection⟩ := s.talks_perform Script.server cancelled hc w
  rw [holders_congr hconnection]
  exact books_of_talks hhold (fun q hq => ⟨c, hq⟩) h htalks

theorem books_release {s : Store} (h : Books s₀ B C (s.holders hold ++ G) w)
    (hsettled : ∀ n ts, s.connection? = some n → hold.Fits B n ts →
      Settled B C n (ts ++ [.finished])) :
    Books s₀ B C G (s.release Script.server w) := by
  rcases hn : s.connection? with _ | n
  · rw [release_of_none hn]
    rwa [holders_of_none hn] at h
  · rw [release_of_some hn]
    rw [holders_of_some hn] at h
    exact h.finish fun ts hts => hsettled n ts hn hts

theorem connect_of_none {p : Postgres} (hp : p.connection = none) (w : Script) :
    p.connect Script.server w = match (w.connect (untilNul p.conninfo)).1.2 with
      | some message => (some (Postgres.failed ("postgres: connect failed: " ++
          Postgres.tidy message)), p, (w.connect (untilNul p.conninfo)).2.finish (w.attempts + 1))
      | none =>
        (none, { p with connection := some (w.attempts + 1) },
          (w.connect (untilNul p.conninfo)).2) := by
  have hconnect : Script.server.connect (untilNul p.conninfo) w
      = ((w.attempts + 1, (w.connect (untilNul p.conninfo)).1.2),
        (w.connect (untilNul p.conninfo)).2) := rfl
  simp only [Postgres.connect, hp, hconnect]
  split <;> simp_all [Script.server]

/-- A statement over the connection that there is. -/
theorem command_of_some {p : Postgres} {n : Nat} (hp : p.connection = some n) (q : Statement)
    (w : Script) : p.command Script.server q w
      = (match (w.execute n q.wire).1 with
          | .ok _ => none
          | .error message =>
            some (Postgres.callError q.sql (Postgres.failed (Postgres.tidy message))),
        (w.execute n q.wire).2) := by
  have hexecute : Script.server.execute n q.wire w = w.execute n q.wire := rfl
  simp only [Postgres.command, Postgres.execute, hp, hexecute]
  rcases w.execute n q.wire with ⟨message | r, w'⟩ <;> rfl

theorem attempts_command (p : Postgres) (q : Statement) (w : Script) :
    (p.command Script.server q w).2.attempts = w.attempts := by
  rcases hp : p.connection with _ | n
  · rw [Postgres.command_of_none hp]
  · rw [command_of_some hp]
    rfl

theorem attempts_release (s : Store) (w : Script) :
    (s.release Script.server w).attempts = w.attempts := by
  rcases hn : s.connection? with _ | n
  · rw [release_of_none hn]
  · rw [release_of_some hn]
    rfl

theorem books_connect {p : Postgres} (h : Books s₀ B C ((postgres p).holders .direct ++ G) w) :
    Books s₀ B C ((postgres (p.connect Script.server w).2.1).holders .direct ++ G)
      (p.connect Script.server w).2.2 := by
  rcases hp : p.connection with _ | n
  · have hnone : (postgres p).connection? = none := hp
    rw [holders_of_none hnone] at h
    have hB : w.attempts + 1 ∉ B := fun hmem => by
      have hle := h.attempted _ hmem
      omega
    have hnew := h.connect (untilNul p.conninfo)
    rw [connect_of_none hp]
    rcases hrefusal : (w.connect (untilNul p.conninfo)).1.2 with _ | message <;>
      rw [hrefusal] at hnew <;> simp only
    · exact hnew.direct_of_new hB
    · rw [holders_of_none hnone]
      exact hnew.finish_refused
  · simpa only [Postgres.connect, hp] using h

/-! ### Transactions -/

/-- What a transaction holds: it has begun on the connection, or has ended there. -/
def Transaction.holders (t : Transaction) : List (Nat × Hold) :=
  t.scope.holders (if t.finished then .ended else .begun [])

/-- A transaction whose engine does not turn to the scope is on none that has a connection. -/
def Transaction.Proper (t : Transaction) : Prop :=
  t.engine = .scope ∨ t.scope.connection? = none

/-- How a transaction begins on a storage in PostgreSQL: under a context that is cancelled it does
not, and otherwise it attempts a connection of its own, whether the storage has one or not. -/
@[elab_as_elim]
theorem begin_postgres_cases {motive : Except Error Transaction × Surroundings Script → Prop}
    (p : Postgres) (context : String) (o : Surroundings Script)
    (cancelled : o.isCancelled context = true → motive (.error .contextCancelled, o))
    (refused : o.isCancelled context = false → ∀ message e, e.code = .storageFailed →
      (o.server.connect (untilNul p.conninfo)).1.2 = some message →
      motive (.error e, { o with
        server := (o.server.connect (untilNul p.conninfo)).2.finish (o.server.attempts + 1) }))
    (notBegun : o.isCancelled context = false → ∀ w, w = (o.server.connect (untilNul p.conninfo)).2 →
      (o.server.connect (untilNul p.conninfo)).1.2 = none →
      ∀ message e, e.code = .storageFailed →
      (w.execute (o.server.attempts + 1) .start).1 = .error message →
      motive (.error e, { o with
        server := (w.execute (o.server.attempts + 1) .start).2.finish (o.server.attempts + 1) }))
    (begun : o.isCancelled context = false → ∀ w, w = (o.server.connect (untilNul p.conninfo)).2 →
      (o.server.connect (untilNul p.conninfo)).1.2 = none →
      ∀ r, (w.execute (o.server.attempts + 1) .start).1 = .ok r →
      motive (.ok { context := context
                    scope := .postgres ⟨p.conninfo, some (o.server.attempts + 1), {}⟩ },
        { o with server := (w.execute (o.server.attempts + 1) .start).2 })) :
    motive ((postgres p).begin Script.server context o) := by
  cases hlive : o.isCancelled context with
  | true => simpa [begin, hlive] using cancelled hlive
  | false =>
    simp only [begin, hlive, Bool.false_eq_true, if_false,
      connect_of_none (p := { conninfo := p.conninfo }) rfl]
    rcases hrefusal : (o.server.connect (untilNul p.conninfo)).1.2 with _ | message <;> simp only
    · rw [command_of_some rfl]
      rcases hreply : ((o.server.connect (untilNul p.conninfo)).2.execute (o.server.attempts + 1)
          .start).1 with message | r <;>
        simp only [Statement.wire_start, hreply]
      · exact notBegun hlive _ rfl hrefusal message _ rfl hreply
      · exact begun hlive _ rfl hrefusal r hreply
    · exact refused hlive message _ rfl hrefusal

theorem books_begin (h : Books s₀ B C G w) (context : String) (s : Store)
    {o : Surroundings Script} (ho : o.server = w) :
    match s.begin Script.server context o with
    | (.error _, o') => Books s₀ (B ∪ Set.Ioc w.attempts o'.server.attempts) C G o'.server
    | (.ok t, o') => t.Proper
      ∧ Books s₀ (B ∪ Set.Ioc w.attempts o'.server.attempts) C (t.holders ++ G) o'.server := by
  subst ho
  have hsame : Books s₀ (B ∪ Set.Ioc o.server.attempts o.server.attempts) C G o.server := by
    simpa using h
  cases s with
  | memory m =>
    unfold begin
    split_ifs
    · exact hsame
    · simp only
      split_ifs
      · exact hsame
      · exact ⟨.inl rfl, hsame⟩
  | postgres p =>
    have hnew := (h.connect (untilNul p.conninfo)).mark
    have hinsert : insert (o.server.attempts + 1) B
        = B ∪ Set.Ioc o.server.attempts (o.server.attempts + 1) := by
      rw [← Set.union_singleton]
      congr 1
      ext n
      simp only [Set.mem_Ioc, Set.mem_singleton_iff]
      omega
    rw [hinsert] at hnew
    refine begin_postgres_cases p context o (fun _ => ?_) (fun _ message e _ hrefusal => ?_)
      (fun _ w hw hrefusal message e _ hreply => ?_) fun _ w hw hrefusal r hreply => ?_
    · exact hsame
    all_goals rw [hrefusal] at hnew
    · exact hnew.finish_refused
    · subst hw
      have hsent := hnew.sent_start
      rw [hreply] at hsent
      exact hsent.finish_notBegun
    · subst hw
      have hsent := hnew.sent_start
      rw [hreply] at hsent
      have hbegun := hsent.begun_of_new (by simp)
      exact ⟨.inl rfl, hbegun⟩

namespace Transaction

variable {t : Transaction} {o : Surroundings Script} {us : List Turn}

@[simp] theorem server_warnOf (o : Surroundings Script) (occasion : String) (e : Option Error) :
    (o.warnOf occasion e).server = o.server := by
  cases e <;> rfl

theorem Proper.of_scope (h : t.Proper) {s : Store}
    (hs : s.connection? = t.scope.connection? ∨ s.connection? = none) (failure : Option Error)
    (finished : Bool) :
    Proper { t with scope := s, failure := failure, finished := finished } := by
  rcases h with hengine | hnone
  · exact .inl hengine
  · exact .inr (hs.elim (·.trans hnone) id)

theorem connection?_engineRollback (t : Transaction) (o : Surroundings Script) :
    (t.engineRollback Script.server o).2.1.scope.connection? = t.scope.connection? := by
  unfold engineRollback
  cases t.engine with
  | scripted commit rollback => rfl
  | scope => cases hscope : t.scope <;> simp [connection?, hscope]

theorem server_engineRollback_of_none (h : t.scope.connection? = none)
    (o : Surroundings Script) : (t.engineRollback Script.server o).2.2.server = o.server := by
  unfold engineRollback
  cases t.engine with
  | scripted commit rollback => rfl
  | scope =>
    cases hscope : t.scope with
    | memory m => rfl
    | postgres p =>
      rw [hscope] at h
      simp only [Postgres.command_of_none (show p.connection = none from h)]

theorem books_engineRollback (hproper : t.Proper)
    (hus : ∀ answer, Turn.Ending (us ++ [.sent .rollback answer]))
    (h : Books s₀ B C (t.scope.holders (.begun us) ++ G) o.server) :
    Books s₀ B C (t.scope.holders .ended ++ G) (t.engineRollback Script.server o).2.2.server := by
  rcases hconnection : t.scope.connection? with _ | n
  · rw [server_engineRollback_of_none hconnection]
    rwa [holders_of_none hconnection] at h ⊢
  · have hengine : t.engine = .scope := hproper.resolve_right (by simp [hconnection])
    rw [holders_of_some hconnection] at h ⊢
    obtain ⟨p, hscope, hp⟩ := connection?_eq_some.mp hconnection
    simp only [engineRollback, hengine, hscope, command_of_some hp, Statement.wire_rollback]
    refine h.sent .rollback ?_
    rintro ts ⟨hB, r, vs, hvs, rfl⟩
    exact ⟨hB, r, vs, us ++ [.sent .rollback _], hvs, hus _, by simp; rfl⟩

theorem attempts_drop (t : Transaction) (o : Surroundings Script) :
    (t.drop Script.server o).server.attempts = o.server.attempts := by
  have hrollback : ∀ t : Transaction,
      (t.engineRollback Script.server o).2.2.server.attempts = o.server.attempts := by
    intro t
    unfold engineRollback
    cases t.engine with
    | scripted commit rollback => rfl
    | scope =>
      cases t.scope with
      | memory m => rfl
      | postgres p => exact attempts_command p .rollback o.server
  unfold drop
  cases t.finished with
  | true => exact attempts_release _ _
  | false =>
    simp only [Bool.false_eq_true, if_false, attempts_release, server_warnOf]
    exact hrollback _

theorem connection?_engineCommit (t : Transaction) (parent : Store) (o : Surroundings Script) :
    (t.engineCommit Script.server parent o).2.1.connection? = parent.connection? := by
  unfold engineCommit
  cases t.engine with
  | scripted commit rollback => rfl
  | scope => cases t.scope <;> cases parent <;> rfl

theorem server_engineCommit_of_none (h : t.scope.connection? = none) (parent : Store)
    (o : Surroundings Script) : (t.engineCommit Script.server parent o).2.2.server = o.server := by
  unfold engineCommit
  cases t.engine with
  | scripted commit rollback => rfl
  | scope =>
    cases hscope : t.scope with
    | memory m => cases parent <;> rfl
    | postgres p =>
      rw [hscope] at h
      simp only [Postgres.command_of_none (show p.connection = none from h)]

/-- A commit that succeeds ends the transaction on its connection. One that fails is still to be
rolled back there. -/
theorem books_engineCommit (hproper : t.Proper) (parent : Store)
    (h : Books s₀ B C (t.scope.holders (.begun []) ++ G) o.server) :
    match t.engineCommit Script.server parent o with
    | (none, _, o') => Books s₀ B C (t.scope.holders .ended ++ G) o'.server
    | (some _, _, o') => ∃ message,
      Books s₀ B C (t.scope.holders (.begun [.sent .commit (.error message)]) ++ G) o'.server := by
  rcases hconnection : t.scope.connection? with _ | n
  · have hserver := server_engineCommit_of_none hconnection parent o
    simp only [holders_of_none hconnection] at h ⊢
    rcases hcommit : t.engineCommit Script.server parent o with ⟨_ | e, parent', o'⟩ <;>
      rw [hcommit] at hserver <;> rw [← hserver] at h
    exacts [h, ⟨"", h⟩]
  · have hengine : t.engine = .scope := hproper.resolve_right (by simp [hconnection])
    simp only [holders_of_some hconnection] at h ⊢
    obtain ⟨p, hscope, hp⟩ := connection?_eq_some.mp hconnection
    simp only [engineCommit, hengine, hscope, command_of_some hp, Statement.wire_commit]
    rcases hreply : (o.server.execute n .commit).1 with message | reply <;> simp only
    · refine ⟨message, h.sent .commit ?_⟩
      rintro ts ⟨hB, r, vs, hvs, rfl⟩
      exact ⟨hB, r, vs, hvs, by simp [hreply]⟩
    · refine h.sent .commit ?_
      rintro ts ⟨hB, r, vs, hvs, rfl⟩
      exact ⟨hB, r, vs, _, hvs, .committed reply, by simp [hreply]⟩

theorem holders_of_unfinished (h : t.finished = false) :
    t.holders = t.scope.holders (.begun []) := by
  simp [holders, h]

theorem holders_of_finished (h : t.finished = true) : t.holders = t.scope.holders .ended := by
  simp [holders, h]

/-- To end with a rollback. -/
theorem books_rolledBack (hproper : t.Proper)
    (hus : ∀ answer, Turn.Ending (us ++ [.sent .rollback answer]))
    (h : Books s₀ B C (t.scope.holders (.begun us) ++ G) o.server) :
    (t.ended.engineRollback Script.server o).2.1.Proper
      ∧ Books s₀ B C ((t.ended.engineRollback Script.server o).2.1.holders ++ G)
        (t.ended.engineRollback Script.server o).2.2.server := by
  have hconnection := connection?_engineRollback t.ended o
  have hbooks := books_engineRollback (t := t.ended) hproper hus h
  obtain ⟨s, hs⟩ := engineRollback_transaction Script.server t.ended o
  rw [hs] at hconnection ⊢
  refine ⟨hproper.of_scope (.inl hconnection) t.failure true, ?_⟩
  rwa [holders_of_finished rfl, holders_congr hconnection]

theorem connection?_commit (t : Transaction) (parent : Store) (o : Surroundings Script) :
    (t.commit Script.server parent o).2.1.connection? = parent.connection? := by
  have hconnection := connection?_engineCommit t.ended parent o
  refine t.commit_cases Script.server parent o (fun _ => rfl) (fun _ failure _ => rfl)
    (fun _ _ parent' o' hcommit => ?_) fun _ _ e parent' o' hcommit => ?_ <;>
    rwa [hcommit] at hconnection

theorem books_commit (hproper : t.Proper) (parent : Store)
    (h : Books s₀ B C (t.holders ++ G) o.server) :
    let r := t.commit Script.server parent o
    r.2.2.1.Proper ∧ Books s₀ B C (r.2.2.1.holders ++ G) r.2.2.2.server := by
  refine t.commit_cases Script.server parent o (fun _ => ⟨hproper, h⟩)
    (fun hfinished failure _ => ?_) (fun hfinished _ parent' o' hcommit => ?_)
    fun hfinished _ e parent' o' hcommit => ?_ <;>
    rw [holders_of_unfinished hfinished] at h
  · obtain ⟨hproper', hbooks⟩ := books_rolledBack hproper (fun answer => .rolledBack answer) h
    exact ⟨hproper', by rwa [server_warnOf]⟩
  · have hbooks := books_engineCommit (t := t.ended) hproper parent h
    rw [hcommit] at hbooks
    exact ⟨hproper.of_scope (.inl rfl) t.failure true, hbooks⟩
  · have hbooks := books_engineCommit (t := t.ended) hproper parent h
    rw [hcommit] at hbooks
    obtain ⟨message, hbooks⟩ := hbooks
    obtain ⟨hproper', hbooks⟩ :=
      books_rolledBack hproper (fun answer => .refused message answer) hbooks
    exact ⟨hproper', by rwa [server_warnOf]⟩

theorem books_rollback (hproper : t.Proper) (h : Books s₀ B C (t.holders ++ G) o.server) :
    (t.rollback Script.server o).2.1.Proper
      ∧ Books s₀ B C ((t.rollback Script.server o).2.1.holders ++ G)
        (t.rollback Script.server o).2.2.server := by
  cases hfinished : t.finished with
  | true =>
    rw [rollback_of_finished hfinished]
    exact ⟨hproper, h⟩
  | false =>
    rw [rollback_of_unfinished hfinished]
    rw [holders_of_unfinished hfinished] at h
    exact books_rolledBack hproper (fun answer => .rolledBack answer) h

/-- The end of a transaction's life: its connection is finished. -/
theorem books_drop (hproper : t.Proper) (h : Books s₀ B C (t.holders ++ G) o.server) :
    Books s₀ B C G (t.drop Script.server o).server := by
  have hrelease : ∀ {s : Store} {w : Script}, Books s₀ B C (s.holders .ended ++ G) w →
      Books s₀ B C G (s.release Script.server w) :=
    fun h => books_release h fun n ts _ hts => Hold.Fits.settled_ended hts
  unfold drop
  cases hfinished : t.finished with
  | true =>
    rw [holders_of_finished hfinished] at h
    exact hrelease h
  | false =>
    rw [holders_of_unfinished hfinished] at h
    have hconnection := connection?_engineRollback t.ended o
    have hbooks := books_engineRollback (t := t.ended) hproper (fun answer => .rolledBack answer) h
    rw [← holders_congr hconnection] at hbooks
    simp only [ended] at hbooks
    simpa only [Bool.false_eq_true, if_false, server_warnOf] using hrelease hbooks

end Transaction

end Ingest.Store

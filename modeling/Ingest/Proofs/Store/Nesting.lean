import Ingest.Proofs.Store.Holders
import Ingest.Proofs.Store.Ledger
import Ingest.Proofs.Store.Lifecycle
import Ingest.Proofs.Store.Moments

/-!
# Transactions within transactions

A transaction on a storage in PostgreSQL has a connection of its own, also when that storage is the
scope of another transaction. So a commit of the inner one takes effect at once, however the outer
one ends. `Script.commits` has the connections on which `COMMIT` succeeded: in the life of a
transaction these are one for each inner commit that answers success and its own if it is committed
itself (`Transaction.inner_commits_stand`).
-/

namespace Ingest.Store

open Postgres (LogEntry Script Statement)

/-! ### The commits in a log -/

namespace Postgres.Script

variable {s s' s'' : Script} {es : List LogEntry} {ns ns' : List Nat} {n : Nat}

/-- The connections on which `COMMIT` succeeds, one after the other. -/
def commits (s : Script) (es : List LogEntry) : List Nat :=
  (s.turns es).filterMap fun
    | (n, .sent q (.ok _)) => if q = .commit then some n else none
    | _ => none

/-- The log from `s` to `s'` has these commits. -/
def Commits (s : Script) (ns : List Nat) (s' : Script) : Prop :=
  ∃ es, s.Follows es s' ∧ s.commits es = ns

theorem Follows.attempts_le (h : s.Follows es s') : s.attempts ≤ s'.attempts := by
  rw [← h.script]
  clear h
  induction es generalizing s with
  | nil => exact le_rfl
  | cons e es ih =>
    refine le_trans ?_ (ih (s := s.redo e))
    cases e
    exacts [Nat.le_succ _, le_rfl, le_rfl]

theorem commits_eq_nil (hes : ∀ n, .sent n .commit ∉ es) : s.commits es = [] := by
  induction es generalizing s with
  | nil => rfl
  | cons e es ih =>
    have hrest := ih (s := s.redo e) fun n hn => hes n (List.mem_cons_of_mem _ hn)
    unfold commits at hrest ⊢
    rw [turns, List.filterMap_cons, hrest]
    cases e with
    | connected n conninfo => rfl
    | finished n => rfl
    | sent n q =>
      have hq : q ≠ .commit := fun hq => hes n (hq ▸ List.mem_cons_self)
      rcases hanswer : (s.execute n q).1 with message | r <;> simp [turn, hanswer, hq]

namespace Commits

theorem refl (s : Script) : Commits s [] s :=
  ⟨[], .refl s, rfl⟩

theorem trans (h : Commits s ns s') (h' : Commits s' ns' s'') : Commits s (ns ++ ns') s'' := by
  obtain ⟨es, hes, rfl⟩ := h
  obtain ⟨es', hes', rfl⟩ := h'
  refine ⟨es ++ es', hes.trans hes', ?_⟩
  rw [commits, turns_append, hes.script, List.filterMap_append]
  rfl

theorem attempts_le (h : Commits s ns s') : s.attempts ≤ s'.attempts :=
  h.elim fun _ hes => hes.1.attempts_le

theorem of_talks {connection : Option Nat} {Q : Statement → Prop}
    (h : server.Talks connection Q s s') (hQ : ∀ q, Q q → q.wire ≠ .commit) : Commits s [] s' := by
  obtain ⟨es, hes, hsent⟩ := follows_of_talks h
  refine ⟨es, hes, commits_eq_nil fun n hn => ?_⟩
  obtain ⟨n', q, -, hq, heq⟩ := hsent _ hn
  injection heq with _ hwire
  exact hQ q hq hwire.symm

theorem connect (s : Script) (conninfo : String) : Commits s [] (s.connect conninfo).2 :=
  ⟨_, .connect s conninfo, commits_eq_nil (by simp)⟩

theorem finish (s : Script) (n : Nat) : Commits s [] (s.finish n) :=
  ⟨_, .finish s n, commits_eq_nil (by simp)⟩

theorem execute (s : Script) (n : Nat) {q : Statement} (hq : q ≠ .commit) :
    Commits s [] (s.execute n q).2 :=
  ⟨_, .execute s n q, commits_eq_nil (by simpa using hq.symm)⟩

/-- A `COMMIT` counts if it is answered with success. -/
theorem execute_commit (s : Script) (n : Nat) :
    Commits s (match (s.execute n .commit).1 with | .ok _ => [n] | .error _ => [])
      (s.execute n .commit).2 := by
  refine ⟨_, .execute s n .commit, ?_⟩
  rcases hanswer : (s.execute n .commit).1 with message | r <;>
    simp [commits, turns, turn, hanswer]

theorem release (s : Store) (w : Script) : Commits w [] (s.release server w) := by
  rcases hn : s.connection? with _ | n
  · rw [release_of_none hn]
    exact .refl w
  · rw [release_of_some hn]
    exact .finish w n

end Commits

end Postgres.Script

/-! ### Storages and transactions -/

open Postgres.Script (Commits)

/-- A storage in PostgreSQL with one of these connections or none. -/
def Within (N : Set Nat) (s : Store) : Prop :=
  ∃ p, s = .postgres p ∧ ∀ n, p.connection = some n → n ∈ N

section

variable {N : Set Nat} {s : Store}

theorem Within.perform (h : s.Within N) (srv : Postgres.Server Script) (cancelled : Bool) (c : Call)
    (w : Script) : (s.perform srv cancelled c w).2.1.Within N := by
  obtain ⟨p, rfl, hp⟩ := h
  rw [perform_postgres]
  refine ⟨_, rfl, fun n hn => ?_⟩
  rcases p.connection_perform srv cancelled c w with hsame | hnone
  · exact hp n (hsame.symm.trans hn)
  · rw [hnone] at hn
    cases hn

theorem commits_perform (cancelled : Bool) (c : Call) (s : Store) (w : Script) :
    Commits w [] (s.perform Script.server cancelled c w).2.2 := by
  by_cases hc : c = .close
  · subst hc
    rw [perform_close, close_snd]
    exact .release s w
  · exact .of_talks (s.talks_perform Script.server cancelled hc w).1
      fun q hq => (Postgres.wire_ne_of_sends hq).2.1

theorem commits_command (p : Postgres) {q : Statement} (hq : q.wire ≠ .commit) (w : Script) :
    Commits w [] (p.command Script.server q w).2 := by
  rcases hp : p.connection with _ | n
  · rw [Postgres.command_of_none hp]
    exact .refl w
  · rw [command_of_some hp]
    exact .execute w n hq

end

/-- From `s` to `s'` so many commits succeed, on some of these connections. -/
def Counts (N : Set Nat) (k : Nat) (s s' : Script) : Prop :=
  ∃ ns, Commits s ns s' ∧ (∀ n ∈ ns, n ∈ N) ∧ ns.length = k

namespace Counts

variable {N : Set Nat} {k k' : Nat} {s s' s'' : Script}

theorem quiet (h : Commits s [] s') : Counts N 0 s s' :=
  ⟨[], h, by simp, rfl⟩

theorem trans (h : Counts N k s s') (h' : Counts N k' s' s'') : Counts N (k + k') s s'' := by
  obtain ⟨ns, hns, hN, rfl⟩ := h
  obtain ⟨ns', hns', hN', rfl⟩ := h'
  exact ⟨ns ++ ns', hns.trans hns', List.forall_mem_append.mpr ⟨hN, hN'⟩, List.length_append⟩

theorem attempts_le (h : Counts N k s s') : s.attempts ≤ s'.attempts :=
  h.elim fun _ hns => hns.1.attempts_le

end Counts

namespace Transaction

variable {t : Transaction} {N : Set Nat}

/-- A transaction on a scope in PostgreSQL with one of these connections or none. -/
structure On (N : Set Nat) (t : Transaction) : Prop where
  engine : t.engine = .scope
  scope : t.scope.Within N

theorem On.ended (h : t.On N) : t.ended.On N :=
  ⟨h.engine, h.scope⟩

theorem On.mono {N' : Set Nat} (h : t.On N) (hN : N ⊆ N') : t.On N' := by
  obtain ⟨p, hscope, hp⟩ := h.scope
  exact ⟨h.engine, p, hscope, fun n hn => hN (hp n hn)⟩

theorem engineRollback_on (h : t.On N) (o : Surroundings Script) :
    (t.engineRollback Script.server o).2.1 = t
      ∧ Commits o.server [] (t.engineRollback Script.server o).2.2.server := by
  obtain ⟨p, hscope, -⟩ := h.scope
  have hcommits := commits_command p (q := .rollback) (by decide) o.server
  simp only [engineRollback, h.engine, hscope, true_and]
  exact hcommits

theorem engineCommit_on (h : t.On N) (parent : Store) (o : Surroundings Script) :
    (t.engineCommit Script.server parent o).2.1 = parent
      ∧ Counts N (if (t.engineCommit Script.server parent o).1 = none then 1 else 0) o.server
        (t.engineCommit Script.server parent o).2.2.server := by
  obtain ⟨p, hscope, hN⟩ := h.scope
  simp only [engineCommit, h.engine, hscope, true_and]
  rcases hp : p.connection with _ | n
  · rw [Postgres.command_of_none hp]
    exact .quiet (.refl _)
  · have hcommit := Commits.execute_commit o.server n
    rw [command_of_some hp, Postgres.Statement.wire_commit]
    rcases hreply : (o.server.execute n .commit).1 with message | r <;> rw [hreply] at hcommit
    · exact .quiet hcommit
    · exact ⟨[n], hcommit, by simpa using hN n hp, rfl⟩

/-- An end that rolls back. -/
theorem engineRollback_ended (h : t.On N) (o : Surroundings Script) (occasion : String) :
    (t.ended.engineRollback Script.server o).2.1 = t.ended ∧ Counts N 0 o.server
      ((t.ended.engineRollback Script.server o).2.2.warnOf occasion
        (t.ended.engineRollback Script.server o).1).server := by
  obtain ⟨hsame, hcommits⟩ := engineRollback_on h.ended o
  exact ⟨hsame, .quiet (by rwa [server_warnOf])⟩

theorem commit_on (h : t.On N) (parent : Store) (o : Surroundings Script) :
    let r := t.commit Script.server parent o
    r.2.1 = parent ∧ r.2.2.1 = t.ended
      ∧ Counts N (if r.1 = none then 1 else 0) o.server r.2.2.2.server := by
  have hcommit := engineCommit_on h.ended parent o
  refine t.commit_cases Script.server parent o (fun hfinished => ?_) (fun _ failure _ => ?_)
    (fun _ _ parent' o' hengine => ?_) fun _ _ e parent' o' hengine => ?_
  · exact ⟨rfl, by simp [ended, ← hfinished], .quiet (.refl _)⟩
  · obtain ⟨hsame, hcounts⟩ := engineRollback_ended h o "rollback after failed unit"
    exact ⟨rfl, hsame, hcounts⟩
  · rw [hengine] at hcommit
    exact ⟨hcommit.1, rfl, hcommit.2⟩
  · rw [hengine] at hcommit
    obtain ⟨hsame, hcounts⟩ := engineRollback_ended h o' "rollback after failed commit"
    exact ⟨hcommit.1, hsame, hcommit.2.trans hcounts⟩

theorem rollback_on (h : t.On N) (o : Surroundings Script) :
    (t.rollback Script.server o).2.1 = t.ended
      ∧ Commits o.server [] (t.rollback Script.server o).2.2.server := by
  cases hfinished : t.finished with
  | true =>
    rw [rollback_of_finished hfinished]
    exact ⟨by simp [ended, ← hfinished], .refl _⟩
  | false =>
    rw [rollback_of_unfinished hfinished]
    exact engineRollback_on h.ended o

theorem drop_on (h : t.On N) (o : Surroundings Script) :
    Commits o.server [] (t.drop Script.server o).server := by
  unfold drop
  cases t.finished with
  | true => exact .release _ _
  | false =>
    obtain ⟨-, hcommits⟩ := engineRollback_on h.ended o
    simp only [Bool.false_eq_true, if_false, server_warnOf]
    exact hcommits.trans (.release _ _)

/-- A transaction on a storage in PostgreSQL has a connection that is new. -/
theorem begin_on (p : Postgres) (context : String) (o : Surroundings Script) :
    match (Store.postgres p).begin Script.server context o with
    | (.error _, o') => Commits o.server [] o'.server
    | (.ok t, o') => Commits o.server [] o'.server ∧ o.server.attempts < o'.server.attempts
      ∧ t.On {o.server.attempts + 1}
      ∧ t.scope.connection? = some (o.server.attempts + 1) := by
  have hconnect := Commits.connect o.server (untilNul p.conninfo)
  refine begin_postgres_cases p context o (fun _ => ?_) (fun _ message e _ _ => ?_)
    (fun _ w hw _ message e _ _ => ?_) fun _ w hw _ r _ => ?_
  · exact .refl _
  · exact hconnect.trans (.finish _ _)
  · rw [← hw] at hconnect
    exact (hconnect.trans (.execute w _ (by decide))).trans (.finish _ _)
  · rw [← hw] at hconnect
    refine ⟨hconnect.trans (.execute w _ (by decide)), ?_, ⟨rfl, _, rfl, ?_⟩, rfl⟩
    · subst hw
      exact Nat.lt_succ_self _
    · rintro n hn
      exact (Option.some.inj hn).symm

end Transaction

/-! ### Units of work -/

mutual

/-- How many commits have answered success, in units at any depth too. -/
def Outcome.commits : Outcome → Nat
  | .committed _ none => 1
  | .ran _ rs _ => Outcome.allCommits rs
  | .committed _ (some _) | .nothing | .called .. | .cancelled | .began .. | .skipped _
  | .rolledBack .. | .dropped _ => 0

def Outcome.allCommits : List Outcome → Nat
  | [] => 0
  | r :: rs => r.commits + Outcome.allCommits rs

end

namespace Desk

/-- A desk in a unit of the transaction that holds the connection `n`: the storage has one of `N`, and
transactions have others than `n`. -/
structure Inner (n : Nat) (N : Set Nat) (d : Desk Script) : Prop where
  store : d.store.Within N
  transactions : ∀ e ∈ d.transactions.entries, e.2.On {n}ᶜ
  attempts : n ≤ d.around.server.attempts

namespace Inner

variable {n : Nat} {N : Set Nat} {d : Desk Script}

theorem get? (h : Inner n N d) {name : String} {t : Transaction}
    (ht : d.transactions.get? name = some t) : t.On {n}ᶜ :=
  h.transactions _ (Catalog.mem_of_get? ht)

theorem set (h : Inner n N d) (name : String) {t : Transaction} (ht : t.On {n}ᶜ)
    {s : Store} (hs : s = d.store) {o : Surroundings Script}
    (ho : d.around.server.attempts ≤ o.server.attempts) :
    Inner n N { store := s, transactions := d.transactions.set name t, around := o } :=
  ⟨hs ▸ h.store, Catalog.forall_mem_insert ht h.transactions, h.attempts.trans ho⟩

theorem step (h : Inner n N d) (context : String) (a : Step) :
    Inner n N (d.step Script.server context a).2
      ∧ Counts {n}ᶜ (d.step Script.server context a).1.commits d.around.server
        (d.step Script.server context a).2.around.server := by
  obtain ⟨p, hp, -⟩ := h.store
  have hbegin := Transaction.begin_on p context d.around
  rw [← hp] at hbegin
  refine d.step_cases Script.server context a ?call ?cancel ?notBegun ?begun ?absent ?commit
    ?rollback ?drop
  case call =>
    rintro c -
    have hcommits := commits_perform (d.around.isCancelled context) c d.store d.around.server
    exact ⟨⟨h.store.perform _ _ c _, h.transactions, h.attempts.trans hcommits.attempts_le⟩,
      .quiet hcommits⟩
  case cancel => exact fun _ => ⟨⟨h.store, h.transactions, h.attempts⟩, .quiet (.refl _)⟩
  case notBegun =>
    rintro name - e o hr
    rw [hr] at hbegin
    exact ⟨⟨h.store, h.transactions, h.attempts.trans hbegin.attempts_le⟩, .quiet hbegin⟩
  case begun =>
    rintro name - t o hr
    rw [hr] at hbegin
    obtain ⟨hcommits, hlt, ht, -⟩ := hbegin
    have hle := h.attempts
    have hne : {d.around.server.attempts + 1} ⊆ ({n}ᶜ : Set Nat) := by
      rintro k rfl
      simp only [Set.mem_compl_iff, Set.mem_singleton_iff]
      omega
    have hkeep : Commits d.around.server []
        (({ d with around := o } : Desk Script).keep Script.server name t).around.server := by
      unfold keep
      rcases hbefore : d.transactions.get? name with _ | before <;> simp only
      · exact hcommits
      · exact hcommits.trans (Transaction.drop_on (h.get? hbefore) o)
    exact ⟨h.set name (ht.mono hne) rfl hkeep.attempts_le, .quiet hkeep⟩
  case absent => exact fun name _ _ => ⟨h, .quiet (.refl _)⟩
  case commit =>
    rintro name - t ht
    obtain ⟨hparent, hsame, hcounts⟩ := Transaction.commit_on (h.get? ht) d.store d.around
    refine ⟨h.set name (hsame ▸ (h.get? ht).ended) hparent hcounts.attempts_le, ?_⟩
    rcases hr : (t.commit Script.server d.store d.around).1 with _ | e <;>
      simpa [hr, Outcome.commits] using hcounts
  case rollback =>
    rintro name - t ht
    obtain ⟨hsame, hcommits⟩ := Transaction.rollback_on (h.get? ht) d.around
    exact ⟨h.set name (hsame ▸ (h.get? ht).ended) rfl hcommits.attempts_le, .quiet hcommits⟩
  case drop =>
    rintro name - t ht
    have hcommits := Transaction.drop_on (h.get? ht) d.around
    exact ⟨⟨h.store, fun e he => h.transactions e (List.mem_of_mem_filter he),
      h.attempts.trans hcommits.attempts_le⟩, .quiet hcommits⟩

theorem dropAll (h : Inner n N d) :
    Commits d.around.server [] (d.dropAll Script.server).around.server := by
  obtain ⟨-, htransactions, -⟩ := h
  show Commits _ [] (d.transactions.entries.foldr (fun e o => e.2.drop Script.server o)
    d.around).server
  generalize d.transactions.entries = es at htransactions
  induction es with
  | nil => exact .refl _
  | cons e es ih =>
    obtain ⟨he, hes⟩ := List.forall_mem_cons.mp htransactions
    exact (ih hes).trans (Transaction.drop_on he _)

end Inner

end Desk

namespace Transaction

/-- A unit that runs in a transaction on the connection `n`, or deeper: each commit that succeeds in
its course is one that it has made, on another connection. -/
def Apart (n : Nat) (work : Action Script (List Outcome)) : Prop :=
  ∀ (N : Set Nat) context scope (o : Surroundings Script), scope.Within N → n ≤ o.server.attempts →
    (work context scope o).2.2.1.Within N
      ∧ Counts {n}ᶜ (Outcome.allCommits (work context scope o).1) o.server
        (work context scope o).2.2.2.server

/-- How many commits have answered success in a unit that was sent, if it ran. -/
def commitsOf (answer : Option (List Outcome × Option Error)) : Nat :=
  (answer.map fun r => Outcome.allCommits r.1).getD 0

theorem On.send {t : Transaction} {N : Set Nat} {n : Nat} {work : Action Script (List Outcome)}
    (h : t.On N) (hwork : Apart n work) {o : Surroundings Script} (hn : n ≤ o.server.attempts) :
    (t.send work o).2.1.On N
      ∧ Counts {n}ᶜ (commitsOf (t.send work o).1) o.server (t.send work o).2.2.server := by
  unfold Transaction.send
  split_ifs
  · exact ⟨h, .quiet (.refl _)⟩
  · exact ⟨h, .quiet (.refl _)⟩
  · exact ⟨⟨h.engine, h.scope⟩, .quiet (.refl _)⟩
  · obtain ⟨hscope, hcounts⟩ := hwork N t.context t.scope o h.scope hn
    exact ⟨⟨h.engine, hscope⟩, hcounts⟩

end Transaction

namespace Desk

variable {n : Nat} {N : Set Nat} {d : Desk Script}

theorem Inner.send (h : Inner n N d) {work : Transaction.Action Script (List Outcome)}
    (hwork : Transaction.Apart n work) (name : String) :
    Inner n N (d.send work name).2
      ∧ Counts {n}ᶜ (d.send work name).1.commits d.around.server
        (d.send work name).2.around.server := by
  rcases ht : d.transactions.get? name with _ | t <;> simp only [Desk.send, ht]
  · exact ⟨h, .quiet (.refl _)⟩
  · obtain ⟨ht', hcounts⟩ := (h.get? ht).send hwork h.attempts
    have hset := h.set name ht' rfl hcounts.attempts_le
    rcases hanswer : t.send work d.around with ⟨_ | ⟨rs, e⟩, t', o⟩ <;>
      rw [hanswer] at hset hcounts <;> exact ⟨hset, hcounts⟩

theorem apart_of_inner {work : String → Desk Script → List Outcome × Option Error × Desk Script}
    (hwork : ∀ (N : Set Nat) context (d : Desk Script), Inner n N d → Inner n N (work context d).2.2
      ∧ Counts {n}ᶜ (Outcome.allCommits (work context d).1) d.around.server
        (work context d).2.2.around.server) :
    Transaction.Apart n (apart Script.server work) := by
  intro N context scope o hscope hn
  obtain ⟨hinner, hcounts⟩ := hwork N context { store := scope, around := o } ⟨hscope, by simp, hn⟩
  exact ⟨hinner.store, hcounts.trans (.quiet hinner.dropAll)⟩

end Desk

/-- A unit that is sent on works at a desk of its own, over a scope with another connection. -/
theorem Work.inner_run {n : Nat} (unit : Work) {N : Set Nat} (context : String) {d : Desk Script}
    (h : d.Inner n N) : (unit.run Script.server context d).2.2.Inner n N
      ∧ Counts {n}ᶜ (Outcome.allCommits (unit.run Script.server context d).1) d.around.server
        (unit.run Script.server context d).2.2.around.server := by
  induction unit generalizing N context d with
  | done e => exact ⟨h, .quiet (.refl _)⟩
  | step a next ih =>
    obtain ⟨hstep, hcounts⟩ := h.step context a
    obtain ⟨hrest, hcounts'⟩ := ih _ context hstep
    exact ⟨hrest, hcounts.trans hcounts'⟩
  | send name unit next ihunit ih =>
    have hwork := Desk.apart_of_inner fun N context d hd => ihunit context hd
    obtain ⟨hsend, hcounts⟩ := h.send hwork name
    obtain ⟨hrest, hcounts'⟩ := ih _ context hsend
    exact ⟨hrest, hcounts.trans hcounts'⟩

/-! ### The life of a transaction -/

namespace Transaction

/-- Whether it is a commit that answers success. -/
def Event.succeeds {ρ : Type} : Event ρ → Bool
  | committed none => true
  | committed (some _) | sent .. | rolledBack _ | cancelled => false

/-- How many commits of inner transactions have answered success in it. -/
def Event.inner : Event (List Outcome) → Nat
  | sent _ answer => commitsOf answer
  | committed _ | rolledBack _ | cancelled => 0

/-- From `s` to `s'` these were the events in the life of the transaction on the connection `n`: the
commits that succeeded are those of inner transactions, on other connections, and then its own if it
was committed. -/
def Lived (n : Nat) (evs : List (Event (List Outcome))) (s s' : Script) : Prop :=
  ∃ ns, Commits s (ns ++ if evs.any Event.succeeds then [n] else []) s'
    ∧ n ∉ ns ∧ ns.length = (evs.map Event.inner).sum

/-- No commit succeeds in these events. -/
def Event.Idle (evs : List (Event (List Outcome))) : Prop :=
  ∀ ev ∈ evs, ev.succeeds = false ∧ ev.inner = 0

variable {n : Nat} {t : Transaction} {o : Surroundings Script} {s s' s'' : Script}
  {evs evs' : List (Event (List Outcome))}

theorem Event.Idle.any (h : Event.Idle evs) : evs.any Event.succeeds = false := by
  simpa using fun ev hev => (h ev hev).1

theorem Event.Idle.sum (h : Event.Idle evs) : (evs.map Event.inner).sum = 0 :=
  List.sum_eq_zero (by simpa using fun ev hev => (h ev hev).2)

namespace Lived

theorem of_idle (h : Commits s [] s') (hevs : Event.Idle evs) : Lived n evs s s' :=
  ⟨[], by simpa [hevs.any] using h, by simp, hevs.sum.symm⟩

/-- Events before a commit that succeeds, or after it if no commit succeeds in them. -/
theorem append (h : Lived n evs s s') (h' : Lived n evs' s' s'')
    (hevs : evs.any Event.succeeds = true → Event.Idle evs') : Lived n (evs ++ evs') s s'' := by
  obtain ⟨ns, hns, hn, hlength⟩ := h
  obtain ⟨ns', hns', hn', hlength'⟩ := h'
  refine ⟨ns ++ ns', ?_, by simp [hn, hn'], by simp [hlength, hlength']⟩
  have htrans := hns.trans hns'
  cases hany : evs.any Event.succeeds with
  | false => simpa [hany] using htrans
  | true =>
    have hidle := hevs hany
    have hnil : ns' = [] := List.eq_nil_of_length_eq_zero (hlength'.trans hidle.sum)
    simpa [hany, hidle.any, hnil] using htrans

end Lived

/-- Nothing comes of a transaction that is finished. -/
theorem On.enact_of_finished (h : t.On {n}) (hfinished : t.finished = true)
    (d : Deed Script (List Outcome)) :
    (t.enact Script.server o d).2.1.On {n} ∧ (t.enact Script.server o d).2.1.finished = true
      ∧ Commits o.server [] (t.enact Script.server o d).2.2.server
      ∧ Event.Idle [(t.enact Script.server o d).1] := by
  cases d with
  | send work =>
    have hsend : t.send work o
        = (none, t, o.warn "unit sent after commit or rollback was dropped") := by
      simp [Transaction.send, hfinished]
    simp only [Transaction.enact, hsend]
    exact ⟨h, hfinished, .refl _, by simp [Event.Idle, Event.succeeds, Event.inner, commitsOf]⟩
  | commit parent =>
    simp only [Transaction.enact, commit_of_finished hfinished]
    exact ⟨h, hfinished, .refl _, by simp [Event.Idle, Event.succeeds, Event.inner]⟩
  | rollback =>
    simp only [Transaction.enact, rollback_of_finished hfinished]
    exact ⟨h, hfinished, .refl _, by simp [Event.Idle, Event.succeeds, Event.inner]⟩
  | cancel context =>
    exact ⟨h, hfinished, .refl _, by
      simp [Event.Idle, Transaction.enact, Event.succeeds, Event.inner]⟩

theorem On.live_of_finished (h : t.On {n}) (hfinished : t.finished = true)
    (ds : List (Deed Script (List Outcome))) :
    (live Script.server ds t o).2.1.On {n}
      ∧ Commits o.server [] (live Script.server ds t o).2.2.server
      ∧ Event.Idle (live Script.server ds t o).1 := by
  induction ds generalizing t o with
  | nil => exact ⟨h, .refl _, by simp [live, Event.Idle]⟩
  | cons d ds ih =>
    obtain ⟨h', hfinished', hcommits, hidle⟩ := h.enact_of_finished (o := o) hfinished d
    obtain ⟨h'', hcommits', hidle'⟩ := ih (o := (t.enact Script.server o d).2.2) h' hfinished'
    refine ⟨h'', hcommits.trans hcommits', ?_⟩
    exact List.forall_mem_append.mpr ⟨hidle, hidle'⟩

theorem On.enact (h : t.On {n}) (hn : n ≤ o.server.attempts) {d : Deed Script (List Outcome)}
    (hd : ∀ work, d = .send work → Apart n work) :
    (t.enact Script.server o d).2.1.On {n}
      ∧ o.server.attempts ≤ (t.enact Script.server o d).2.2.server.attempts
      ∧ Lived n [(t.enact Script.server o d).1] o.server (t.enact Script.server o d).2.2.server
      ∧ ((t.enact Script.server o d).1.succeeds = true →
        (t.enact Script.server o d).2.1.finished = true) := by
  cases d with
  | send work =>
    obtain ⟨h', ns, hns, hne, hlength⟩ := h.send (hd work rfl) hn
    rcases hr : t.send work o with ⟨answer, t', o'⟩
    rw [hr] at h' hns hlength
    simp only [Transaction.enact, hr]
    exact ⟨h', hns.attempts_le, ⟨ns, by simpa [Event.succeeds] using hns, fun hmem => hne n hmem rfl,
      by simpa [Event.inner] using hlength⟩, by simp [Event.succeeds]⟩
  | commit parent =>
    obtain ⟨-, hended, ns, hns, hN, hlength⟩ := commit_on h parent o
    rcases hr : t.commit Script.server parent o with ⟨e, parent', t', o'⟩
    rw [hr] at hended hns hlength
    obtain rfl : t' = t.ended := hended
    simp only [Transaction.enact, hr]
    refine ⟨h.ended, hns.attempts_le, ⟨[], ?_, by simp, rfl⟩, fun _ => rfl⟩
    cases e with
    | none =>
      obtain ⟨k, rfl⟩ := List.length_eq_one_iff.mp hlength
      obtain rfl : k = n := hN k List.mem_cons_self
      exact hns
    | some e =>
      obtain rfl := List.eq_nil_of_length_eq_zero hlength
      exact hns
  | rollback =>
    obtain ⟨hended, hcommits⟩ := rollback_on h o
    rcases hr : t.rollback Script.server o with ⟨e, t', o'⟩
    rw [hr] at hended hcommits
    obtain rfl : t' = t.ended := hended
    simp only [Transaction.enact, hr]
    exact ⟨h.ended, hcommits.attempts_le, ⟨[], hcommits, by simp, rfl⟩, fun _ => rfl⟩
  | cancel context =>
    exact ⟨h, le_rfl, ⟨[], .refl _, by simp, rfl⟩, by simp [Transaction.enact, Event.succeeds]⟩

theorem On.live (h : t.On {n}) (hn : n ≤ o.server.attempts) {ds : List (Deed Script (List Outcome))}
    (hds : ∀ work, .send work ∈ ds → Apart n work) :
    (live Script.server ds t o).2.1.On {n}
      ∧ Lived n (live Script.server ds t o).1 o.server
        (live Script.server ds t o).2.2.server := by
  induction ds generalizing t o with
  | nil => exact ⟨h, .of_idle (.refl _) (by simp [Event.Idle, Transaction.live])⟩
  | cons d ds ih =>
    obtain ⟨h', hle, hlived, hended⟩ :=
      h.enact hn (d := d) fun work hwork => hds work (by simp [hwork])
    obtain ⟨h'', hlived'⟩ := ih (o := (t.enact Script.server o d).2.2) h' (hn.trans hle)
      fun work hwork => hds work (List.mem_cons_of_mem _ hwork)
    refine ⟨h'', hlived.append hlived' fun hany => ?_⟩
    exact (h'.live_of_finished (hended (by simpa using hany)) ds).2.2

/-- Inner transactions stand, however the outer one ends. In the life of a transaction that has begun
on a storage in PostgreSQL, whatever its units do with its scope, which other transactions they begin
on it, commit and roll back to any depth, and whatever the server answers: the commits that succeed
are, on other connections, one for each commit of an inner transaction that answers success, and then
on its own connection one if it is committed itself with success. So if it is not, no commit has
succeeded if and only if no inner transaction was committed. -/
theorem inner_commits_stand {p : Postgres} {context : String} {o o' : Surroundings Script}
    (hbegin : (Store.postgres p).begin Script.server context o = (.ok t, o'))
    {ds : List (Deed Script (List Outcome))}
    (hds : ∀ work, .send work ∈ ds → ∃ unit : Work, work = unit.act Script.server) :
    let (evs, t', o'') := live Script.server ds t o'
    ∃ n es inner, t.scope.connection? = some n
      ∧ o.server.Follows es (t'.drop Script.server o'').server
      ∧ o.server.commits es = inner ++ (if evs.any Event.succeeds then [n] else [])
      ∧ n ∉ inner ∧ inner.length = (evs.map Event.inner).sum
      ∧ (evs.any Event.succeeds = false →
        (o.server.commits es = [] ↔ ∀ ev ∈ evs, ev.inner = 0)) := by
  have hstart := begin_on p context o
  rw [hbegin] at hstart
  obtain ⟨hcommits, hlt, ht, hn⟩ := hstart
  obtain ⟨ht', inner, hlive, hne, hlength⟩ := ht.live (Nat.succ_le_of_lt hlt) fun work hwork => by
    obtain ⟨unit, rfl⟩ := hds work hwork
    exact Desk.apart_of_inner fun N context d hd => unit.inner_run context hd
  obtain ⟨es, hes, hcommitted⟩ := (hcommits.trans hlive).trans (drop_on ht' _)
  refine ⟨_, es, inner, hn, hes, by simpa using hcommitted, hne, hlength, fun hfailed => ?_⟩
  rw [hcommitted, hfailed, List.nil_append, List.append_nil]
  simp only [Bool.false_eq_true, if_false, List.append_nil]
  rw [← List.length_eq_zero_iff, hlength, List.sum_eq_zero_iff]
  simp

/-- A unit that begins a transaction on its scope, empties a table in it and commits it. -/
def emptying : Work :=
  .step (.begin "inner") fun _ => .send "inner" (.calls [.truncate [⟨"", "a"⟩]]) fun _ =>
    .step (.commit "inner") fun _ => .done none

/-- The outer transaction is rolled back, and one commit has succeeded. -/
theorem inner_commits_stand_rolled_back :
    let start : Script := { replies := List.replicate 5 (.ok {}) }
    let ds : List (Deed Script (List Outcome)) := [.send (emptying.act Script.server), .rollback]
    ∃ t o, (Store.postgres { conninfo := "postgres://h/db" }).begin Script.server "ctx"
        { server := start } = (.ok t, o)
      ∧ let (evs, t', o') := live Script.server ds t o
        evs.any Event.succeeds = false
          ∧ ∃ es, start.Follows es (t'.drop Script.server o').server
            ∧ (start.commits es).length = 1 := by
  intro start ds
  have hds : ∀ work, .send work ∈ ds → ∃ unit : Work, work = unit.act Script.server := by
    simp [ds]
  have hbegin : (Store.postgres { conninfo := "postgres://h/db" }).begin Script.server "ctx"
      { server := start } = _ := rfl
  refine ⟨_, _, hbegin, rfl, ?_⟩
  obtain ⟨n, es, inner, -, hes, hcommitted, -, hlength, -⟩ := inner_commits_stand hbegin hds
  refine ⟨es, hes, ?_⟩
  rw [hcommitted, List.length_append, hlength]
  rfl

/-- An outer transaction that is rolled back does not take a commit back that was made on its scope:
the inner one, on a connection of its own, has succeeded. -/
theorem inner_commit_survives_rollback :
    let start : Script := { replies := List.replicate 5 (.ok {}) }
    let log := (Session.obeyAll Script.server
      [.openAt "postgres://h/db", .step "ctx" (.begin "outer"),
        .send "outer" (.step (.begin "inner") fun _ =>
          .send "inner" (.calls [.truncate [⟨"", "a"⟩]]) fun _ =>
            .step (.commit "inner") fun _ => .done none),
        .step "ctx" (.rollback "outer"), .dropAll]
      { store := none, around := { server := start } }).2.around.server.log
    start.transcript 2 log
        = [.attempted none, .sent .start (.ok {}), .sent .rollback (.ok {}), .finished]
      ∧ start.commits log = [3] := by
  decide +kernel

end Transaction

end Ingest.Store

import Ingest.Proofs.Store.Quiet

/-!
# The life of a transaction

What is done with a transaction comes to events, and these tell its state: it is finished once there
was a commit or a rollback, and until then it keeps the first failure that there was (`Told`). From
that follow which units run, what each commit answers, and which calls the engine gets in the whole
life (`life_cycle`).
-/

namespace Ingest.Store

variable {σ ρ : Type}

namespace Transaction

/-- What is done with a transaction, or to contexts meanwhile. -/
inductive Deed (σ ρ : Type) where
  | send (work : Action σ ρ)
  /-- Commits, with the storage that the transaction was started on as it is then. -/
  | commit (parent : Store)
  | rollback
  | cancel (context : String)

/-- What came of a deed. -/
inductive Event (ρ : Type) where
  /-- A unit was sent: whether it found the context cancelled, and its answer if it ran. -/
  | sent (cancelled : Bool) (answer : Option (ρ × Option Error))
  | committed (e : Option Error)
  | rolledBack (e : Option Error)
  | cancelled

namespace Event

def isCommit : Event ρ → Bool
  | committed _ => true
  | sent .. | rolledBack _ | cancelled => false

def finishes : Event ρ → Bool
  | committed _ | rolledBack _ => true
  | sent .. | cancelled => false

/-- What a send failed with: the error of its unit, or that it found the context cancelled. -/
def failure? : Event ρ → Option Error
  | sent _ (some (_, e)) => e.map unitFailure
  | sent true none => some (Error.contextCancelled.wrap "transaction")
  | sent false none | committed _ | rolledBack _ | cancelled => none

/-- Whether no unit runs any more after the event. -/
def settles (ev : Event ρ) : Bool :=
  ev.finishes || ev.failure?.isSome

end Event

def enact (srv : Postgres.Server σ) (t : Transaction) (o : Surroundings σ) :
    Deed σ ρ → Event ρ × Transaction × Surroundings σ
  | .send work =>
    match t.send work o with
    | (answer, t', o') => (.sent (o.isCancelled t.context) answer, t', o')
  | .commit parent =>
    match t.commit srv parent o with
    | (e, _, t', o') => (.committed e, t', o')
  | .rollback =>
    match t.rollback srv o with
    | (e, t', o') => (.rolledBack e, t', o')
  | .cancel context => (.cancelled, t, o.cancel context)

/-- Deeds one after the other, up to the end of the transaction's life. -/
def live (srv : Postgres.Server σ) :
    List (Deed σ ρ) → Transaction → Surroundings σ → List (Event ρ) × Transaction × Surroundings σ
  | [], t, o => ([], t, o)
  | d :: ds, t, o =>
    match t.enact srv o d with
    | (ev, t, o) =>
      match live srv ds t o with
      | (evs, t, o) => (ev :: evs, t, o)

/-! ### The state, told by the events -/

/-- The events of the transaction `t₀`, which has done nothing yet, tell its state `t`. -/
structure Told (t₀ : Transaction) (evs : List (Event ρ)) (t : Transaction) : Prop where
  context : t.context = t₀.context
  engine : t.engine = t₀.engine
  finished : t.finished = evs.any Event.finishes
  failure : t.finished = false → t.failure = evs.findSome? Event.failure?

namespace Told

variable {t₀ t : Transaction} {evs : List (Event ρ)}

theorem start (hfinished : t₀.finished = false) (hfailure : t₀.failure = none) :
    Told t₀ ([] : List (Event ρ)) t₀ :=
  ⟨rfl, rfl, hfinished, fun _ => hfailure⟩

/-- A commit or a rollback finishes the transaction, unless it is finished already. -/
theorem finish (h : Told t₀ evs t) {ev : Event ρ} (hev : ev.finishes = true) {t' : Transaction}
    (ht' : t' = t ∧ t.finished = true ∨ ∃ s, t' = { t.ended with scope := s }) :
    Told t₀ (evs ++ [ev]) t' := by
  have hfinished : t'.finished = true := by
    rcases ht' with ⟨rfl, ht⟩ | ⟨s, rfl⟩
    exacts [ht, rfl]
  refine ⟨?_, ?_, by simp [hfinished, hev], by simp [hfinished]⟩
  · rcases ht' with ⟨rfl, -⟩ | ⟨s, rfl⟩ <;> exact h.context
  · rcases ht' with ⟨rfl, -⟩ | ⟨s, rfl⟩ <;> exact h.engine

/-- A unit that fails is the first that does, as none runs after it. -/
theorem send (h : Told t₀ evs t) (work : Action σ ρ) (o : Surroundings σ) :
    Told t₀ (evs ++ [.sent (o.isCancelled t.context) (t.send work o).1]) (t.send work o).2.1 := by
  have hany : ∀ answer, t.finished
      = (evs ++ [Event.sent (o.isCancelled t.context) answer]).any Event.finishes := by
    simp [h.finished, Event.finishes]
  unfold Transaction.send
  split_ifs with hfinished hfailed hcancelled
  · exact ⟨h.context, h.engine, hany none, by simp [hfinished]⟩
  · refine ⟨h.context, h.engine, hany none, fun hunfinished => ?_⟩
    rw [List.findSome?_append, ← h.failure hunfinished, Option.or_of_isSome hfailed]
  all_goals
    have hfailure : t.failure = none := by simpa using hfailed
    have hnone : evs.findSome? Event.failure? = none := by
      rw [← h.failure (by simpa using hfinished), hfailure]
  · refine ⟨h.context, h.engine, hany none, fun _ => ?_⟩
    simp [List.findSome?_append, hnone, Event.failure?, hcancelled]
  · refine ⟨h.context, h.engine, hany _, fun _ => ?_⟩
    simp [List.findSome?_append, hnone, Event.failure?]

theorem enact (h : Told t₀ evs t) (srv : Postgres.Server σ) (o : Surroundings σ)
    (d : Deed σ ρ) : Told t₀ (evs ++ [(t.enact srv o d).1]) (t.enact srv o d).2.1 := by
  cases d with
  | send work => exact h.send work o
  | commit parent =>
    refine h.finish rfl ?_
    cases hfinished : t.finished with
    | true => exact .inl ⟨by simp [Transaction.enact, commit_of_finished hfinished], rfl⟩
    | false => exact .inr (t.commit_transaction hfinished srv parent o)
  | rollback =>
    refine h.finish rfl ?_
    cases hfinished : t.finished with
    | true => exact .inl ⟨by simp [Transaction.enact, rollback_of_finished hfinished], rfl⟩
    | false =>
      simp only [Transaction.enact, rollback_of_unfinished hfinished]
      exact .inr (engineRollback_transaction srv t.ended o)
  | cancel context =>
    refine ⟨h.context, h.engine, by simp [h.finished, Transaction.enact, Event.finishes], ?_⟩
    simpa [Transaction.enact, List.findSome?_append, Event.failure?] using h.failure

theorem live (h : Told t₀ evs t) (srv : Postgres.Server σ) (o : Surroundings σ)
    (ds : List (Deed σ ρ)) : Told t₀ (evs ++ (live srv ds t o).1) (live srv ds t o).2.1 := by
  induction ds generalizing evs t o with
  | nil => simpa [Transaction.live] using h
  | cons d ds ih => simpa [Transaction.live] using ih (h.enact srv o d) _

/-- The next unit that is sent runs unless there was a commit, a rollback or a failure, or its context
is cancelled. -/
theorem runs_iff (h : Told t₀ evs t) (work : Action σ ρ) (o : Surroundings σ) :
    (t.send work o).1.isSome = true ↔ evs.any Event.finishes = false
      ∧ evs.findSome? Event.failure? = none ∧ o.isCancelled t₀.context = false := by
  rw [← h.finished, ← h.context]
  unfold Transaction.send
  cases hfinished : t.finished with
  | true => simp
  | false =>
    rw [← h.failure hfinished]
    cases t.failure <;> cases o.isCancelled t.context <;> simp

/-- The answer of the next commit. -/
theorem commit (h : Told t₀ evs t) (srv : Postgres.Server σ) (parent : Store)
    (o : Surroundings σ) : (t.commit srv parent o).1
      = if evs.any Event.finishes then some alreadyFinished
        else match evs.findSome? Event.failure? with
          | some failure => some (failure.wrap "transaction rolled back")
          | none => (t.ended.engineCommit srv parent o).1.map fun e =>
            ⟨.transactionFailed, "commit: " ++ e.message⟩ := by
  rw [← h.finished]
  cases hfinished : t.finished with
  | true => rw [commit_of_finished hfinished, if_pos rfl]
  | false =>
    rw [if_neg Bool.false_ne_true, ← h.failure hfinished]
    cases hfailure : t.failure with
    | some failure => rw [commit_of_failure hfinished hfailure]
    | none =>
      rcases hcommit : t.ended.engineCommit srv parent o with ⟨_ | e, parent', o'⟩
      · rw [commit_of_accepted hfinished hfailure hcommit]
        rfl
      · rw [commit_of_refused hfinished hfailure hcommit]
        rfl

end Told

/-! ### The calls that the engine gets -/

/-- The calls that an engine gets in the life of a transaction, by its answer to a commit and by the
events: a commit that comes before any failure and any rollback is passed on. -/
def engineCalls (answer : Option Error) (evs : List (Event ρ)) : List EngineCall :=
  if (evs.find? Event.settles).any Event.isCommit then
    if answer.isSome then [.commit, .rollback] else [.commit]
  else [.rollback]

section

variable {evs : List (Event ρ)} {answer : Option Error}

theorem any_settles (evs : List (Event ρ)) : evs.any Event.settles
    = (evs.any Event.finishes || (evs.findSome? Event.failure?).isSome) := by
  induction evs with
  | nil => rfl
  | cons ev evs ih =>
    rw [List.any_cons, List.any_cons, ih, List.findSome?_cons, Event.settles]
    cases ev.failure? <;> simp [Bool.or_assoc]

/-- Once no unit runs any more, later events make no difference. -/
theorem engineCalls_append (h : evs.any Event.settles = true) (ev : Event ρ) :
    engineCalls answer (evs ++ [ev]) = engineCalls answer evs := by
  have hsome : (evs.find? Event.settles).isSome = true := by
    rw [List.find?_isSome]
    exact List.any_eq_true.mp h
  rw [engineCalls, List.find?_append, Option.or_of_isSome hsome, engineCalls]

theorem engineCalls_of_not_committed (h : evs.any Event.isCommit = false) :
    engineCalls answer evs = [.rollback] := by
  rw [engineCalls]
  rcases hfind : evs.find? Event.settles with _ | ev
  · rfl
  · have hev := List.any_eq_false.mp h ev (List.mem_of_find?_eq_some hfind)
    simp [hev]

end

section

variable {t : Transaction} {answer answer' : Option Error} {o : Surroundings σ}

theorem engineRollback_scripted (h : t.engine = .scripted answer answer')
    (srv : Postgres.Server σ) (o : Surroundings σ) :
    t.engineRollback srv o = (answer', t, { o with calls := o.calls ++ [.rollback] }) := by
  simp [engineRollback, h]

theorem engineCommit_scripted (h : t.engine = .scripted answer answer')
    (srv : Postgres.Server σ) (parent : Store) (o : Surroundings σ) :
    t.engineCommit srv parent o = (answer, parent, { o with calls := o.calls ++ [.commit] }) := by
  simp [engineCommit, h]

theorem calls_commit (hengine : t.engine = .scripted answer answer') (h : t.finished = false)
    (srv : Postgres.Server σ) (parent : Store) (o : Surroundings σ) :
    (t.commit srv parent o).2.2.2.calls = o.calls ++ if t.failure.isSome then [.rollback]
      else if answer.isSome then [.commit, .rollback] else [.commit] := by
  have hended : t.ended.engine = .scripted answer answer' := hengine
  cases hfailure : t.failure with
  | some failure =>
    rw [commit_of_failure h hfailure, engineRollback_scripted hended]
    simp
  | none =>
    have hcommit := engineCommit_scripted hended srv parent o
    cases answer with
    | none =>
      rw [commit_of_accepted h hfailure hcommit]
      simp
    | some e =>
      rw [commit_of_refused h hfailure hcommit, engineRollback_scripted hended]
      simp

/-- A transaction that is finished does not turn to its engine any more. -/
theorem calls_enact_of_finished (h : t.finished = true) (srv : Postgres.Server σ)
    {d : Deed σ ρ} (hd : ∀ work, d = .send work → Quiet work) :
    (t.enact srv o d).2.2.calls = o.calls := by
  cases d with
  | send work => exact calls_send (hd work rfl) t o
  | commit parent => simp [enact, commit_of_finished h]
  | rollback => simp [enact, rollback_of_finished h]
  | cancel context => rfl

end

namespace Told

variable {t₀ t : Transaction} {evs : List (Event ρ)}

theorem any_isCommit (h : Told t₀ evs t) (hfinished : t.finished = false) :
    evs.any Event.isCommit = false := by
  rw [h.finished, List.any_eq_false] at hfinished
  rw [List.any_eq_false]
  intro ev hev
  have hfinishes := hfinished ev hev
  cases ev <;> simp_all [Event.isCommit, Event.finishes]

/-- The first commit, by what the transaction has kept until then. -/
theorem engineCalls_committed (h : Told t₀ evs t) (hfinished : t.finished = false)
    (answer e : Option Error) : engineCalls answer (evs ++ [.committed e])
      = if t.failure.isSome then [.rollback]
        else if answer.isSome then [.commit, .rollback] else [.commit] := by
  have hsettles : evs.any Event.settles = t.failure.isSome := by
    rw [any_settles, ← h.finished, hfinished, ← h.failure hfinished, Bool.false_or]
  cases hfailure : t.failure.isSome with
  | true =>
    rw [engineCalls_append (hsettles.trans hfailure),
      engineCalls_of_not_committed (h.any_isCommit hfinished), if_pos rfl]
  | false =>
    have hnone : evs.find? Event.settles = none := by
      simpa [hfailure] using hsettles
    simp [engineCalls, List.find?_append, hnone, Event.settles, Event.finishes, Event.isCommit]

theorem engineCalls_rolledBack (h : Told t₀ evs t) (hfinished : t.finished = false)
    (answer e : Option Error) : engineCalls answer (evs ++ [.rolledBack e]) = [.rollback] := by
  rw [engineCalls_of_not_committed]
  simp [h.any_isCommit hfinished, Event.isCommit]

end Told

/-- The calls to the engine so far, `calls` apart: all of them once the transaction is finished, and
none until then. -/
def Called (answer : Option Error) (calls : List EngineCall) (evs : List (Event ρ))
    (t : Transaction) (o : Surroundings σ) : Prop :=
  o.calls = calls ++ if t.finished then engineCalls answer evs else []

namespace Called

variable {t₀ t : Transaction} {evs : List (Event ρ)} {answer answer' : Option Error}
  {o : Surroundings σ} {calls : List EngineCall}

/-- Once the engine has got all its calls, no later event changes which these are. -/
theorem enact (h : Called answer calls evs t o) (htold : Told t₀ evs t)
    (hengine : t₀.engine = .scripted answer answer') (srv : Postgres.Server σ) {d : Deed σ ρ}
    (hd : ∀ work, d = .send work → Quiet work) :
    Called answer calls (evs ++ [(t.enact srv o d).1]) (t.enact srv o d).2.1
      (t.enact srv o d).2.2 := by
  have hengine : t.engine = .scripted answer answer' := htold.engine.trans hengine
  have hfinished' := (htold.enact srv o d).finished
  rw [List.any_append, ← htold.finished] at hfinished'
  unfold Called at h ⊢
  rw [hfinished']
  cases hfinished : t.finished with
  | true =>
    have hsettles : evs.any Event.settles = true := by
      rw [any_settles, ← htold.finished, hfinished, Bool.true_or]
    rw [hfinished, if_pos rfl] at h
    rw [Bool.true_or, if_pos rfl, engineCalls_append hsettles, ← h]
    exact calls_enact_of_finished hfinished srv hd
  | false =>
    rw [hfinished, if_neg Bool.false_ne_true, List.append_nil] at h
    rw [Bool.false_or, List.any_cons, List.any_nil, Bool.or_false, ← h]
    cases d with
    | send work => simpa [Transaction.enact, Event.finishes] using calls_send (hd work rfl) t o
    | commit parent =>
      refine (calls_commit hengine hfinished srv parent o).trans (congrArg (o.calls ++ ·) ?_)
      rw [← htold.engineCalls_committed hfinished answer (t.commit srv parent o).1]
      rfl
    | rollback =>
      simp only [Transaction.enact, rollback_of_unfinished hfinished, Event.finishes, if_true,
        engineRollback_scripted (t := t.ended) hengine, htold.engineCalls_rolledBack hfinished]
    | cancel context => simp [Transaction.enact, Event.finishes, Surroundings.cancel]

theorem live (h : Called answer calls evs t o) (htold : Told t₀ evs t)
    (hengine : t₀.engine = .scripted answer answer') (srv : Postgres.Server σ)
    {ds : List (Deed σ ρ)} (hds : ∀ work, .send work ∈ ds → Quiet work) :
    Called answer calls (evs ++ (live srv ds t o).1) (live srv ds t o).2.1
      (live srv ds t o).2.2 := by
  induction ds generalizing evs t o with
  | nil => simpa [Transaction.live] using h
  | cons d ds ih =>
    have hstep := h.enact htold hengine srv (d := d) fun work hwork => hds work (by simp [hwork])
    simpa [Transaction.live] using
      ih hstep (htold.enact srv o d) fun work hwork => hds work (List.mem_cons_of_mem _ hwork)

/-- The end of the transaction's life rolls back unless it is finished. -/
theorem drop (h : Called answer calls evs t o) (htold : Told t₀ evs t)
    (hengine : t₀.engine = .scripted answer answer') (srv : Postgres.Server σ) :
    (t.drop srv o).calls = calls ++ engineCalls answer evs := by
  have hengine : t.ended.engine = .scripted answer answer' := htold.engine.trans hengine
  unfold Called at h
  unfold Transaction.drop
  cases hfinished : t.finished with
  | true => simpa [hfinished] using h
  | false =>
    have hcalls : o.calls = calls := by
      simpa [hfinished] using h
    rw [engineCalls_of_not_committed (htold.any_isCommit hfinished), ← hcalls]
    have hrollback := engineRollback_scripted hengine srv o
    simp only [ended] at hrollback
    simp [hrollback]

end Called

/-! ### The whole life -/

/-- The whole life of a transaction, whatever its units and its engine answer and whichever contexts
are cancelled in its course. After any deeds, the next unit that is sent runs if and only if there was
no commit and no rollback, no unit failed or found the context cancelled, and it does not find it
cancelled itself. The next commit is told that the transaction is finished, or else of the first such
failure, or else it is answered as the engine answers. A rollback that is not the first to finish the
transaction changes nothing. Over the whole life, its end included, the engine is called as
`engineCalls` says: to commit, to commit and, as that failed, to roll back, or to roll back. -/
theorem life_cycle (srv : Postgres.Server σ) (context : String) (scope : Store) (engine : Engine)
    (o : Surroundings σ) (ds : List (Deed σ ρ)) : ∃ evs t o',
    live srv ds { context := context, scope := scope, engine := engine } o = (evs, t, o')
      ∧ (∀ work : Action σ ρ, (t.send work o').1.isSome = true ↔ evs.any Event.finishes = false
        ∧ evs.findSome? Event.failure? = none ∧ o'.isCancelled context = false)
      ∧ (∀ parent, (t.commit srv parent o').1
        = if evs.any Event.finishes then some alreadyFinished
          else match evs.findSome? Event.failure? with
            | some failure => some (failure.wrap "transaction rolled back")
            | none => (t.ended.engineCommit srv parent o').1.map fun e =>
              ⟨.transactionFailed, "commit: " ++ e.message⟩)
      ∧ (evs.any Event.finishes = true → t.rollback srv o' = (none, t, o'))
      ∧ ∀ answer answer', engine = .scripted answer answer' →
        (∀ work, .send work ∈ ds → Quiet work) →
        (t.drop srv o').calls = o.calls ++ engineCalls answer evs := by
  let t₀ : Transaction := { context := context, scope := scope, engine := engine }
  have hstart : Told t₀ ([] : List (Event ρ)) t₀ := .start rfl rfl
  have htold := hstart.live srv o ds
  refine ⟨_, _, _, rfl, fun work => htold.runs_iff work _, fun parent => htold.commit srv parent _,
    fun hfinished => rollback_of_finished (htold.finished.trans hfinished), ?_⟩
  intro answer answer' hengine hds
  have hcalled : Called answer o.calls ([] : List (Event ρ)) t₀ o := by
    simp [Called, t₀]
  exact (hcalled.live hstart hengine srv hds).drop htold hengine srv

/-- A unit runs, and then the engine refuses to commit: the transaction is rolled back at once, and
never again. -/
theorem life_cycle_refused :
    let unit : Work := .calls [.upsert { table := "a", data := [1] }]
    let ds : List (Deed Postgres.Script (List Outcome)) :=
      [.send (unit.act Postgres.Script.server), .commit (.memory {}), .cancel "ctx", .rollback]
    ∃ evs t o', live Postgres.Script.server ds
        { context := "ctx", scope := .memory {}, engine := .scripted (some Memory.closedError) none }
        { server := {} } = (evs, t, o')
      ∧ (t.commit Postgres.Script.server (.memory {}) o').1 = some alreadyFinished
      ∧ t.rollback Postgres.Script.server o' = (none, t, o')
      ∧ (t.drop Postgres.Script.server o').calls = [.commit, .rollback] := by
  intro unit ds
  obtain ⟨evs, t, o', hlive, -, hcommit, hrollback, hcalls⟩ := life_cycle Postgres.Script.server
    "ctx" (.memory {}) (.scripted (some Memory.closedError) none) { server := {} } ds
  have hevs : evs = [.sent false (some ([.called (.upsert { table := "a", data := [1] }) (.count 1)],
      none)), .committed (some ⟨.transactionFailed, "commit: memory storage is closed"⟩),
      .cancelled, .rolledBack none] :=
    (congrArg Prod.fst hlive).symm
  have hquiet : ∀ work, .send work ∈ ds → Quiet work := by
    simpa [ds] using unit.quiet_act Postgres.Script.server
  refine ⟨evs, t, o', hlive, ?_, hrollback (by rw [hevs]; rfl), ?_⟩
  · rw [hcommit, hevs]
    rfl
  · rw [hcalls _ _ rfl hquiet, hevs]
    rfl

end Transaction

end Ingest.Store

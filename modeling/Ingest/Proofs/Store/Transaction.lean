import Mathlib
import Ingest.Store.Transaction

/-!
# What ends a transaction

A commit by the state that it finds: the transaction is finished, a unit has failed, or else the
engine answers.
-/

namespace Ingest.Store.Transaction

variable {σ : Type} {srv : Postgres.Server σ} {t : Transaction} {parent parent' : Store}
  {o o' : Surroundings σ}

/-- The transaction from its first commit or rollback on. -/
def ended (t : Transaction) : Transaction :=
  { t with finished := true }

theorem commit_of_finished (h : t.finished = true) :
    t.commit srv parent o = (some alreadyFinished, parent, t, o) := by
  simp [commit, h]

theorem commit_of_failure (h : t.finished = false) {failure : Error}
    (hfailure : t.failure = some failure) : t.commit srv parent o
      = let (e, t', o') := t.ended.engineRollback srv o
        (some (failure.wrap "transaction rolled back"), parent, t',
          o'.warnOf "rollback after failed unit" e) := by
  simp [commit, h, hfailure, ended]

theorem commit_of_accepted (h : t.finished = false) (hfailure : t.failure = none)
    (hcommit : t.ended.engineCommit srv parent o = (none, parent', o')) :
    t.commit srv parent o = (none, parent', t.ended, o') := by
  simp only [ended, hfailure] at hcommit
  simp [commit, h, hfailure, hcommit, ended]

theorem commit_of_refused (h : t.finished = false) (hfailure : t.failure = none) {e : Error}
    (hcommit : t.ended.engineCommit srv parent o = (some e, parent', o')) :
    t.commit srv parent o
      = let (e', t', o'') := t.ended.engineRollback srv o'
        (some ⟨.transactionFailed, "commit: " ++ e.message⟩, parent', t',
          o''.warnOf "rollback after failed commit" e') := by
  simp only [ended, hfailure] at hcommit
  simp [commit, h, hfailure, hcommit, ended]

theorem engineRollback_transaction (srv : Postgres.Server σ) (t : Transaction)
    (o : Surroundings σ) : ∃ s, (t.engineRollback srv o).2.1 = { t with scope := s } := by
  obtain ⟨context, scope, engine, failure, finished⟩ := t
  cases engine with
  | scripted commit rollback => exact ⟨scope, rfl⟩
  | scope => cases scope <;> exact ⟨_, rfl⟩

theorem rollback_of_finished (h : t.finished = true) : t.rollback srv o = (none, t, o) := by
  simp [rollback, h]

theorem rollback_of_unfinished (h : t.finished = false) :
    t.rollback srv o = t.ended.engineRollback srv o := by
  simp [rollback, h, ended]

/-- What is true of each way that a commit ends is true of the commit. -/
@[elab_as_elim]
theorem commit_cases {motive : Option Error × Store × Transaction × Surroundings σ → Prop}
    (srv : Postgres.Server σ) (t : Transaction) (parent : Store) (o : Surroundings σ)
    (finished : t.finished = true → motive (some alreadyFinished, parent, t, o))
    (failed : t.finished = false → ∀ failure, t.failure = some failure →
      motive (some (failure.wrap "transaction rolled back"), parent,
        (t.ended.engineRollback srv o).2.1, (t.ended.engineRollback srv o).2.2.warnOf
          "rollback after failed unit" (t.ended.engineRollback srv o).1))
    (accepted : t.finished = false → t.failure = none → ∀ parent' o',
      t.ended.engineCommit srv parent o = (none, parent', o') →
      motive (none, parent', t.ended, o'))
    (refused : t.finished = false → t.failure = none → ∀ e parent' o',
      t.ended.engineCommit srv parent o = (some e, parent', o') →
      motive (some ⟨.transactionFailed, "commit: " ++ e.message⟩, parent',
        (t.ended.engineRollback srv o').2.1, (t.ended.engineRollback srv o').2.2.warnOf
          "rollback after failed commit" (t.ended.engineRollback srv o').1)) :
    motive (t.commit srv parent o) := by
  cases hfinished : t.finished with
  | true =>
    rw [commit_of_finished hfinished]
    exact finished hfinished
  | false =>
    cases hfailure : t.failure with
    | some failure =>
      rw [commit_of_failure hfinished hfailure]
      exact failed hfinished failure hfailure
    | none =>
      rcases hcommit : t.ended.engineCommit srv parent o with ⟨_ | e, parent', o'⟩
      · rw [commit_of_accepted hfinished hfailure hcommit]
        exact accepted hfinished hfailure parent' o' hcommit
      · rw [commit_of_refused hfinished hfailure hcommit]
        exact refused hfinished hfailure e parent' o' hcommit

/-- A commit that is the first to end the transaction. -/
theorem commit_transaction (h : t.finished = false) (srv : Postgres.Server σ) (parent : Store)
    (o : Surroundings σ) : ∃ s, (t.commit srv parent o).2.2.1 = { t.ended with scope := s } := by
  refine t.commit_cases srv parent o (fun hfinished => ?_) (fun _ failure _ => ?_)
    (fun _ _ parent' o' _ => ⟨t.scope, rfl⟩) fun _ _ e parent' o' _ => ?_
  · exact absurd hfinished (by simp [h])
  · exact engineRollback_transaction srv t.ended o
  · exact engineRollback_transaction srv t.ended o'

end Ingest.Store.Transaction

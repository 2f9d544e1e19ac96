import Ingest.Proofs.Store.Moments
import Ingest.Proofs.Store.Transaction

/-!
# Units of work are quiet

A transaction that is begun on a storage commits and rolls back as the storage does. So whatever a
unit of work does with its scope, at any depth, it leaves alone what the engines that answer from a
script were called (`Work.quiet_act`).
-/

namespace Ingest.Store

variable {σ ρ : Type}

@[simp] theorem Surroundings.calls_warnOf (o : Surroundings σ) (occasion : String)
    (e : Option Error) : (o.warnOf occasion e).calls = o.calls := by
  cases e <;> rfl

namespace Transaction

variable {t : Transaction}

/-- The unit leaves alone what the engines that answer from a script were called. -/
def Quiet (work : Action σ ρ) : Prop :=
  ∀ context scope o, (work context scope o).2.2.2.calls = o.calls

theorem calls_send {work : Action σ ρ} (hwork : Quiet work) (t : Transaction)
    (o : Surroundings σ) : (t.send work o).2.2.calls = o.calls := by
  unfold send
  split_ifs
  · rfl
  · rfl
  · rfl
  · exact hwork t.context t.scope o

theorem calls_engineRollback (h : t.engine = .scope) (srv : Postgres.Server σ)
    (o : Surroundings σ) : (t.engineRollback srv o).2.2.calls = o.calls := by
  unfold engineRollback
  rw [h]
  cases t.scope <;> rfl

theorem calls_engineCommit (h : t.engine = .scope) (srv : Postgres.Server σ) (parent : Store)
    (o : Surroundings σ) : (t.engineCommit srv parent o).2.2.calls = o.calls := by
  unfold engineCommit
  rw [h]
  cases t.scope <;> cases parent <;> rfl

theorem commit_of_scope (h : t.engine = .scope) (srv : Postgres.Server σ) (parent : Store)
    (o : Surroundings σ) : (t.commit srv parent o).2.2.1.engine = .scope
      ∧ (t.commit srv parent o).2.2.2.calls = o.calls := by
  have hended : t.ended.engine = .scope := h
  have hengine : ∀ o', (t.ended.engineRollback srv o').2.1.engine = .scope := by
    intro o'
    obtain ⟨s, hs⟩ := engineRollback_transaction srv t.ended o'
    rw [hs]
    exact h
  have hrollback := calls_engineRollback hended srv
  have hcalls := calls_engineCommit hended srv parent o
  refine t.commit_cases srv parent o (fun _ => ⟨h, rfl⟩)
    (fun _ failure _ => ⟨hengine o, by simp [hrollback]⟩) (fun _ _ parent' o' hcommit => ?_)
    fun _ _ e parent' o' hcommit => ?_ <;> rw [hcommit] at hcalls
  · exact ⟨h, hcalls⟩
  · exact ⟨hengine o', by simpa [hrollback] using hcalls⟩

theorem rollback_of_scope (h : t.engine = .scope) (srv : Postgres.Server σ)
    (o : Surroundings σ) : (t.rollback srv o).2.1.engine = .scope
      ∧ (t.rollback srv o).2.2.calls = o.calls := by
  have hended : t.ended.engine = .scope := h
  cases hfinished : t.finished with
  | true => simp [rollback_of_finished hfinished, h]
  | false =>
    rw [rollback_of_unfinished hfinished]
    obtain ⟨s, hs⟩ := engineRollback_transaction srv t.ended o
    exact ⟨by rw [hs]; exact h, calls_engineRollback hended srv o⟩

theorem drop_of_scope (h : t.engine = .scope) (srv : Postgres.Server σ) (o : Surroundings σ) :
    (t.drop srv o).calls = o.calls := by
  have hended : t.ended.engine = .scope := h
  have hrollback := calls_engineRollback hended srv o
  simp only [ended] at hrollback
  unfold drop
  cases hfinished : t.finished <;> simp [hrollback]

theorem engine_send (work : Action σ ρ) (t : Transaction) (o : Surroundings σ) :
    (t.send work o).2.1.engine = t.engine := by
  unfold send
  split_ifs <;> rfl

end Transaction

theorem quiet_begin (srv : Postgres.Server σ) (context : String) (s : Store)
    (o : Surroundings σ) : (s.begin srv context o).2.calls = o.calls
      ∧ ∀ t, (s.begin srv context o).1 = .ok t → t.engine = .scope := by
  have hok : ∀ t t' : Transaction, t.engine = .scope →
      (Except.ok t : Except Error Transaction) = .ok t' → t'.engine = .scope := by
    intro t t' ht h
    obtain rfl := Except.ok.inj h
    exact ht
  unfold begin
  split_ifs
  · simp
  · cases s with
    | memory m =>
      simp only
      split_ifs
      · simp
      · exact ⟨rfl, fun t => hok _ t rfl⟩
    | postgres p =>
      simp only
      split
      · simp
      · split
        · simp
        · exact ⟨rfl, fun t => hok _ t rfl⟩

namespace Desk

/-- No transaction at the desk has an engine that answers from a script, and none has been called
since there were `calls`. -/
structure Quiet (calls : List EngineCall) (d : Desk σ) : Prop where
  calls : d.around.calls = calls
  engines : ∀ e ∈ d.transactions.entries, e.2.engine = .scope

namespace Quiet

variable {calls : List EngineCall} {d : Desk σ}

theorem set (h : Quiet calls d) (name : String) {t : Transaction} (ht : t.engine = .scope)
    (s : Store) {o : Surroundings σ} (ho : o.calls = calls) :
    Quiet calls { store := s, transactions := d.transactions.set name t, around := o } :=
  ⟨ho, Catalog.forall_mem_insert ht h.engines⟩

theorem get? (h : Quiet calls d) {name : String} {t : Transaction}
    (ht : d.transactions.get? name = some t) : t.engine = .scope :=
  h.engines _ (Catalog.mem_of_get? ht)

theorem step (h : Quiet calls d) (srv : Postgres.Server σ) (context : String) (a : Step) :
    Quiet calls (d.step srv context a).2 := by
  obtain ⟨hcalls, hengine⟩ := quiet_begin srv context d.store d.around
  refine d.step_cases srv context a ?call ?cancel ?notBegun ?begun ?absent ?commit ?rollback ?drop
  case call | cancel | absent =>
    intros
    exact ⟨h.calls, h.engines⟩
  case notBegun =>
    rintro name - e o hbegin
    rw [hbegin] at hcalls
    exact ⟨hcalls.trans h.calls, h.engines⟩
  case begun =>
    rintro name - t o hbegin
    rw [hbegin] at hcalls hengine
    refine h.set name (hengine t rfl) d.store ?_
    rcases hbefore : d.transactions.get? name with _ | before <;> simp only
    · exact hcalls.trans h.calls
    · exact (Transaction.drop_of_scope (h.get? hbefore) srv o).trans (hcalls.trans h.calls)
  case commit =>
    rintro name - t ht
    obtain ⟨hengine, hcalls⟩ := Transaction.commit_of_scope (h.get? ht) srv d.store d.around
    exact h.set name hengine _ (hcalls.trans h.calls)
  case rollback =>
    rintro name - t ht
    obtain ⟨hengine, hcalls⟩ := Transaction.rollback_of_scope (h.get? ht) srv d.around
    exact h.set name hengine _ (hcalls.trans h.calls)
  case drop =>
    rintro name - t ht
    exact ⟨(Transaction.drop_of_scope (h.get? ht) srv d.around).trans h.calls,
      fun e he => h.engines e (List.mem_of_mem_filter he)⟩

theorem send (h : Quiet calls d) {work : Transaction.Action σ (List Outcome)}
    (hwork : Transaction.Quiet work) (name : String) : Quiet calls (d.send work name).2 := by
  rcases ht : d.transactions.get? name with _ | t <;> simp only [Desk.send, ht]
  · exact h
  · have hcalls := Transaction.calls_send hwork t d.around
    have hengine := t.engine_send work d.around
    rcases hanswer : t.send work d.around with ⟨_ | ⟨rs, e⟩, t', o⟩ <;>
      rw [hanswer] at hcalls hengine <;>
      exact h.set name (hengine.trans (h.get? ht)) d.store (hcalls.trans h.calls)

theorem dropAll (h : Quiet calls d) (srv : Postgres.Server σ) :
    (d.dropAll srv).around.calls = calls := by
  obtain ⟨hcalls, hengines⟩ := h
  show (d.transactions.entries.foldr (fun e o => e.2.drop srv o) d.around).calls = calls
  generalize d.transactions.entries = entries at hengines
  induction entries with
  | nil => exact hcalls
  | cons e es ih =>
    rw [List.foldr_cons, Transaction.drop_of_scope (hengines e List.mem_cons_self)]
    exact ih fun e he => hengines e (List.mem_cons_of_mem _ he)

end Quiet

theorem quiet_apart {work : String → Desk σ → List Outcome × Option Error × Desk σ}
    (hwork : ∀ context calls d, Quiet calls d → Quiet calls (work context d).2.2)
    (srv : Postgres.Server σ) : Transaction.Quiet (apart srv work) :=
  fun context scope o =>
    (hwork context o.calls { store := scope, around := o } ⟨rfl, by simp⟩).dropAll srv

end Desk

theorem Work.quiet_run (srv : Postgres.Server σ) (unit : Work) (context : String)
    {calls : List EngineCall} {d : Desk σ} (h : d.Quiet calls) :
    (unit.run srv context d).2.2.Quiet calls := by
  induction unit generalizing context calls d with
  | done e => exact h
  | step a next ih => exact ih _ context (h.step srv context a)
  | send name unit next ihunit ih =>
    have hunit := Desk.quiet_apart (fun context calls d hd => ihunit context hd) srv
    exact ih _ context (h.send hunit name)

theorem Work.quiet_act (srv : Postgres.Server σ) (unit : Work) :
    Transaction.Quiet (unit.act srv) :=
  Desk.quiet_apart (fun context _ _ h => unit.quiet_run srv context h) srv

end Ingest.Store

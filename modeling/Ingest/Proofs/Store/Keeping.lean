import Ingest.Proofs.Store.Ledger
import Ingest.Proofs.Store.Moments
import Ingest.Proofs.Store.Transaction

/-!
# What calls of a kind keep

A unit of work reaches a storage in memory through its scope alone, by calls and by the commits of
transactions on the scope. So what calls of a kind keep, and merging a scope keeps too, is kept by
whatever is done with such calls, at any depth (`Desk.Fits.run`), and by all commands to a session
(`Session.Fits.obeyAll`).
-/

namespace Ingest.Store

/-- If the step is a call, it is of a kind. -/
def Step.Only (C : Call → Prop) : Step → Prop
  | .call c => C c
  | .cancel | .begin _ | .commit _ | .rollback _ | .drop _ => True

/-- Whatever the outcomes of its steps, all calls of the unit are of a kind. -/
def Work.Only (C : Call → Prop) : Work → Prop
  | .done _ => True
  | .step a next => a.Only C ∧ ∀ r, (next r).Only C
  | .send _ unit next => unit.Only C ∧ ∀ r, (next r).Only C

@[simp] theorem Work.only_calls {C : Call → Prop} {cs : List Call} :
    (Work.calls cs).Only C ↔ ∀ c ∈ cs, C c := by
  induction cs with
  | nil => simp [calls, Only]
  | cons c cs ih =>
    rw [List.forall_mem_cons, ← ih]
    refine and_congr_right fun _ => ⟨fun h => h .nothing, fun h r => ?_⟩
    simp only
    split
    exacts [trivial, h]

/-- The command works with the storage that is there and the transactions on it, and all its calls
are of a kind. -/
def Command.Only (C : Call → Prop) : Command → Prop
  | .step _ a => a.Only C
  | .send _ unit => unit.Only C
  | .openAt _ | .unconnected _ | .connect | .beginScripted .. | .dropAll => False

/-- Calls of a kind keep `P`, and so does merging a scope with `Q`. -/
structure Memory.Keeps (C : Call → Prop) (P Q : Memory → Prop) : Prop where
  perform : ∀ m cancelled c, C c → P m → P (m.perform cancelled c).2
  merge : ∀ m staged, P m → Q staged → P (m.merge staged)

/-- Scopes have `Q` from beginning to end, those of transactions on scopes included. -/
structure Memory.KeepsScopes (C : Call → Prop) (Q : Memory → Prop) : Prop
    extends Memory.Keeps C Q Q where
  stage : ∀ m : Memory, Q m.stage
  discard : ∀ m : Memory, Q m → Q m.discard

theorem Memory.keepsScopes_sorted : Memory.KeepsScopes (fun _ => True) fun m => m.tables.Sorted where
  perform _ cancelled c _ h := sorted_perform h cancelled c
  merge _ _ h _ := h.foldl_append _
  stage _ := Catalog.sorted_empty
  discard _ _ := Catalog.sorted_empty

/-- A storage in memory with `P`. -/
def Fits (P : Memory → Prop) (s : Store) : Prop :=
  ∃ m, s = .memory m ∧ P m

variable {σ ρ : Type} {C : Call → Prop} {P Q : Memory → Prop}

namespace Transaction

variable {t : Transaction} {parent : Store}

theorem fits_send (ht : t.scope.Fits Q) {work : Action σ ρ}
    (hwork : ∀ context s o, s.Fits Q → (work context s o).2.2.1.Fits Q) (o : Surroundings σ) :
    (t.send work o).2.1.scope.Fits Q := by
  unfold send
  split_ifs
  · exact ht
  · exact ht
  · exact ht
  · exact hwork t.context t.scope o ht

theorem fits_engineRollback (hQ : Memory.KeepsScopes C Q) (ht : t.scope.Fits Q)
    (srv : Postgres.Server σ) (o : Surroundings σ) :
    (t.engineRollback srv o).2.1.scope.Fits Q := by
  unfold engineRollback
  cases t.engine with
  | scripted commit rollback => exact ht
  | scope =>
    obtain ⟨s, hs, hq⟩ := ht
    simp only [hs]
    exact ⟨_, rfl, hQ.discard s hq⟩

theorem fits_engineCommit (hP : Memory.Keeps C P Q) (hparent : parent.Fits P)
    (ht : t.scope.Fits Q) (srv : Postgres.Server σ) (o : Surroundings σ) :
    (t.engineCommit srv parent o).2.1.Fits P := by
  unfold engineCommit
  cases t.engine with
  | scripted commit rollback => exact hparent
  | scope =>
    obtain ⟨m, rfl, hm⟩ := hparent
    obtain ⟨s, hs, hq⟩ := ht
    simp only [hs]
    exact ⟨_, rfl, hP.merge m s hm hq⟩

theorem fits_commit (hP : Memory.Keeps C P Q) (hQ : Memory.KeepsScopes C Q)
    (hparent : parent.Fits P) (ht : t.scope.Fits Q) (srv : Postgres.Server σ)
    (o : Surroundings σ) :
    (t.commit srv parent o).2.1.Fits P ∧ (t.commit srv parent o).2.2.1.scope.Fits Q := by
  have hmerged := fits_engineCommit hP hparent (t := t.ended) ht srv o
  have hrollback := fits_engineRollback hQ (t := t.ended) ht srv
  refine t.commit_cases srv parent o (fun _ => ⟨hparent, ht⟩)
    (fun _ failure _ => ⟨hparent, hrollback o⟩) (fun _ _ parent' o' hcommit => ?_)
    fun _ _ e parent' o' hcommit => ?_ <;> rw [hcommit] at hmerged
  · exact ⟨hmerged, ht⟩
  · exact ⟨hmerged, hrollback o'⟩

theorem fits_rollback (hQ : Memory.KeepsScopes C Q) (ht : t.scope.Fits Q)
    (srv : Postgres.Server σ) (o : Surroundings σ) : (t.rollback srv o).2.1.scope.Fits Q := by
  cases hfinished : t.finished with
  | true =>
    rw [rollback_of_finished hfinished]
    exact ht
  | false =>
    rw [rollback_of_unfinished hfinished]
    exact fits_engineRollback hQ (t := t.ended) ht srv o

end Transaction

theorem fits_begin (hQ : Memory.KeepsScopes C Q) {s : Store} (hs : s.Fits P)
    {srv : Postgres.Server σ} {context : String} {o o' : Surroundings σ} {t : Transaction}
    (h : s.begin srv context o = (.ok t, o')) : t.scope.Fits Q := by
  obtain ⟨m, rfl, -⟩ := hs
  simp only [begin] at h
  split_ifs at h <;> obtain ⟨ht, -⟩ := Prod.mk.inj h <;> cases ht
  exact ⟨_, rfl, hQ.stage m⟩

/-! ### At a desk -/

/-- A desk over a storage in memory with `P`, on which the scopes of transactions have `Q`. -/
structure Desk.Fits (P Q : Memory → Prop) (d : Desk σ) : Prop where
  store : d.store.Fits P
  scopes : ∀ name, ∀ t ∈ d.transactions.get? name, t.scope.Fits Q

namespace Desk.Fits

variable {d : Desk σ}

theorem set (h : Fits P Q d) (name : String) {t : Transaction} (ht : t.scope.Fits Q) {s : Store}
    (hs : s.Fits P) (o : Surroundings σ) :
    Fits P Q { store := s, transactions := d.transactions.set name t, around := o } :=
  ⟨hs, Catalog.forall_get?_set h.scopes ht⟩

theorem step (hP : Memory.Keeps C P Q) (hQ : Memory.KeepsScopes C Q) (h : Fits P Q d)
    (srv : Postgres.Server σ) (context : String) {a : Step} (ha : a.Only C) :
    Fits P Q (d.step srv context a).2 := by
  refine d.step_cases srv context a ?call ?cancel ?notBegun ?begun ?absent ?commit ?rollback ?drop
  case call =>
    rintro c rfl
    obtain ⟨m, hm, hp⟩ := h.store
    simp only [hm, Store.perform]
    exact ⟨⟨_, rfl, hP.perform m _ c ha hp⟩, h.scopes⟩
  case begun =>
    rintro name - t o hbegin
    exact h.set name (fits_begin hQ h.store hbegin) h.store _
  case commit =>
    rintro name - t ht
    obtain ⟨hs, ht'⟩ := t.fits_commit hP hQ h.store (h.scopes name t ht) srv d.around
    exact h.set name ht' hs _
  case rollback =>
    rintro name - t ht
    exact h.set name (t.fits_rollback hQ (h.scopes name t ht) srv d.around) h.store _
  case drop =>
    rintro name - t -
    exact ⟨h.store, Catalog.forall_get?_erase h.scopes name⟩
  case cancel | notBegun | absent =>
    intros
    exact ⟨h.store, h.scopes⟩

theorem send (h : Fits P Q d) {work : Transaction.Action σ (List Outcome)}
    (hwork : ∀ context s o, s.Fits Q → (work context s o).2.2.1.Fits Q) (name : String) :
    Fits P Q (d.send work name).2 := by
  rcases ht : d.transactions.get? name with _ | t <;> simp only [Desk.send, ht]
  · exact h
  · have hsend := t.fits_send (h.scopes name t ht) hwork d.around
    rcases hanswer : t.send work d.around with ⟨_ | ⟨rs, e⟩, t', o⟩ <;> rw [hanswer] at hsend <;>
      exact h.set name hsend h.store o

theorem apart {work : String → Desk σ → List Outcome × Option Error × Desk σ}
    (hwork : ∀ context d, Fits Q Q d → Fits Q Q (work context d).2.2) (srv : Postgres.Server σ)
    (context : String) {s : Store} (o : Surroundings σ) (hs : s.Fits Q) :
    (Desk.apart srv work context s o).2.2.1.Fits Q :=
  (hwork context { store := s, around := o } ⟨hs, by simp⟩).store

theorem run (hP : Memory.Keeps C P Q) (hQ : Memory.KeepsScopes C Q) (srv : Postgres.Server σ)
    {unit : Work} (hunit : unit.Only C) (context : String) (h : Fits P Q d) :
    Fits P Q (unit.run srv context d).2.2 := by
  induction unit generalizing context P d with
  | done e => exact h
  | step a next ih => exact ih _ hP (hunit.2 _) context (h.step hP hQ srv context hunit.1)
  | send name unit next ihunit ih =>
    have hwork := fun context s o =>
      apart (fun context d => ihunit hQ.toKeeps hunit.1 context) srv context (s := s) o
    exact ih _ hP (hunit.2 _) context (h.send hwork name)

end Desk.Fits

/-! ### In a session -/

namespace Session

/-- There is a storage in memory with `P`, and the scopes of the transactions have `Q`. -/
def Fits (P Q : Memory → Prop) (n : Session σ) : Prop :=
  n.store.isSome = true ∧ n.desk.Fits P Q

namespace Fits

variable {n : Session σ}

theorem store (h : Fits P Q n) : ∃ m, n.store = some (.memory m) ∧ P m := by
  obtain ⟨m, hm, hp⟩ := h.2.store
  exact ⟨m, (store_eq_desk h.1).trans (congrArg some hm), hp⟩

theorem start (P Q : Memory → Prop) {m : Memory} (hm : P m) (o : Surroundings σ) :
    Fits P Q ({ store := some (.memory m), around := o } : Session σ) :=
  ⟨rfl, ⟨m, rfl, hm⟩, by simp [desk]⟩

theorem obey (hP : Memory.Keeps C P Q) (hQ : Memory.KeepsScopes C Q) (h : Fits P Q n)
    (srv : Postgres.Server σ) {c : Command} (hc : c.Only C) : Fits P Q (n.obey srv c).2 := by
  have hdesk : ∀ d : Desk σ, d.Fits P Q → Fits P Q (n.withDesk d) := fun d hd => by
    refine ⟨(isSome_withDesk n d).trans h.1, ?_⟩
    rw [desk_withDesk h.1]
    exact hd
  cases c with
  | step context a =>
    rw [obey_step h.1]
    exact hdesk _ (h.2.step hP hQ srv context hc)
  | send name unit =>
    have hwork := fun context s o =>
      Desk.Fits.apart (fun context d => Desk.Fits.run hQ.toKeeps hQ srv hc context) srv context
        (s := s) o
    exact hdesk _ (h.2.send hwork name)
  | _ => cases hc

theorem obeyAll (hP : Memory.Keeps C P Q) (hQ : Memory.KeepsScopes C Q) (h : Fits P Q n)
    (srv : Postgres.Server σ) {cs : List Command} (hcs : ∀ c ∈ cs, c.Only C) :
    Fits P Q (Session.obeyAll srv cs n).2 := by
  induction cs generalizing n with
  | nil => exact h
  | cons c cs ih =>
    exact ih (h.obey hP hQ srv (hcs c List.mem_cons_self))
      fun c hc => hcs c (List.mem_cons_of_mem _ hc)

end Fits

end Session

end Ingest.Store

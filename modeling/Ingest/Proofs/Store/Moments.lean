import Ingest.Proofs.Catalog
import Ingest.Store.Session

/-!
# What happens in the course of commands

A step at a desk ends in one of a few ways (`Desk.step_cases`). A unit of work makes steps of its
own, and so do the units that it sends to transactions on its scope: `Work.moments` has them all, at
any depth and in their order, each with what lies around it before and after. Storages that share
their surroundings are driven by turns (`Sessions`).
-/

namespace Ingest.Store

variable {σ ρ : Type}

namespace Transaction

/-- Whether a unit that is sent now runs. -/
def runs (t : Transaction) (o : Surroundings σ) : Bool :=
  !t.finished && t.failure.isNone && !o.isCancelled t.context

variable {t : Transaction} {o : Surroundings σ}

theorem unfinished_of_runs (h : t.runs o = true) : t.finished = false := by
  simp only [runs, Bool.and_eq_true, Bool.not_eq_true'] at h
  exact h.1.1

theorem send_of_runs (h : t.runs o = true) (work : Action σ ρ) : t.send work o
    = let (answer, e, scope, o') := work t.context t.scope o
      (some (answer, e), { t with scope := scope, failure := e.map unitFailure }, o') := by
  simp only [runs, Bool.and_eq_true, Bool.not_eq_true', Option.isNone_iff_eq_none] at h
  obtain ⟨⟨hfinished, hfailure⟩, hlive⟩ := h
  simp [send, hfinished, hfailure, hlive]

theorem send_of_not_runs (h : t.runs o = false) (work : Action σ ρ) :
    ∃ failure o', t.send work o = (none, { t with failure := failure }, o')
      ∧ o'.server = o.server := by
  unfold send
  split_ifs with hfinished hfailed hcancelled
  · exact ⟨t.failure, _, rfl, rfl⟩
  · exact ⟨t.failure, _, rfl, rfl⟩
  · exact ⟨_, _, rfl, rfl⟩
  · simp_all [runs]

end Transaction

/-! ### What can be done at a desk -/

namespace Desk

@[elab_as_elim]
theorem step_cases {motive : Outcome × Desk σ → Prop} (srv : Postgres.Server σ) (context : String)
    (d : Desk σ) (a : Step)
    (call : ∀ c, a = .call c →
      let r := d.store.perform srv (d.around.isCancelled context) c d.around.server
      motive (.called c r.1, { d with store := r.2.1, around := { d.around with server := r.2.2 } }))
    (cancel : a = .cancel → motive (.cancelled, { d with around := d.around.cancel context }))
    (notBegun : ∀ name, a = .begin name → ∀ e o,
      d.store.begin srv context d.around = (.error e, o) →
      motive (.began name (some e), { d with around := o }))
    (begun : ∀ name, a = .begin name → ∀ t o, d.store.begin srv context d.around = (.ok t, o) →
      motive (.began name none, ({ d with around := o } : Desk σ).keep srv name t))
    (absent : ∀ name, a = .commit name ∨ a = .rollback name ∨ a = .drop name →
      d.transactions.get? name = none → motive (.nothing, d))
    (commit : ∀ name, a = .commit name → ∀ t, d.transactions.get? name = some t →
      let r := t.commit srv d.store d.around
      motive (.committed name r.1,
        { store := r.2.1, transactions := d.transactions.set name r.2.2.1, around := r.2.2.2 }))
    (rollback : ∀ name, a = .rollback name → ∀ t, d.transactions.get? name = some t →
      let r := t.rollback srv d.around
      motive (.rolledBack name r.1,
        { d with transactions := d.transactions.set name r.2.1, around := r.2.2 }))
    (drop : ∀ name, a = .drop name → ∀ t, d.transactions.get? name = some t →
      motive (.dropped name,
        { d with transactions := d.transactions.erase name, around := t.drop srv d.around })) :
    motive (d.step srv context a) := by
  cases a with
  | call c => exact call c rfl
  | cancel => exact cancel rfl
  | begin name =>
    rcases hbegin : d.store.begin srv context d.around with ⟨e | t, o⟩ <;>
      simp only [Desk.step, hbegin]
    · exact notBegun name rfl e o hbegin
    · exact begun name rfl t o hbegin
  | commit name =>
    rcases ht : d.transactions.get? name with _ | t <;> simp only [Desk.step, ht]
    · exact absent name (.inl rfl) ht
    · exact commit name rfl t ht
  | rollback name =>
    rcases ht : d.transactions.get? name with _ | t <;> simp only [Desk.step, ht]
    · exact absent name (.inr (.inl rfl)) ht
    · exact rollback name rfl t ht
  | drop name =>
    rcases ht : d.transactions.get? name with _ | t <;> simp only [Desk.step, ht]
    · exact absent name (.inr (.inr rfl)) ht
    · exact drop name rfl t ht

end Desk

/-! ### Moments -/

/-- A step of whoever works with a storage, and the server before and after it. -/
structure Moment (σ : Type) where
  /-- The scope, as the unit found it whose step it is; none outside of units. -/
  unit : Option Store
  step : Step
  before : σ
  after : σ

/-- The moments of a unit that is sent to the transaction of a name, if it runs. -/
def Desk.unitMoments (moments : Store → String → Desk σ → List (Moment σ)) (name : String)
    (d : Desk σ) : List (Moment σ) :=
  match d.transactions.get? name with
  | some t =>
    if t.runs d.around then moments t.scope t.context { store := t.scope, around := d.around }
    else []
  | none => []

def Work.moments (srv : Postgres.Server σ) :
    Work → Option Store → String → Desk σ → List (Moment σ)
  | done _, _, _, _ => []
  | step a next, unit, context, d =>
    let (r, d') := d.step srv context a
    ⟨unit, a, d.around.server, d'.around.server⟩ :: moments srv (next r) unit context d'
  | send name work next, unit, context, d =>
    let (r, d') := d.send (work.act srv) name
    d.unitMoments (fun scope context d => moments srv work (some scope) context d) name
      ++ moments srv (next r) unit context d'

def Session.moments (srv : Postgres.Server σ) (n : Session σ) : Command → List (Moment σ)
  | .step context a =>
    [⟨none, a, n.around.server, (n.obey srv (.step context a)).2.around.server⟩]
  | .send name unit =>
    n.desk.unitMoments (fun scope context d => unit.moments srv (some scope) context d) name
  | .openAt _ | .unconnected _ | .connect | .beginScripted .. | .dropAll => []

/-! ### Storages that share their surroundings -/

/-- A storage that comes and goes, and the transactions on it. -/
structure Seat where
  store : Option Store := none
  transactions : Catalog Transaction := {}

def Seat.session (seat : Seat) (o : Surroundings σ) : Session σ :=
  { store := seat.store, transactions := seat.transactions, around := o }

structure Sessions (σ : Type) where
  seats : Catalog Seat := {}
  around : Surroundings σ

namespace Sessions

/-- The seat of a name, which has nothing at first. -/
def seat (ss : Sessions σ) (name : String) : Seat :=
  (ss.seats.get? name).getD {}

/-- Obeys a command at the seat of a name. -/
def obey (srv : Postgres.Server σ) (ss : Sessions σ) (c : String × Command) : Sessions σ :=
  let n := (((ss.seat c.1).session ss.around).obey srv c.2).2
  { seats := ss.seats.set c.1 ⟨n.store, n.transactions⟩, around := n.around }

def obeyAll (srv : Postgres.Server σ) (cs : List (String × Command)) (ss : Sessions σ) :
    Sessions σ :=
  cs.foldl (obey srv) ss

def moments (srv : Postgres.Server σ) : List (String × Command) → Sessions σ → List (Moment σ)
  | [], _ => []
  | c :: cs, ss =>
    ((ss.seat c.1).session ss.around).moments srv c.2 ++ moments srv cs (ss.obey srv c)

/-- Ends all transactions and storages: what lies around then. -/
def dropAll (srv : Postgres.Server σ) (ss : Sessions σ) : Surroundings σ :=
  ss.seats.entries.foldr (fun e o => ((e.2.session o).dropAll srv).around) ss.around

end Sessions

end Ingest.Store

import Ingest.Proofs.Store.Memory
import Ingest.Proofs.Store.Transaction
import Ingest.Store.Session

/-!
# Transactions on a storage in memory are atomic

What the commands to a storage in memory and to the transactions on it come to is read off their
outcomes (`Ledger`): upserts land at once, and a transaction holds what its units have brought until
a commit lands all of it, unless a unit has failed or the transaction was ended otherwise. A unit
that works with transactions on its scope brings what lands there, which is read off in the same way.

`records_eq_landed` says that the storage holds exactly what has landed, in that order.
-/

namespace Ingest.Store

/-- What a call has brought, by its answer. -/
def Call.brought (a : Answer) : Call → List Upsert
  | .upsert u =>
    match a with
    | .count _ => [u]
    | _ => []
  | _ => []

/-- What has landed on a storage, and what the transactions on it hold for their commits: none where
no commit would bring anything. -/
structure Ledger where
  landed : List Upsert := []
  held : String → Option (List Upsert) := fun _ => none

namespace Ledger

def land (l : Ledger) (us : List Upsert) : Ledger :=
  { l with landed := l.landed ++ us }

def hold (l : Ledger) (name : String) (us? : Option (List Upsert)) : Ledger :=
  { l with held := Function.update l.held name us? }

mutual

/-- The ledger after a step of that outcome. -/
def note (l : Ledger) : Outcome → Ledger
  | .called c a => l.land (c.brought a)
  | .began name none => l.hold name (some [])
  | .ran name steps none => l.hold name ((l.held name).map (· ++ (read {} steps).landed))
  | .ran name _ (some _) => l.hold name none
  | .skipped name => l.hold name none
  | .committed name none => (l.land ((l.held name).getD [])).hold name none
  | .committed name (some _) => l.hold name none
  | .rolledBack name _ => l.hold name none
  | .dropped name => l.hold name none
  | _ => l

/-- The ledger after steps of those outcomes. -/
def read (l : Ledger) : List Outcome → Ledger
  | [] => l
  | r :: rs => read (note l r) rs

end

@[simp] theorem landed_land (l : Ledger) (us : List Upsert) :
    (l.land us).landed = l.landed ++ us := rfl

@[simp] theorem held_land (l : Ledger) (us : List Upsert) : (l.land us).held = l.held := rfl

theorem land_nil (l : Ledger) : l.land [] = l := by
  simp [land]

@[simp] theorem landed_hold (l : Ledger) (name : String) (us? : Option (List Upsert)) :
    (l.hold name us?).landed = l.landed := rfl

@[simp] theorem held_hold (l : Ledger) (name other : String) (us? : Option (List Upsert)) :
    (l.hold name us?).held other = if other = name then us? else l.held other :=
  Function.update_apply ..

theorem read_append (l : Ledger) (rs rs' : List Outcome) :
    l.read (rs ++ rs') = (l.read rs).read rs' := by
  induction rs generalizing l with
  | nil => simp [read]
  | cons r rs ih => rw [List.cons_append, read, read, ih]

end Ledger

/-! ### Reading and adding -/

/-- The call reads or adds: it neither takes records away nor closes the storage. -/
def Call.keeps : Call → Bool
  | .upsert _ | .tables | .keys | .type | .records _ => true
  | .truncate _ | .close => false

/-- The step takes no records away, except by ending a transaction. -/
def Step.Keeps : Step → Prop
  | .call c => c.keeps = true
  | .cancel | .begin _ | .commit _ | .rollback _ | .drop _ => True

/-- Whatever the outcomes of its steps, the unit only reads and adds. -/
def Work.Keeps : Work → Prop
  | .done _ => True
  | .step a next => a.Keeps ∧ ∀ r, (next r).Keeps
  | .send _ unit next => unit.Keeps ∧ ∀ r, (next r).Keeps

@[simp] theorem Work.keeps_calls {cs : List Call} :
    (Work.calls cs).Keeps ↔ ∀ c ∈ cs, c.keeps = true := by
  induction cs with
  | nil => simp [calls, Keeps]
  | cons c cs ih =>
    rw [List.forall_mem_cons, ← ih]
    refine and_congr_right fun _ => ⟨fun h => h .nothing, fun h r => ?_⟩
    simp only
    split
    exacts [trivial, h]

/-- The command works with the storage that is there and the transactions on it, and all calls only
read and add. -/
def Command.Keeps : Command → Prop
  | .step _ a => a.Keeps
  | .send _ unit => unit.Keeps
  | .openAt _ | .unconnected _ | .connect | .beginScripted .. | .dropAll => False

theorem Memory.perform_of_keeps (m : Memory) (cancelled : Bool) {c : Call}
    (hc : c.keeps = true) :
    (m.perform cancelled c).2.closed = m.closed
      ∧ (m.tables.Sorted → (m.perform cancelled c).2.tables.Sorted)
      ∧ ∀ name, (m.perform cancelled c).2.records name
        = m.records name ++ dataUnder name (c.brought (m.perform cancelled c).1) := by
  have hsame : ∀ name, m.records name = m.records name ++ dataUnder name [] := by simp
  cases c with
  | upsert u =>
    rcases m.upsert_cases cancelled u with h | ⟨e, h⟩ <;> simp only [perform, h]
    · exact ⟨rfl, fun hs => hs.append _ _, m.records_insert u⟩
    · exact ⟨trivial, id, hsame⟩
  | truncate ds => cases hc
  | close => cases hc
  | _ => exact ⟨rfl, id, hsame⟩

/-! ### A transaction and what it holds -/

variable {σ : Type} {srv : Postgres.Server σ} {context : String} {o o' : Surroundings σ}

/-- A transaction on a storage in memory. It can be committed as long as it holds something, and
then its scope has the records of that. -/
structure Transaction.Holds (t : Transaction) (held : Option (List Upsert)) : Prop where
  engine : t.engine = .scope
  scope : ∃ staged, t.scope = .memory staged ∧ staged.tables.Sorted
    ∧ ∀ us ∈ held, ∀ name, staged.records name = dataUnder name us
  live : held.isSome = true ↔ t.finished = false ∧ t.failure = none

namespace Transaction

/-- A unit that brings payloads to any scope in memory, told by the outcomes of its steps. -/
def Brings (work : Action σ (List Outcome)) : Prop :=
  ∀ (context : String) (scope : Memory) (o : Surroundings σ), ∃ rs e scope' o',
    work context (.memory scope) o = (rs, e, .memory scope', o')
      ∧ (scope.tables.Sorted → scope'.tables.Sorted)
      ∧ ∀ name, scope'.records name
        = scope.records name ++ dataUnder name (Ledger.read {} rs).landed

namespace Holds

variable {t : Transaction} {held : Option (List Upsert)}

theorem of_ended {t : Transaction} (hengine : t.engine = .scope) {staged : Memory}
    (hscope : t.scope = .memory staged) (hsorted : staged.tables.Sorted)
    (hended : t.finished = true ∨ t.failure.isSome = true) : t.Holds none := by
  refine ⟨hengine, ⟨staged, hscope, hsorted, by simp⟩, ?_⟩
  rcases hended with hfinished | hfailure
  · simp [hfinished]
  · simp [Option.isSome_iff_ne_none.mp hfailure]

theorem of_begin {m : Memory} (h : (Store.memory m).begin srv context o = (.ok t, o')) :
    t.Holds (some []) := by
  unfold Store.begin at h
  simp only at h
  split_ifs at h <;> obtain ⟨ht, -⟩ := Prod.mk.inj h
  · cases ht
  · cases ht
  obtain rfl := Except.ok.inj ht
  exact ⟨rfl, ⟨_, rfl, Catalog.sorted_empty, by simp⟩, by simp⟩

/-- A unit that runs without an error adds what it brings. After anything else the transaction holds
nothing any more. -/
theorem send (h : t.Holds held) {work : Action σ (List Outcome)} (hwork : Brings work)
    (o : Surroundings σ) :
    match t.send work o with
    | (some (rs, none), t', _) => t'.Holds (held.map (· ++ (Ledger.read {} rs).landed))
    | (_, t', _) => t'.Holds none := by
  obtain ⟨staged, hscope, hsorted, hrecords⟩ := h.scope
  unfold Transaction.send
  by_cases hfinished : t.finished = true
  · simp only [hfinished, if_true]
    exact .of_ended h.engine hscope hsorted (.inl hfinished)
  by_cases hfailure : t.failure.isSome = true
  · simp only [hfinished, hfailure, if_true]
    exact .of_ended h.engine hscope hsorted (.inr hfailure)
  by_cases hcancelled : o.isCancelled t.context = true
  · simp only [hfinished, hfailure, hcancelled, if_true]
    exact .of_ended h.engine hscope hsorted (.inr rfl)
  obtain ⟨rs, e, scope, o', hrun, hkeeps, hbrings⟩ := hwork t.context staged o
  simp only [hfinished, hfailure, hcancelled, hscope, hrun]
  cases e with
  | some e => exact .of_ended h.engine rfl (hkeeps hsorted) (.inr rfl)
  | none =>
    refine ⟨h.engine, ⟨scope, rfl, hkeeps hsorted, ?_⟩, ?_⟩
    · rintro us hus name
      obtain ⟨us, hheld, rfl⟩ := Option.map_eq_some_iff.mp hus
      rw [hbrings, hrecords us hheld, dataUnder_append]
    · rw [Option.isSome_map, h.live]
      have : t.failure = none := by simpa using hfailure
      simp [this, hfinished]

theorem engineRollback (h : t.Holds held) (srv : Postgres.Server σ) (o : Surroundings σ) :
    (t.ended.engineRollback srv o).2.1.Holds none := by
  obtain ⟨staged, hscope, hsorted, -⟩ := h.scope
  simp only [Transaction.engineRollback, ended, h.engine, hscope]
  exact .of_ended rfl rfl Catalog.sorted_empty (.inl rfl)

/-- A commit lands what the transaction holds. It succeeds if and only if that is something. -/
theorem commit (h : t.Holds held) (srv : Postgres.Server σ) (m : Memory) (o : Surroundings σ) :
    ∃ e m' t' o', t.commit srv (.memory m) o = (e, .memory m', t', o')
      ∧ (e = none ↔ held.isSome = true) ∧ m'.closed = m.closed
      ∧ (m.tables.Sorted → m'.tables.Sorted)
      ∧ (∀ name, m'.records name = m.records name ++ dataUnder name (held.getD []))
      ∧ t'.Holds none := by
  obtain ⟨staged, hscope, hsorted, hrecords⟩ := h.scope
  have hlive := h.live
  have hmerge : t.ended.engineCommit srv (.memory m) o = (none, .memory (m.merge staged), o) := by
    simp only [engineCommit, ended, h.engine, hscope]
  refine t.commit_cases srv (.memory m) o (fun hfinished => ?_) (fun _ failure hfailure => ?_)
    (fun hfinished hfailure parent' o' hcommit => ?_) fun _ _ e parent' o' hcommit => ?_
  · have hheld : held = none := by simpa [hfinished] using hlive
    exact ⟨_, m, _, _, rfl, by simp [hheld], rfl, id, by simp [hheld],
      .of_ended h.engine hscope hsorted (.inl hfinished)⟩
  · have hheld : held = none := by simpa [hfailure] using hlive
    exact ⟨_, m, _, _, rfl, by simp [hheld], rfl, id, by simp [hheld], h.engineRollback srv o⟩
  · obtain ⟨us, rfl⟩ : ∃ us, held = some us := by
      rw [← Option.isSome_iff_exists, hlive]
      exact ⟨hfinished, hfailure⟩
    obtain ⟨-, rfl, rfl⟩ : True ∧ .memory (m.merge staged) = parent' ∧ o = o' := by
      simpa using hmerge.symm.trans hcommit
    refine ⟨_, _, _, _, rfl, by simp, rfl, fun hm => hm.foldl_append _, fun name => ?_,
      .of_ended h.engine hscope hsorted (.inl rfl)⟩
    rw [Memory.records_merge m hsorted, hrecords us rfl]
    rfl
  · cases hmerge.symm.trans hcommit

theorem rollback (h : t.Holds held) (srv : Postgres.Server σ) (o : Surroundings σ) :
    (t.rollback srv o).2.1.Holds none := by
  cases hfinished : t.finished with
  | true =>
    obtain ⟨staged, hscope, hsorted, -⟩ := h.scope
    rw [rollback_of_finished hfinished]
    exact .of_ended h.engine hscope hsorted (.inl hfinished)
  | false =>
    rw [rollback_of_unfinished hfinished]
    exact h.engineRollback srv o

end Holds

end Transaction

/-! ### A desk and its ledger -/

/-- A transaction that may be kept under a name, and what is held there. -/
def Transaction.HoldsAt (held : Option (List Upsert)) : Option Transaction → Prop
  | some t => t.Holds held
  | none => held = none

/-- A desk over a storage in memory whose ledger, begun when the storage was `base`, is `l`. -/
structure Desk.Mirrors (base : Memory) (l : Ledger) (d : Desk σ) : Prop where
  store : ∃ m, d.store = .memory m ∧ m.closed = base.closed
    ∧ (base.tables.Sorted → m.tables.Sorted)
    ∧ ∀ name, m.records name = base.records name ++ dataUnder name l.landed
  held : ∀ name, Transaction.HoldsAt (l.held name) (d.transactions.get? name)

namespace Desk.Mirrors

variable {base : Memory} {l : Ledger} {d d' : Desk σ}

theorem start (m : Memory) (o : Surroundings σ) :
    Mirrors m {} ({ store := .memory m, around := o } : Desk σ) :=
  ⟨⟨m, rfl, rfl, id, by simp⟩, fun _ => rfl⟩

theorem holds (h : Mirrors base l d) {name : String} {t : Transaction}
    (ht : d.transactions.get? name = some t) : t.Holds (l.held name) := by
  have hheld := h.held name
  rwa [ht] at hheld

/-- The storage and the transactions count, and nothing around them. -/
theorem congr (h : Mirrors base l d) (hstore : d'.store = d.store)
    (htransactions : d'.transactions = d.transactions) : Mirrors base l d' := by
  refine ⟨?_, ?_⟩
  · rw [hstore]
    exact h.store
  · rw [htransactions]
    exact h.held

/-- What is kept under one name changes. -/
theorem hold (h : Mirrors base l d) {name : String} {held : Option (List Upsert)}
    (hstore : d'.store = d.store)
    (hself : Transaction.HoldsAt held (d'.transactions.get? name))
    (hothers : ∀ other, other ≠ name →
      d'.transactions.get? other = d.transactions.get? other) :
    Mirrors base (l.hold name held) d' := by
  refine ⟨?_, fun other => ?_⟩
  · rw [hstore]
    exact h.store
  · rw [Ledger.held_hold]
    split_ifs with hname
    · rw [hname]
      exact hself
    · rw [hothers other hname]
      exact h.held other

theorem set (h : Mirrors base l d) {name : String} {t : Transaction}
    {held : Option (List Upsert)} (ht : t.Holds held) (hstore : d'.store = d.store)
    (htransactions : d'.transactions = d.transactions.set name t) :
    Mirrors base (l.hold name held) d' := by
  refine h.hold hstore ?_ fun other hname => ?_ <;> rw [htransactions]
  · rw [Catalog.get?_set_self]
    exact ht
  · exact Catalog.get?_set_of_ne _ hname t

theorem erase (h : Mirrors base l d) (name : String) (hstore : d'.store = d.store)
    (htransactions : d'.transactions = d.transactions.erase name) :
    Mirrors base (l.hold name none) d' := by
  refine h.hold hstore ?_ fun other hname => ?_ <;> rw [htransactions]
  · rw [Catalog.get?_erase_self]
    rfl
  · exact Catalog.get?_erase_of_ne _ hname

/-- The storage has what has landed on it since. -/
theorem land (h : Mirrors base l d) {us : List Upsert} {m m' : Memory} (hm : d.store = .memory m)
    (hclosed : m'.closed = m.closed) (hsorted : m.tables.Sorted → m'.tables.Sorted)
    (hrecords : ∀ name, m'.records name = m.records name ++ dataUnder name us)
    (hstore : d'.store = .memory m') (htransactions : d'.transactions = d.transactions) :
    Mirrors base (l.land us) d' := by
  obtain ⟨m₁, hm₁, hclosed₁, hsorted₁, hrecords₁⟩ := h.store
  obtain rfl := Store.memory.inj (hm.symm.trans hm₁)
  refine ⟨⟨m', hstore, hclosed.trans hclosed₁, hsorted ∘ hsorted₁, fun name => ?_⟩, ?_⟩
  · rw [hrecords, hrecords₁, List.append_assoc, Ledger.landed_land, dataUnder_append]
  · rw [htransactions]
    exact h.held

theorem call (h : Mirrors base l d) (srv : Postgres.Server σ) (context : String) {c : Call}
    (hc : c.keeps = true) : Mirrors base (l.note (d.step srv context (.call c)).1)
      (d.step srv context (.call c)).2 := by
  obtain ⟨m, hm, -⟩ := h.store
  obtain ⟨hclosed, hsorted, hrecords⟩ := m.perform_of_keeps (d.around.isCancelled context) hc
  simp only [Desk.step, hm, Store.perform, Ledger.note]
  exact h.land hm hclosed hsorted hrecords rfl rfl

theorem step (h : Mirrors base l d) (srv : Postgres.Server σ) (context : String) {a : Step}
    (ha : a.Keeps) : Mirrors base (l.note (d.step srv context a).1) (d.step srv context a).2 := by
  obtain ⟨m, hm, -⟩ := h.store
  cases a with
  | call c => exact h.call srv context ha
  | cancel => exact h.congr rfl rfl
  | begin name =>
    simp only [Desk.step, hm]
    rcases hbegin : (Store.memory m).begin srv context d.around with ⟨e | t, o⟩
    · exact h.congr hm.symm rfl
    · exact h.set (.of_begin hbegin) hm.symm rfl
  | commit name =>
    cases ht : d.transactions.get? name with
    | none =>
      simp only [Desk.step, ht]
      exact h.congr rfl rfl
    | some t =>
      obtain ⟨e, m', t', o', hcommit, hsuccess, hclosed, hsorted, hrecords, hended⟩ :=
        (h.holds ht).commit srv m d.around
      have hland : Mirrors base (l.land ((l.held name).getD [])) { d with store := .memory m' } :=
        h.land hm hclosed hsorted hrecords rfl rfl
      have hend : Mirrors base ((l.land ((l.held name).getD [])).hold name none)
          { store := .memory m', transactions := d.transactions.set name t', around := o' } :=
        hland.set hended rfl rfl
      simp only [Desk.step, ht, hm, hcommit]
      cases e with
      | none => exact hend
      | some e =>
        have hheld : l.held name = none := by simpa using hsuccess
        rwa [hheld, Option.getD_none, Ledger.land_nil] at hend
  | rollback name =>
    cases ht : d.transactions.get? name with
    | none =>
      simp only [Desk.step, ht]
      exact h.congr rfl rfl
    | some t =>
      simp only [Desk.step, ht]
      exact h.set ((h.holds ht).rollback srv d.around) rfl rfl
  | drop name =>
    cases ht : d.transactions.get? name with
    | none =>
      simp only [Desk.step, ht]
      exact h.congr rfl rfl
    | some t =>
      simp only [Desk.step, ht]
      exact h.erase name rfl rfl

theorem commit_iff (h : Mirrors base l d) (srv : Postgres.Server σ) (context name : String) :
    (d.step srv context (.commit name)).1 = .committed name none ↔ (l.held name).isSome = true := by
  obtain ⟨m, hm, -⟩ := h.store
  cases ht : d.transactions.get? name with
  | none =>
    have hheld := h.held name
    rw [ht] at hheld
    simp [Desk.step, ht, show l.held name = none from hheld]
  | some t =>
    obtain ⟨e, m', t', o', hcommit, hsuccess, -⟩ := (h.holds ht).commit srv m d.around
    simp only [Desk.step, ht, hm, hcommit, Outcome.committed.injEq, true_and]
    exact hsuccess

theorem send (h : Mirrors base l d) {work : Transaction.Action σ (List Outcome)}
    (hwork : Transaction.Brings work) (name : String) :
    Mirrors base (l.note (d.send work name).1) (d.send work name).2 := by
  cases ht : d.transactions.get? name with
  | none =>
    simp only [Desk.send, ht]
    exact h.congr rfl rfl
  | some t =>
    have hsend := (h.holds ht).send hwork d.around
    rcases hanswer : t.send work d.around with ⟨_ | ⟨rs, _ | e⟩, t', o⟩ <;>
      simp only [Desk.send, ht, hanswer] at hsend ⊢ <;>
      exact h.set hsend rfl rfl

end Desk.Mirrors

/-- What brings to a desk what its outcomes tell, does so to a scope. -/
theorem Desk.brings_apart (srv : Postgres.Server σ)
    {work : String → Desk σ → List Outcome × Option Error × Desk σ}
    (h : ∀ context base l d, Mirrors base l d →
      Mirrors base (l.read (work context d).1) (work context d).2.2) :
    Transaction.Brings (apart srv work) := by
  intro context scope o
  obtain ⟨m, hm, -, hsorted, hrecords⟩ := (h context scope {} _ (.start scope o)).store
  exact ⟨_, _, m, _, by simp only [apart, dropAll, hm]; rfl, hsorted, hrecords⟩

theorem Desk.Mirrors.run (srv : Postgres.Server σ) {unit : Work} (hunit : unit.Keeps)
    (context : String) {base : Memory} {l : Ledger} {d : Desk σ} (h : Mirrors base l d) :
    Mirrors base (l.read (unit.run srv context d).1) (unit.run srv context d).2.2 := by
  induction unit generalizing context base l d with
  | done e => simpa [Work.run, Ledger.read] using h
  | step a next ih =>
    simpa only [Work.run, Ledger.read] using ih _ (hunit.2 _) context (h.step srv context hunit.1)
  | send name unit next ihunit ih =>
    have hwork := brings_apart srv fun context base l d => ihunit hunit.1 context
    simpa only [Work.run, Ledger.read] using ih _ (hunit.2 _) context (h.send hwork name)

/-! ### Commands one after the other -/

/-- What came of a command that was a step or a unit that was sent. -/
def Reply.outcome? : Reply → Option Outcome
  | .outcome r => some r
  | .nothing | .opened _ | .result _ => none

namespace Session

/-- Obeys commands one after the other: the replies, and the session then. -/
def obeyAll (srv : Postgres.Server σ) : List Command → Session σ → List Reply × Session σ
  | [], n => ([], n)
  | c :: cs, n =>
    let (r, n) := n.obey srv c
    let (rs, n) := obeyAll srv cs n
    (r :: rs, n)

theorem obeyAll_append (srv : Postgres.Server σ) (cs cs' : List Command) (n : Session σ) :
    obeyAll srv (cs ++ cs') n
      = ((obeyAll srv cs n).1 ++ (obeyAll srv cs' (obeyAll srv cs n).2).1,
        (obeyAll srv cs' (obeyAll srv cs n).2).2) := by
  induction cs generalizing n with
  | nil => rfl
  | cons c cs ih => simp [obeyAll, ih]

theorem obey_step {n : Session σ} (hn : n.store.isSome = true) (srv : Postgres.Server σ)
    (context : String) (a : Step) : n.obey srv (.step context a)
      = (.outcome (n.desk.step srv context a).1, n.withDesk (n.desk.step srv context a).2) := by
  simp [obey, ← Option.not_isSome, hn]

theorem obey_call (srv : Postgres.Server σ) {m : Memory} {context : String} {o : Surroundings σ}
    (hlive : o.isCancelled context = false) (c : Call) :
    ({ store := some (.memory m), around := o } : Session σ).obey srv (.step context (.call c))
      = (.outcome (.called c (m.perform false c).1),
        { store := some (.memory (m.perform false c).2), around := o }) := by
  rw [obey_step rfl]
  simp [desk, withDesk, Desk.step, Store.perform, hlive]

theorem store_eq_desk {n : Session σ} (hn : n.store.isSome = true) :
    n.store = some n.desk.store := by
  obtain ⟨s, hs⟩ := Option.isSome_iff_exists.mp hn
  simp [desk, hs]

theorem isSome_withDesk (n : Session σ) (d : Desk σ) :
    (n.withDesk d).store.isSome = n.store.isSome :=
  Option.isSome_map

theorem desk_withDesk {n : Session σ} (hn : n.store.isSome = true) (d : Desk σ) :
    (n.withDesk d).desk = d := by
  obtain ⟨s, hs⟩ := Option.isSome_iff_exists.mp hn
  simp [withDesk, desk, hs]

theorem withDesk_desk {n : Session σ} (hn : n.store.isSome = true) : n.withDesk n.desk = n := by
  have hstore : n.store.map (fun _ => n.desk.store) = n.store := by
    rw [store_eq_desk hn, Option.map_some]
  show { n with store := n.store.map fun _ => n.desk.store } = n
  rw [hstore]

/-- The session has a storage in memory, and what there is at its desk agrees with a ledger. -/
def Mirrors (base : Memory) (l : Ledger) (n : Session σ) : Prop :=
  n.store.isSome = true ∧ n.desk.Mirrors base l

namespace Mirrors

variable {base : Memory} {l : Ledger} {n : Session σ}

theorem store (h : Mirrors base l n) : ∃ m, n.store = some (.memory m) ∧ m.closed = base.closed
    ∧ ∀ name, m.records name = base.records name ++ dataUnder name l.landed := by
  obtain ⟨m, hm, hclosed, -, hrecords⟩ := h.2.store
  exact ⟨m, (store_eq_desk h.1).trans (congrArg some hm), hclosed, hrecords⟩

theorem withDesk (h : Mirrors base l n) {l' : Ledger} {d : Desk σ} (hd : d.Mirrors base l') :
    Mirrors base l' (n.withDesk d) := by
  refine ⟨(isSome_withDesk n d).trans h.1, ?_⟩
  rw [desk_withDesk h.1]
  exact hd

theorem obey (h : Mirrors base l n) (srv : Postgres.Server σ) {c : Command} (hc : c.Keeps) :
    Mirrors base (l.read ([(n.obey srv c).1].filterMap Reply.outcome?)) (n.obey srv c).2 := by
  cases c with
  | step context a =>
    rw [obey_step h.1]
    exact h.withDesk (h.2.step srv context hc)
  | send name unit =>
    have hwork := Desk.brings_apart srv fun context base l d hd => hd.run srv hc context
    exact h.withDesk (h.2.send hwork name)
  | _ => cases hc

theorem obeyAll (h : Mirrors base l n) (srv : Postgres.Server σ) {cs : List Command}
    (hcs : ∀ c ∈ cs, c.Keeps) :
    Mirrors base (l.read ((Session.obeyAll srv cs n).1.filterMap Reply.outcome?))
      (Session.obeyAll srv cs n).2 := by
  induction cs generalizing n l with
  | nil => exact h
  | cons c cs ih =>
    have hrest := ih (h.obey srv (hcs c List.mem_cons_self))
      fun c hc => hcs c (List.mem_cons_of_mem _ hc)
    rwa [← Ledger.read_append, ← List.filterMap_append] at hrest

end Mirrors

/-- Whatever is done to an open storage in memory and to the transactions on it, one command after
the other, as long as calls only read and add: its records are those it had and then, in order, the
payloads that have landed. What landed and what transactions hold is read off the outcomes alone.

A commit succeeds if and only if the transaction holds something. Under a context that is not
cancelled the storage takes every upsert in JSON for a table with a name, and begins every
transaction. -/
theorem records_eq_landed (srv : Postgres.Server σ) {m : Memory} (hopen : m.closed = false)
    (o : Surroundings σ) {cs : List Command} (hcs : ∀ c ∈ cs, c.Keeps) :
    let run := obeyAll srv cs { store := some (.memory m), around := o }
    let l := Ledger.read {} (run.1.filterMap Reply.outcome?)
    (∃ m', run.2.store = some (.memory m')
        ∧ ∀ name, m'.records name = m.records name ++ dataUnder name l.landed)
      ∧ (∀ context name, (run.2.obey srv (.step context (.commit name))).1
          = .outcome (.committed name none) ↔ (l.held name).isSome = true)
      ∧ ∀ context, run.2.around.isCancelled context = false →
        (∀ name, (run.2.obey srv (.step context (.begin name))).1 = .outcome (.began name none))
          ∧ ∀ u : Upsert, u.table.isEmpty = false → u.format = .json →
            (run.2.obey srv (.step context (.call (.upsert u)))).1
              = .outcome (.called (.upsert u) (.count 1)) := by
  intro run l
  have hstart : Mirrors m {} ({ store := some (.memory m), around := o } : Session σ) :=
    ⟨rfl, .start m o⟩
  have h : Mirrors m l run.2 := hstart.obeyAll srv hcs
  obtain ⟨m', hm', hclosed, hrecords⟩ := h.store
  have hdesk : run.2.desk.store = .memory m' := by simp [desk, hm']
  have haround : run.2.desk.around = run.2.around := rfl
  rw [hopen] at hclosed
  refine ⟨⟨m', hm', hrecords⟩, fun context name => ?_, fun context hlive => ⟨fun name => ?_,
    fun u hname hformat => ?_⟩⟩ <;> rw [obey_step h.1]
  · rw [Reply.outcome.injEq]
    exact h.2.commit_iff srv context name
  · simp [Desk.step, hdesk, Store.begin, haround, hlive, hclosed]
  · simp [Desk.step, hdesk, Store.perform, Memory.perform, Memory.upsert, haround, hlive, hclosed,
      hname, hformat, Answer.ofCount]

/-- Two transactions and a direct upsert in between: in a unit of the first another transaction is
committed on its scope, a unit of the second fails. -/
def interleaved : List Command :=
  [.step "ctx" (.begin "a"), .step "ctx" (.begin "b"),
    .send "a" (.step (.call (.upsert { table := "t", data := [1] })) fun _ =>
      .step (.begin "c") fun _ =>
      .send "c" (.calls [.upsert { table := "t", data := [2] }]) fun _ =>
      .step (.commit "c") fun r => .done r.error?),
    .send "b" (.calls [.upsert { table := "t", data := [3] }]),
    .send "b" (.done (some ⟨.storageFailed, "no"⟩)),
    .step "ctx" (.call (.upsert { table := "t", data := [4] })),
    .step "ctx" (.commit "b"), .step "ctx" (.commit "a")]

theorem records_eq_landed_interleaved :
    ∃ m, (obeyAll Postgres.Script.server interleaved
        { store := some (.memory {}), around := { server := {} } }).2.store = some (.memory m)
      ∧ m.records "t" = [[4], [1], [2]] := by
  have hkeeps : ∀ c ∈ interleaved, c.Keeps := by
    simp [interleaved, Command.Keeps, Step.Keeps, Work.Keeps, Call.keeps]
  obtain ⟨m, hm, hrecords⟩ := (records_eq_landed Postgres.Script.server (m := {}) rfl _ hkeeps).1
  exact ⟨m, hm, (hrecords "t").trans (by decide +kernel)⟩

end Session

end Ingest.Store

import Ingest.Proofs.Store.Keeping

/-!
# Closed storages in memory

A closed storage in memory takes no call and begins no transaction. But transactions that were begun
before go on, and their commits still add what they hold: these are the only records that a closed
storage gets (`closed_takes_only_commits`), and there are runs in which it does
(`records_grow_after_close`).
-/

namespace Ingest.Store

namespace Memory

theorem perform_of_closed {m : Memory} (h : m.closed = true) (cancelled : Bool) (c : Call) :
    (m.perform cancelled c).2 = m := by
  cases c with
  | upsert u =>
    simp only [perform, upsert, h, if_true]
    split_ifs <;> rfl
  | truncate ds =>
    simp only [perform, truncate, refusal?, h, if_true]
    cases cancelled <;> rfl
  | close => simp [perform, close, ← h]
  | _ => rfl

end Memory

variable {σ : Type}

/-- What a commit of the transaction adds to a storage in memory. -/
def Transaction.staged (t : Transaction) : Memory :=
  match t.engine, t.scope with
  | .scope, .memory staged => staged
  | _, _ => {}

namespace Transaction

variable {t : Transaction}

@[simp] theorem staged_ended (t : Transaction) : t.ended.staged = t.staged := rfl

theorem engineCommit_memory (ht : t.scope.Fits fun m => m.tables.Sorted)
    (srv : Postgres.Server σ) (m : Memory) (o : Surroundings σ) :
    ∃ e m' o', t.engineCommit srv (.memory m) o = (e, .memory m', o')
      ∧ m'.closed = m.closed
      ∧ ∀ name, m'.records name
        = m.records name ++ if e = none then t.staged.records name else [] := by
  obtain ⟨staged, hscope, hsorted⟩ := ht
  cases hengine : t.engine with
  | scripted commit rollback =>
    have hstaged : ∀ name, t.staged.records name = [] := by
      intro name
      simp only [Transaction.staged, hengine]
      rfl
    exact ⟨commit, m, { o with calls := o.calls ++ [.commit] }, by simp [engineCommit, hengine],
      rfl, by simp [hstaged]⟩
  | scope =>
    refine ⟨none, m.merge staged, o, by simp [engineCommit, hengine, hscope], rfl, fun name => ?_⟩
    simpa [Transaction.staged, hengine, hscope] using m.records_merge hsorted name

theorem commit_memory (ht : t.scope.Fits fun m => m.tables.Sorted) (srv : Postgres.Server σ)
    (m : Memory) (o : Surroundings σ) :
    ∃ e m' t' o', t.commit srv (.memory m) o = (e, .memory m', t', o')
      ∧ m'.closed = m.closed
      ∧ ∀ name, m'.records name
        = m.records name ++ if e = none then t.staged.records name else [] := by
  obtain ⟨e, m', o', hengine, hclosed, hrecords⟩ :=
    engineCommit_memory (t := t.ended) ht srv m o
  refine t.commit_cases srv (.memory m) o (fun _ => ⟨_, m, _, _, rfl, rfl, by simp⟩)
    (fun _ failure _ => ⟨_, m, _, _, rfl, rfl, by simp⟩) (fun _ _ parent' o'' hcommit => ?_)
    fun _ _ e' parent' o'' hcommit => ?_
  all_goals
    obtain ⟨rfl, rfl, rfl⟩ : _ ∧ _ ∧ _ := by simpa using hengine.symm.trans hcommit
    exact ⟨_, m', _, _, rfl, hclosed, by simpa using hrecords⟩

end Transaction

namespace Session

/-- What a command has added to the storage of the session as it was before, by its reply. -/
def landed (n : Session σ) : Reply → List Memory
  | .outcome (.committed name none) => ((n.transactions.get? name).map Transaction.staged).toList
  | _ => []

/-- What the transactions that are committed in the course of commands add, each as it is then. -/
def landings (srv : Postgres.Server σ) : List Command → Session σ → List Memory
  | [], _ => []
  | c :: cs, n => n.landed (n.obey srv c).1 ++ landings srv cs (n.obey srv c).2

variable {n : Session σ} {m : Memory}

theorem landed_send (n : Session σ) (work : Transaction.Action σ (List Outcome)) (name : String)
    (d : Desk σ) : n.landed (.outcome (d.send work name).1) = [] := by
  rcases ht : d.transactions.get? name with _ | t <;> simp only [Desk.send, ht]
  · rfl
  · rcases t.send work d.around with ⟨_ | ⟨rs, e⟩, t', o⟩ <;> rfl

theorem store_send (work : Transaction.Action σ (List Outcome)) (name : String) (d : Desk σ) :
    (d.send work name).2.store = d.store := by
  rcases ht : d.transactions.get? name with _ | t <;> simp only [Desk.send, ht]
  rcases t.send work d.around with ⟨_ | ⟨rs, e⟩, t', o⟩ <;> rfl

theorem step_of_closed (h : n.desk.Fits (fun m => m.tables.Sorted) fun m => m.tables.Sorted)
    (hm : n.desk.store = .memory m) (hclosed : m.closed = true) (srv : Postgres.Server σ)
    (context : String) (a : Step) :
    ∃ m', (n.desk.step srv context a).2.store = .memory m' ∧ m'.closed = true
      ∧ ∀ name, m'.records name = m.records name
        ++ (n.landed (.outcome (n.desk.step srv context a).1)).flatMap (·.records name) := by
  have hsame : ∀ name, m.records name
      = m.records name ++ ([] : List Memory).flatMap (·.records name) := by
    simp
  refine n.desk.step_cases srv context a ?call ?cancel ?notBegun ?begun ?absent ?commit ?rollback
    ?drop
  case call =>
    rintro c -
    simp only [hm, Store.perform, m.perform_of_closed hclosed]
    exact ⟨m, rfl, hclosed, hsame⟩
  case commit =>
    rintro name - t ht
    obtain ⟨e, m', t', o', hcommit, hclosed', hrecords⟩ :=
      Transaction.commit_memory (h.scopes name t ht) srv m n.desk.around
    simp only [hm, hcommit]
    refine ⟨m', rfl, hclosed'.trans hclosed, fun key => ?_⟩
    rw [hrecords]
    cases e with
    | none => simp [landed, show n.transactions.get? name = some t from ht]
    | some e => simp [landed]
  case cancel | notBegun | begun | absent | rollback | drop =>
    intros
    exact ⟨m, hm, hclosed, hsame⟩

/-- The session has a closed storage in memory, and the records on all scopes are in order. -/
structure Sealed (n : Session σ) (m : Memory) : Prop where
  fits : n.Fits (fun m => m.tables.Sorted) fun m => m.tables.Sorted
  store : n.store = some (.memory m)
  closed : m.closed = true

namespace Sealed

theorem of_close (h : n.Fits (fun m => m.tables.Sorted) fun m => m.tables.Sorted)
    (hm : n.store = some (.memory m)) (srv : Postgres.Server σ) (context : String) :
    Sealed (n.obey srv (.step context (.call .close))).2 m.close := by
  refine ⟨h.obey Memory.keepsScopes_sorted.toKeeps Memory.keepsScopes_sorted srv trivial, ?_, rfl⟩
  rw [obey_step h.1]
  simp [Desk.step, desk, hm, Store.perform, Memory.perform, Session.withDesk]

theorem desk_store (h : Sealed n m) : n.desk.store = .memory m :=
  Option.some.inj ((store_eq_desk h.fits.1).symm.trans h.store)

theorem obey (h : Sealed n m) (srv : Postgres.Server σ) {c : Command}
    (hc : c.Only fun _ => True) : ∃ m', Sealed (n.obey srv c).2 m'
      ∧ ∀ name, m'.records name
        = m.records name ++ (n.landed (n.obey srv c).1).flatMap (·.records name) := by
  have hfits := h.fits.obey Memory.keepsScopes_sorted.toKeeps Memory.keepsScopes_sorted srv hc
  have hstore : ∀ d : Desk σ, ∀ m', d.store = .memory m' →
      (n.withDesk d).store = some (.memory m') := by
    intro d m' hd
    rw [store_eq_desk ((isSome_withDesk n d).trans h.fits.1), desk_withDesk h.fits.1, hd]
  cases c with
  | step context a =>
    rw [obey_step h.fits.1] at hfits ⊢
    obtain ⟨m', hm', hclosed, hrecords⟩ :=
      step_of_closed h.fits.2 h.desk_store h.closed srv context a
    exact ⟨m', ⟨hfits, hstore _ m' hm', hclosed⟩, hrecords⟩
  | send name unit =>
    have hm := (store_send (unit.act srv) name n.desk).trans h.desk_store
    refine ⟨m, ⟨hfits, hstore _ m hm, h.closed⟩, fun key => ?_⟩
    simp [Session.obey, landed_send]
  | _ => cases hc

theorem obeyAll (h : Sealed n m) (srv : Postgres.Server σ) {cs : List Command}
    (hcs : ∀ c ∈ cs, c.Only fun _ => True) : ∃ m', Sealed (Session.obeyAll srv cs n).2 m'
      ∧ ∀ name, m'.records name
        = m.records name ++ (landings srv cs n).flatMap (·.records name) := by
  induction cs generalizing n m with
  | nil => exact ⟨m, h, by simp [landings]⟩
  | cons c cs ih =>
    obtain ⟨m₁, h₁, hrecords₁⟩ := h.obey srv (hcs c List.mem_cons_self)
    obtain ⟨m', h', hrecords⟩ := ih h₁ fun c hc => hcs c (List.mem_cons_of_mem _ hc)
    refine ⟨m', h', fun name => ?_⟩
    rw [hrecords, hrecords₁, landings, List.flatMap_append, List.append_assoc]

theorem begin_refused (h : Sealed n m) (srv : Postgres.Server σ) (context name : String) :
    (n.obey srv (.step context (.begin name))).1 ≠ .outcome (.began name none) := by
  rw [obey_step h.fits.1]
  simp only [Desk.step, h.desk_store, Store.begin, h.closed, if_true]
  split_ifs <;> simp

end Sealed

/-- Whatever is done to a storage in memory and the transactions on it before it is closed and
after, to any depth: after the close its records are those it had then and, in the order of the
commits, those of the transactions that are committed. So they are the same if and only if no
transaction brings any. No transaction begins any more, so that these were all begun before. -/
theorem closed_takes_only_commits (srv : Postgres.Server σ) (keys : Catalog (List String))
    (o : Surroundings σ) (context : String) {before after : List Command}
    (hbefore : ∀ c ∈ before, c.Only fun _ => True) (hafter : ∀ c ∈ after, c.Only fun _ => True) :
    let n := (obeyAll srv (before ++ [.step context (.call .close)])
      { store := some (.memory { keys := keys }), around := o }).2
    let n' := (obeyAll srv after n).2
    ∃ m m', n.store = some (.memory m) ∧ n'.store = some (.memory m')
      ∧ (∀ name, m'.records name
        = m.records name ++ (landings srv after n).flatMap (·.records name))
      ∧ ((∀ name, m'.records name = m.records name)
        ↔ ∀ staged ∈ landings srv after n, ∀ name, staged.records name = [])
      ∧ ∀ context name,
        (n'.obey srv (.step context (.begin name))).1 ≠ .outcome (.began name none) := by
  intro n n'
  have hstart := Fits.start (fun m => m.tables.Sorted) (fun m => m.tables.Sorted)
    (m := { keys := keys }) Catalog.sorted_empty o
  have hlast := hstart.obeyAll Memory.keepsScopes_sorted.toKeeps Memory.keepsScopes_sorted srv
    hbefore
  obtain ⟨m, hm, -⟩ := hlast.store
  have hn : Sealed n m.close := by
    show Sealed (obeyAll srv _ _).2 m.close
    rw [obeyAll_append]
    exact .of_close hlast hm srv context
  obtain ⟨m', hn', hrecords⟩ := hn.obeyAll srv hafter
  refine ⟨m.close, m', hn.store, hn'.store, hrecords, ?_, hn'.begin_refused srv⟩
  simp only [hrecords, List.append_right_eq_self, List.flatMap_eq_nil_iff]
  exact forall_comm.trans (forall_congr' fun staged => forall_comm)

theorem closed_takes_only_commits_late :
    let before : List Command := [.step "ctx" (.call (.upsert { table := "a", data := [1] })),
      .step "ctx" (.begin "t"), .send "t" (.calls [.upsert { table := "a", data := [2] }])]
    let after : List Command := [.step "ctx" (.call (.upsert { table := "a", data := [3] })),
      .step "ctx" (.call (.truncate [⟨"", "a"⟩])), .step "ctx" (.commit "t")]
    let n := (obeyAll Postgres.Script.server (before ++ [.step "ctx" (.call .close)])
      { store := some (.memory {}), around := { server := {} } }).2
    ∃ m m', n.store = some (.memory m)
      ∧ (obeyAll Postgres.Script.server after n).2.store = some (.memory m')
      ∧ m'.records "a" = m.records "a" ++ [[2]] := by
  intro before after n
  have hbefore : ∀ c ∈ before, c.Only fun _ => True := by
    simp [before, Command.Only, Step.Only]
  have hafter : ∀ c ∈ after, c.Only fun _ => True := by
    simp [after, Command.Only, Step.Only]
  obtain ⟨m, m', hm, hm', hrecords, -, -⟩ := closed_takes_only_commits Postgres.Script.server {}
    { server := {} } "ctx" hbefore hafter
  exact ⟨m, m', hm, hm', (hrecords "a").trans (congrArg (m.records "a" ++ ·) (by decide +kernel))⟩

/-- A storage in memory is closed without records. A transaction that was begun before is committed
then, and the storage has a record. -/
theorem records_grow_after_close :
    let n := (obeyAll Postgres.Script.server [.step "ctx" (.begin "t"),
      .send "t" (.calls [.upsert { table := "a", data := [1] }]), .step "ctx" (.call .close)]
      { store := some (.memory {}), around := { server := {} } }).2
    ∃ m m', n.store = some (.memory m)
      ∧ (obeyAll Postgres.Script.server [.step "ctx" (.commit "t")] n).2.store = some (.memory m')
      ∧ m.closed = true ∧ m.records "a" = [] ∧ m'.records "a" = [[1]] :=
  ⟨_, _, rfl, rfl, by decide +kernel, by decide +kernel, by decide +kernel⟩

end Session

end Ingest.Store

import Ingest.Proofs.Store.Ledger

/-!
# What a commit leaves, beside the same calls made directly

The same upserts and truncations are made on an open storage in memory, directly or in the units of
a transaction that is then committed (`Memory.Beside`). Both ways the storage has the same tables,
and what was upserted is the same; but a truncation in a unit reaches only what the transaction has
brought, and the records that the storage had before stay (`commit_spares_truncated`).
-/

namespace Ingest.Store

/-- A storage takes the call, if it is open and the context is not cancelled. -/
def Call.Takes : Call → Prop
  | .upsert u => u.table.isEmpty = false ∧ u.format = .json
  | .truncate _ => True
  | .tables | .keys | .close | .type | .records _ => False

/-- The names of the tables that a call truncates. -/
def Call.truncated : Call → List String
  | .truncate ds => ds.map Memory.key
  | .upsert _ | .tables | .keys | .close | .type | .records _ => []

namespace Memory

/-- The storage after calls that it takes. -/
def afterCalls (m : Memory) (cs : List Call) : Memory :=
  cs.foldl (fun m c => (m.perform false c).2) m

theorem closed_foldl_clear (m : Memory) (ds : List Destination) :
    (ds.foldl clear m).closed = m.closed := by
  induction ds generalizing m with
  | nil => rfl
  | cons d ds ih => exact ih (m.clear d)

theorem perform_of_takes {m : Memory} (hopen : m.closed = false) {c : Call} (hc : c.Takes) :
    (m.perform false c).1.error? = none ∧ (m.perform false c).2.closed = false := by
  cases c with
  | upsert u =>
    obtain ⟨hname, hformat⟩ := hc
    simp [perform, upsert, hname, hformat, hopen, insert, Answer.ofCount, Answer.error?]
  | truncate ds =>
    simp [perform, truncate, refusal?, hopen, Answer.ofError?, Answer.error?, closed_foldl_clear]
  | _ => cases hc

/-- A storage `d` that calls were made on directly, beside the storage `staged` that a transaction
on `m` has made the same calls on, which have truncated the tables `gone`. -/
structure Beside (m staged d : Memory) (gone : List String) : Prop where
  staged_open : staged.closed = false
  direct_open : d.closed = false
  sorted : staged.tables.Sorted
  contains : ∀ name, d.tables.contains name
    = (m.tables.contains name || staged.tables.contains name)
  records : ∀ name, d.records name
    = (if name ∈ gone then [] else m.records name) ++ staged.records name

namespace Beside

variable {m staged d : Memory} {gone : List String}

theorem start (hopen : m.closed = false) : Beside m m.stage m [] := by
  refine ⟨rfl, hopen, Catalog.sorted_empty, fun name => ?_, fun name => ?_⟩
  · simp [stage, Catalog.contains]
  · simp

theorem insert (h : Beside m staged d gone) (u : Upsert) :
    Beside m (staged.insert u) (d.insert u) gone := by
  refine ⟨h.staged_open, h.direct_open, h.sorted.append _ _, fun name => ?_, fun name => ?_⟩
  · simp only [Memory.insert, Catalog.contains_append, h.contains, Bool.or_assoc]
  · rw [records_insert, records_insert, h.records, List.append_assoc]

theorem clear (h : Beside m staged d gone) (t : Destination) :
    Beside m (staged.clear t) (d.clear t) (gone ++ [key t]) := by
  refine ⟨h.staged_open, h.direct_open, h.sorted.modify _ _, fun name => ?_, fun name => ?_⟩
  · simp only [Memory.clear, Catalog.contains_modify, h.contains]
  · rw [records_clear, records_clear, h.records]
    by_cases hkey : key t = name
    · simp [hkey]
    · simp [hkey, Ne.symm hkey]

theorem foldl_clear (h : Beside m staged d gone) (ts : List Destination) :
    Beside m (ts.foldl Memory.clear staged) (ts.foldl Memory.clear d) (gone ++ ts.map key) := by
  induction ts generalizing staged d gone with
  | nil => simpa using h
  | cons t ts ih => simpa using ih (h.clear t)

theorem perform (h : Beside m staged d gone) {c : Call} (hc : c.Takes) :
    Beside m (staged.perform false c).2 (d.perform false c).2 (gone ++ c.truncated) := by
  cases c with
  | upsert u =>
    obtain ⟨hname, hformat⟩ := hc
    have hinsert := h.insert u
    simpa [Memory.perform, upsert, hname, hformat, h.staged_open, h.direct_open, Call.truncated]
      using hinsert
  | truncate ts =>
    have hclear := h.foldl_clear ts
    simpa [Memory.perform, truncate, refusal?, h.staged_open, h.direct_open, Call.truncated]
      using hclear
  | _ => cases hc

theorem afterCalls (h : Beside m staged d gone) {cs : List Call} (hcs : ∀ c ∈ cs, c.Takes) :
    Beside m (staged.afterCalls cs) (d.afterCalls cs) (gone ++ cs.flatMap Call.truncated) := by
  induction cs generalizing staged d gone with
  | nil => simpa [Memory.afterCalls] using h
  | cons c cs ih =>
    simpa [Memory.afterCalls] using ih (h.perform (hcs c List.mem_cons_self))
      fun c hc => hcs c (List.mem_cons_of_mem _ hc)

/-- After the commit the storage has the same tables, and the records that the truncations did not
reach before the others. -/
theorem merge (h : Beside m staged d gone) (name : String) :
    (m.merge staged).tables.contains name = d.tables.contains name
      ∧ (m.merge staged).records name
        = (if name ∈ gone then m.records name else []) ++ d.records name := by
  refine ⟨(Catalog.contains_foldl_append ..).trans (h.contains name).symm, ?_⟩
  rw [records_merge m h.sorted, h.records]
  split_ifs <;> simp

end Beside

end Memory

variable {σ : Type} (srv : Postgres.Server σ) {context : String} {o : Surroundings σ}

/-- A unit of calls that a scope in memory takes makes them all. -/
theorem Work.run_calls {m : Memory} (hopen : m.closed = false) {cs : List Call}
    (hcs : ∀ c ∈ cs, c.Takes) {d : Desk σ} (hd : d.store = .memory m)
    (hlive : d.around.isCancelled context = false) :
    ∃ rs, (Work.calls cs).run srv context d
      = (rs, none, { d with store := .memory (m.afterCalls cs) }) := by
  induction cs generalizing m d with
  | nil => exact ⟨[], by simp [calls, run, Memory.afterCalls, ← hd]⟩
  | cons c cs ih =>
    obtain ⟨herror, hopen'⟩ := Memory.perform_of_takes hopen (hcs c List.mem_cons_self)
    obtain ⟨rs, hrest⟩ := ih hopen' (fun c hc => hcs c (List.mem_cons_of_mem _ hc))
      (d := { d with store := .memory (m.perform false c).2 }) rfl hlive
    refine ⟨.called c (m.perform false c).1 :: rs, ?_⟩
    simp [calls, run, Desk.step, hd, Store.perform, hlive, Outcome.error?, herror, hrest,
      Memory.afterCalls]

def Reply.error? : Reply → Option Error
  | .outcome (.ran _ _ e) => e
  | .outcome r => r.error?
  | .result e => e
  | .nothing | .opened _ => none

namespace Session

/-- A session with a storage in memory and one transaction on it, which can be committed. -/
def holding (m : Memory) (name context : String) (staged : Memory) (o : Surroundings σ) :
    Session σ :=
  { store := some (.memory m)
    transactions := ⟨[(name, { context := context, scope := .memory staged })]⟩
    around := o }

theorem obey_begin {m : Memory} (hopen : m.closed = false) (hlive : o.isCancelled context = false)
    (name : String) :
    ({ store := some (.memory m), around := o } : Session σ).obey srv (.step context (.begin name))
      = (.outcome (.began name none), holding m name context m.stage o) := by
  rw [obey_step rfl]
  simp [desk, withDesk, holding, Desk.step, Store.begin, hlive, hopen, Desk.keep]

theorem obey_send {m staged : Memory} (hopen : staged.closed = false) {cs : List Call}
    (hcs : ∀ c ∈ cs, c.Takes) (hlive : o.isCancelled context = false) (name : String) :
    ∃ rs, (holding m name context staged o).obey srv (.send name (.calls cs))
      = (.outcome (.ran name rs none), holding m name context (staged.afterCalls cs) o) := by
  obtain ⟨rs, hrun⟩ := Work.run_calls srv hopen hcs
    (d := { store := .memory staged, around := o }) rfl hlive
  refine ⟨rs, ?_⟩
  simp [obey, desk, withDesk, holding, Desk.send, Transaction.send, Work.act, Desk.apart,
    Desk.dropAll, hrun, hlive]

theorem obey_commit (m : Memory) (name context : String) (staged : Memory) (o : Surroundings σ) :
    ∃ t, (holding m name context staged o).obey srv (.step context (.commit name))
      = (.outcome (.committed name none),
        { store := some (.memory (m.merge staged))
          transactions := ⟨[(name, t)]⟩
          around := o }) := by
  rw [obey_step rfl]
  refine ⟨{ context := context, scope := .memory staged, finished := true }, ?_⟩
  simp [desk, withDesk, holding, Desk.step, Transaction.commit, Transaction.engineCommit]

theorem obeyAll_calls {m : Memory} (hopen : m.closed = false) {cs : List Call}
    (hcs : ∀ c ∈ cs, c.Takes) (hlive : o.isCancelled context = false) :
    ∃ rs, obeyAll srv (cs.map fun c => .step context (.call c))
        ({ store := some (.memory m), around := o } : Session σ)
      = (rs, { store := some (.memory (m.afterCalls cs)), around := o })
      ∧ ∀ r ∈ rs, r.error? = none := by
  induction cs generalizing m with
  | nil => exact ⟨[], rfl, by simp⟩
  | cons c cs ih =>
    obtain ⟨herror, hopen'⟩ := Memory.perform_of_takes hopen (hcs c List.mem_cons_self)
    obtain ⟨rs, hrest, hrs⟩ := ih hopen' fun c hc => hcs c (List.mem_cons_of_mem _ hc)
    refine ⟨.outcome (.called c (m.perform false c).1) :: rs, ?_,
      List.forall_mem_cons.mpr ⟨herror, hrs⟩⟩
    simp only [List.map_cons, obeyAll, obey_call srv hlive, hrest]
    rfl

theorem obeyAll_sends {m staged d : Memory} {gone : List String} (h : m.Beside staged d gone)
    {units : List (List Call)} (hunits : ∀ cs ∈ units, ∀ c ∈ cs, c.Takes)
    (hlive : o.isCancelled context = false) (name : String) :
    ∃ rs staged', obeyAll srv (units.map fun cs => .send name (.calls cs))
        (holding m name context staged o) = (rs, holding m name context staged' o)
      ∧ (∀ r ∈ rs, r.error? = none)
      ∧ m.Beside staged' (d.afterCalls units.flatten)
        (gone ++ units.flatten.flatMap Call.truncated) := by
  induction units generalizing staged d gone with
  | nil => exact ⟨[], staged, rfl, by simp, by simpa [Memory.afterCalls] using h⟩
  | cons cs units ih =>
    have hcs := hunits cs List.mem_cons_self
    obtain ⟨steps, hsend⟩ := obey_send srv (m := m) h.staged_open hcs hlive name
    obtain ⟨rs, staged', hrest, hrs, hbeside⟩ := ih (h.afterCalls hcs)
      fun cs hcs => hunits cs (List.mem_cons_of_mem _ hcs)
    refine ⟨.outcome (.ran name steps none) :: rs, staged', ?_,
      List.forall_mem_cons.mpr ⟨rfl, hrs⟩, ?_⟩
    · simp only [List.map_cons, obeyAll, hsend, hrest]
    · simpa [Memory.afterCalls, List.foldl_append] using hbeside

/-- Calls that an open storage in memory takes, made directly or in the units of a transaction that
is then committed, with nobody else in between. Everything succeeds both ways, and the storage has
the same tables. But where a table was truncated and had records before, the commit leaves these in
front of what the direct calls leave; so the records are the same if and only if no truncated table
had any. -/
theorem commit_spares_truncated {m : Memory} (hopen : m.closed = false)
    (hlive : o.isCancelled context = false) (name : String) {units : List (List Call)}
    (hunits : ∀ cs ∈ units, ∀ c ∈ cs, c.Takes) :
    let n : Session σ := { store := some (.memory m), around := o }
    let direct := obeyAll srv (units.flatten.map fun c => .step context (.call c)) n
    let whole := obeyAll srv (.step context (.begin name)
      :: units.map (fun cs => .send name (.calls cs)) ++ [.step context (.commit name)]) n
    let gone := units.flatten.flatMap Call.truncated
    (∀ r ∈ direct.1 ++ whole.1, r.error? = none)
      ∧ ∃ d w, direct.2.store = some (.memory d) ∧ whole.2.store = some (.memory w)
        ∧ (∀ key, w.tables.contains key = d.tables.contains key)
        ∧ (∀ key, w.records key = (if key ∈ gone then m.records key else []) ++ d.records key)
        ∧ ((∀ key, w.records key = d.records key) ↔ ∀ key ∈ gone, m.records key = []) := by
  intro n direct whole gone
  have hcalls : ∀ c ∈ units.flatten, c.Takes := by
    intro c hc
    obtain ⟨cs, hcs, hmem⟩ := List.mem_flatten.mp hc
    exact hunits cs hcs c hmem
  obtain ⟨rs, hdirect, hrs⟩ := obeyAll_calls srv hopen hcalls hlive
  obtain ⟨rs', staged, hsends, hrs', hbeside⟩ :=
    obeyAll_sends srv (Memory.Beside.start hopen) hunits hlive name
  obtain ⟨t, hcommit⟩ := obey_commit srv m name context staged o
  have hwhole : whole = (.outcome (.began name none) :: rs' ++ [.outcome (.committed name none)],
      { store := some (.memory (m.merge staged))
        transactions := ⟨[(name, t)]⟩
        around := o }) := by
    show obeyAll srv _ n = _
    rw [obeyAll_append]
    simp only [obeyAll, n, obey_begin srv hopen hlive, hsends, hcommit]
  have hrecords : ∀ key, (m.merge staged).records key
      = (if key ∈ gone then m.records key else []) ++ (m.afterCalls units.flatten).records key :=
    fun key => (hbeside.merge key).2
  refine ⟨?_, m.afterCalls units.flatten, m.merge staged, by rw [show direct = _ from hdirect],
    by rw [hwhole], fun key => (hbeside.merge key).1, hrecords, ?_⟩
  · rw [show direct = _ from hdirect, hwhole]
    intro r hr
    simp only [List.mem_append, List.mem_cons, List.not_mem_nil, or_false] at hr
    rcases hr with hr | (rfl | hr) | rfl
    exacts [hrs r hr, rfl, hrs' r hr, rfl]
  · constructor
    · intro hsame key hkey
      have := hrecords key
      rw [hsame, if_pos hkey] at this
      simpa using this
    · intro hempty key
      rw [hrecords]
      split_ifs with hkey
      · rw [hempty key hkey, List.nil_append]
      · rfl

/-- A table that had no records is truncated: the commit leaves what the direct calls leave. -/
theorem commit_spares_truncated_empty :
    let m := ({} : Memory).insert { table := "a", data := [1] }
    let units : List (List Call) := [[.upsert { table := "a", data := [2] }],
      [.truncate [⟨"", "b"⟩], .upsert { table := "b", data := [3] }]]
    ∃ d w, (obeyAll Postgres.Script.server (units.flatten.map fun c => .step "ctx" (.call c))
          { store := some (.memory m), around := { server := {} } }).2.store = some (.memory d)
      ∧ (obeyAll Postgres.Script.server (.step "ctx" (.begin "t")
          :: units.map (fun cs => .send "t" (.calls cs)) ++ [.step "ctx" (.commit "t")])
          { store := some (.memory m), around := { server := {} } }).2.store = some (.memory w)
      ∧ ∀ key, w.records key = d.records key := by
  intro m units
  have hunits : ∀ cs ∈ units, ∀ c ∈ cs, c.Takes := by
    simp [units, Call.Takes]
  have hlive : ({ server := {} } : Surroundings Postgres.Script).isCancelled "ctx" = false := rfl
  obtain ⟨-, d, w, hd, hw, -, -, hsame⟩ :=
    commit_spares_truncated Postgres.Script.server (m := m) rfl hlive "t" hunits
  exact ⟨d, w, hd, hw, hsame.mpr (by decide +kernel)⟩

/-- A table that had records is truncated, directly or in the only unit of a transaction, and
everything succeeds. Directly truncated it is empty, but after the commit the records are still
there. -/
theorem truncated_records_survive_commit :
    let n : Session Postgres.Script :=
      { store := some (.memory (({} : Memory).insert { table := "a", data := [1] }))
        around := { server := {} } }
    let direct := obeyAll Postgres.Script.server [.step "ctx" (.call (.truncate [⟨"", "a"⟩]))] n
    let whole := obeyAll Postgres.Script.server [.step "ctx" (.begin "t"),
      .send "t" (.calls [.truncate [⟨"", "a"⟩]]), .step "ctx" (.commit "t")] n
    (∀ r ∈ direct.1 ++ whole.1, r.error? = none)
      ∧ ∃ d w, direct.2.store = some (.memory d) ∧ whole.2.store = some (.memory w)
        ∧ d.records "a" = [] ∧ w.records "a" = [[1]] :=
  ⟨by decide +kernel, _, _, rfl, rfl, by decide +kernel, by decide +kernel⟩

end Session

end Ingest.Store

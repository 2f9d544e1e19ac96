import Ingest.Proofs.Store.Holders
import Ingest.Proofs.Store.Keeping
import Ingest.Proofs.Store.Moments

/-!
# Who holds the connections

Whatever is done at a desk and by units of work, at any depth, each connection that was attempted and
not finished yet is held by the storage or by one transaction. Each step keeps the books
(`Desk.Kept.step`), and so does a unit, which works over the connection that its transaction has
opened and no other (`Work.passed_run`).
-/

namespace Ingest.Store

open Postgres (Books Hold LogEntry Script Turn)

namespace Moment

/-- The connections that the step opens, if it begins a transaction. -/
def opened (m : Moment Script) : Set Nat :=
  {n | (∃ name, m.step = .begin name) ∧ m.before.attempts < n ∧ n ≤ m.after.attempts}

/-- The connection of a unit's scope, if the step closes it. -/
def closed (m : Moment Script) : Set Nat :=
  {n | m.step = .call .close ∧ ∃ scope, m.unit = some scope ∧ scope.connection? = some n}

/-- A call in a unit adds to the log what it sends over the connection of the scope, and nothing
else. -/
def Confined (m : Moment Script) : Prop :=
  ∀ scope c, m.unit = some scope → m.step = .call c → ∃ es, m.after.log = m.before.log ++ es
    ∧ ∀ e ∈ es, ∃ n, scope.connection? = some n
      ∧ (c = .close ∧ e = .finished n ∨ ∃ q, c.Sends q ∧ e = .sent n q.wire)

@[simp] theorem opened_begin (unit : Option Store) (name : String) (before after : Script) :
    (⟨unit, .begin name, before, after⟩ : Moment Script).opened
      = Set.Ioc before.attempts after.attempts := by
  ext n
  simp [opened]

@[simp] theorem closed_begin (unit : Option Store) (name : String) (before after : Script) :
    (⟨unit, .begin name, before, after⟩ : Moment Script).closed = ∅ := by
  ext n
  simp [closed]

/-- A unit's step is confined, and its transaction opened the connection of the scope. -/
structure Fair (B : Set Nat) (m : Moment Script) : Prop where
  confined : m.Confined
  opened : ∀ scope n, m.unit = some scope → scope.connection? = some n → n ∈ B

theorem Fair.mono {B B' : Set Nat} {m : Moment Script} (h : m.Fair B) (hB : B ⊆ B') :
    m.Fair B' :=
  ⟨h.confined, fun scope n hunit hn => hB (h.opened scope n hunit hn)⟩

def openedIn (ms : List (Moment Script)) : Set Nat :=
  {n | ∃ m ∈ ms, n ∈ m.opened}

def closedIn (ms : List (Moment Script)) : Set Nat :=
  {n | ∃ m ∈ ms, n ∈ m.closed}

section

variable (m : Moment Script) (ms ms' : List (Moment Script))

@[simp] theorem openedIn_nil : openedIn [] = ∅ := by simp [openedIn]

@[simp] theorem closedIn_nil : closedIn [] = ∅ := by simp [closedIn]

@[simp] theorem openedIn_cons : openedIn (m :: ms) = m.opened ∪ openedIn ms := by
  ext n; simp [openedIn]

@[simp] theorem closedIn_cons : closedIn (m :: ms) = m.closed ∪ closedIn ms := by
  ext n; simp [closedIn]

@[simp] theorem openedIn_append : openedIn (ms ++ ms') = openedIn ms ∪ openedIn ms' := by
  ext n; simp [openedIn, or_and_right, exists_or]

@[simp] theorem closedIn_append : closedIn (ms ++ ms') = closedIn ms ∪ closedIn ms' := by
  ext n; simp [closedIn, or_and_right, exists_or]

end

/-- What depends on the connections that transactions have opened and units have closed is true after
moments, each of which is fair. -/
structure Passed (K : Set Nat → Set Nat → Prop) (B C : Set Nat) (ms : List (Moment Script)) :
    Prop where
  kept : K (B ∪ openedIn ms) (C ∪ closedIn ms)
  fair : ∀ m ∈ ms, m.Fair (B ∪ openedIn ms)

namespace Passed

variable {K K' : Set Nat → Set Nat → Prop} {B C : Set Nat} {ms ms' : List (Moment Script)}

theorem nil (h : K B C) : Passed K B C [] :=
  ⟨by simpa using h, by simp⟩

theorem trans (h : Passed K B C ms)
    (h' : Passed K' (B ∪ openedIn ms) (C ∪ closedIn ms) ms') : Passed K' B C (ms ++ ms') := by
  obtain ⟨hkept, hfair⟩ := h'
  rw [Set.union_assoc, ← openedIn_append] at hkept hfair
  rw [Set.union_assoc, ← closedIn_append] at hkept
  refine ⟨hkept, List.forall_mem_append.mpr ⟨fun m hm => (h.fair m hm).mono ?_, hfair⟩⟩
  rw [openedIn_append, ← Set.union_assoc]
  exact Set.subset_union_left

theorem mono (h : Passed K B C ms) (hK : ∀ B C, K B C → K' B C) : Passed K' B C ms :=
  ⟨hK _ _ h.kept, h.fair⟩

end Passed

end Moment

/-! ### At a desk -/

/-- As what a desk's storage is held: by the transaction whose unit works there, or by itself. -/
def scopeHold (unit : Option Store) : Hold :=
  if unit.isSome then .begun [] else .direct

theorem scopeHold_cases (unit : Option Store) :
    scopeHold unit = .direct ∨ scopeHold unit = .begun [] := by
  cases unit <;> simp [scopeHold]

namespace Desk

variable {σ : Type}

def holders (unit : Option Store) (d : Desk σ) : List (Nat × Hold) :=
  d.store.holders (scopeHold unit) ++ d.transactions.entries.flatMap fun e => e.2.holders

/-- All who hold connections but the transaction of a name. -/
def others (unit : Option Store) (name : String) (d : Desk σ) : List (Nat × Hold) :=
  ({ d with transactions := d.transactions.erase name } : Desk σ).holders unit

theorem perm_holders {d : Desk σ} (h : d.transactions.Sorted) {name : String} {t : Transaction}
    (ht : d.transactions.get? name = some t) (unit : Option Store) :
    (d.holders unit).Perm (t.holders ++ d.others unit name) := by
  have hperm := (h.perm_of_get? ht).flatMap_right fun e => e.2.holders
  rw [List.flatMap_cons] at hperm
  exact (hperm.append_left _).trans (List.perm_append_comm_assoc _ _ _)

theorem attempts_keep (d : Desk Script) (name : String) (t : Transaction) :
    (d.keep Script.server name t).around.server.attempts = d.around.server.attempts := by
  unfold Desk.keep
  rcases d.transactions.get? name with _ | before
  · rfl
  · exact before.attempts_drop d.around

/-- At a desk where a unit works, or nobody's unit, the books are kept. -/
structure Kept (s₀ : Script) (unit : Option Store) (G : List (Nat × Hold)) (d : Desk Script)
    (B C : Set Nat) : Prop where
  books : Books s₀ B C (d.holders unit ++ G) d.around.server
  sorted : d.transactions.Sorted
  proper : ∀ e ∈ d.transactions.entries, e.2.Proper
  /-- A unit works with the connection that its transaction has opened, until it closes it. -/
  within : ∀ scope ∈ unit, (d.store.connection? = scope.connection? ∨ d.store.connection? = none)
    ∧ ∀ n ∈ scope.connection?, n ∈ B

namespace Kept

variable {s₀ : Script} {unit : Option Store} {B B' C C' : Set Nat} {G : List (Nat × Hold)}
  {d : Desk Script} {name : String} {t : Transaction}

/-- The books, with the transaction of a name first. -/
theorem books_of_get? (h : Kept s₀ unit G d B C) (ht : d.transactions.get? name = some t) :
    Books s₀ B C (t.holders ++ (d.others unit name ++ G)) d.around.server := by
  refine h.books.perm ?_
  rw [← List.append_assoc]
  exact (perm_holders h.sorted ht unit).append_right G

theorem proper_of_get? (h : Kept s₀ unit G d B C) (ht : d.transactions.get? name = some t) :
    t.Proper :=
  h.proper _ (Catalog.mem_of_get? ht)

/-- What lies around the desk changes, by no one who holds a connection here. -/
theorem withAround (h : Kept s₀ unit G d B C) {o : Surroundings Script} {G' : List (Nat × Hold)}
    (hbooks : Books s₀ B C (d.holders unit ++ G') o.server) :
    Kept s₀ unit G' { d with around := o } B C :=
  ⟨hbooks, h.sorted, h.proper, h.within⟩

/-- A transaction takes the place of the one that has a name. -/
theorem set (h : Kept s₀ unit G d B C) (ht : t.Proper) {s : Store}
    (hs : s.connection? = d.store.connection?) {o : Surroundings Script} (hB : B ⊆ B')
    (hbooks : Books s₀ B' C' (t.holders ++ (d.others unit name ++ G)) o.server) :
    Kept s₀ unit G { store := s, transactions := d.transactions.set name t, around := o } B' C' where
  books := by
    refine hbooks.perm ?_
    have hperm := (h.sorted.perm_set name t).flatMap_right fun e => e.2.holders
    rw [List.flatMap_cons] at hperm
    rw [← List.append_assoc]
    refine List.Perm.append_right G ?_
    refine (List.perm_append_comm_assoc _ _ _).trans ?_
    rw [holders, holders_congr hs]
    exact hperm.symm.append_left _
  sorted := h.sorted.set name t
  proper := Catalog.forall_mem_insert ht h.proper
  within scope hscope := by
    obtain ⟨hstore, hmem⟩ := h.within scope hscope
    exact ⟨hs ▸ hstore, fun n hn => hB (hmem n hn)⟩

/-- Without the transaction of a name. -/
theorem erase (h : Kept s₀ unit G d B C) {o : Surroundings Script}
    (hbooks : Books s₀ B C (d.others unit name ++ G) o.server) :
    Kept s₀ unit G { d with transactions := d.transactions.erase name, around := o } B C where
  books := hbooks
  sorted := h.sorted.erase name
  proper e he := h.proper e (List.mem_of_mem_filter he)
  within := h.within

/-- A call that does not close the storage leaves it its connection. -/
theorem call (h : Kept s₀ unit G d B C) {c : Call} (hc : c ≠ .close) (cancelled : Bool) :
    Kept s₀ unit G { d with
      store := (d.store.perform Script.server cancelled c d.around.server).2.1
      around := { d.around with
        server := (d.store.perform Script.server cancelled c d.around.server).2.2 } } B C := by
  have hconnection := (d.store.talks_perform Script.server cancelled hc d.around.server).2
  refine ⟨?_, h.sorted, h.proper, fun scope hscope => ?_⟩
  · have hbooks := h.books
    rw [holders, List.append_assoc] at hbooks ⊢
    exact books_perform (scopeHold_cases unit) hbooks hc cancelled
  · show (_ = _ ∨ _ = _) ∧ _
    rw [hconnection]
    exact h.within scope hscope

/-- To close a scope is to finish the connection of its transaction. -/
theorem close (h : Kept s₀ unit G d B C) :
    Kept s₀ unit G
      { d with
        store := (d.store.close Script.server d.around.server).1
        around := { d.around with
          server := (d.store.close Script.server d.around.server).2 } }
      B (C ∪ {n | ∃ scope, unit = some scope ∧ scope.connection? = some n}) := by
  have hnone := connection?_close Script.server d.store d.around.server
  refine ⟨?_, h.sorted, h.proper, fun scope hscope => ⟨.inr hnone, (h.within scope hscope).2⟩⟩
  have hbooks := h.books
  rw [holders, List.append_assoc] at hbooks ⊢
  rw [close_snd, holders_of_none hnone]
  refine books_release (hbooks.mono (Set.subset_union_left)) fun n ts hn hts => ?_
  cases unit with
  | none => exact Hold.Fits.settled_direct hts
  | some scope =>
    refine Hold.Fits.settled_begun (.inr ⟨scope, rfl, ?_⟩) hts
    have hwithin := (h.within scope rfl).1
    rw [hn] at hwithin
    exact (hwithin.resolve_right (Option.some_ne_none n)).symm

/-- A transaction that has begun takes a name, and the one that had it ends. -/
theorem keep (h : Kept s₀ unit G d B C) (ht : t.Proper) {o : Surroundings Script} (hB : B ⊆ B')
    (hbooks : Books s₀ B' C (t.holders ++ (d.holders unit ++ G)) o.server) :
    Kept s₀ unit G (({ d with around := o } : Desk Script).keep Script.server name t) B' C := by
  refine h.set ht rfl hB ?_
  rcases hbefore : d.transactions.get? name with _ | before <;> simp only
  · rwa [others, Catalog.erase_of_get?_eq_none hbefore]
  · refine Transaction.books_drop (h.proper_of_get? hbefore) (hbooks.perm ?_)
    have hperm := (perm_holders h.sorted hbefore unit).append_right G
    rw [List.append_assoc] at hperm
    exact (hperm.append_left _).trans (List.perm_append_comm_assoc _ _ _)

theorem step (h : Kept s₀ unit G d B C) (context : String) (a : Step) :
    let d' := (d.step Script.server context a).2
    let m : Moment Script := ⟨unit, a, d.around.server, d'.around.server⟩
    Kept s₀ unit G d' (B ∪ m.opened) (C ∪ m.closed) := by
  have hbegin := books_begin h.books context d.store rfl
  refine d.step_cases Script.server context a ?call ?cancel ?notBegun ?begun ?absent ?commit
    ?rollback ?drop
  case call =>
    rintro c rfl
    by_cases hc : c = .close
    · subst hc
      rw [perform_close]
      simpa [Moment.opened, Moment.closed] using h.close
    · simpa [Moment.opened, Moment.closed, hc] using h.call hc _
  case cancel =>
    rintro rfl
    simpa [Moment.opened, Moment.closed] using ⟨h.books, h.sorted, h.proper, h.within⟩
  case notBegun =>
    rintro name rfl e o hr
    rw [hr] at hbegin
    simp only [Moment.opened_begin, Moment.closed_begin, Set.union_empty]
    exact ⟨hbegin, h.sorted, h.proper, fun scope hscope =>
      ⟨(h.within scope hscope).1, fun n hn => .inl ((h.within scope hscope).2 n hn)⟩⟩
  case begun =>
    rintro name rfl t o hr
    rw [hr] at hbegin
    simp only [Moment.opened_begin, Moment.closed_begin, Set.union_empty, attempts_keep]
    exact h.keep hbegin.1 Set.subset_union_left hbegin.2
  case absent =>
    rintro name (rfl | rfl | rfl) - <;> simpa [Moment.opened, Moment.closed] using h
  case commit =>
    rintro name rfl t ht
    obtain ⟨hproper, hbooks⟩ :=
      Transaction.books_commit (h.proper_of_get? ht) d.store (h.books_of_get? ht)
    have hparent := t.connection?_commit d.store d.around
    simpa [Moment.opened, Moment.closed] using h.set hproper hparent subset_rfl hbooks
  case rollback =>
    rintro name rfl t ht
    obtain ⟨hproper, hbooks⟩ :=
      Transaction.books_rollback (h.proper_of_get? ht) (h.books_of_get? ht)
    simpa [Moment.opened, Moment.closed] using h.set hproper rfl subset_rfl hbooks
  case drop =>
    rintro name rfl t ht
    have hbooks := Transaction.books_drop (h.proper_of_get? ht) (h.books_of_get? ht)
    simpa [Moment.opened, Moment.closed] using h.erase hbooks

/-- At a unit's desk a call does nothing but to send over the connection of the scope. -/
theorem fair (h : Kept s₀ unit G d B C) (context : String) (a : Step) :
    (⟨unit, a, d.around.server, (d.step Script.server context a).2.around.server⟩ :
      Moment Script).Fair B := by
  refine ⟨?_, fun scope n hunit hn => (h.within scope hunit).2 n hn⟩
  rintro scope c rfl rfl
  have hconnection : ∀ {n}, d.store.connection? = some n → scope.connection? = some n := by
    intro n hn
    have hwithin := (h.within scope rfl).1
    rw [hn] at hwithin
    exact (hwithin.resolve_right (Option.some_ne_none n)).symm
  by_cases hc : c = .close
  · subst hc
    simp only [Desk.step, perform_close, close_snd]
    rcases hstore : d.store.connection? with _ | n
    · rw [release_of_none hstore]
      exact ⟨[], by simp, by simp⟩
    · rw [release_of_some hstore]
      refine ⟨[.finished n], rfl, ?_⟩
      rw [List.forall_mem_singleton]
      exact ⟨n, hconnection hstore, .inl ⟨trivial, rfl⟩⟩
  · obtain ⟨es, hes, hsent⟩ := Postgres.Script.follows_of_talks
      (d.store.talks_perform Script.server (d.around.isCancelled context) hc
        d.around.server).1
    refine ⟨es, hes.log, fun e he => ?_⟩
    obtain ⟨n, q, hn, hq, rfl⟩ := hsent e he
    exact ⟨n, hconnection hn, .inr ⟨q, hq, rfl⟩⟩

/-- The end of all transactions at a desk. -/
theorem dropAll (h : Kept s₀ unit G d B C) :
    Books s₀ B C (d.store.holders (scopeHold unit) ++ G)
      (d.dropAll Script.server).around.server := by
  have hbooks : Books s₀ B C (d.transactions.entries.flatMap (fun e => e.2.holders)
      ++ (d.store.holders (scopeHold unit) ++ G)) d.around.server := by
    refine h.books.perm ?_
    rw [holders, List.append_assoc]
    exact List.perm_append_comm_assoc _ _ _
  have hproper := h.proper
  show Books s₀ B C _ (d.transactions.entries.foldr (fun e o => e.2.drop Script.server o)
    d.around).server
  generalize d.store.holders (scopeHold unit) ++ G = G' at hbooks
  generalize d.transactions.entries = es at hbooks hproper
  induction es generalizing G' with
  | nil => exact hbooks
  | cons e es ih =>
    obtain ⟨he, hes⟩ := List.forall_mem_cons.mp hproper
    rw [List.flatMap_cons, List.append_assoc] at hbooks
    exact Transaction.books_drop he
      (ih _ (hbooks.perm (List.perm_append_comm_assoc _ _ _)) hes)

/-- The desk of a unit over the scope of a transaction that goes on. -/
theorem scope (h : Kept s₀ unit G d B C) (ht : d.transactions.get? name = some t)
    (hunfinished : t.finished = false) : Kept s₀ (some t.scope) (d.others unit name ++ G)
      { store := t.scope, around := d.around } B C where
  books := by
    have hbooks := h.books_of_get? ht
    rw [Transaction.holders_of_unfinished hunfinished] at hbooks
    simpa [holders, scopeHold] using hbooks
  sorted := Catalog.sorted_empty
  proper := by simp
  within := by
    intro scope hscope
    obtain rfl := Option.mem_some.mp hscope
    refine ⟨.inl rfl, fun n hn => ?_⟩
    have hbooks := h.books_of_get? ht
    rw [Transaction.holders_of_unfinished hunfinished, holders_of_some hn] at hbooks
    exact (hbooks.held _ List.mem_cons_self).2.2.1

theorem passed_step (h : Kept s₀ unit G d B C) (context : String) (a : Step) :
    Moment.Passed (Kept s₀ unit G (d.step Script.server context a).2) B C
      [⟨unit, a, d.around.server, (d.step Script.server context a).2.around.server⟩] where
  kept := by simpa using h.step context a
  fair := by
    rw [List.forall_mem_singleton]
    exact (h.fair context a).mono Set.subset_union_left

/-- The connection of a transaction is for its unit to work with until the unit ends. -/
theorem passed_send (h : Kept s₀ unit G d B C) (name : String) {work : Work}
    (hwork : ∀ scope context G d B C, Kept s₀ (some scope) G d B C →
      Moment.Passed (Kept s₀ (some scope) G (work.run Script.server context d).2.2) B C
        (work.moments Script.server (some scope) context d)) :
    Moment.Passed (Kept s₀ unit G (d.send (work.act Script.server) name).2) B C (d.unitMoments
      (fun scope context d => work.moments Script.server (some scope) context d) name) := by
  rcases ht : d.transactions.get? name with _ | t <;>
    simp only [Desk.send, unitMoments, ht]
  · exact .nil h
  have hproper := h.proper_of_get? ht
  cases hruns : t.runs d.around with
  | false =>
    obtain ⟨failure, o, hsend, ho⟩ := Transaction.send_of_not_runs hruns (work.act Script.server)
    simp only [hsend, Bool.false_eq_true, if_false]
    refine .nil (h.set (hproper.of_scope (.inl rfl) failure t.finished) rfl subset_rfl ?_)
    have hbooks := h.books_of_get? ht
    rwa [← ho] at hbooks
  | true =>
    have hunfinished := Transaction.unfinished_of_runs hruns
    have hunit := hwork t.scope t.context _ _ B C (h.scope ht hunfinished)
    have hbooks := hunit.kept.dropAll
    have hwithin := (hunit.kept.within t.scope rfl).1
    simp only [Transaction.send_of_runs hruns, Work.act, apart, if_true]
    rcases hrun : work.run Script.server t.context
        { store := t.scope, around := d.around } with ⟨rs, e, d'⟩
    rw [hrun] at hbooks hwithin
    refine ⟨h.set (hproper.of_scope hwithin _ t.finished) rfl Set.subset_union_left ?_, hunit.fair⟩
    rwa [Transaction.holders_of_unfinished (by exact hunfinished)]

end Kept

end Desk

/-- A unit of work, whatever it does with its scope and the transactions on it. -/
theorem Work.passed_run {s₀ : Script} (work : Work) {unit : Option Store} (context : String)
    {G : List (Nat × Hold)} {d : Desk Script} {B C : Set Nat} (h : d.Kept s₀ unit G B C) :
    Moment.Passed ((work.run Script.server context d).2.2.Kept s₀ unit G) B C
      (work.moments Script.server unit context d) := by
  induction work generalizing unit context G d B C with
  | done e => exact .nil h
  | step a next ih =>
    have hstep := h.passed_step context a
    exact hstep.trans (ih _ context hstep.kept)
  | send name work next ihwork ih =>
    have hsend := h.passed_send name fun scope context G d B C hd => ihwork context hd
    exact hsend.trans (ih _ context hsend.kept)

end Ingest.Store

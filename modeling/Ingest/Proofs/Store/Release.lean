import Ingest.Proofs.Store.Closing
import Ingest.Proofs.Store.Connections

/-!
# Every connection is released

Sessions side by side, each with a storage that comes and goes: each command keeps the books of the
server that they share (`Sessions.Kept.obey`). When all transactions and storages have ended nobody
holds a connection any more, and so each has had a whole life (`Sessions.connections_released`).
-/

namespace Ingest.Store

open Postgres (Books Hold LogEntry Script Turn)

variable {s₀ w : Script} {B C : Set Nat} {G : List (Nat × Hold)}

theorem books_openAt (h : Books s₀ B C G w) (address : String) :
    match openAt Script.server address w with
    | (.error _, w') => Books s₀ B C G w'
    | (.ok s, w') => Books s₀ B C (s.holders .direct ++ G) w' := by
  have hconnect := books_connect (p := { conninfo := address }) (G := G) h
  unfold openAt
  rcases Text.cut "://".toList address.toList with _ | ⟨scheme, rest⟩ <;> simp only
  · exact h
  split_ifs
  · exact h
  · rw [connect_of_none rfl] at hconnect ⊢
    rcases hrefusal : (w.connect (untilNul address)).1.2 with _ | message <;>
      simp only [hrefusal] at hconnect ⊢ <;> exact hconnect
  · exact h

/-! ### One session -/

namespace Session

variable {n : Session Script} {ms : List (Moment Script)}

theorem kept_withDesk {d : Desk Script} (hd : d.Kept s₀ none G B C)
    (hnone : n.store = none → d.store.connection? = none) :
    (n.withDesk d).desk.Kept s₀ none G B C := by
  cases hstore : n.store with
  | none =>
    refine ⟨?_, hd.sorted, hd.proper, by simp⟩
    have hbooks := hd.books
    rw [Desk.holders, holders_of_none (hnone hstore)] at hbooks
    simpa [withDesk, desk, hstore, Desk.holders, holders, connection?] using hbooks
  | some s =>
    rw [desk_withDesk (by simp [hstore])]
    exact hd

/-- A storage takes the place of the one that is there, which is released. -/
theorem kept_replaceStore {s : Store} (h : n.desk.Kept s₀ none (s.holders .direct ++ G) B C) :
    (n.replaceStore Script.server s).desk.Kept s₀ none G B C := by
  refine ⟨?_, h.sorted, h.proper, by simp⟩
  have hbooks : Books s₀ B C (n.desk.store.holders .direct ++ (s.holders .direct
      ++ (n.transactions.entries.flatMap (fun e => e.2.holders) ++ G))) n.around.server := by
    refine h.books.perm ?_
    rw [Desk.holders, List.append_assoc]
    exact (List.perm_append_comm_assoc _ _ _).append_left _
  show Books s₀ B C (s.holders .direct ++ n.transactions.entries.flatMap (fun e => e.2.holders)
    ++ G) (n.replaceStore Script.server s).around.server
  rw [List.append_assoc]
  cases hstore : n.store with
  | none => simpa [replaceStore, desk, hstore, holders, connection?] using hbooks
  | some before =>
    simp only [desk, hstore, Option.getD_some] at hbooks
    simp only [replaceStore, hstore]
    exact books_release hbooks fun n ts _ hts => hts.settled_direct

/-- The end of all transactions and of the storage. -/
theorem books_dropAll (h : n.desk.Kept s₀ none G B C) :
    Books s₀ B C G (n.dropAll Script.server).around.server := by
  have hbooks := h.dropAll
  cases hstore : n.store with
  | none => simpa [dropAll, desk, hstore, holders, connection?] using hbooks
  | some s =>
    simp only [desk, hstore, Option.getD_some] at hbooks
    simp only [dropAll, desk, hstore, Option.getD_some]
    exact books_release hbooks fun n ts _ hts => hts.settled_direct

/-- What is done with a session's own storage, not by a unit, and does not attempt a connection. -/
theorem passed_idle (h : n.desk.Kept s₀ none G B C) (a : Step) (w : Script) :
    Moment.Passed (n.desk.Kept s₀ none G) B C [⟨none, a, w, w⟩] := by
  have hopened : Moment.opened ⟨none, a, w, w⟩ = ∅ := by
    ext k
    simp [Moment.opened]
  have hclosed : Moment.closed ⟨none, a, w, w⟩ = ∅ := by
    simp [Moment.closed]
  refine ⟨by simpa [hopened, hclosed] using h, ?_⟩
  rw [List.forall_mem_singleton]
  exact ⟨by simp [Moment.Confined], by simp⟩

/-- Only steps on the storage itself change its connection. -/
theorem connection?_step {a : Step} (ha : needsStore a = false) (context : String)
    (d : Desk Script) :
    (d.step Script.server context a).2.store.connection? = d.store.connection? := by
  refine d.step_cases Script.server context a ?call ?cancel ?notBegun ?begun ?absent ?commit
    ?rollback ?drop
  case call | notBegun | begun =>
    rintro _ rfl
    cases ha
  case commit => exact fun name _ t _ => t.connection?_commit d.store d.around
  case cancel | absent | rollback | drop => intros; rfl

theorem obey_passed (h : n.desk.Kept s₀ none G B C) (c : Command) :
    Moment.Passed ((n.obey Script.server c).2.desk.Kept s₀ none G) B C
      (n.moments Script.server c) := by
  have hdesk : n.store = none → n.desk.store.connection? = none := fun hnone => by
    simp [desk, hnone, connection?]
  cases c with
  | step context a =>
    cases hidle : n.store.isNone && needsStore a with
    | true =>
      have hobey : n.obey Script.server (.step context a) = (.nothing, n) := by
        simp only [obey, hidle, if_true]
      simp only [moments, hobey]
      exact passed_idle h a _
    | false =>
      have hobey : n.obey Script.server (.step context a)
          = (.outcome (n.desk.step Script.server context a).1,
            n.withDesk (n.desk.step Script.server context a).2) := by
        simp only [obey, hidle, Bool.false_eq_true, if_false]
      have hstep := h.passed_step context a
      simp only [moments, hobey]
      refine hstep.mono fun B C hd => kept_withDesk hd fun hnone => ?_
      rw [connection?_step (by simpa [hnone] using hidle)]
      exact hdesk hnone
  | send name unit =>
    have hsend := h.passed_send name fun scope context G d B C hd => unit.passed_run context hd
    refine hsend.mono fun B C hd => kept_withDesk hd fun hnone => ?_
    have hstore := store_send (unit.act Script.server) name n.desk
    exact (congrArg connection? hstore).trans (hdesk hnone)
  | openAt address =>
    have hopen := books_openAt h.books address
    rcases hs : openAt Script.server address n.around.server with ⟨e | s, w⟩ <;>
      simp only [obey, show n.desk.around = n.around from rfl, hs] at hopen ⊢
    · exact .nil (h.withAround hopen)
    · refine .nil (kept_replaceStore (n := { n with around := { n.around with server := w } })
        (h.withAround (hopen.perm (List.perm_append_comm_assoc _ _ _))))
  | unconnected conninfo => exact .nil (kept_replaceStore (s := .postgres _) h)
  | connect =>
    rcases hstore : n.store with _ | m | p <;> simp only [obey, hstore]
    · exact .nil h
    · exact .nil h
    · have hbooks := h.books
      simp only [Desk.holders, desk, hstore, Option.getD_some, List.append_assoc] at hbooks
      refine .nil ⟨?_, h.sorted, h.proper, by simp⟩
      rw [Desk.holders, List.append_assoc]
      exact books_connect hbooks
  | beginScripted context name commit rollback =>
    refine .nil (kept_withDesk (h.keep (.inr rfl) subset_rfl h.books) fun hnone => ?_)
    simp [Desk.keep, desk, hnone, connection?]
  | dropAll =>
    exact .nil ⟨books_dropAll h, Catalog.sorted_empty, by simp [obey, dropAll, desk], by simp⟩

end Session

/-! ### Sessions that share a server -/

def Seat.holders (seat : Seat) : List (Nat × Hold) :=
  (seat.store.getD (.memory {})).holders .direct
    ++ seat.transactions.entries.flatMap fun e => e.2.holders

namespace Sessions

/-- All connections are held at one seat or another. -/
structure Kept (s₀ : Script) (ss : Sessions Script) (B C : Set Nat) : Prop where
  books : Books s₀ B C (ss.seats.entries.flatMap fun e => e.2.holders) ss.around.server
  sorted : ss.seats.Sorted
  seats : ∀ e ∈ ss.seats.entries, e.2.transactions.Sorted
    ∧ ∀ t ∈ e.2.transactions.entries, t.2.Proper

namespace Kept

variable {ss : Sessions Script}

/-- What the seats hold that have other names. -/
theorem session (h : Kept s₀ ss B C) (name : String) :
    ((ss.seat name).session ss.around).desk.Kept s₀ none
      ((ss.seats.erase name).entries.flatMap fun e => e.2.holders) B C := by
  rcases hseat : ss.seats.get? name with _ | seat
  · rw [Catalog.erase_of_get?_eq_none hseat]
    simp only [seat, hseat, Option.getD_none]
    exact ⟨h.books, Catalog.sorted_empty, by simp [Seat.session, Session.desk], by simp⟩
  · obtain ⟨hsorted, hproper⟩ := h.seats _ (Catalog.mem_of_get? hseat)
    simp only [Sessions.seat, hseat, Option.getD_some]
    refine ⟨h.books.perm ?_, hsorted, hproper, by simp⟩
    have hperm := (h.sorted.perm_of_get? hseat).flatMap_right fun e => e.2.holders
    rwa [List.flatMap_cons] at hperm

theorem set (h : Kept s₀ ss B C) {B' C' : Set Nat} {name : String} {n : Session Script}
    (hn : n.desk.Kept s₀ none ((ss.seats.erase name).entries.flatMap fun e => e.2.holders) B' C') :
    Kept s₀ { seats := ss.seats.set name ⟨n.store, n.transactions⟩, around := n.around } B' C' where
  books := by
    refine hn.books.perm ?_
    have hperm := (h.sorted.perm_set name ⟨n.store, n.transactions⟩).flatMap_right
      fun e => e.2.holders
    rw [List.flatMap_cons] at hperm
    exact hperm.symm
  sorted := h.sorted.set name _
  seats := Catalog.forall_mem_insert ⟨hn.sorted, hn.proper⟩ h.seats

theorem passed_obey (h : Kept s₀ ss B C) (c : String × Command) :
    Moment.Passed (Kept s₀ (ss.obey Script.server c)) B C
      (((ss.seat c.1).session ss.around).moments Script.server c.2) :=
  (Session.obey_passed (h.session c.1) c.2).mono fun _ _ hn => h.set hn

theorem passed_obeyAll (h : Kept s₀ ss B C) (cs : List (String × Command)) :
    Moment.Passed (Kept s₀ (ss.obeyAll Script.server cs)) B C
      (moments Script.server cs ss) := by
  induction cs generalizing ss B C with
  | nil => exact .nil h
  | cons c cs ih =>
    have hobey := h.passed_obey c
    exact hobey.trans (ih hobey.kept)

/-- The end of everything at every seat. -/
theorem dropAll (h : Kept s₀ ss B C) : Books s₀ B C [] (ss.dropAll Script.server).server := by
  obtain ⟨hbooks, -, hseats⟩ := h
  unfold Sessions.dropAll
  generalize ss.seats.entries = es at hbooks hseats
  rw [← List.append_nil (es.flatMap _)] at hbooks
  generalize ([] : List (Nat × Hold)) = G at hbooks ⊢
  induction es generalizing G with
  | nil => exact hbooks
  | cons e es ih =>
    obtain ⟨⟨hsorted, hproper⟩, hes⟩ := List.forall_mem_cons.mp hseats
    rw [List.flatMap_cons, List.append_assoc] at hbooks
    have hrest := ih hes _ (hbooks.perm (List.perm_append_comm_assoc _ _ _))
    exact Session.books_dropAll (n := e.2.session _) ⟨hrest, hsorted, hproper, by simp⟩

end Kept

/-- Connections are released, whatever is done. There is a server that answers connection attempts and
statements by any script, and any number of storages on it, in PostgreSQL or in memory, each of which
may be put in place of another, connected and closed at any time. Any steps are made on them and on
transactions, by turns and under contexts that are cancelled at any time, with units of work that do
the same with their scopes to any depth. Once all transactions and storages have ended:

* each connection that was attempted has a whole life. A refused attempt is finished at once;
  otherwise statements come after it, then its end once and nothing more;
* on a connection that a transaction opened comes `BEGIN` first. If that fails the connection is
  finished at once. Otherwise statements of calls come after it and then `COMMIT`, or `ROLLBACK`, or
  `COMMIT` that failed and `ROLLBACK`, unless a unit has closed the scope;
* a unit works on a connection that its transaction has opened, and a call on its scope sends
  statements of its own over that connection and no other. -/
theorem connections_released (connects : List (Option String))
    (replies : List (Except String Postgres.Reply)) (cancelled : List String)
    (cs : List (String × Command)) :
    let start : Script := { connects := connects, replies := replies }
    let ss : Sessions Script := { around := { server := start, cancelled := cancelled } }
    let ms := moments Script.server cs ss
    let s := ((ss.obeyAll Script.server cs).dropAll Script.server).server
    (∀ n, 0 < n → n ≤ s.attempts → Turn.Whole (start.transcript n s.log))
      ∧ (∀ n, n = 0 ∨ s.attempts < n → start.transcript n s.log = [])
      ∧ (∀ n ∈ Moment.openedIn ms,
        Turn.OfTransaction (n ∈ Moment.closedIn ms) (start.transcript n s.log))
      ∧ ∀ m ∈ ms, m.Fair (Moment.openedIn ms) := by
  intro start ss ms s
  have hfresh : Kept start ss ∅ ∅ := ⟨.fresh rfl rfl, Catalog.sorted_empty, by simp [ss]⟩
  obtain ⟨hkept, hfair⟩ := hfresh.passed_obeyAll cs
  have hbooks := hkept.dropAll
  simp only [Set.empty_union] at hbooks hfair
  have hpos : ∀ n ∈ Moment.openedIn ms, 0 < n := by
    rintro n ⟨m, -, -, hlt, -⟩
    omega
  refine ⟨fun n hn hle => (hbooks.settled n hn hle (by simp)).1, hbooks.unused, fun n hn => ?_,
    hfair⟩
  exact (hbooks.settled n (hpos n hn) (hbooks.attempted n hn) (by simp)).2 hn

end Sessions

end Ingest.Store

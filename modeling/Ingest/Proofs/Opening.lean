import Ingest.Proofs.Store.Release
import Ingest.Proofs.Truncation

/-!
# Storages from their opening to their release

What the program asks a server for beside its run: one connection for each address that needs one, in
order (`Cli.openAll_eq_none`), one statement for each connection to empty the tables
(`Cli.truncateAll_eq_none_log`), and in the end that each is finished (`Cli.log_releaseAll`). What fails
ends the row there (`Cli.openAll_eq_some`, `Cli.truncateAll_eq_some`). Opening, emptying and releasing
keep the books on the connections.
-/

namespace Ingest

open Store Store.Postgres

namespace Store

/-- What a server is dialled with to open the storage at an address. -/
def dialled? (address : String) : Option String :=
  (Text.cut "://".toList address.toList).bind fun p =>
    if String.ofList p.1 = "postgres" ∨ String.ofList p.1 = "postgresql" then some (untilNul address)
    else none

theorem openAt_cases (address : String) (w : Script) :
    (dialled? address = none ∧ (openAt Script.server address w).2 = w
      ∧ ∀ s, (openAt Script.server address w).1 = .ok s → s.connection? = none)
    ∨ (∃ c s, dialled? address = some c ∧ s.connection? = some (w.attempts + 1)
      ∧ openAt Script.server address w = (.ok s, (w.connect c).2))
    ∨ ∃ c e, dialled? address = some c
      ∧ openAt Script.server address w = (.error e, (w.connect c).2.finish (w.attempts + 1)) := by
  unfold openAt dialled?
  rcases Text.cut "://".toList address.toList with _ | ⟨scheme, rest⟩
  · simp
  simp only [Option.bind_some]
  by_cases hmemory : String.ofList scheme = "memory"
  · simp [hmemory, connection?]
  by_cases hserver : String.ofList scheme = "postgres" ∨ String.ofList scheme = "postgresql"
  · right
    simp only [hmemory, hserver, if_false, if_true, connect_of_none]
    rcases (w.connect (untilNul address)).1.2 with _ | message
    · exact .inl ⟨_, _, rfl, rfl, rfl⟩
    · exact .inr ⟨_, _, rfl, rfl⟩
  · simp [hmemory, hserver]

/-- Who holds the connections of storages. -/
def heldBy (stores : List Store) : List (ℕ × Hold) :=
  stores.flatMap (holders .direct)

theorem heldBy_congr {stores stores' : List Store}
    (h : stores'.map connection? = stores.map connection?) : heldBy stores' = heldBy stores := by
  have hmap : ∀ l : List Store,
      heldBy l = (l.map connection?).flatMap fun c => c.toList.map fun n => (n, .direct) := by
    intro l
    rw [List.flatMap_map]
    rfl
  rw [hmap, hmap, h]

end Store

namespace Cli

/-- The connections of storages, in order. -/
def connections (stores : List Store) : List ℕ :=
  stores.filterMap Store.connection?

/-- The attempts to connect to what addresses name, in order and numbered from `n` on. -/
def dialling (n : ℕ) (addresses : List String) : List LogEntry :=
  ((addresses.filterMap Store.dialled?).zipIdx n).map fun d => .connected d.2 d.1

/-- Tables are emptied over the connections of storages, in order. -/
def emptying (ds : List Destination) (stores : List Store) : List LogEntry :=
  (connections stores).map fun n => .sent n (Statement.truncate ds).wire

/-- The connections of storages are finished, in order. -/
def finishing (stores : List Store) : List LogEntry :=
  (connections stores).map .finished

variable {ds : List Destination} {addresses : List String} {opened stores stores' : List Store}
  {e : Error} {s₀ w w' : Script} {B C : Set ℕ} {G : List (ℕ × Hold)}

section

variable {ρ : Type} {srv : Server ρ} {v v' : ρ}

/-- Opening stops at the first address that is no good. -/
theorem openAll_eq_some (h : openAll srv addresses opened v = (some e, stores, v')) :
    ∃ good bad rest u, addresses = good ++ bad :: rest
      ∧ openAll srv good opened v = (none, stores, u) ∧ openAt srv bad u = (.error e, v') := by
  induction addresses generalizing opened v with
  | nil => simp [openAll] at h
  | cons address rest ih =>
    unfold openAll at h
    rcases ho : openAt srv address v with ⟨e' | s, u⟩ <;> simp only [ho] at h
    · obtain ⟨rfl, rfl, rfl⟩ := by simpa only [Prod.mk.injEq, Option.some.injEq] using h
      exact ⟨[], address, rest, v, rfl, rfl, ho⟩
    · obtain ⟨good, bad, rest', u', rfl, hgood, hbad⟩ := ih h
      exact ⟨address :: good, bad, rest', u', rfl, by simp only [openAll, ho, hgood], hbad⟩

/-- Emptying stops at the first storage that fails. -/
theorem truncateAll_eq_some (h : truncateAll srv ds stores v = (some e, stores', v')) :
    ∃ good bad rest good' bad' u, stores = good ++ bad :: rest
      ∧ truncateAll srv ds good v = (none, good', u)
      ∧ bad.truncate srv false ds u = (some e, bad', v') ∧ stores' = good' ++ bad' :: rest := by
  induction stores generalizing stores' v with
  | nil => simp [truncateAll] at h
  | cons s rest ih =>
    unfold truncateAll at h
    rcases ht : s.truncate srv false ds v with ⟨_ | e', s', u⟩ <;>
      simp only [ht, Prod.mk.injEq, Option.some.injEq] at h
    · obtain ⟨herror, rfl, rfl⟩ := h
      obtain ⟨good, bad, rest', good', bad', u', rfl, hgood, hbad, heq⟩ := ih (Prod.ext herror rfl)
      refine ⟨s :: good, bad, rest', s' :: good', bad', u', rfl, ?_, hbad, by rw [heq]; rfl⟩
      simp only [truncateAll, ht, hgood]
    · obtain ⟨rfl, rfl, rfl⟩ := h
      exact ⟨[], s, rest, [], s', v, rfl, rfl, ht, rfl⟩

/-- To close the storages releases them, and leaves nothing to be released. -/
theorem closeAll_eq (srv : Server ρ) (stores : List Store) (v : ρ) :
    connections (closeAll srv stores v).1 = [] ∧ (closeAll srv stores v).2 = releaseAll srv stores v := by
  induction stores generalizing v with
  | nil => exact ⟨rfl, rfl⟩
  | cons s rest ih =>
    obtain ⟨hnone, hrest⟩ := ih (s.close srv v).2
    refine ⟨?_, ?_⟩
    · show connections ((s.close srv v).1 :: (closeAll srv rest (s.close srv v).2).1) = []
      rw [connections, List.filterMap_cons_none (s.connection?_close srv v)]
      exact hnone
    · show (closeAll srv rest (s.close srv v).2).2 = releaseAll srv rest (s.release srv v)
      rw [hrest, close_snd]

theorem releaseAll_of_connections_eq_nil (h : connections stores = []) (v : ρ) :
    releaseAll srv stores v = v := by
  induction stores with
  | nil => rfl
  | cons s rest ih =>
    obtain ⟨hs, hrest⟩ := List.forall_mem_cons.mp (List.filterMap_eq_nil_iff.mp h)
    show releaseAll srv rest (s.release srv v) = v
    rw [release_of_none hs]
    exact ih (List.filterMap_eq_nil_iff.mpr hrest)

end

/-! ### What is logged -/

/-- All are opened: each address that needs a connection has brought one, in order. -/
theorem openAll_eq_none (h : openAll Script.server addresses opened w = (none, stores, w')) :
    w'.log = w.log ++ dialling (w.attempts + 1) addresses
      ∧ connections stores = connections opened
        ++ List.range' (w.attempts + 1) (addresses.filterMap Store.dialled?).length
      ∧ w'.attempts = w.attempts + (addresses.filterMap Store.dialled?).length := by
  induction addresses generalizing opened w with
  | nil =>
    obtain ⟨rfl, rfl⟩ := by simpa [openAll] using h
    simp [dialling]
  | cons address rest ih =>
    unfold openAll at h
    rcases openAt_cases address w with ⟨hnone, hsame, hno⟩ | ⟨c, s, hc, hs, ho⟩ | ⟨c, e, hc, ho⟩
    · rcases ho : openAt Script.server address w with ⟨e | s, u⟩ <;> simp only [ho] at h
      · cases h
      obtain ⟨hlog, hconnections, hattempts⟩ := ih h
      obtain rfl : u = w := by rw [ho] at hsame; exact hsame
      have hs := hno s (by rw [ho])
      simp only [dialling, List.filterMap_cons_none hnone]
      refine ⟨hlog, ?_, hattempts⟩
      rw [hconnections, connections, connections, List.filterMap_append,
        List.filterMap_cons_none hs, List.filterMap_nil, List.append_nil]
    · simp only [ho] at h
      obtain ⟨hlog, hconnections, hattempts⟩ := ih h
      simp only [dialling, List.filterMap_cons_some hc, List.zipIdx_cons, List.map_cons,
        List.length_cons, List.range'_succ]
      refine ⟨?_, ?_, ?_⟩
      · rw [hlog]
        show w.log ++ [_] ++ _ = _
        rw [List.append_assoc]
        rfl
      · rw [hconnections, connections, List.filterMap_append, List.filterMap_cons_some hs]
        simp [connections, Script.connect]
      · rw [hattempts]
        simp only [Script.connect]
        omega
    · simp only [ho] at h
      cases h

/-- A storage that empties its tables tells so over its connection, and keeps it. -/
theorem truncate_log (hds : ds ≠ []) (s : Store) (w : Script) :
    (s.truncate Script.server false ds w).2.2.log = w.log ++ emptying ds [s]
      ∧ (s.truncate Script.server false ds w).2.1.connection? = s.connection? := by
  cases s with
  | memory m => exact ⟨(List.append_nil _).symm, rfl⟩
  | postgres p =>
    have hnonempty : ds.isEmpty = false := by simpa using hds
    refine ⟨?_, rfl⟩
    simp only [Store.truncate, Postgres.truncate, hnonempty, Bool.false_eq_true, if_false]
    rcases hp : p.connection with _ | n
    · simp [Postgres.execute, hp, emptying, connections, connection?]
    · have hsent : (p.execute Script.server (.truncate ds) w).2.log
          = w.log ++ [.sent n (Statement.truncate ds).wire] := by
        rw [execute_snd hp]
        rfl
      rcases hreply : p.execute Script.server (.truncate ds) w with ⟨e | r, u⟩ <;>
        rw [hreply] at hsent <;> simpa [emptying, connections, connection?, hp] using hsent

theorem truncateAll_eq_none_log (hds : ds ≠ [])
    (h : truncateAll Script.server ds stores w = (none, stores', w')) :
    w'.log = w.log ++ emptying ds stores
      ∧ stores'.map Store.connection? = stores.map Store.connection? := by
  induction stores generalizing stores' w with
  | nil =>
    obtain ⟨rfl, rfl⟩ := by simpa [truncateAll] using h
    simp [emptying, connections]
  | cons s rest ih =>
    obtain ⟨hlog, hs⟩ := truncate_log hds s w
    unfold truncateAll at h
    rcases ht : s.truncate Script.server false ds w with ⟨_ | e, s', u⟩ <;>
      simp only [ht, Prod.mk.injEq, reduceCtorEq, false_and] at h hlog hs
    obtain ⟨herror, rfl, rfl⟩ := h
    obtain ⟨hlog', hrest⟩ := ih (w := u) (Prod.ext herror rfl)
    refine ⟨?_, by rw [List.map_cons, List.map_cons, hs, hrest]⟩
    rw [hlog', hlog, List.append_assoc, emptying, emptying, emptying, ← List.map_append, connections,
      connections, connections, ← List.filterMap_append, List.singleton_append]

theorem log_releaseAll (stores : List Store) (w : Script) :
    (releaseAll Script.server stores w).log = w.log ++ finishing stores := by
  induction stores generalizing w with
  | nil => exact (List.append_nil _).symm
  | cons s rest ih =>
    show (releaseAll Script.server rest (s.release Script.server w)).log = _
    rw [ih]
    rcases hs : s.connection? with _ | n
    · rw [release_of_none hs, finishing, finishing, connections, connections,
        List.filterMap_cons_none hs]
    · rw [release_of_some hs, finishing, finishing, connections, connections,
        List.filterMap_cons_some hs, List.map_cons]
      show w.log ++ [_] ++ _ = _
      rw [List.append_assoc]
      rfl

theorem connections_congr (h : stores'.map Store.connection? = stores.map Store.connection?) :
    connections stores' = connections stores := by
  have hmap : ∀ l : List Store, connections l = (l.map Store.connection?).filterMap id := by
    intro l
    rw [List.filterMap_map]
    rfl
  rw [hmap, hmap, h]

/-! ### Books -/

theorem books_openAll (h : Books s₀ B C (heldBy opened) w) (addresses : List String) :
    Books s₀ B C (heldBy (openAll Script.server addresses opened w).2.1)
      (openAll Script.server addresses opened w).2.2 := by
  induction addresses generalizing opened w with
  | nil => exact h
  | cons address rest ih =>
    have hopen := books_openAt h address
    unfold openAll
    rcases ho : openAt Script.server address w with ⟨e | s, u⟩ <;> simp only [ho] at hopen ⊢
    · exact hopen
    · refine ih ?_
      have hsplit : heldBy (opened ++ [s]) = heldBy opened ++ s.holders .direct := by simp [heldBy]
      rw [hsplit]
      exact hopen.perm List.perm_append_comm

theorem books_truncateAll (h : Books s₀ B C (heldBy stores ++ G) w) (ds : List Destination) :
    Books s₀ B C (heldBy (truncateAll Script.server ds stores w).2.1 ++ G)
      (truncateAll Script.server ds stores w).2.2 := by
  induction stores generalizing w G with
  | nil => exact h
  | cons s rest ih =>
    have hcons : ∀ (s : Store) (l : List Store), heldBy (s :: l) = s.holders .direct ++ heldBy l :=
      fun s l => rfl
    rw [hcons, List.append_assoc] at h
    have hs : Books s₀ B C ((s.truncate Script.server false ds w).2.1.holders .direct
        ++ (heldBy rest ++ G)) (s.truncate Script.server false ds w).2.2 := by
      have := books_perform (.inl rfl) h (c := .truncate ds) Call.noConfusion false
      cases s <;> exact this
    unfold truncateAll
    rcases ht : s.truncate Script.server false ds w with ⟨_ | e, s', u⟩ <;> simp only [ht] at hs ⊢
    · have hrest := ih (hs.perm (List.perm_append_comm_assoc _ _ _))
      rw [hcons, List.append_assoc]
      exact hrest.perm (List.perm_append_comm_assoc _ _ _)
    · rw [hcons, List.append_assoc]
      exact hs

theorem books_releaseAll (h : Books s₀ B C (heldBy stores ++ G) w) :
    Books s₀ B C G (releaseAll Script.server stores w) := by
  induction stores generalizing w with
  | nil => exact h
  | cons s rest ih =>
    have hcons : heldBy (s :: rest) = s.holders .direct ++ heldBy rest := rfl
    rw [hcons, List.append_assoc] at h
    exact ih (books_release h fun n ts _ hts => hts.settled_direct)

end Cli

end Ingest

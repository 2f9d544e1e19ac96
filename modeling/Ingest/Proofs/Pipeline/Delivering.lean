import Ingest.Proofs.Pipeline.Delivery
import Ingest.Proofs.Pipeline.Fetching

/-!
# Every payload is written once

A delivery among all that can happen around it (`Delivery.Event`): payloads are submitted and the
queue is closed, before the start or after it, the couriers step in any order, contexts are
cancelled, and others record errors and change the world. `deeds` tells what becomes of the payloads
meanwhile, by what the queue and the storages answer. A payload is passed to a storage where a
courier calls it and nowhere else (`Staged.calls`).

`writes_each_payload_once` says that no payload is lost or taken twice, and that a courier passes
what it has taken to all storages, one after the other, whichever of them fail.
-/

namespace Ingest.Pipeline

variable {σ : Type}

/-- A payload at each of `n` storages, in their order. -/
def visits (n : ℕ) (u : Upsert) : List (ℕ × Upsert) :=
  (List.range n).map fun j => (j, u)

theorem drop_visits_of_lt {j n : ℕ} (h : j < n) (u : Upsert) :
    (visits n u).drop j = (j, u) :: (visits n u).drop (j + 1) := by
  rw [List.drop_eq_getElem_cons (by simpa [visits] using h)]
  simp [visits]

theorem drop_visits_of_le {j n : ℕ} (h : n ≤ j) (u : Upsert) : (visits n u).drop j = [] :=
  List.drop_eq_nil_of_le (by simpa [visits] using h)

/-- The visits that a courier has yet to make with the payload in hand. -/
@[simp] def Courier.ahead (n : ℕ) : Courier → List (ℕ × Upsert)
  | holding _ (.value u) => visits n u
  | writing u j => (visits n u).drop j
  | noting u j _ _ => (visits n u).drop (j + 1)
  | entering | waiting _ | holding _ .closed | holding _ .cancelled | leaving | gone => []

namespace Delivery

/-- What can happen to a delivery and around it. -/
inductive Event (σ : Type) where
  | start
  | submit (u : Upsert)
  | work (k : ℕ)
  | close
  | cancel (context : String)
  /-- Somebody else records an error. -/
  | note (slot : ℕ) (e : Error)
  /-- Somebody else changes the world. -/
  | elsewhere (w : σ)

/-- What somebody else notes. -/
def Event.noted? : Event σ → Option (ℕ × Error)
  | note slot e => some (slot, e)
  | _ => none

/-- A delivery after an event. None if the event cannot happen now; a delivery starts once. -/
def act? (sv : Services σ) (context : String) (workers : ℕ) (t : Delivery × Shared σ) :
    Event σ → Option (Delivery × Shared σ)
  | .start => if t.1.arrivals.isNone then some (t.1.start context workers, t.2) else none
  | .submit u => (t.1.submit? u).map fun p => (p.2, t.2)
  | .work k => t.1.step? sv k t.2
  | .close => some (t.1.close, t.2)
  | .cancel context => some (t.1, t.2.cancel context)
  | .note slot e => some (t.1, t.2.note slot e)
  | .elsewhere w => some (t.1, { t.2 with world := w })

/-- What is done to a payload, or to the queue. -/
inductive Deed where
  | accept (u : Upsert)
  | close
  | take (courier : ℕ) (u : Upsert)
  /-- A courier passes a payload to a storage of some type, which answers. -/
  | pass (courier storage : ℕ) (type : String) (u : Upsert) (answer : Except Error ℕ)

namespace Deed

@[simp] def accepted? : Deed → Option Upsert
  | accept u => some u
  | close | take _ _ | pass _ _ _ _ _ => none

@[simp] def taken? : Deed → Option Upsert
  | take _ u => some u
  | accept _ | close | pass _ _ _ _ _ => none

@[simp] def takenBy? (k : ℕ) : Deed → Option Upsert
  | take courier u => if courier = k then some u else none
  | accept _ | close | pass _ _ _ _ _ => none

/-- What courier `k` passes, with the number of the storage. -/
@[simp] def passedBy? (k : ℕ) : Deed → Option (ℕ × Upsert)
  | pass courier storage _ u _ => if courier = k then some (storage, u) else none
  | accept _ | close | take _ _ => none

/-- What storage `j` is passed. -/
@[simp] def passedTo? (j : ℕ) : Deed → Option Upsert
  | pass _ storage _ u _ => if storage = j then some u else none
  | accept _ | close | take _ _ => none

/-- A failed write, as it is to be recorded. -/
@[simp] def failure? : Deed → Option Error
  | pass _ _ type u (.error e) => some (failure u type e)
  | pass _ _ _ _ (.ok _) | accept _ | close | take _ _ => none

@[simp] def isSuccess : Deed → Bool
  | pass _ _ _ _ (.ok _) => true
  | pass _ _ _ _ (.error _) | accept _ | close | take _ _ => false

@[simp] def write? : Deed → Option Write
  | pass courier storage type u answer =>
    some ⟨storage, u, failure? (pass courier storage type u answer)⟩
  | accept _ | close | take _ _ => none

theorem filterMap_passedTo? (j : ℕ) (log : List Deed) :
    log.filterMap (passedTo? j)
      = ((log.filterMap write?).filter fun w => w.storage = j).map Write.upsert := by
  induction log with
  | nil => rfl
  | cons x log ih =>
    cases x with
    | pass c k type u a => by_cases hk : k = j <;> simp [hk, ih]
    | _ => simpa [List.filterMap_cons] using ih

theorem filterMap_failure? (log : List Deed) :
    log.filterMap failure? = (log.filterMap write?).filterMap Write.failure := by
  rw [List.filterMap_filterMap]
  refine List.filterMap_congr fun x _ => ?_
  cases x <;> rfl

end Deed

/-- What is done in an event. -/
def deeds (sv : Services σ) (t : Delivery × Shared σ) : Event σ → List Deed
  | .submit u =>
    match t.1.submit? u with
    | some (true, _) => [.accept u]
    | _ => []
  | .close => [.close]
  | .work k =>
    match t.1.couriers[k]? with
    | some (.waiting _) =>
      match t.1.queue.receiveUnless? (t.2.isCancelled t.1.context) with
      | some (.value u, _) => [.take k u]
      | _ => []
    | some (.writing u j) =>
      match sv.writers[j]? with
      | some storage =>
        [.pass k j storage.type u
          (storage.upsert (t.2.isCancelled t.1.context) u t.2.world).1]
      | none => []
    | _ => []
  | _ => []

/-! ### The deeds of a courier's step -/

theorem Serves.deeds {sv : Services σ} {t : Delivery × Shared σ} {k : ℕ} {c c' : Courier}
    {d' : Delivery} {s' : Shared σ} (h : Serves sv t.1 t.2 c c' d' s')
    (hc : t.1.couriers[k]? = some c) :
    ∃ ds, deeds sv t (.work k) = ds
      ∧ ds.filterMap Deed.accepted? = [] ∧ Deed.close ∉ ds
      ∧ d'.taken = t.1.taken ++ ds.filterMap Deed.taken?
      ∧ d'.writes = t.1.writes ++ ds.filterMap Deed.write?
      ∧ d'.upserted = t.1.upserted + ds.countP Deed.isSuccess
      ∧ ds.filterMap (Deed.passedBy? k) ++ c'.ahead sv.writers.length
        = c.ahead sv.writers.length
          ++ (ds.filterMap (Deed.takenBy? k)).flatMap (visits sv.writers.length)
      ∧ ∀ j, k ≠ j →
        ds.filterMap (Deed.passedBy? j) = [] ∧ ds.filterMap (Deed.takenBy? j) = [] := by
  cases h with
  | cancelled hcancel =>
    refine ⟨[], by simp only [Delivery.deeds, hc, Queue.receiveUnless?, hcancel, if_true], ?_⟩
    simp
  | @take l u rest hi hopen =>
    refine ⟨[.take k u], ?_, ?_⟩
    · simp [Delivery.deeds, hc, Queue.receiveUnless?, Queue.receive?, hopen, hi]
    · simp +contextual
  | finish hi hclosed hopen =>
    refine ⟨[], ?_, by simp⟩
    simp [Delivery.deeds, hc, Queue.receiveUnless?, Queue.receive?, hopen, hi, hclosed]
  | quit hr => exact ⟨[], by simp only [Delivery.deeds, hc], by rcases hr with rfl | rfl <;> simp⟩
  | complete hj =>
    refine ⟨[], by simp only [Delivery.deeds, hc, hj], ?_⟩
    simp [drop_visits_of_le (List.getElem?_eq_none_iff.mp hj)]
  | @write u j m storage w hj hu =>
    refine ⟨[.pass k j storage.type u (.ok m)], by simp only [Delivery.deeds, hc, hj, hu], ?_⟩
    simp +contextual [drop_visits_of_lt (List.getElem?_eq_some_iff.mp hj).1]
  | @fail u j storage e w hj hu =>
    refine ⟨[.pass k j storage.type u (.error e)], by simp only [Delivery.deeds, hc, hj, hu], ?_⟩
    simp +contextual [drop_visits_of_lt (List.getElem?_eq_some_iff.mp hj).1]
  | _ => exact ⟨[], by simp only [Delivery.deeds, hc], by simp⟩

/-! ### What a history keeps -/

variable {sv : Services σ} {context : String} {workers n : ℕ} {t t' : Delivery × Shared σ}
  {e : Event σ} {log : List Deed}

/-- Either nothing has been taken yet, or all couriers are there. -/
def Staged (n : ℕ) (context : String) (workers : ℕ) (t : Delivery × Shared σ) : Prop :=
  t.1.Idle ∨ (t.1.context = context ∧ t.1.couriers.length = workers ∧ t.1.Counted
    ∧ t.1.Sound n (t.2.isCancelled context))

theorem Staged.step (h : Staged sv.writers.length context workers t) {k : ℕ}
    (ht : t.1.step? sv k t.2 = some t') : Staged sv.writers.length context workers t' := by
  rcases h with hidle | ⟨hcontext, hlength, hcounted, hsound⟩
  · obtain ⟨c, -, -, hc, -⟩ := step?_cases ht
    simp [hidle.couriers] at hc
  · obtain ⟨c, c', d₁, -, hserves, hd⟩ := step?_cases ht
    have hkept : t'.1.context = context := (step?_frame ht).1.trans hcontext
    refine .inr ⟨hkept, ?_, hcounted.step ht, ?_⟩
    · rw [hd]
      simpa using hlength
    · subst hcontext
      have := hsound.step ht
      rwa [hkept] at this

theorem start_cases (h : Staged n context workers t)
    (ht : act? sv context workers t .start = some t') :
    t.1.Idle ∧ t' = (t.1.start context workers, t.2) := by
  simp only [act?] at ht
  split_ifs at ht with hnone
  refine ⟨?_, (Option.some.inj ht).symm⟩
  rcases h with hidle | ⟨-, -, ⟨c, hc, -⟩, -⟩
  · exact hidle
  · simp [hc] at hnone

theorem Staged.act (hw : 0 < workers) (h : Staged sv.writers.length context workers t)
    (ht : act? sv context workers t e = some t') :
    Staged sv.writers.length context workers t' := by
  have hquiet : t'.1 = t.1 → (t.2.isCancelled context = true → t'.2.isCancelled context = true) →
      Staged sv.writers.length context workers t' := by
    rintro heq hcancelled
    unfold Staged
    rw [heq]
    exact h.imp_right fun ⟨h1, h2, h3, h4⟩ => ⟨h1, h2, h3, h4.mono hcancelled⟩
  cases e with
  | start =>
    obtain ⟨hidle, rfl⟩ := start_cases h ht
    exact .inr ⟨rfl, by simp [Delivery.start], .start _ _ _, .start hidle _ hw _ _⟩
  | submit u =>
    obtain ⟨⟨accepted, d⟩, hd, rfl⟩ := Option.map_eq_some_iff.mp ht
    rcases submit?_cases hd with ⟨-, -, rfl⟩ | ⟨hopen, -, rfl⟩
    · exact h
    · refine h.imp (fun hidle => ?_) fun ⟨h1, h2, h3, h4⟩ => ⟨h1, h2, h3, h4.submit hopen⟩
      exact { hidle with queued := by simp [hidle.queued] }
  | work k => exact h.step ht
  | close =>
    obtain rfl := Option.some.inj ht
    exact h.imp (fun hidle => ⟨hidle.1, hidle.2, hidle.3, hidle.4, hidle.5, hidle.6⟩)
      fun ⟨h1, h2, h3, h4⟩ => ⟨h1, h2, h3, h4.close⟩
  | cancel other =>
    obtain rfl := Option.some.inj ht
    exact hquiet rfl fun hc => by rw [Shared.isCancelled_cancel, hc, Bool.or_true]
  | note slot e =>
    obtain rfl := Option.some.inj ht
    exact hquiet rfl id
  | elsewhere w =>
    obtain rfl := Option.some.inj ht
    exact hquiet rfl id

/-- What happens is the call of a storage by a courier: with its answer it is what is done, and the
world is as the call leaves it. Or else nothing is passed to a storage, and the same happens whatever
the storages do. -/
theorem Staged.calls (h : Staged n context workers t)
    (ht : act? sv context workers t e = some t') :
    (∃ k j u storage answer, e = .work k ∧ t.1.couriers[k]? = some (.writing u j)
        ∧ sv.writers[j]? = some storage
        ∧ storage.upsert (t.2.isCancelled context) u t.2.world = (answer, t'.2.world)
        ∧ deeds sv t e = [.pass k j storage.type u answer])
      ∨ (deeds sv t e).filterMap Deed.write? = [] ∧ ∀ writers : List (Writer σ),
        writers.length = sv.writers.length →
          act? { sv with writers := writers } context workers t e = some t' := by
  cases e with
  | work k =>
    obtain ⟨c, c', d₁, hc, hserves, hd⟩ := step?_cases ht
    rcases step?_calls ht with ⟨j, u, storage, answer, -, hwriting, hj, hcall, -⟩ | ⟨hwrites, hsame⟩
    · have hcontext : t.1.context = context := by
        rcases h with hidle | ⟨hcontext, -⟩
        · simp [hidle.couriers] at hc
        · exact hcontext
      rw [hcontext] at hcall
      refine .inl ⟨k, j, u, storage, answer, rfl, hwriting, hj, hcall, ?_⟩
      simp only [deeds, hwriting, hj, hcontext, hcall]
    · obtain ⟨ds, hds, -, -, -, hnoted, -⟩ := hserves.deeds hc
      rw [hd] at hwrites
      rw [hds]
      exact .inr ⟨List.append_right_eq_self.mp (hnoted.symm.trans hwrites), hsame⟩
  | submit u =>
    refine .inr ⟨?_, fun _ _ => ht⟩
    simp only [deeds]
    split <;> rfl
  | _ => exact .inr ⟨rfl, fun _ _ => ht⟩

/-- The log of what is done to the payloads agrees with what the delivery knows of itself. -/
structure Logged (n : ℕ) (log : List Deed) (d : Delivery) : Prop where
  accepted : log.filterMap Deed.accepted? = d.accepted
  taken : log.filterMap Deed.taken? = d.taken
  writes : log.filterMap Deed.write? = d.writes
  upserted : log.countP Deed.isSuccess = d.upserted
  /-- A courier has passed what it has taken to all storages, but for what is still ahead. -/
  visited : ∀ k, log.filterMap (Deed.passedBy? k)
      ++ d.couriers[k]?.toList.flatMap (Courier.ahead n)
    = (log.filterMap (Deed.takenBy? k)).flatMap (visits n)
  closed : Deed.close ∈ log → d.queue.closed = true
  ordered : log.Pairwise fun before after => before = .close → after.accepted? = none

theorem Logged.ofCapacity (n capacity slot : ℕ) : Logged n [] (ofCapacity capacity slot) := by
  constructor <;> simp [Delivery.ofCapacity]

/-- Deeds that accept nothing keep the order of the log. -/
theorem Logged.ordered_append {d : Delivery} (h : Logged n log d) {ds : List Deed}
    (hds : ds.filterMap Deed.accepted? = []) :
    (log ++ ds).Pairwise fun before after => before = .close → after.accepted? = none := by
  have hnone := List.filterMap_eq_nil_iff.mp hds
  refine List.pairwise_append.mpr ⟨h.ordered, ?_, fun _ _ b hb _ => hnone b hb⟩
  exact List.pairwise_of_forall_mem_list fun _ _ b hb _ => hnone b hb

/-- What was ahead of a courier is what it passes in its step, and what is ahead of it then. -/
theorem Logged.step (h : Logged sv.writers.length log t.1) {k : ℕ}
    (ht : t.1.step? sv k t.2 = some t') :
    Logged sv.writers.length (log ++ deeds sv t (.work k)) t'.1 := by
  obtain ⟨c, c', d₁, hc, hserves, hd⟩ := step?_cases ht
  obtain ⟨-, -, haccepted, hclosed, -⟩ := hserves.frame
  obtain ⟨ds, hds, hnone, hclose, htaken, hwrites, hupserted, hmine, hothers⟩ := hserves.deeds hc
  rw [hds, hd]
  refine ⟨?_, ?_, ?_, ?_, fun j => ?_, fun hmem => ?_, h.ordered_append hnone⟩
  · simp [hnone, h.accepted, haccepted]
  · simp [h.taken, htaken]
  · simp [h.writes, hwrites]
  · simp [h.upserted, hupserted]
  · have hvisited := h.visited j
    have hset : (t.1.couriers.set k c')[j]? = if k = j then some c' else t.1.couriers[j]? := by
      rw [List.getElem?_set]
      simp [(List.getElem?_eq_some_iff.mp hc).1]
    simp only [List.filterMap_append, List.flatMap_append, hset]
    by_cases hj : k = j
    · subst hj
      simp only [hc, Option.toList_some, List.flatMap_cons, List.flatMap_nil, List.append_nil]
        at hvisited
      rw [← hvisited]
      simpa using hmine
    · obtain ⟨hpassed, htook⟩ := hothers j hj
      simp [hj, hpassed, htook, hvisited]
  · rcases List.mem_append.mp hmem with hmem | hmem
    · exact hclosed.trans (h.closed hmem)
    · exact absurd hmem hclose

theorem Logged.start {d : Delivery} (h : Logged n log d) (hidle : d.couriers = [])
    (context : String) (workers : ℕ) : Logged n log (d.start context workers) := by
  refine { h with visited := fun k => ?_ }
  have hvisited := h.visited k
  rw [hidle] at hvisited
  rw [← hvisited]
  simp only [Delivery.start, List.getElem?_replicate]
  split <;> simp

theorem Logged.accept {d : Delivery} (h : Logged n log d) (u : Upsert)
    (hopen : d.queue.closed = false) : Logged n (log ++ [.accept u]) { d with
      queue := { d.queue with items := d.queue.items ++ [u] }
      accepted := d.accepted ++ [u] } := by
  have hclose : Deed.close ∉ log := fun hmem => by
    have := h.closed hmem
    rw [hopen] at this
    cases this
  refine ⟨by simp [h.accepted], by simp [h.taken], by simp [h.writes], by simp [h.upserted],
    fun k => by simpa [List.filterMap_cons] using h.visited k, by simp [hclose], ?_⟩
  refine List.pairwise_append.mpr ⟨h.ordered, List.pairwise_singleton _ _, fun a ha _ _ hc => ?_⟩
  exact absurd (hc ▸ ha) hclose

theorem Logged.close {d : Delivery} (h : Logged n log d) : Logged n (log ++ [.close]) d.close :=
  ⟨by simp [h.accepted, Delivery.close], by simp [h.taken, Delivery.close],
    by simp [h.writes, Delivery.close], by simp [h.upserted, Delivery.close],
    fun k => by simpa [List.filterMap_cons, Delivery.close] using h.visited k, fun _ => rfl,
    h.ordered_append rfl⟩

theorem Logged.act (h : Logged sv.writers.length log t.1)
    (hstaged : Staged sv.writers.length context workers t)
    (ht : act? sv context workers t e = some t') :
    Logged sv.writers.length (log ++ deeds sv t e) t'.1 := by
  cases e with
  | start =>
    obtain ⟨hidle, rfl⟩ := start_cases hstaged ht
    simpa [deeds] using h.start hidle.couriers context workers
  | submit u =>
    obtain ⟨⟨accepted, d⟩, hd, rfl⟩ := Option.map_eq_some_iff.mp ht
    rcases submit?_cases hd with ⟨hclosed, rfl, rfl⟩ | ⟨hopen, rfl, rfl⟩
    · simpa only [deeds, hd, List.append_nil] using h
    · simpa only [deeds, hd] using h.accept u hopen
  | work k => exact h.step ht
  | close =>
    obtain rfl := Option.some.inj ht
    exact h.close
  | _ =>
    obtain rfl := Option.some.inj ht
    simpa [deeds] using h

/-! ### What the registers are told -/

/-- Beside what `others` note, each register that a failure is recorded in is told what the couriers
note there. -/
structure Informs (s₀ : Shared σ) (slot : ℕ) (others : List (ℕ × Error)) (told : ℕ → List Error)
    (t : Delivery × Shared σ) : Prop where
  valid : t.2.registers.Valid
  place : t.1.slot = slot
  path : ∀ i, t.2.registers.path i = s₀.registers.path i
  tells : Tells told t.1 t.2.registers
  noted : ∀ i ∈ s₀.registers.path slot,
    (t.2.registers.noted i).Perm (s₀.registers.noted i ++ notesIn i others ++ told i)

section Informs

variable {s₀ : Shared σ} {slot : ℕ} {others : List (ℕ × Error)} {told : ℕ → List Error}

theorem Informs.ofCapacity (hvalid : s₀.registers.Valid) (capacity slot : ℕ) :
    Informs s₀ slot [] (fun _ => []) (ofCapacity capacity slot, s₀) :=
  ⟨hvalid, rfl, fun _ => rfl, .of_idle (.ofCapacity _ _) _, by simp⟩

/-- An event in which nobody else notes anything leaves the registers as they were, and the delivery
has the same failures and records the same. -/
theorem Informs.quiet (h : Informs s₀ slot others told t) (he : e.noted? = none)
    (hr : t'.2.registers = t.2.registers) (hslot : t'.1.slot = t.1.slot)
    (htells : Tells told t'.1 t.2.registers) :
    Informs s₀ slot (others ++ [e].filterMap Event.noted?) told t' := by
  rw [List.filterMap_cons_none he, List.filterMap_nil, List.append_nil]
  refine ⟨?_, hslot.trans h.place, ?_, ?_, ?_⟩ <;> rw [hr]
  exacts [h.valid, h.path, htells, h.noted]

theorem Informs.noted_note (h : Informs s₀ slot others told t) {i : ℕ}
    (hi : i ∈ s₀.registers.path slot) (j : ℕ) (e : Error) :
    (t.2.note j e).registers.noted i
      = t.2.registers.noted i ++ notesIn i [(j, e)] := by
  rw [← h.path, ← h.place] at hi
  rw [notesIn_singleton]
  exact Registers.noted_note (h.valid.lt_of_mem_path hi) j e

theorem Informs.step (h : Informs s₀ slot others told t) {k : ℕ}
    (ht : t.1.step? sv k t.2 = some t') :
    Informs s₀ slot others (fun i => told i ++ notesIn i (t.1.notes k)) t' := by
  obtain ⟨-, hslot, -, -, -, hpath⟩ := step?_frame ht
  have htells := h.tells.step h.valid ht
  rcases step?_registers ht with ⟨hnone, hr⟩ | ⟨j, e, hone, hnote⟩
  · refine ⟨hr ▸ h.valid, hslot.trans h.place, fun i => (hpath i).trans (h.path i), htells,
      fun i hi => ?_⟩
    simpa [hnone, hr] using h.noted i hi
  · refine ⟨?_, hslot.trans h.place, fun i => (hpath i).trans (h.path i), htells, fun i hi => ?_⟩
    · rw [hnote]
      exact h.valid.note j e
    · rw [hnote, h.noted_note hi, hone, ← List.append_assoc]
      exact (h.noted i hi).append_right _

theorem Informs.act (h : Informs s₀ slot others told t)
    (hstaged : Staged n context workers t) (ht : act? sv context workers t e = some t') :
    ∃ told', Informs s₀ slot (others ++ [e].filterMap Event.noted?) told' t' := by
  cases e with
  | start =>
    obtain ⟨hidle, rfl⟩ := start_cases hstaged ht
    exact ⟨told, h.quiet rfl rfl rfl (h.tells.start hidle.couriers _ _)⟩
  | submit u =>
    obtain ⟨⟨accepted, d⟩, hd, rfl⟩ := Option.map_eq_some_iff.mp ht
    refine ⟨told, ?_⟩
    rcases submit?_cases hd with ⟨-, -, rfl⟩ | ⟨-, -, rfl⟩
    · exact h.quiet rfl rfl rfl h.tells
    · exact h.quiet rfl rfl rfl ⟨h.tells.slots, h.tells.balance⟩
  | work k =>
    rw [List.filterMap_cons_none rfl, List.filterMap_nil, List.append_nil]
    exact ⟨_, h.step ht⟩
  | close =>
    obtain rfl := Option.some.inj ht
    exact ⟨told, h.quiet rfl rfl rfl ⟨h.tells.slots, h.tells.balance⟩⟩
  | note j e =>
    obtain rfl := Option.some.inj ht
    refine ⟨told, h.valid.note j e, h.place, fun i => ?_, ?_, fun i hi => ?_⟩
    · exact (Registers.path_note ..).trans (h.path i)
    · exact h.tells.congr fun i => Registers.path_note ..
    · rw [h.noted_note hi, notesIn_append]
      refine ((h.noted i hi).append_right _).trans ?_
      simp only [List.append_assoc]
      exact (List.perm_append_comm.append_left _).append_left _
  | _ =>
    obtain rfl := Option.some.inj ht
    exact ⟨told, h.quiet rfl rfl rfl h.tells⟩

end Informs

theorem isCancelled_act? (ht : act? sv context workers t e = some t') (other : String) :
    t'.2.isCancelled other = true ↔ t.2.isCancelled other = true ∨ e = .cancel other := by
  cases e with
  | start =>
    simp only [act?] at ht
    split_ifs at ht
    obtain rfl := Option.some.inj ht
    simp
  | submit u =>
    obtain ⟨p, -, rfl⟩ := Option.map_eq_some_iff.mp ht
    simp
  | work k =>
    rw [(step?_frame ht).2.2.2.2.1]
    simp
  | cancel c =>
    obtain rfl := Option.some.inj ht
    rw [Shared.isCancelled_cancel, Bool.or_eq_true, decide_eq_true_iff, Event.cancel.injEq, or_comm,
      @eq_comm _ other]
  | _ =>
    obtain rfl := Option.some.inj ht
    simp

/-! ### The whole history -/

variable {capacity slot : ℕ} {s₀ : Shared σ} {es : List (Event σ)}

/-- What a history of events keeps, with its log. -/
structure Kept (sv : Services σ) (context : String) (workers : ℕ) (s₀ : Shared σ) (slot : ℕ)
    (es : List (Event σ)) (log : List Deed) (t : Delivery × Shared σ) : Prop where
  staged : Staged sv.writers.length context workers t
  logged : Logged sv.writers.length log t.1
  informs : ∃ told, Informs s₀ slot (es.filterMap Event.noted?) told t
  cancelled : t.2.isCancelled context = true ↔ s₀.isCancelled context = true ∨ .cancel context ∈ es

theorem Kept.ofCapacity (hvalid : s₀.registers.Valid) (capacity slot : ℕ) :
    Kept sv context workers s₀ slot [] [] (ofCapacity capacity slot, s₀) :=
  ⟨.inl (.ofCapacity _ _), .ofCapacity _ _ _, ⟨_, .ofCapacity hvalid _ _⟩, by simp⟩

theorem Kept.act (h : Kept sv context workers s₀ slot es log t) (hw : 0 < workers)
    (ht : act? sv context workers t e = some t') :
    Kept sv context workers s₀ slot (es ++ [e]) (log ++ deeds sv t e) t' := by
  obtain ⟨told, hinforms⟩ := h.informs
  refine ⟨h.staged.act hw ht, h.logged.act h.staged ht, ?_, ?_⟩
  · rw [List.filterMap_append]
    exact hinforms.act h.staged ht
  · rw [isCancelled_act? ht, h.cancelled, List.mem_append, List.mem_singleton, or_assoc,
      @eq_comm _ e]

theorem kept (hw : 0 < workers) (hvalid : s₀.registers.Valid) (es : List (Event σ))
    (h : follow? (act? sv context workers) (ofCapacity capacity slot, s₀) es = some t) :
    Kept sv context workers s₀ slot es
      (along (act? sv context workers) (deeds sv) (ofCapacity capacity slot, s₀) es) t := by
  refine follow?_induction (fun es t => Kept sv context workers s₀ slot es
    (along (act? sv context workers) (deeds sv) (ofCapacity capacity slot, s₀) es) t)
    (.ofCapacity hvalid _ _) (fun es e t t' hes h ht => ?_) es h
  rw [along_append _ _ hes, along_singleton _ ht]
  exact h.act hw ht

theorem Logged.passed {d : Delivery} (h : Logged n log d) (hover : d.isOver = true) (k : ℕ) :
    log.filterMap (Deed.passedBy? k)
      = (log.filterMap (Deed.takenBy? k)).flatMap (visits n) := by
  have hahead : d.couriers[k]?.toList.flatMap (Courier.ahead n) = [] := by
    refine List.flatMap_eq_nil_iff.mpr fun c hmem => ?_
    rw [eq_gone_of_isOver hover (List.mem_of_getElem? (Option.mem_toList.mp hmem))]
    rfl
  rw [← h.visited k, hahead, List.append_nil]

section Kept

variable (h : Kept sv context workers s₀ slot es log t)
include h

theorem Kept.conserved :
    log.filterMap Deed.taken? ++ t.1.queue.items = log.filterMap Deed.accepted? := by
  rw [h.logged.taken, h.logged.accepted]
  rcases h.staged with hidle | ⟨-, -, -, hsound⟩
  · rw [hidle.taken, hidle.queued, List.nil_append]
  · exact hsound.conserved

/-- What a single courier has brought to a storage is the beginning of what was accepted. -/
theorem Kept.inOrder (hone : workers = 1) {j : ℕ} (hj : j < sv.writers.length) :
    log.filterMap (Deed.passedTo? j) <+: log.filterMap Deed.accepted? := by
  rw [Deed.filterMap_passedTo?, h.logged.writes, ← h.conserved, h.logged.taken]
  rcases h.staged with hidle | ⟨-, hlength, -, hsound⟩
  · rw [hidle.writes]
    exact List.nil_prefix
  · obtain ⟨c, honly⟩ := List.length_eq_one_iff.mp (hlength.trans hone)
    rw [← hsound.inOrder j hj c honly, List.append_assoc]
    exact List.prefix_append _ _

/-- Each register that failures are recorded in was told each once, beside what others noted. -/
theorem Kept.noted (hover : t.1.isOver = true) {i : ℕ} (hi : i ∈ s₀.registers.path slot) :
    (t.2.registers.noted i).Perm (s₀.registers.noted i
      ++ notesIn i (es.filterMap Event.noted?) ++ log.filterMap Deed.failure?) := by
  obtain ⟨told, hinforms⟩ := h.informs
  have hfailures : log.filterMap Deed.failure? = t.1.failures := by
    rw [Deed.filterMap_failure?, h.logged.writes]
    rfl
  have hpath : i ∈ t.2.registers.path t.1.slot := by
    rw [hinforms.path, hinforms.place]
    exact hi
  rw [hfailures]
  exact (hinforms.noted i hi).trans ((hinforms.tells.of_isOver hover hpath).append_left _)

/-- The couriers leave an empty queue behind, unless their context was cancelled. -/
theorem Kept.drained (hstarted : t.1.couriers ≠ []) (hover : t.1.isOver = true)
    (hopen : s₀.isCancelled context = false) (hnever : .cancel context ∉ es) :
    t.1.queue.items = [] := by
  have hlive : ¬ t.2.isCancelled context = true := fun hcancel => by
    rcases h.cancelled.mp hcancel with hbefore | hmem
    · rw [hopen] at hbefore
      cases hbefore
    · exact hnever hmem
  obtain ⟨-, -, -, hsound⟩ := h.staged.resolve_left fun hidle => hstarted hidle.couriers
  exact ((hsound.of_isOver hover).2.resolve_right hlive).2

end Kept

/-- Whatever happens to a delivery and around it, the payloads that were accepted are those that
were taken and then those queued still, in order, and none is accepted once the queue is closed.
Each courier passes what it takes to all storages, in their order, and as many payloads were written
as storages answered success. A single courier brings the payloads to each storage in the order in
which they were accepted.

Once all couriers that were started are gone, and that is when a wait for them ends, each has passed
on everything it has taken; every register that failures are recorded in was told each failure once,
beside what others noted; and the queue is empty unless the context was cancelled.

What is passed is what the storages are asked. In each event of the history a courier calls a
storage with the payload in hand, and then this is what is done, with the storage's answer, and the
world is as the call leaves it; or else nothing is passed, and the event is the same whatever the
storages do. -/
theorem writes_each_payload_once (sv : Services σ) (context : String) {cores : ℕ} (hc : 0 < cores)
    (workers capacity slot : ℕ) {s₀ s : Shared σ} (hvalid : s₀.registers.Valid)
    {es : List (Event σ)} {d : Delivery}
    (h : follow? (act? sv context (Batch.workersOr cores workers)) (ofCapacity capacity slot, s₀) es
      = some (d, s)) :
    let n := sv.writers.length
    let log := along (act? sv context (Batch.workersOr cores workers)) (deeds sv)
      (ofCapacity capacity slot, s₀) es
    log.filterMap Deed.taken? ++ d.queue.items = log.filterMap Deed.accepted?
      ∧ (log.Pairwise fun before after => before = .close → after.accepted? = none)
      ∧ (∀ k, log.filterMap (Deed.passedBy? k)
          <+: (log.filterMap (Deed.takenBy? k)).flatMap (visits n))
      ∧ d.upserted = log.countP Deed.isSuccess
      ∧ (Batch.workersOr cores workers = 1 → ∀ j < n,
          log.filterMap (Deed.passedTo? j) <+: log.filterMap Deed.accepted?)
      ∧ (d.couriers ≠ [] → (d.isOver = true ↔ ∀ c ∈ d.couriers, c = .gone)
        ∧ (d.isOver = true →
          (∀ k, log.filterMap (Deed.passedBy? k)
              = (log.filterMap (Deed.takenBy? k)).flatMap (visits n))
            ∧ (∀ i ∈ s₀.registers.path slot, (s.registers.noted i).Perm (s₀.registers.noted i
              ++ notesIn i (es.filterMap Event.noted?) ++ log.filterMap Deed.failure?))
            ∧ (s₀.isCancelled context = false → .cancel context ∉ es → d.queue.items = [])))
      ∧ ∀ es₁ e es₂, es = es₁ ++ e :: es₂ → ∃ t t' : Delivery × Shared σ,
        follow? (act? sv context (Batch.workersOr cores workers)) (ofCapacity capacity slot, s₀) es₁
          = some t
        ∧ act? sv context (Batch.workersOr cores workers) t e = some t'
        ∧ ((∃ k j u storage answer, e = .work k ∧ t.1.couriers[k]? = some (.writing u j)
            ∧ sv.writers[j]? = some storage
            ∧ storage.upsert (t.2.isCancelled context) u t.2.world = (answer, t'.2.world)
            ∧ deeds sv t e = [.pass k j storage.type u answer])
          ∨ (deeds sv t e).filterMap Deed.write? = [] ∧ ∀ writers : List (Writer σ),
            writers.length = n → act? { sv with writers := writers } context
              (Batch.workersOr cores workers) t e = some t') := by
  intro n log
  have hkept := kept (Batch.workersOr_pos hc workers) hvalid es h
  refine ⟨hkept.conserved, hkept.logged.ordered, fun k => ⟨_, hkept.logged.visited k⟩,
    hkept.logged.upserted.symm, fun hone j hj => hkept.inOrder hone hj, fun hstarted => ?_, ?_⟩
  · obtain ⟨-, -, hcounted, -⟩ := hkept.staged.resolve_left fun hidle => hstarted hidle.couriers
    refine ⟨hcounted.isOver_iff, fun hover => ⟨hkept.logged.passed hover, fun i hi => ?_, ?_⟩⟩
    · exact hkept.noted hover hi
    · exact hkept.drained hstarted hover
  · rintro es₁ e es₂ rfl
    obtain ⟨t, h₁, h₂⟩ := follow?_append_eq_some.mp h
    obtain ⟨t', hact, -⟩ := follow?_cons_eq_some.mp h₂
    have hkept₁ := kept (Batch.workersOr_pos hc workers) hvalid es₁ h₁
    exact ⟨t, t', h₁, hact, hkept₁.staged.calls hact⟩

/-- Two storages, the first of which fails; a second payload comes after the queue was closed and is
not accepted. -/
theorem writes_each_payload_once_failing :
    ∃ d s, follow? (act? (.constant (.error ⟨.requestFailed, "gone"⟩)
          [⟨"bad", fun _ _ w => (.error ⟨.storageFailed, "no"⟩, w)⟩,
            ⟨"good", fun _ _ w => (.ok 1, w)⟩]) "ctx" (Batch.workersOr 4 1))
        (ofCapacity 2 0, { world := (), registers := Registers.openSlot [] none })
        [.submit { table := "t", data := [1] }, .start, .work 0, .work 0, .work 0, .close,
          .submit { table := "t", data := [2] }, .work 0, .work 0, .work 0, .work 0, .work 0,
          .work 0, .work 0, .work 0, .work 0] = some (d, s)
      ∧ d.queue.items = [] ∧ (s.registers.noted 0).length = 1 := by
  have hrun : ∃ d s, follow? (act? (.constant (.error ⟨.requestFailed, "gone"⟩)
          [⟨"bad", fun _ _ w => (.error ⟨.storageFailed, "no"⟩, w)⟩,
            ⟨"good", fun _ _ w => (.ok 1, w)⟩]) "ctx" (Batch.workersOr 4 1))
        (ofCapacity 2 0, { world := (), registers := Registers.openSlot [] none })
        [.submit { table := "t", data := [1] }, .start, .work 0, .work 0, .work 0, .close,
          .submit { table := "t", data := [2] }, .work 0, .work 0, .work 0, .work 0, .work 0,
          .work 0, .work 0, .work 0, .work 0] = some (d, s)
      ∧ d.couriers = [.gone] ∧ d.isOver = true := ⟨_, _, rfl, rfl, rfl⟩
  obtain ⟨d, s, h, hcouriers, hover⟩ := hrun
  have hends := (writes_each_payload_once _ "ctx" (by decide) 1 2 0
    (Registers.valid_nil.openSlot none) h).2.2.2.2.2.1 (by simp [hcouriers])
  obtain ⟨-, hnoted, hempty⟩ := hends.2 hover
  exact ⟨d, s, h, hempty rfl (by simp), (hnoted 0 (by decide)).length_eq⟩

end Delivery

end Ingest.Pipeline

import Ingest.Pipeline.Delivery
import Ingest.Proofs.History
import Ingest.Proofs.Pipeline.Shared
import Ingest.Proofs.Queue
import Ingest.Proofs.Registers

/-!
# What a delivery keeps

Every payload that was accepted was taken by a courier or is queued still, and for each storage, the
payloads that were written to it and those that couriers have yet to write to it are the ones that
were taken (`Delivery.Sound`). A courier leaves only when the queue is closed and empty or the context
is cancelled.

With one courier the payloads are written in the order in which they were accepted
(`Sound.inOrder`). Failed writes are recorded once in every register of the delivery (`Tells`).
-/

namespace Ingest.Pipeline

variable {σ : Type}

namespace Courier

/-- The payload in hand, as a list, as long as it is not written to storage `k`. -/
@[simp] def unwritten (k : ℕ) : Courier → List Upsert
  | holding _ (.value u) => [u]
  | writing u j => if k < j then [] else [u]
  | noting u j _ _ => if k ≤ j then [] else [u]
  | _ => []

/-- The failure in hand, as a list, as long as register `i` was not told. -/
@[simp] def unrecordedIn (i : ℕ) : Courier → List Error
  | noting _ _ e slots => if i ∈ slots then [e] else []
  | _ => []

/-- The registers that the failure in hand goes through still. -/
@[simp] def slots : Courier → List ℕ
  | noting _ _ _ slots => slots
  | _ => []

/-- The courier takes no more payloads. -/
@[simp] def isDone : Courier → Bool
  | holding _ .closed | holding _ .cancelled | leaving | gone => true
  | _ => false

/-- The courier has not left. -/
@[simp] def isThere : Courier → Bool
  | gone => false
  | _ => true

attribute [simp] isGone

end Courier

namespace Delivery

/-- The payloads that were written to storage `k`, whether that failed or not, in order. -/
def writesTo (k : ℕ) (d : Delivery) : List Upsert :=
  (d.writes.filter fun w => w.storage = k).map Write.upsert

def failures (d : Delivery) : List Error :=
  d.writes.filterMap Write.failure

theorem submit?_cases {d d' : Delivery} {u : Upsert} {accepted : Bool}
    (h : d.submit? u = some (accepted, d')) :
    (d.queue.closed = true ∧ accepted = false ∧ d' = d)
      ∨ (d.queue.closed = false ∧ accepted = true ∧ d' = { d with
        queue := { d.queue with items := d.queue.items ++ [u] }
        accepted := d.accepted ++ [u] }) := by
  unfold submit? at h
  rcases hq : d.queue.send? u with _ | ⟨b, q⟩
  · simp [hq] at h
  simp only [hq, Option.some.injEq, Prod.mk.injEq] at h
  obtain ⟨rfl, rfl⟩ := h
  rcases Queue.send?_cases hq with ⟨hc, rfl, rfl⟩ | ⟨hc, -, rfl, rfl⟩
  · exact .inl ⟨hc, rfl, by simp⟩
  · exact .inr ⟨hc, rfl, by simp⟩

/-- What a courier can do. -/
inductive Serves (sv : Services σ) (d : Delivery) (s : Shared σ) :
    Courier → Courier → Delivery → Shared σ → Prop
  | enter : Serves sv d s .entering (.waiting (s.listen d.context .receiver).1) d
    (s.listen d.context .receiver).2
  | cancelled {l : ℕ} (hc : s.isCancelled d.context = true) :
    Serves sv d s (.waiting l) (.holding l .cancelled) d s
  | take {l : ℕ} {u : Upsert} {rest : List Upsert} (hi : d.queue.items = u :: rest)
    (hopen : s.isCancelled d.context = false) :
    Serves sv d s (.waiting l) (.holding l (.value u))
      { d with queue := { d.queue with items := rest }, taken := d.taken ++ [u] } s
  | finish {l : ℕ} (hi : d.queue.items = []) (hc : d.queue.closed = true)
    (hopen : s.isCancelled d.context = false) :
    Serves sv d s (.waiting l) (.holding l .closed) d s
  | begin {l : ℕ} {u : Upsert} :
    Serves sv d s (.holding l (.value u)) (.writing u 0) d (s.forget d.context l)
  | quit {l : ℕ} {r : Received Upsert} (hr : r = .closed ∨ r = .cancelled) :
    Serves sv d s (.holding l r) .leaving d (s.forget d.context l)
  | complete {u : Upsert} {k : ℕ} (h : sv.writers[k]? = none) :
    Serves sv d s (.writing u k) .entering d s
  | write {u : Upsert} {k n : ℕ} {storage : Writer σ} {w : σ} (h : sv.writers[k]? = some storage)
    (hu : storage.upsert (s.isCancelled d.context) u s.world = (.ok n, w)) :
    Serves sv d s (.writing u k) (.writing u (k + 1))
      { d with upserted := d.upserted + 1, writes := d.writes ++ [⟨k, u, none⟩] }
      { s with world := w }
  | fail {u : Upsert} {k : ℕ} {storage : Writer σ} {e : Error} {w : σ}
    (h : sv.writers[k]? = some storage)
    (hu : storage.upsert (s.isCancelled d.context) u s.world = (.error e, w)) :
    Serves sv d s (.writing u k)
      (.noting u k (failure u storage.type e) (s.registers.path d.slot))
      { d with writes := d.writes ++ [⟨k, u, some (failure u storage.type e)⟩] }
      { s with world := w }
  | note {u : Upsert} {k i : ℕ} {e : Error} {is : List ℕ} :
    Serves sv d s (.noting u k e (i :: is)) (.noting u k e is) d (s.note i e)
  | noted {u : Upsert} {k : ℕ} {e : Error} :
    Serves sv d s (.noting u k e []) (.writing u (k + 1)) d s
  | leave : Serves sv d s .leaving .gone
    { d with arrivals := d.arrivals.map Countdown.arriveAndAct } s

theorem serves_of_work? {sv : Services σ} {d d' : Delivery} {s s' : Shared σ} {c c' : Courier}
    (h : d.work? sv s c = some (c', d', s')) : Serves sv d s c c' d' s' := by
  cases c with
  | entering =>
    simp only [work?, Option.some.injEq, Prod.mk.injEq] at h
    obtain ⟨rfl, rfl, rfl⟩ := h
    exact .enter
  | waiting l =>
    simp only [work?] at h
    rcases hq : d.queue.receiveUnless? (s.isCancelled d.context) with _ | ⟨r, q⟩
    · simp [hq] at h
    rcases Queue.receiveUnless?_cases hq with ⟨hc, rfl, rfl⟩ | ⟨hopen, hr⟩
    · simp only [hq, Option.some.injEq, Prod.mk.injEq] at h
      obtain ⟨rfl, rfl, rfl⟩ := h
      exact .cancelled hc
    rcases Queue.receive?_cases hr with ⟨u, rest, hi, rfl, rfl⟩ | ⟨hi, hc, rfl, rfl⟩
    · simp only [hq, Option.some.injEq, Prod.mk.injEq] at h
      obtain ⟨rfl, rfl, rfl⟩ := h
      exact .take hi hopen
    · simp only [hq, Option.some.injEq, Prod.mk.injEq] at h
      obtain ⟨rfl, rfl, rfl⟩ := h
      exact .finish hi hc hopen
  | holding l r =>
    cases r <;> simp only [work?, Option.some.injEq, Prod.mk.injEq] at h <;>
      obtain ⟨rfl, rfl, rfl⟩ := h
    · exact .begin
    · exact .quit (.inl rfl)
    · exact .quit (.inr rfl)
  | writing u k =>
    simp only [work?] at h
    rcases hk : sv.writers[k]? with _ | storage
    · simp only [hk, Option.some.injEq, Prod.mk.injEq] at h
      obtain ⟨rfl, rfl, rfl⟩ := h
      exact .complete hk
    simp only [hk] at h
    split at h <;> rename_i hu <;> simp only [Option.some.injEq, Prod.mk.injEq] at h <;>
      obtain ⟨rfl, rfl, rfl⟩ := h
    · exact .write hk hu
    · exact .fail hk hu
  | noting u k e slots =>
    cases slots <;> simp only [work?, Option.some.injEq, Prod.mk.injEq] at h <;>
      obtain ⟨rfl, rfl, rfl⟩ := h
    · exact .noted
    · exact .note
  | leaving =>
    simp only [work?, Option.some.injEq, Prod.mk.injEq] at h
    obtain ⟨rfl, rfl, rfl⟩ := h
    exact .leave
  | gone => simp [work?] at h

theorem step?_cases {sv : Services σ} {d d' : Delivery} {s s' : Shared σ} {k : ℕ}
    (h : d.step? sv k s = some (d', s')) :
    ∃ c c' d₁, d.couriers[k]? = some c ∧ Serves sv d s c c' d₁ s'
      ∧ d' = { d₁ with couriers := d.couriers.set k c' } := by
  unfold step? at h
  split at h
  · simp at h
  rename_i c hc
  split at h
  · simp at h
  rename_i c' d₁ s₁ hwork
  simp only [Option.some.injEq, Prod.mk.injEq] at h
  obtain ⟨rfl, rfl⟩ := h
  have hserves := serves_of_work? hwork
  have hcouriers : d₁.couriers = d.couriers := by cases hserves <;> rfl
  exact ⟨c, c', d₁, hc, hserves, by rw [hcouriers]⟩

/-- The next step of a courier who is about to write is that write. -/
theorem exists_write {sv : Services σ} {d : Delivery} {c k : ℕ} {v : Upsert}
    (hc : d.couriers[c]? = some (.writing v k)) {storage : Writer σ}
    (hk : sv.writers[k]? = some storage) (s : Shared σ) :
    ∃ d' failure, d.step? sv c s = some (d', { s with
        world := (storage.upsert (s.isCancelled d.context) v s.world).2 })
      ∧ d'.writes = d.writes ++ [⟨k, v, failure⟩]
      ∧ (failure = none ↔ (storage.upsert (s.isCancelled d.context) v s.world).1.isOk = true) := by
  rcases hresult : storage.upsert (s.isCancelled d.context) v s.world with ⟨e | n, w⟩ <;>
    simp [step?, hc, work?, hk, hresult, Except.isOk, Except.toBool]

/-- A courier's step is the call of a storage: it is noted as a write, with how the call ended, and
the world is as the call leaves it. Or else nothing is written, and the step is the same whatever the
storages do. -/
theorem step?_calls {sv : Services σ} {d d' : Delivery} {s s' : Shared σ} {c : ℕ}
    (h : d.step? sv c s = some (d', s')) :
    (∃ k u storage answer failure, d.couriers[c]? = some (.writing u k)
        ∧ sv.writers[k]? = some storage
        ∧ storage.upsert (s.isCancelled d.context) u s.world = (answer, s'.world)
        ∧ d'.writes = d.writes ++ [⟨k, u, failure⟩]
        ∧ (failure = none ↔ answer.isOk = true))
      ∨ d'.writes = d.writes ∧ ∀ writers : List (Writer σ),
        writers.length = sv.writers.length →
          d.step? { sv with writers := writers } c s = some (d', s') := by
  obtain ⟨w, w', d₁, hc, hserves, rfl⟩ := step?_cases h
  cases hserves with
  | write hk hu => exact .inl ⟨_, _, _, _, _, hc, hk, hu, rfl, by simp [Except.isOk, Except.toBool]⟩
  | fail hk hu => exact .inl ⟨_, _, _, _, _, hc, hk, hu, rfl, by simp [Except.isOk, Except.toBool]⟩
  | @complete u k hk =>
    refine .inr ⟨rfl, fun writers hlength => ?_⟩
    have hnone : writers[k]? = none := by
      rw [List.getElem?_eq_none_iff, hlength]
      exact List.getElem?_eq_none_iff.mp hk
    simp only [step?, hc, work?, hnone]
  | quit hr =>
    refine .inr ⟨rfl, fun writers _ => ?_⟩
    rw [← h]
    rcases hr with rfl | rfl <;> simp only [step?, hc, work?]
  | _ =>
    refine .inr ⟨rfl, fun writers _ => ?_⟩
    rw [← h]
    simp only [step?, hc, work?]

section Step

variable {sv : Services σ} {d d' : Delivery} {s s' : Shared σ} {c c' : Courier}

theorem Serves.frame (h : Serves sv d s c c' d' s') :
    d'.context = d.context ∧ d'.slot = d.slot ∧ d'.accepted = d.accepted
      ∧ d'.queue.closed = d.queue.closed ∧ d'.queue.capacity = d.queue.capacity := by
  cases h <;> exact ⟨rfl, rfl, rfl, rfl, rfl⟩

theorem Serves.isCancelled (h : Serves sv d s c c' d' s') (context : String) :
    s'.isCancelled context = s.isCancelled context := by
  cases h <;> simp

theorem Serves.path (h : Serves sv d s c c' d' s') (i : ℕ) :
    s'.registers.path i = s.registers.path i := by
  cases h <;> simp

theorem Serves.taken (h : Serves sv d s c c' d' s') :
    d'.taken ++ d'.queue.items = d.taken ++ d.queue.items := by
  cases h with
  | take hi => simp [hi]
  | _ => rfl

theorem Serves.items (h : Serves sv d s c c' d' s') (hi : d.queue.items = []) :
    d'.queue.items = [] := by
  cases h with
  | take hi' =>
    rw [hi] at hi'
    cases hi'
  | _ => exact hi

/-- For each storage a courier either takes a payload that is not written there yet, or the payload
in hand is written there or remains in hand. -/
theorem Serves.passes (h : Serves sv d s c c' d' s') {k : ℕ} (hk : k < sv.writers.length) :
    (∃ u, d'.taken = d.taken ++ [u] ∧ c.unwritten k = [] ∧ c'.unwritten k = [u]
        ∧ d'.writesTo k = d.writesTo k)
      ∨ (d'.taken = d.taken
        ∧ d'.writesTo k ++ c'.unwritten k = d.writesTo k ++ c.unwritten k) := by
  cases h with
  | take => exact .inl ⟨_, rfl, rfl, rfl, rfl⟩
  | quit hr => rcases hr with rfl | rfl <;> exact .inr ⟨rfl, rfl⟩
  | @complete u j hj =>
    have : sv.writers.length ≤ j := List.getElem?_eq_none_iff.mp hj
    refine .inr ⟨rfl, ?_⟩
    simp only [Courier.unwritten, if_pos (by omega : k < j)]
  | @write u j _ _ _ _ _ =>
    refine .inr ⟨rfl, ?_⟩
    rcases Nat.lt_trichotomy k j with hlt | rfl | hlt
    · simp [writesTo, hlt, hlt.ne', Nat.lt_succ_of_lt hlt]
    · simp [writesTo]
    · have h1 : ¬ k < j := by omega
      have h2 : ¬ k < j + 1 := by omega
      simp [writesTo, h1, h2, hlt.ne]
  | @fail u j _ _ _ _ _ =>
    refine .inr ⟨rfl, ?_⟩
    rcases Nat.lt_trichotomy k j with hlt | rfl | hlt
    · simp [writesTo, hlt, hlt.ne', hlt.le]
    · simp [writesTo]
    · have h1 : ¬ k < j := by omega
      have h2 : ¬ k ≤ j := by omega
      simp [writesTo, h1, h2, hlt.ne]
  | @noted u j e =>
    refine .inr ⟨rfl, ?_⟩
    simp only [Courier.unwritten, Nat.lt_succ_iff]
  | _ => exact .inr ⟨rfl, by simp [writesTo]⟩

theorem Serves.done (h : Serves sv d s c c' d' s') (hdone : c.isDone = true →
    (d.queue.closed = true ∧ d.queue.items = []) ∨ s.isCancelled d.context = true) :
    c'.isDone = true →
      (d'.queue.closed = true ∧ d'.queue.items = []) ∨ s'.isCancelled d'.context = true := by
  cases h with
  | cancelled hc => exact fun _ => .inr hc
  | finish hi hc => exact fun _ => .inl ⟨hc, hi⟩
  | quit hr =>
    rw [Shared.isCancelled_forget]
    rcases hr with rfl | rfl <;> exact fun _ => hdone rfl
  | leave => exact fun _ => hdone rfl
  | _ => simp

/-- What a record goes through still is the rest of its path. -/
theorem Serves.slots (h : Serves sv d s c c' d' s') (hc : c.slots <:+ s.registers.path d.slot) :
    c'.slots <:+ s.registers.path d.slot := by
  cases h with
  | fail => exact List.suffix_rfl
  | note => exact (List.suffix_cons _ _).trans hc
  | _ => exact List.nil_suffix

end Step

theorem step?_frame {sv : Services σ} {d d' : Delivery} {s s' : Shared σ} {k : ℕ}
    (h : d.step? sv k s = some (d', s')) :
    d'.context = d.context ∧ d'.slot = d.slot ∧ d'.accepted = d.accepted
      ∧ d'.queue.closed = d.queue.closed
      ∧ (∀ context, s'.isCancelled context = s.isCancelled context)
      ∧ ∀ i, s'.registers.path i = s.registers.path i := by
  obtain ⟨c, c', d₁, hc, hserves, rfl⟩ := step?_cases h
  obtain ⟨hcontext, hslot, haccepted, hclosed, -⟩ := hserves.frame
  exact ⟨hcontext, hslot, haccepted, hclosed, hserves.isCancelled, hserves.path⟩

/-! ### When every courier is gone -/

section Over

variable {d : Delivery}

theorem eq_gone_of_isOver (h : d.isOver = true) {c : Courier} (hc : c ∈ d.couriers) :
    c = .gone := by
  unfold isOver at h
  rw [Bool.and_eq_true] at h
  have hgone := List.all_eq_true.mp h.1 c hc
  cases c <;> first | rfl | cases hgone

theorem flatMap_of_isOver {α : Type*} (h : d.isOver = true) {hand : Courier → List α}
    (hhand : hand .gone = []) : d.couriers.flatMap hand = [] := by
  refine List.flatMap_eq_nil_iff.mpr fun c hc => ?_
  rw [eq_gone_of_isOver h hc, hhand]

theorem step?_of_isOver (h : d.isOver = true) (sv : Services σ) (k : ℕ) (s : Shared σ) :
    d.step? sv k s = none := by
  unfold step?
  cases hc : d.couriers[k]? with
  | none => rfl
  | some c =>
    obtain rfl := eq_gone_of_isOver h (List.mem_of_getElem? hc)
    rfl

end Over

/-! ### The countdown of the couriers -/

/-- The countdown waits for the couriers that are not gone, and the last of them completes it. -/
def Counted (d : Delivery) : Prop :=
  ∃ c, d.arrivals = some c ∧ c.remaining = d.couriers.countP Courier.isThere
    ∧ (c.completed = true ↔ c.remaining = 0)

theorem Counted.start (d : Delivery) (context : String) (workers : ℕ) :
    Counted (d.start context workers) :=
  ⟨.ofParties workers, rfl, by simp [Delivery.start, Countdown.ofParties, List.countP_replicate],
    by simp [Countdown.ofParties]⟩

theorem Counted.step {sv : Services σ} {d d' : Delivery} {s s' : Shared σ} {k : ℕ}
    (h : Counted d) (hs : d.step? sv k s = some (d', s')) : Counted d' := by
  obtain ⟨c, c', d₁, hc, hserves, rfl⟩ := step?_cases hs
  obtain ⟨a, ha, hremaining, hcompleted⟩ := h
  have hcount := countP_set_add (b := c') Courier.isThere hc
  have hstay : d₁.arrivals = d.arrivals → c'.isThere = c.isThere →
      Counted { d₁ with couriers := d.couriers.set k c' } := by
    intro harrivals hthere
    refine ⟨a, harrivals.trans ha, ?_, hcompleted⟩
    rw [hthere] at hcount
    show a.remaining = (d.couriers.set k c').countP _
    omega
  cases hserves with
  | leave =>
    have hpos : 0 < a.remaining := by
      rw [hremaining]
      exact List.countP_pos_iff.mpr ⟨.leaving, List.mem_of_getElem? hc, rfl⟩
    obtain ⟨hless, hlast⟩ := Countdown.arriveAndAct_of_pos hpos
    refine ⟨a.arriveAndAct, by simp [ha], ?_, ?_⟩
    · simp only [Courier.isThere, Bool.false_eq_true, if_true, if_false] at hcount
      show a.arriveAndAct.remaining = (d.couriers.set k .gone).countP _
      omega
    · have hopen : a.completed = false := by
        rw [← Bool.not_eq_true, hcompleted]
        omega
      rw [hless, hlast, hopen, Bool.false_or, decide_eq_true_iff]
      omega
  | quit => exact hstay rfl (by simp)
  | _ => exact hstay rfl rfl

/-- A wait for the couriers ends when they are all gone, and not before. -/
theorem Counted.isOver_iff {d : Delivery} (h : Counted d) :
    d.isOver = true ↔ ∀ c ∈ d.couriers, c = .gone := by
  refine ⟨fun hover c hc => eq_gone_of_isOver hover hc, fun hgone => ?_⟩
  obtain ⟨a, ha, hremaining, hcompleted⟩ := h
  have hnone : d.couriers.countP Courier.isThere = 0 := by
    refine List.countP_eq_zero.mpr fun c hc => ?_
    rw [hgone c hc]
    simp
  have hall : d.couriers.all Courier.isGone = true :=
    List.all_eq_true.mpr fun c hc => by rw [hgone c hc]; rfl
  simp only [isOver, hall, ha, Bool.true_and]
  exact hcompleted.mpr (hremaining.trans hnone)

/-- A delivery that was not started: nothing was taken from the queue yet. -/
structure Idle (d : Delivery) : Prop where
  couriers : d.couriers = []
  arrivals : d.arrivals = none
  taken : d.taken = []
  writes : d.writes = []
  upserted : d.upserted = 0
  queued : d.queue.items = d.accepted

theorem Idle.ofCapacity (capacity slot : ℕ) : Idle (ofCapacity capacity slot) :=
  ⟨rfl, rfl, rfl, rfl, rfl, rfl⟩

/-- What holds of a delivery to `n` storages at every moment after its start. -/
structure Sound (n : ℕ) (cancelled : Bool) (d : Delivery) : Prop where
  conserved : d.taken ++ d.queue.items = d.accepted
  written : ∀ k < n, (d.writesTo k ++ d.couriers.flatMap (Courier.unwritten k)).Perm d.taken
  inOrder : ∀ k < n, ∀ c, d.couriers = [c] → d.writesTo k ++ c.unwritten k = d.taken
  /-- A courier leaves when there is nothing more to take or the context is cancelled. -/
  done : ∀ c ∈ d.couriers, c.isDone = true →
    (d.queue.closed = true ∧ d.queue.items = []) ∨ cancelled = true
  staffed : d.couriers ≠ []

variable {sv : Services σ} {d d' : Delivery} {s s' : Shared σ} {k n : ℕ}

namespace Sound

theorem start (h : Idle d) (context : String) {workers : ℕ} (hw : 0 < workers) (n : ℕ)
    (cancelled : Bool) : Sound n cancelled (d.start context workers) := by
  refine ⟨?_, fun k _ => ?_, fun k _ c hc => ?_, ?_, ?_⟩
  · simp [Delivery.start, h.taken, h.queued]
  · simp [Delivery.start, h.taken, h.writes, writesTo, List.flatMap_replicate]
  · have hmem : c ∈ List.replicate workers Courier.entering := by
      rw [show List.replicate workers Courier.entering = [c] from hc]
      exact List.mem_singleton_self c
    rw [(List.mem_replicate.mp hmem).2]
    simp [Delivery.start, h.taken, h.writes, writesTo]
  · intro c hc hd
    rw [(List.mem_replicate.mp hc).2] at hd
    simp at hd
  · simp [Delivery.start, hw.ne']

theorem step (h : Sound sv.writers.length (s.isCancelled d.context) d)
    (hs : d.step? sv k s = some (d', s')) :
    Sound sv.writers.length (s'.isCancelled d'.context) d' := by
  obtain ⟨c, c', d₁, hc, hserves, rfl⟩ := step?_cases hs
  have hmem : c ∈ d.couriers := List.mem_of_getElem? hc
  obtain ⟨hcontext, -, haccepted, hclosed, -⟩ := hserves.frame
  have hcancelled : s'.isCancelled d₁.context = s.isCancelled d.context := by
    rw [hcontext, hserves.isCancelled]
  refine ⟨?_, fun j hj => ?_, fun j hj c₁ hc₁ => ?_, ?_, ?_⟩
  · show d₁.taken ++ d₁.queue.items = d₁.accepted
    rw [hserves.taken, h.conserved, haccepted]
  · show (d₁.writesTo j ++ (d.couriers.set k c').flatMap (Courier.unwritten j)).Perm d₁.taken
    rw [List.perm_iff_count]
    intro x
    have h1 := (h.written j hj).count_eq x
    have h2 := count_flatMap_set (b := c') (Courier.unwritten j) x hc
    rcases hserves.passes hj with ⟨u, htaken, hbefore, hafter, hw⟩ | ⟨htaken, hw⟩
    · rw [hbefore, hafter] at h2
      rw [htaken, hw]
      simp only [List.count_append, List.count_nil] at h1 h2 ⊢
      omega
    · have h3 := congrArg (List.count x) hw
      rw [htaken]
      simp only [List.count_append] at h1 h3 ⊢
      omega
  · obtain ⟨honly, rfl⟩ := set_eq_singleton hc hc₁
    have horder := h.inOrder j hj c honly
    show d₁.writesTo j ++ c'.unwritten j = d₁.taken
    rcases hserves.passes hj with ⟨u, htaken, hbefore, hafter, hw⟩ | ⟨htaken, hw⟩
    · rw [hbefore, List.append_nil] at horder
      rw [htaken, hafter, hw, horder]
    · rw [hw, horder, htaken]
  · show ∀ c ∈ d.couriers.set k c', c.isDone = true →
      (d₁.queue.closed = true ∧ d₁.queue.items = []) ∨ s'.isCancelled d₁.context = true
    refine forall_mem_set (fun c₁ hc₁ hd => ?_) (hserves.done (h.done c hmem))
    rcases h.done c₁ hc₁ hd with ⟨hq, hi⟩ | hcancel
    · exact .inl ⟨hclosed.trans hq, hserves.items hi⟩
    · exact .inr (hcancelled.trans hcancel)
  · simpa using h.staffed

theorem mono {cancelled cancelled' : Bool} (h : Sound n cancelled d)
    (hc : cancelled = true → cancelled' = true) : Sound n cancelled' d :=
  ⟨h.conserved, h.written, h.inOrder, fun c hmem hd => (h.done c hmem hd).imp_right hc, h.staffed⟩

theorem submit {cancelled : Bool} (h : Sound n cancelled d) {u : Upsert}
    (hopen : d.queue.closed = false) : Sound n cancelled { d with
      queue := { d.queue with items := d.queue.items ++ [u] }
      accepted := d.accepted ++ [u] } := by
  refine ⟨?_, h.written, h.inOrder, fun c hc hd => ?_, h.staffed⟩
  · show d.taken ++ (d.queue.items ++ [u]) = d.accepted ++ [u]
    rw [← h.conserved, List.append_assoc]
  · rcases h.done c hc hd with ⟨hq, -⟩ | hcancel
    · rw [hopen] at hq
      cases hq
    · exact .inr hcancel

theorem close {cancelled : Bool} (h : Sound n cancelled d) : Sound n cancelled d.close :=
  ⟨h.conserved, h.written, h.inOrder,
    fun c hc hd => (h.done c hc hd).imp_left fun hq => ⟨rfl, hq.2⟩, h.staffed⟩

/-- Once every courier is gone, what was accepted was written to every storage, but for what is
queued still; and then the context is cancelled. -/
theorem of_isOver {cancelled : Bool} (h : Sound n cancelled d) (hover : d.isOver = true) :
    (∀ k < n, (d.writesTo k ++ d.queue.items).Perm d.accepted)
      ∧ ((d.queue.closed = true ∧ d.queue.items = []) ∨ cancelled = true) := by
  constructor
  · intro k hk
    have hw := h.written k hk
    rw [flatMap_of_isOver hover rfl, List.append_nil] at hw
    rw [← h.conserved]
    exact hw.append_right _
  · obtain ⟨c, hc⟩ := List.exists_mem_of_ne_nil _ h.staffed
    obtain rfl := eq_gone_of_isOver hover hc
    exact h.done _ hc rfl

/-- A single courier has written everything in order once it is gone. -/
theorem eq_of_isOver {cancelled : Bool} (h : Sound n cancelled d) (hover : d.isOver = true)
    (hone : d.couriers.length = 1) (hi : d.queue.items = []) (hk : k < n) :
    d.writesTo k = d.accepted := by
  obtain ⟨c, hc⟩ := List.length_eq_one_iff.mp hone
  obtain rfl := eq_gone_of_isOver hover (hc ▸ List.mem_singleton_self c)
  have horder := h.inOrder k hk _ hc
  rw [show Courier.unwritten k .gone = [] from rfl, List.append_nil] at horder
  rw [horder, ← h.conserved, hi, List.append_nil]

end Sound

/-! ### Failures -/

/-- Each register of the delivery has been told every failed write once, `told`, but for those that
couriers are recording still. -/
structure Tells (told : ℕ → List Error) (d : Delivery) (rs : Registers) : Prop where
  slots : ∀ c ∈ d.couriers, c.slots <:+ rs.path d.slot
  balance : ∀ i ∈ rs.path d.slot,
    (told i ++ d.couriers.flatMap (Courier.unrecordedIn i)).Perm d.failures

/-- What the courier with number `k` notes in its next step. -/
def notes (d : Delivery) (k : ℕ) : List (ℕ × Error) :=
  match d.couriers[k]? with
  | some (.noting _ _ e (i :: _)) => [(i, e)]
  | _ => []

theorem Serves.tells {c c' : Courier} (h : Serves sv d s c c' d' s') (hv : s.registers.Valid)
    (hslots : c.slots <:+ s.registers.path d.slot) (hc : d.couriers[k]? = some c) {i : ℕ}
    (hi : i ∈ s.registers.path d.slot) (x : Error) :
    (notesIn i (d.notes k)).count x + (c'.unrecordedIn i).count x + d.failures.count x
      = (c.unrecordedIn i).count x + d'.failures.count x := by
  cases h with
  | fail =>
    simp only [notes, hc, notesIn_nil, Courier.unrecordedIn, hi, ↓reduceIte, failures,
      List.filterMap_append, List.filterMap_cons, List.filterMap_nil, List.count_append,
      List.count_nil]
    omega
  | @note u j i' e is =>
    have hnd : (i' :: is).Nodup := (hv.path_nodup d.slot).sublist hslots.sublist
    have hi' : i' ∉ is := (List.nodup_cons.mp hnd).1
    by_cases heq : i' = i
    · subst heq
      simp [notes, hc, hi']
    · simp [notes, hc, heq, Ne.symm heq]
  | _ => simp [notes, hc, failures]

theorem step?_registers (hs : d.step? sv k s = some (d', s')) :
    (d.notes k = [] ∧ s'.registers = s.registers)
      ∨ ∃ i e, d.notes k = [(i, e)] ∧ s' = s.note i e := by
  obtain ⟨c, c', d₁, hc, hserves, rfl⟩ := step?_cases hs
  cases hserves with
  | note => exact .inr ⟨_, _, by simp [notes, hc], rfl⟩
  | _ => exact .inl ⟨by simp [notes, hc], rfl⟩

namespace Tells

variable {told : ℕ → List Error} {rs : Registers}

theorem of_idle (h : Idle d) (rs : Registers) : Tells (fun _ => []) d rs := by
  refine ⟨?_, fun i _ => ?_⟩
  · rw [h.couriers]
    simp
  · simp [h.couriers, failures, h.writes]

theorem start (h : Tells told d rs) (hidle : d.couriers = []) (context : String) (workers : ℕ) :
    Tells told (d.start context workers) rs := by
  refine ⟨fun c hc => ?_, fun i hi => ?_⟩
  · rw [(List.mem_replicate.mp hc).2]
    exact List.nil_suffix
  · have hbalance := h.balance i hi
    rw [hidle] at hbalance
    simpa [Delivery.start, failures, List.flatMap_replicate] using hbalance

theorem step (h : Tells told d s.registers) (hv : s.registers.Valid)
    (hs : d.step? sv k s = some (d', s')) :
    Tells (fun i => told i ++ notesIn i (d.notes k)) d' s'.registers := by
  obtain ⟨c, c', d₁, hc, hserves, rfl⟩ := step?_cases hs
  have hmem : c ∈ d.couriers := List.mem_of_getElem? hc
  have hpath : s'.registers.path d₁.slot = s.registers.path d.slot := by
    rw [hserves.path, hserves.frame.2.1]
  refine ⟨?_, fun i hi => ?_⟩
  · show ∀ c ∈ d.couriers.set k c', c.slots <:+ s'.registers.path d₁.slot
    rw [hpath]
    exact forall_mem_set h.slots (hserves.slots (h.slots c hmem))
  · replace hi : i ∈ s.registers.path d.slot := hpath ▸ hi
    show (told i ++ notesIn i (d.notes k) ++ (d.couriers.set k c').flatMap
      (Courier.unrecordedIn i)).Perm d₁.failures
    rw [List.perm_iff_count]
    intro x
    have h1 := (h.balance i hi).count_eq x
    have h2 := hserves.tells hv (h.slots c hmem) hc hi x
    have h3 := count_flatMap_set (b := c') (Courier.unrecordedIn i) x hc
    simp only [List.count_append] at h1 ⊢
    omega

theorem congr {rs' : Registers} (h : Tells told d rs) (hpath : ∀ i, rs'.path i = rs.path i) :
    Tells told d rs' := by
  refine ⟨?_, ?_⟩ <;> rw [hpath]
  exacts [h.slots, h.balance]

theorem mem_path (h : Tells told d rs) {i : ℕ} {e : Error} (hn : (i, e) ∈ d.notes k) :
    i ∈ rs.path d.slot := by
  unfold notes at hn
  split at hn
  · rename_i u j e' i' is hc
    obtain ⟨rfl, rfl⟩ := Prod.mk.inj (List.mem_singleton.mp hn)
    exact (h.slots _ (List.mem_of_getElem? hc)).subset List.mem_cons_self
  · cases hn

/-- Once every courier is gone every failed write was recorded. -/
theorem of_isOver (h : Tells told d rs) (hover : d.isOver = true) {i : ℕ}
    (hi : i ∈ rs.path d.slot) : (told i).Perm d.failures := by
  have h1 := h.balance i hi
  rwa [flatMap_of_isOver hover rfl, List.append_nil] at h1

end Tells

end Delivery

end Ingest.Pipeline

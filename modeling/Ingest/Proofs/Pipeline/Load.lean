import Ingest.Proofs.Pipeline.Run

/-!
# How much a run has left to do

Every step of a thread of a run makes a number smaller (`Run.load`): the steps that the couriers,
the workers of the batch and the loop can make at most, if each feed that was not delivered yet brings a
payload to every storage. No cancellation makes it larger, so the threads of a run make boundedly
many steps (`countP_isThread_le`).
-/

namespace Ingest.Pipeline

variable {σ : Type}

/-- The steps for a payload that is queued, if there are `m` storages and a record goes through `n`
registers. -/
def payloadLoad (m n : ℕ) : ℕ := m * (n + 2) + 4

/-- How many steps a courier is from being gone if it takes no further payload. -/
@[simp] def Courier.load (m n : ℕ) : Courier → ℕ
  | entering => 4
  | waiting _ => 3
  | holding _ (.value _) => m * (n + 2) + 6
  | holding _ .closed | holding _ .cancelled => 2
  | writing _ j => (m - j) * (n + 2) + 5
  | noting _ j _ slots => slots.length + (m - (j + 1)) * (n + 2) + 6
  | leaving => 1
  | gone => 0

namespace Delivery

def load (m n : ℕ) (d : Delivery) : ℕ :=
  (d.couriers.map (Courier.load m n)).sum + d.queue.items.length * payloadLoad m n

theorem Serves.load_lt {sv : Services σ} {d d' : Delivery} {s s' : Shared σ} {c c' : Courier}
    (h : Serves sv d s c c' d' s') {n : ℕ} (hn : (s.registers.path d.slot).length ≤ n) :
    c'.load sv.writers.length n + d'.queue.items.length * payloadLoad sv.writers.length n + 1
      ≤ c.load sv.writers.length n
        + d.queue.items.length * payloadLoad sv.writers.length n := by
  have hwrite : ∀ j, j < sv.writers.length → (sv.writers.length - j) * (n + 2)
      = (sv.writers.length - (j + 1)) * (n + 2) + (n + 2) := by
    intro j hj
    rw [← Nat.succ_mul]
    congr 1
    omega
  cases h with
  | take hi hopen =>
    rw [hi, List.length_cons, Nat.succ_mul]
    simp only [Courier.load, payloadLoad]
    omega
  | quit hr => rcases hr with rfl | rfl <;> simp
  | complete hj => simp
  | write hj hu =>
    have := hwrite _ (List.getElem?_eq_some_iff.mp hj).1
    simp only [Courier.load]
    omega
  | fail hj hu =>
    have := hwrite _ (List.getElem?_eq_some_iff.mp hj).1
    simp only [Courier.load]
    omega
  | note =>
    simp only [Courier.load, List.length_cons]
    omega
  | _ => simp

theorem step?_load {sv : Services σ} {d d' : Delivery} {s s' : Shared σ} {k n : ℕ}
    (h : d.step? sv k s = some (d', s')) (hn : (s.registers.path d.slot).length ≤ n) :
    d'.load sv.writers.length n + 1 ≤ d.load sv.writers.length n := by
  obtain ⟨c, c', d₁, hc, hserves, rfl⟩ := step?_cases h
  have h1 := hserves.load_lt hn
  have h2 := sum_map_set (b := c') (Courier.load sv.writers.length n) hc
  unfold load
  show ((d.couriers.set k c').map (Courier.load sv.writers.length n)).sum
    + d₁.queue.items.length * payloadLoad sv.writers.length n + 1 ≤ _
  omega

end Delivery

namespace Cursor

/-- How many steps the workers of the batch can make at most, also before there is one. -/
def load (n : ℕ) (c : Cursor) : ℕ :=
  match c.batch with
  | some b => b.load n
  | none => 3 * Batch.workerCount c.workers c.feeds.length + c.feeds.length * (n + 8)

/-- How many steps a call for the next result is from its answer, and what the answer leads to, if a
result takes `p` steps. -/
@[simp] def callLoad (p : ℕ) (c : Cursor) : ℕ :=
  match c.phase with
  | .starting _ => 11
  | .entering _ => 10
  | .waiting _ _ => 9
  | .leaving _ _ _ => 8
  | .resting => if c.more then p + 15 else 7
  | .joining => 0

theorem Sound.delivered_length_le {c : Cursor} (h : c.Sound) :
    c.delivered.length + (inHand c.phase).length ≤ c.feeds.length := by
  have hpublished : (published c.batch).length ≤ c.feeds.length := by
    cases hb : c.batch with
    | none => simp
    | some b =>
      have hlength := (h.batch b hb).length_eq
      show b.published.length ≤ _
      omega
  have hconserved := congrArg List.length h.conserved
  simp only [List.length_append] at hconserved
  omega

theorem Calls.load_lt {c c' : Cursor} {s s' : Shared σ} (h : c.Calls s c' s') (hsound : c.Sound)
    (hjoin : c.phase ≠ .joining) (p n : ℕ) :
    c'.callLoad p + (c.feeds.length - c'.delivered.length) * (p + 8) + c'.load n + 1
      ≤ c.callLoad p + (c.feeds.length - c.delivered.length) * (p + 8) + c.load n := by
  cases h with
  | start hp =>
    simp only [callLoad, hp, load, hsound.batch_of_starting hp, Batch.load_start]
    omega
  | @conclude _ _ r hp =>
    have hopen := hsound.open_of_phase (by simp [hp]) (by simp [hp])
    cases r with
    | value f =>
      have hroom := hsound.delivered_length_le
      simp only [hp, inHand, List.length_singleton] at hroom
      have hless : (c.feeds.length - c.delivered.length) * (p + 8)
          = (c.feeds.length - (c.delivered ++ [f]).length) * (p + 8) + (p + 8) := by
        rw [← Nat.succ_mul, List.length_append, List.length_singleton]
        congr 1
        omega
      rw [conclude_value (c := { c with phase := .resting }) hopen]
      simp only [callLoad, hp, load, if_true]
      omega
    | cancelled =>
      rw [conclude_cancelled (c := { c with phase := .resting }) hopen]
      simp [callLoad, hp, load]
    | closed =>
      rw [conclude_closed (c := { c with phase := .resting }) hopen]
      simp [callLoad, hp, load]
  | join hp => exact absurd hp hjoin
  | receive hp hb hi =>
    simp only [callLoad, hp, load, hb, Batch.load]
    omega
  | _ hp =>
    simp only [callLoad, hp, load]
    omega

theorem load_close (c : Cursor) (s : Shared σ) (n : ℕ) : (c.close s).1.load n = c.load n
    ∧ (c.close s).1.feeds = c.feeds ∧ (c.close s).1.delivered = c.delivered := by
  rcases c.close_cases s with ⟨-, heq⟩ | ⟨-, heq⟩ | ⟨b, hb, heq⟩ <;> rw [heq]
  · exact ⟨rfl, rfl, rfl⟩
  · exact ⟨rfl, rfl, rfl⟩
  · refine ⟨?_, rfl, rfl⟩
    simp only [load, hb, Batch.load]

end Cursor

namespace Run

/-- How many steps the loop is from its return, leaving the results apart that the cursor has not
brought yet, if each payload takes `p` steps. -/
@[simp] def loopLoad (p : ℕ) (r : Run) : ℕ :=
  match r.phase with
  | .calling => 12
  | .advancing => r.cursor.callLoad p
  | .handling => p + 14
  | .submitting _ => p + 13
  | .noting _ slots => slots.length + 7
  | .closing => 6
  | .draining => 5
  | .stopping => 4
  | .joining => if r.cursor.isResting then 2 else 3
  | .reporting => 1
  | .returned _ => 0

/-- How many steps the threads of a run can make at most, if there are `m` storages. -/
def load (m : ℕ) (r : Run) : ℕ :=
  r.loopLoad (payloadLoad m 1)
    + (r.cursor.feeds.length - r.cursor.delivered.length) * (payloadLoad m 1 + 8)
    + r.cursor.load 2 + r.delivery.load m 1

/-- An event that is a step of one of the run's threads. -/
@[simp] def Event.isThread : Event → Bool
  | loop | fetch _ | deliver _ => true
  | heed | cancel _ => false

variable {sv : Services σ} {feeds : List Feed} {handled : List Fetched} {base told : ℕ → List Error}
  {r r' : Run} {s s' : Shared σ}

theorem Fits.loops_load (h : Fits sv feeds handled base told r s) (hl : Loops r s r' s') (m : ℕ) :
    r'.load m + 1 ≤ r.load m := by
  have hstage := h.stage
  cases hl with
  | call hp =>
    simp only [Stage, hp] at hstage
    have hrest := hstage.1
    simp only [load, loopLoad, hp]
    rcases r.cursor.advance_cases r.context s with ⟨-, heq⟩ | ⟨-, -, heq⟩ | ⟨-, -, -, heq⟩ |
      ⟨-, -, heq⟩ <;> rw [heq] <;> simp [hrest, Cursor.load]
  | await hp hc =>
    rcases hp with hp | hp <;> simp only [Stage, hp] at hstage
    · have hload := hc.load_lt h.cursor hstage.1 (payloadLoad m 1) 2
      have hfeeds := (hc.turn sv h.cursor).1.feeds
      simp only [load, loopLoad, hp, hfeeds]
      omega
    · have hjoin := hstage.1.resolve_right (hc.frame h.cursor).1
      obtain ⟨rfl, -⟩ := hc.eq_of_joining hjoin
      simp only [load, loopLoad, hp, Cursor.isResting, hjoin, Cursor.load]
      simp
  | value hp hrest hmore =>
    simp only [load, loopLoad, hp, Cursor.callLoad, hrest, hmore, if_true]
    omega
  | atEnd hp hrest hmore =>
    simp only [load, loopLoad, hp, Cursor.callLoad, hrest, hmore, Bool.false_eq_true, if_false]
    omega
  | refuse hp hf he hu =>
    simp only [load, loopLoad, hp, h.slots.1, List.length_singleton]
    omega
  | note hp =>
    simp only [load, loopLoad, hp, List.length_cons]
    omega
  | noted hp =>
    simp only [load, loopLoad, hp, List.length_nil]
    omega
  | submit hp hopen =>
    simp only [load, loopLoad, hp, Delivery.load, List.length_append, List.length_singleton,
      Nat.succ_mul]
    omega
  | close hp =>
    simp only [load, loopLoad, hp, Delivery.load, Delivery.close, Queue.close_snd]
    omega
  | stop hp =>
    obtain ⟨hload, hfeeds, hdelivered⟩ := r.cursor.load_close s 2
    simp only [load, loopLoad, hp, hload, hfeeds, hdelivered]
    split_ifs <;> omega
  | joined hp hrest =>
    simp only [load, loopLoad, hp, Cursor.isResting, hrest, if_true]
    omega
  | skip hp | offer hp | reject hp | drained hp | report hp =>
    simp only [load, loopLoad, hp]
    omega

/-- When something happens to the batch alone, the load changes by what it changes there. -/
theorem load_batch {b? : Option Batch} {k m : ℕ}
    (h : Cursor.load 2 { r.cursor with batch := b? } + k ≤ r.cursor.load 2) :
    load m { r with cursor := { r.cursor with batch := b? } } + k ≤ r.load m := by
  show r.loopLoad _ + (r.cursor.feeds.length - r.cursor.delivered.length) * _
    + Cursor.load 2 { r.cursor with batch := b? } + r.delivery.load m 1 + k ≤ r.load m
  unfold load
  omega

theorem Fits.step_load (h : Fits sv feeds handled base told r s) {e : Event}
    (hs : r.step? sv s e = some (r', s')) :
    r'.load sv.writers.length + (if e.isThread then 1 else 0) ≤ r.load sv.writers.length := by
  cases steps_of_step? hs with
  | loop hl => exact h.loops_load hl _
  | fetch hc =>
    obtain ⟨b, b', hb, hstep, rfl⟩ := Cursor.stepWorker?_cases hc
    have hpath : (s.registers.path b.slot).length ≤ 2 := by
      rw [(h.books.ledger b hb).1, h.slots.2.2]
      simp
    have hload := Batch.step?_load hstep hpath
    exact load_batch (by simpa [Cursor.load, hb] using hload)
  | deliver hd =>
    have hpath : (s.registers.path r.delivery.slot).length ≤ 1 := by
      rw [h.slots.2.1, h.slots.1]
      simp
    have hload := Delivery.step?_load hd hpath
    exact Nat.add_le_add_left hload _
  | heed hc =>
    obtain ⟨b, hb, -, rfl⟩ := Cursor.heed?_cases hc
    exact load_batch (by simp [Cursor.load, hb, Batch.load])
  | cancel => exact le_rfl

theorem load_start (context : String) (feeds : List Feed) (workers m : ℕ) (s : Shared σ) :
    (start context feeds workers s).1.load m = feeds.length * (3 * m + 22)
      + 3 * Batch.workerCount workers feeds.length + 4 * workers + 12 := by
  simp only [load, start, loopLoad, Cursor.ofFeeds, Cursor.load, Delivery.load, Delivery.start,
    Delivery.ofCapacity, Queue.ofCapacity, List.length_nil, Nat.sub_zero, List.map_replicate,
    List.sum_replicate, Courier.load, smul_eq_mul, payloadLoad]
  ring

/-- The threads of a run make boundedly many steps, whatever is cancelled and when. -/
theorem countP_isThread_le {context : String} {workers : ℕ} (hw : 0 < workers) {s₀ : Shared σ}
    (hv : s₀.registers.Valid) {es : List Event}
    (hes : follow? (act? sv) (start context feeds workers s₀) es = some (r, s)) :
    es.countP Event.isThread ≤ feeds.length * (3 * sv.writers.length + 22)
      + 3 * Batch.workerCount workers feeds.length + 4 * workers + 12 := by
  have hstep : ∀ e ∈ es, ∀ t t' : Run × Shared σ,
      (∃ handled base told, Fits sv feeds handled base told t.1 t.2) → act? sv t e = some t' →
      (∃ handled base told, Fits sv feeds handled base told t'.1 t'.2)
        ∧ t'.1.load sv.writers.length + (if e.isThread then 1 else 0)
          ≤ t.1.load sv.writers.length := by
    rintro e - t t' ⟨_, _, _, h⟩ ht
    exact ⟨h.step ht, h.step_load ht⟩
  have hcount := countP_add_load_le _ hstep ⟨_, _, _, fits_start sv context feeds hw hv⟩ hes
  have hload := load_start context feeds workers sv.writers.length s₀
  omega

end Run

end Ingest.Pipeline

import Ingest.Proofs.Pipeline.Load
import Ingest.Proofs.Pipeline.Success

/-!
# A run never gets stuck

At every moment of a run that has not returned, one of its threads can move (`some_thread_moves`):
the loop waits only for results, for the workers of the batch and for the couriers, and as long as
some of these are there one of them has something to do. Nobody ever waits for room, because each queue has
room for whatever the feeds of the run can bring.
-/

namespace Ingest

/-- Sends items one after the other. None if one of them has to wait or is not accepted. -/
def Queue.sendAll? {α : Type} (q : Queue α) : List α → Option (Queue α)
  | [] => some q
  | a :: as =>
    match q.send? a with
    | some (true, q) => q.sendAll? as
    | _ => none

theorem Queue.sendAll?_of_room {α : Type} {q : Queue α} (hopen : q.closed = false) {as : List α}
    (hroom : q.items.length + as.length ≤ q.capacity) :
    q.sendAll? as = some { q with items := q.items ++ as } := by
  induction as generalizing q with
  | nil => simp [sendAll?]
  | cons a as ih =>
    rw [List.length_cons] at hroom
    have hrest : (q.items ++ [a]).length + as.length ≤ q.capacity := by
      rw [List.length_append, List.length_singleton]
      omega
    simp only [sendAll?, send?_of_room hopen (by omega : q.items.length < q.capacity)]
    simpa using @ih { q with items := q.items ++ [a] } hopen hrest

namespace Pipeline

variable {σ : Type}

namespace Batch

/-- A batch sends its jobs to a queue that has room for each of them, and closes it. -/
theorem exists_jobs (feeds : List Feed) :
    ∃ q, (Queue.ofCapacity feeds.length).sendAll? (jobsOf feeds) = some q
      ∧ ∀ (caller : String) (workers slot : ℕ) (s : Shared σ),
        (start caller feeds workers slot s).1.jobs = q.close.2 := by
  refine ⟨_, Queue.sendAll?_of_room rfl ?_, fun caller workers slot s => ?_⟩
  · simp [Queue.ofCapacity, jobsOf]
  · simp [start, Queue.ofCapacity]

/-- As long as not all workers are gone one of them can move. -/
theorem Sound.exists_step {feeds : List Feed} {b : Batch} (h : b.Sound feeds)
    (hover : b.isOver = false) (sv : Services σ) (s : Shared σ) :
    ∃ k, (b.step? sv k s).isSome := by
  obtain ⟨w, hw, hthere⟩ := List.all_eq_false.mp hover
  obtain ⟨k, hk⟩ := List.getElem?_of_mem hw
  exact ⟨k, h.step?_isSome sv s hk (by simpa using hthere)⟩

end Batch

namespace Delivery

/-- Once the queue is closed a courier never waits. -/
theorem step?_isSome_of_closed {d : Delivery} (hclosed : d.queue.closed = true) (sv : Services σ)
    (s : Shared σ) {k : ℕ} {c : Courier} (hc : d.couriers[k]? = some c) (hgone : c ≠ .gone) :
    (d.step? sv k s).isSome := by
  have hwork : (d.work? sv s c).isSome := by
    cases c with
    | waiting l =>
      have hsome : (d.queue.receiveUnless? (s.isCancelled d.context)).isSome := by
        unfold Queue.receiveUnless?
        split_ifs
        · rfl
        · exact Queue.receive?_isSome_of_closed hclosed
      obtain ⟨⟨r, q⟩, hq⟩ := Option.isSome_iff_exists.mp hsome
      simp only [work?, hq]
      cases r <;> rfl
    | holding l r => cases r <;> rfl
    | writing u j =>
      simp only [work?]
      split
      · rfl
      · split <;> rfl
    | noting u j e slots => cases slots <;> rfl
    | gone => exact absurd rfl hgone
    | _ => rfl
  obtain ⟨⟨c', d', s'⟩, hd⟩ := Option.isSome_iff_exists.mp hwork
  simp [step?, hc, hd]

/-- As long as a wait for the couriers does not end one of them can move, if the queue is closed. -/
theorem Counted.exists_step {d : Delivery} (h : Counted d) (hclosed : d.queue.closed = true)
    (hover : d.isOver = false) (sv : Services σ) (s : Shared σ) :
    ∃ k, (d.step? sv k s).isSome := by
  have hthere : ¬ ∀ c ∈ d.couriers, c = .gone := by
    rw [← h.isOver_iff, hover]
    exact Bool.false_ne_true
  push Not at hthere
  obtain ⟨c, hc, hgone⟩ := hthere
  obtain ⟨k, hk⟩ := List.getElem?_of_mem hc
  exact ⟨k, step?_isSome_of_closed hclosed sv s hk hgone⟩

end Delivery

theorem Cursor.Calls.phase_ne_joining {c c' : Cursor} {s s' : Shared σ} (h : c.Calls s c' s') :
    c'.phase ≠ .joining := by
  cases h with
  | @conclude _ _ received hp =>
    unfold Cursor.conclude
    split_ifs
    · simp
    cases received with
    | closed =>
      simp only
      split <;> simp
    | _ => simp
  | _ => simp

/-- A call of the cursor's consumer never waits without need: unless it is over it can go on, or a
worker of the batch can move. Where there is nothing to receive the results are open still, so that
some worker is there. -/
theorem Cursor.Sound.exists_step {c : Cursor} (h : c.Sound) (hrest : c.isResting = false)
    (hjoin : c.phase = .joining → c.batch ≠ none) (sv : Services σ) (s : Shared σ) :
    (c.step? s).isSome ∨ ∃ k, (c.stepWorker? sv k s).isSome := by
  have hworker : ∀ b, c.batch = some b → b.isOver = false →
      ∃ k, (c.stepWorker? sv k s).isSome := by
    intro b hb hover
    obtain ⟨k, hk⟩ := (h.batch b hb).exists_step hover sv s
    exact ⟨k, by simpa [stepWorker?, hb] using hk⟩
  have hphase := h.phase
  cases hp : c.phase with
  | resting => simp [isResting, hp] at hrest
  | waiting context l =>
    rw [hp] at hphase
    obtain ⟨b, hb⟩ : ∃ b, c.batch = some b := by
      have := h.state
      rwa [show c.state = .running from hphase] at this
    cases hr : b.results.receiveUnless? (s.isCancelled context) with
    | some p => exact .inl (by simp [step?, hp, hb, hr])
    | none =>
      refine .inr (hworker b hb ?_)
      unfold Queue.receiveUnless? at hr
      split_ifs at hr
      rw [← Bool.not_eq_true, (h.batch b hb).isOver_iff_closed,
        (Queue.receive?_eq_none_iff.mp hr).2]
      exact Bool.false_ne_true
  | joining =>
    obtain ⟨b, hb⟩ := Option.ne_none_iff_exists'.mp (hjoin hp)
    cases hover : b.isOver with
    | true => exact .inl (by simp [step?, hp, hb, hover])
    | false => exact .inr (hworker b hb hover)
  | _ => exact .inl (by simp [step?, hp])

namespace Run

/-- What the waits of a run rely on: the delivery has room for every feed, its countdown counts the
couriers that are there, and the loop waits for workers only if there is a batch. -/
structure Ready (feeds : List Feed) (r : Run) : Prop where
  room : feeds.length ≤ r.delivery.queue.capacity
  counted : r.delivery.Counted
  joining : r.cursor.phase = .joining → r.cursor.batch ≠ none

variable {sv : Services σ} {feeds : List Feed} {r r' : Run} {s s' : Shared σ}

theorem ready_start (context : String) (feeds : List Feed) (workers : ℕ) (s : Shared σ) :
    Ready feeds (start context feeds workers s).1 :=
  ⟨le_max_left _ _, .start _ _ _, by simp [start, Cursor.ofFeeds]⟩

namespace Ready

theorem loops (h : Ready feeds r) (hl : Loops r s r' s') : Ready feeds r' := by
  cases hl with
  | call hp =>
    refine { h with joining := ?_ }
    rcases r.cursor.advance_cases r.context s with ⟨-, heq⟩ | ⟨-, -, heq⟩ | ⟨-, -, -, heq⟩ |
      ⟨-, -, heq⟩ <;> rw [heq]
    · exact h.joining
    · exact h.joining
    · simp
    · simp
  | await hp hc => exact { h with joining := fun hjoining => absurd hjoining hc.phase_ne_joining }
  | stop hp =>
    refine { h with joining := ?_ }
    rcases r.cursor.close_cases s with ⟨-, heq⟩ | ⟨-, heq⟩ | ⟨b, -, heq⟩ <;> rw [heq]
    · exact h.joining
    · exact h.joining
    · simp
  | submit hp hopen => exact ⟨h.room, h.counted, h.joining⟩
  | close hp => exact ⟨h.room, h.counted, h.joining⟩
  | _ => exact ⟨h.room, h.counted, h.joining⟩

theorem step (h : Ready feeds r) {e : Event} (hs : r.step? sv s e = some (r', s')) :
    Ready feeds r' := by
  cases steps_of_step? hs with
  | loop hl => exact h.loops hl
  | fetch hc =>
    obtain ⟨b, b', hb, -, rfl⟩ := Cursor.stepWorker?_cases hc
    exact { h with joining := by simp }
  | deliver hd =>
    refine ⟨?_, h.counted.step hd, h.joining⟩
    obtain ⟨c, c', d₁, -, hserves, rfl⟩ := Delivery.step?_cases hd
    exact h.room.trans hserves.frame.2.2.2.2.ge
  | heed hc =>
    obtain ⟨b, hb, -, rfl⟩ := Cursor.heed?_cases hc
    exact { h with joining := by simp }
  | cancel => exact h

end Ready

theorem ready_of_follow? {context : String} {workers : ℕ} {s₀ : Shared σ} {es : List Event}
    (hes : follow? (act? sv) (start context feeds workers s₀) es = some (r, s)) :
    Ready feeds r :=
  follow?_invariant (P := fun t : Run × Shared σ => Ready feeds t.1) (fun _ _ _ _ h ht => h.step ht)
    (ready_start context feeds workers s₀) hes

namespace Fits

variable {handled : List Fetched} {base told : ℕ → List Error}

theorem handled_length_le (h : Fits sv feeds handled base told r s) :
    handled.length ≤ feeds.length := by
  have hbrought := h.cursor.delivered_length_le
  have hdelivered := congrArg List.length h.delivered
  rw [h.origin] at hbrought
  rw [List.length_append] at hdelivered
  omega

/-- What was accepted and what is offered was brought by one feed each. -/
theorem accepted_length_le (h : Fits sv feeds handled base told r s) :
    r.delivery.accepted.length + r.phase.offered.length ≤ feeds.length := by
  rw [← List.length_append, ← h.accepted]
  exact (List.length_filterMap_le _ _).trans h.handled_length_le

theorem queued_length_le (h : Fits sv feeds handled base told r s) :
    r.delivery.queue.items.length ≤ r.delivery.accepted.length := by
  rw [← h.delivery.conserved, List.length_append]
  omega

theorem submit?_eq (h : Fits sv feeds handled base told r s) (hready : Ready feeds r) {u : Upsert}
    (hp : r.phase = .submitting u) : ∃ d, r.delivery.submit? u = some (true, d) := by
  have hstage := h.stage
  have haccepted := h.accepted_length_le
  simp only [Stage, hp] at hstage
  simp only [hp, Phase.offered, List.length_singleton] at haccepted
  have hqueued := h.queued_length_le
  have hroom := hready.room
  rw [Delivery.submit?, Queue.send?_of_room hstage.2.2.1 (by omega)]
  exact ⟨_, rfl⟩

/-- A call of the loop to the cursor can go on, or a worker of the batch can move. -/
theorem exists_call (h : Fits sv feeds handled base told r s) (hready : Ready feeds r)
    {after : Phase} (hloop : r.stepLoop? s = r.call? s after) :
    ∃ e : Event, e.isThread = true ∧ (act? sv (r, s) e).isSome := by
  cases hrest : r.cursor.isResting with
  | true => exact ⟨.loop, rfl, by simp [act?, step?, hloop, call?, hrest]⟩
  | false =>
    rcases h.cursor.exists_step hrest hready.joining sv s with hsome | ⟨k, hsome⟩
    · exact ⟨.loop, rfl, by simpa [act?, step?, hloop, call?, hrest] using hsome⟩
    · exact ⟨.fetch k, rfl, by simpa [act?, step?] using hsome⟩

theorem exists_step (h : Fits sv feeds handled base told r s) (hready : Ready feeds r)
    (hreturned : r.returned? = none) :
    ∃ e : Event, e.isThread = true ∧ (act? sv (r, s) e).isSome := by
  cases hp : r.phase with
  | advancing | joining =>
    exact h.exists_call hready (show r.stepLoop? s = _ by simp only [stepLoop?, hp]; rfl)
  | submitting u =>
    obtain ⟨d, hd⟩ := h.submit?_eq hready hp
    exact ⟨.loop, rfl, by simp [act?, step?, stepLoop?, hp, hd]⟩
  | draining =>
    have hstage := h.stage
    simp only [Stage, hp] at hstage
    cases hover : r.delivery.isOver with
    | true => exact ⟨.loop, rfl, by simp [act?, step?, stepLoop?, hp, hover]⟩
    | false =>
      obtain ⟨k, hk⟩ := hready.counted.exists_step hstage.2.1 hover sv s
      exact ⟨.deliver k, rfl, by simpa [act?, step?] using hk⟩
  | noting e slots =>
    refine ⟨.loop, rfl, ?_⟩
    cases slots <;> simp [act?, step?, stepLoop?, hp]
  | returned result => simp [returned?, hp] at hreturned
  | _ => exact ⟨.loop, rfl, by simp [act?, step?, stepLoop?, hp]⟩

end Fits

/-- At every moment of a run that has not returned, one of its threads can move, whatever the
limiter, the client and the storages did, whenever contexts were cancelled, and however the run goes
on or ends.

No queue ever holds more than one item for each feed, and nobody waits for room: a batch sends all
its jobs at once, a worker who has a result in hand can publish it, and a payload that the loop has
in hand is accepted. And the threads make boundedly many steps, so that a run returns in the end. -/
theorem some_thread_moves (sv : Services σ) (context : String) (feeds : List Feed) {cores : ℕ}
    (hcores : 0 < cores) (workers : ℕ) {s₀ : Shared σ} (hvalid : s₀.registers.Valid)
    {es : List Event}
    (h : follow? (act? sv) (start context feeds (Batch.workersOr cores workers) s₀) es
      = some (r, s)) :
    (r.returned? = none → ∃ e : Event, e.isThread = true ∧ (act? sv (r, s) e).isSome)
      ∧ r.delivery.queue.items.length ≤ feeds.length
      ∧ (∀ u, r.phase = .submitting u → ∃ d, r.delivery.submit? u = some (true, d))
      ∧ (∀ b, r.cursor.batch = some b →
        b.jobs.items.length ≤ feeds.length ∧ b.results.items.length ≤ feeds.length
          ∧ ∀ f, .publishing f ∈ b.workers → ∃ q, b.results.send? f = some (true, q))
      ∧ (∃ q, (Queue.ofCapacity feeds.length).sendAll? (Batch.jobsOf feeds) = some q
        ∧ ∀ caller, (Batch.start caller r.cursor.feeds r.cursor.workers r.cursor.slot s).1.jobs
          = q.close.2)
      ∧ es.countP Event.isThread ≤ feeds.length * (3 * sv.writers.length + 22)
        + 3 * Batch.workerCount (Batch.workersOr cores workers) feeds.length
        + 4 * Batch.workersOr cores workers + 12 := by
  have hw := Batch.workersOr_pos hcores workers
  obtain ⟨handled, base, told, hfits⟩ := fits_of_follow? hw hvalid h
  have hready := ready_of_follow? h
  refine ⟨hfits.exists_step hready, ?_, fun u hp => hfits.submit?_eq hready hp, fun b hb => ?_, ?_,
    countP_isThread_le hw hvalid h⟩
  · have := hfits.accepted_length_le
    have := hfits.queued_length_le
    omega
  · have hsound := hfits.cursor.batch b hb
    rw [hfits.origin] at hsound
    have hlength := hsound.length_eq
    have hbuffered := hsound.buffered.length_le
    refine ⟨by omega, by omega, fun f hf => ?_⟩
    exact ⟨_, Queue.send?_of_room (hsound.open_of_mem hf rfl) (hsound.room_of_publishing hf)⟩
  · obtain ⟨q, hq, hjobs⟩ := Batch.exists_jobs (σ := σ) feeds
    exact ⟨q, hq, fun caller => by rw [hfits.origin, hjobs]⟩

/-- The only courier has left after a cancellation when the loop comes with a payload: there is room
for it all the same. -/
theorem some_thread_moves_cancelled :
    ∃ r s u, follow? (act? (.constant (.ok ⟨200, "a", [], []⟩) [sink]))
        (start "ctx" [⟨{ url := "a" }, "", "t"⟩] (Batch.workersOr 4 1) { world := () })
        (List.flatten [List.replicate 3 .loop, List.replicate 8 (.fetch 0), List.replicate 2 .loop,
          [.cancel "ctx"], List.replicate 4 (.deliver 0), List.replicate 2 .loop]) = some (r, s)
      ∧ r.delivery.couriers = [.gone] ∧ r.phase = .submitting u
      ∧ ∃ d, r.delivery.submit? u = some (true, d) := by
  have hrun : ∃ r s u, follow? (act? (.constant (.ok ⟨200, "a", [], []⟩) [sink]))
        (start "ctx" [⟨{ url := "a" }, "", "t"⟩] (Batch.workersOr 4 1) { world := () })
        (List.flatten [List.replicate 3 .loop, List.replicate 8 (.fetch 0), List.replicate 2 .loop,
          [.cancel "ctx"], List.replicate 4 (.deliver 0), List.replicate 2 .loop]) = some (r, s)
      ∧ r.delivery.couriers = [.gone] ∧ r.phase = .submitting u := ⟨_, _, _, rfl, rfl, rfl⟩
  obtain ⟨r, s, u, h, hgone, hp⟩ := hrun
  exact ⟨r, s, u, h, hgone, hp,
    (some_thread_moves _ _ _ (by decide) _ Registers.valid_nil h).2.2.1 u hp⟩

end Run

end Pipeline

end Ingest

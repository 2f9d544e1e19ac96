import Ingest.Proofs.Pipeline.Success

/-!
# Runs under a cancelled context

The first call of a run's loop finds the context cancelled, so that no batch is started and nothing is
handed over to the couriers (`Run.Barred`). The run ends with the error of the cancellation.
-/

namespace Ingest.Pipeline

variable {σ : Type}

/-- The courier has no payload. -/
@[simp] def Courier.isEmptyHanded : Courier → Bool
  | holding _ (.value _) | writing _ _ | noting _ _ _ _ => false
  | _ => true

namespace Delivery

/-- Nothing was ever handed over. -/
structure Unused (d : Delivery) : Prop where
  accepted : d.accepted = []
  queued : d.queue.items = []
  unwritten : d.writes = []
  couriers : ∀ c ∈ d.couriers, c.isEmptyHanded = true

namespace Unused

variable {sv : Services σ} {d d' : Delivery} {s s' : Shared σ} {k : ℕ}

theorem start (n slot : ℕ) (context : String) (workers : ℕ) :
    Unused ((Delivery.ofCapacity n slot).start context workers) := by
  refine ⟨rfl, rfl, rfl, fun c hc => ?_⟩
  rw [(List.mem_replicate.mp hc).2]
  rfl

/-- A courier without a payload finds none. -/
theorem step (h : Unused d) (hs : d.step? sv k s = some (d', s')) :
    Unused d' ∧ s'.world = s.world ∧ s'.registers = s.registers
      ∧ ∀ context, s'.isCancelled context = s.isCancelled context := by
  obtain ⟨c, c', d₁, hc, hserves, rfl⟩ := step?_cases hs
  have hempty := h.couriers c (List.mem_of_getElem? hc)
  have hcouriers : c'.isEmptyHanded = true → ∀ x ∈ d.couriers.set k c', x.isEmptyHanded = true :=
    fun hc' => forall_mem_set h.couriers hc'
  have hcontexts := hserves.isCancelled
  cases hserves with
  | take hi =>
    rw [h.queued] at hi
    cases hi
  | quit hr =>
    rcases hr with rfl | rfl <;>
      exact ⟨⟨h.accepted, h.queued, h.unwritten, hcouriers rfl⟩, rfl, rfl, hcontexts⟩
  | _ =>
    first
    | exact ⟨⟨h.accepted, h.queued, h.unwritten, hcouriers rfl⟩, rfl, rfl, hcontexts⟩
    | cases hempty

end Unused

end Delivery

theorem Cursor.Calls.phase_ne_resting {c c' : Cursor} {s s' : Shared σ} (h : c.Calls s c' s') :
    c.phase ≠ .resting := by
  cases h <;> simp [*]

namespace Run

/-- The error of a run that finds its context cancelled. -/
def cancellation : Error :=
  Error.contextCancelled.wrap "error iterating over requests"

/-- What holds at every moment of a run that was started in `s₀` under a cancelled context. -/
structure Barred (s₀ : Shared σ) (r : Run) (s : Shared σ) : Prop where
  cancelled : s.isCancelled r.context = true
  batch : r.cursor.batch = none
  resting : r.cursor.phase = .resting
  unused : r.delivery.Unused
  world : s.world = s₀.world
  silent : s.registers.error? r.slot = none
  stage : match r.phase with
    | .calling => r.cursor.state = .unstarted ∧ r.cursor.closed = false
    | .advancing => r.cursor.more = false ∧ r.cursor.error = some .contextCancelled
    | .closing | .draining | .stopping => r.cursor.error = some .contextCancelled
    | .joining | .reporting => r.ended = some .contextCancelled
    | .returned result => result = some cancellation
    | .handling | .noting _ _ | .submitting _ => False

namespace Barred

variable {sv : Services σ} {s₀ s s' : Shared σ} {r r' : Run}

theorem start {context : String} (feeds : List Feed) (workers : ℕ)
    (hc : s₀.isCancelled context = true) :
    Barred s₀ (Run.start context feeds workers s₀).1 (Run.start context feeds workers s₀).2 := by
  refine ⟨hc, rfl, rfl, .start _ _ _ _, rfl, ?_, rfl, rfl⟩
  show ((s₀.registers.openSlot none).openSlot (some s₀.registers.length)).error?
    s₀.registers.length = none
  rw [Registers.error?, Registers.getElem?_openSlot_of_lt (by simp)]
  simp [Registers.openSlot]

theorem loops (h : Barred s₀ r s) (hl : Loops r s r' s') : Barred s₀ r' s' := by
  have hstage := h.stage
  cases hl with
  | call hp =>
    simp only [hp] at hstage
    have heq : r.cursor.advance r.context s = { r.cursor with
        state := .cancelled, error := some .contextCancelled, more := false } := by
      simp [Cursor.advance, hstage.1, hstage.2, Cursor.State.isTerminal, h.cancelled]
    rw [heq]
    exact { h with stage := ⟨rfl, rfl⟩ }
  | await hp hc => exact absurd h.resting hc.phase_ne_resting
  | value hp hrest hmore =>
    simp only [hp] at hstage
    rw [hstage.1] at hmore
    cases hmore
  | atEnd hp hrest hmore =>
    simp only [hp] at hstage
    exact { h with stage := hstage.2 }
  | close hp =>
    simp only [hp] at hstage
    exact { h with
      unused := ⟨h.unused.accepted, h.unused.queued, h.unused.unwritten, h.unused.couriers⟩
      stage := hstage }
  | drained hp hover =>
    simp only [hp] at hstage
    exact { h with stage := hstage }
  | stop hp =>
    simp only [hp] at hstage
    rcases r.cursor.close_cases s with ⟨-, heq⟩ | ⟨-, heq⟩ | ⟨b, hb, -⟩
    · rw [heq]
      exact { h with stage := hstage }
    · rw [heq]
      exact { h with stage := hstage }
    · rw [h.batch] at hb
      cases hb
  | joined hp hrest =>
    simp only [hp] at hstage
    exact { h with stage := hstage }
  | report hp =>
    simp only [hp] at hstage
    refine { h with stage := ?_ }
    show r.result s.registers = some cancellation
    simp only [result, h.silent, hstage]
    rfl
  | _ hp => simp [hp] at hstage

theorem step (h : Barred s₀ r s) {e : Event} (hs : r.step? sv s e = some (r', s')) :
    Barred s₀ r' s' := by
  cases steps_of_step? hs with
  | loop hl => exact h.loops hl
  | fetch hc => simp [Cursor.stepWorker?, h.batch] at hc
  | heed hc => simp [Cursor.heed?, h.batch] at hc
  | deliver hd =>
    obtain ⟨hunused, hworld, hregisters, hcontexts⟩ := h.unused.step hd
    exact { h with
      cancelled := (hcontexts _).trans h.cancelled
      unused := hunused
      world := hworld.trans h.world
      silent := (congrArg (·.error? r.slot) hregisters).trans h.silent }
  | cancel =>
    refine { h with cancelled := ?_ }
    rw [Shared.isCancelled_cancel, h.cancelled, Bool.or_true]

end Barred

theorem barred_of_follow? {sv : Services σ} {context : String} {feeds : List Feed} {workers : ℕ}
    {s₀ s : Shared σ} {r : Run} (hc : s₀.isCancelled context = true) {es : List Event}
    (hes : follow? (act? sv) (start context feeds workers s₀) es = some (r, s)) :
    Barred s₀ r s :=
  follow?_invariant (P := fun t : Run × Shared σ => Barred s₀ t.1 t.2)
    (fun _ _ _ _ h ht => h.step ht) (.start feeds workers hc) hes

theorem Barred.returned {s₀ s : Shared σ} {r : Run} (h : Barred s₀ r s) {result : Option Error}
    (hr : r.returned? = some result) : result = some cancellation := by
  have hstage := h.stage
  have hp : r.phase = .returned result := returned?_eq_some.mp hr
  simpa only [hp] using hstage

end Run

end Ingest.Pipeline

import Ingest.Pipeline.Run
import Ingest.Proofs.Pipeline.Delivery
import Ingest.Proofs.Pipeline.Iterating

/-!
# The steps of a run

Everything that can happen in a run (`Run.Steps`), and what its loop can do (`Run.Loops`), with the
reason for it. A result brings a payload
to submit, or an error that ends the run, or neither (`Fetched.payload?`, `Fetched.refusal?`).
-/

namespace Ingest.Pipeline

variable {σ : Type}

namespace Fetched

/-- What a result brings to the delivery. -/
def payload? (f : Fetched) : Option Upsert :=
  match f.outcome with
  | .ok r => (Run.payloadOf f r).toOption
  | .error _ => none

/-- Why a result ends the run. -/
def refusal? (f : Fetched) : Option Error :=
  match f.outcome with
  | .ok r =>
    match Run.payloadOf f r with
    | .ok _ => none
    | .error e => some e
  | .error _ => none

end Fetched

namespace Run

/-- What the loop of a run can do. -/
inductive Loops (r : Run) (s : Shared σ) : Run → Shared σ → Prop
  | call (hp : r.phase = .calling) :
    Loops r s { r with cursor := r.cursor.advance r.context s, phase := .advancing } s
  | await {c : Cursor} {s' : Shared σ} (hp : r.phase = .advancing ∨ r.phase = .joining)
    (hc : r.cursor.Calls s c s') : Loops r s { r with cursor := c } s'
  | value (hp : r.phase = .advancing) (hrest : r.cursor.phase = .resting)
    (hmore : r.cursor.more = true) : Loops r s { r with phase := .handling } s
  | atEnd (hp : r.phase = .advancing) (hrest : r.cursor.phase = .resting)
    (hmore : r.cursor.more = false) : Loops r s { r with phase := .closing } s
  | skip (hp : r.phase = .handling)
    (hf : ∀ f, r.cursor.current = some f → f.payload? = none ∧ f.refusal? = none) :
    Loops r s { r with phase := .calling } s
  | refuse {f : Fetched} {e : Error} (hp : r.phase = .handling) (hf : r.cursor.current = some f)
    (he : f.refusal? = some e) (hu : f.payload? = none) :
    Loops r s { r with phase := .noting e (s.registers.path r.slot) } s
  | offer {f : Fetched} {u : Upsert} (hp : r.phase = .handling) (hf : r.cursor.current = some f)
    (hu : f.payload? = some u) (he : f.refusal? = none) :
    Loops r s { r with phase := .submitting u } s
  | note {e : Error} {i : ℕ} {is : List ℕ} (hp : r.phase = .noting e (i :: is)) :
    Loops r s { r with phase := .noting e is } (s.note i e)
  | noted {e : Error} (hp : r.phase = .noting e []) : Loops r s { r with phase := .closing } s
  | submit {u : Upsert} (hp : r.phase = .submitting u) (hopen : r.delivery.queue.closed = false) :
    Loops r s { r with
      delivery := { r.delivery with
        queue := { r.delivery.queue with items := r.delivery.queue.items ++ [u] }
        accepted := r.delivery.accepted ++ [u] }
      submitted := r.submitted + 1
      phase := .calling } s
  | reject {u : Upsert} (hp : r.phase = .submitting u) (hclosed : r.delivery.queue.closed = true) :
    Loops r s { r with phase := .closing } s
  | close (hp : r.phase = .closing) :
    Loops r s { r with delivery := r.delivery.close, phase := .draining } s
  | drained (hp : r.phase = .draining) (hover : r.delivery.isOver = true) :
    Loops r s { r with phase := .stopping } s
  | stop (hp : r.phase = .stopping) :
    Loops r s { r with
      ended := r.cursor.error
      cursor := (r.cursor.close s).1
      phase := .joining } (r.cursor.close s).2
  | joined (hp : r.phase = .joining) (hrest : r.cursor.phase = .resting) :
    Loops r s { r with phase := .reporting } s
  | report (hp : r.phase = .reporting) :
    Loops r s { r with phase := .returned (r.result s.registers) }
      (s.say (r.warnings s.registers))

theorem call?_cases {r r' : Run} {s s' : Shared σ} {after : Phase}
    (h : r.call? s after = some (r', s')) :
    (r.cursor.phase = .resting ∧ r' = { r with phase := after } ∧ s' = s)
      ∨ ∃ c, r.cursor.Calls s c s' ∧ r' = { r with cursor := c } := by
  unfold call? at h
  split_ifs at h with hrest
  · obtain ⟨rfl, rfl⟩ := Prod.mk.inj (Option.some.inj h)
    exact .inl ⟨Cursor.isResting_iff.mp hrest, rfl, rfl⟩
  · obtain ⟨⟨c, s₁⟩, hc, heq⟩ := Option.map_eq_some_iff.mp h
    obtain ⟨rfl, rfl⟩ := Prod.mk.inj heq
    exact .inr ⟨c, Cursor.calls_of_step? hc, rfl⟩

theorem loops_of_handling {r : Run} {s : Shared σ} (hp : r.phase = .handling) :
    Loops r s { r with phase := r.handle s.registers } s := by
  unfold handle
  cases hf : r.cursor.current with
  | none => exact .skip hp (by simp [hf])
  | some f =>
    cases ho : f.outcome with
    | error e =>
      simp only [ho]
      refine .skip hp fun f' hf' => ?_
      obtain rfl := Option.some.inj (hf.symm.trans hf')
      simp [Fetched.payload?, Fetched.refusal?, ho]
    | ok rsp =>
      cases hpay : payloadOf f rsp with
      | error e =>
        simp only [ho, hpay]
        refine .refuse hp hf ?_ ?_ <;>
          simp [Fetched.payload?, Fetched.refusal?, ho, hpay, Except.toOption]
      | ok u =>
        simp only [ho, hpay]
        refine .offer hp hf ?_ ?_ <;>
          simp [Fetched.payload?, Fetched.refusal?, ho, hpay, Except.toOption]

theorem loops_of_stepLoop? {r r' : Run} {s s' : Shared σ} (h : r.stepLoop? s = some (r', s')) :
    Loops r s r' s' := by
  unfold stepLoop? at h
  cases hp : r.phase with
  | calling =>
    simp only [hp, Option.some.injEq, Prod.mk.injEq] at h
    obtain ⟨rfl, rfl⟩ := h
    exact .call hp
  | advancing =>
    simp only [hp] at h
    rcases call?_cases h with ⟨hrest, rfl, rfl⟩ | ⟨c, hc, rfl⟩
    · cases hmore : r.cursor.more with
      | true => exact .value hp hrest hmore
      | false => exact .atEnd hp hrest hmore
    · exact .await (.inl hp) hc
  | handling =>
    simp only [hp, Option.some.injEq, Prod.mk.injEq] at h
    obtain ⟨rfl, rfl⟩ := h
    exact loops_of_handling hp
  | noting e slots =>
    cases slots <;> simp only [hp, Option.some.injEq, Prod.mk.injEq] at h <;>
      obtain ⟨rfl, rfl⟩ := h
    · exact .noted hp
    · exact .note hp
  | submitting u =>
    simp only [hp] at h
    rcases hd : r.delivery.submit? u with _ | ⟨accepted, d⟩
    · simp [hd] at h
    rcases Delivery.submit?_cases hd with ⟨hc, rfl, rfl⟩ | ⟨hc, rfl, rfl⟩ <;>
      simp only [hd, Option.some.injEq, Prod.mk.injEq] at h <;> obtain ⟨rfl, rfl⟩ := h
    · exact .reject hp hc
    · exact .submit hp hc
  | closing =>
    simp only [hp, Option.some.injEq, Prod.mk.injEq] at h
    obtain ⟨rfl, rfl⟩ := h
    exact .close hp
  | draining =>
    simp only [hp] at h
    split_ifs at h with hover
    simp only [Option.some.injEq, Prod.mk.injEq] at h
    obtain ⟨rfl, rfl⟩ := h
    exact .drained hp hover
  | stopping =>
    simp only [hp, Option.some.injEq, Prod.mk.injEq] at h
    obtain ⟨rfl, rfl⟩ := h
    exact .stop hp
  | joining =>
    simp only [hp] at h
    rcases call?_cases h with ⟨hrest, rfl, rfl⟩ | ⟨c, hc, rfl⟩
    · exact .joined hp hrest
    · exact .await (.inr hp) hc
  | reporting =>
    simp only [hp, Option.some.injEq, Prod.mk.injEq] at h
    obtain ⟨rfl, rfl⟩ := h
    exact .report hp
  | returned result => simp [hp] at h

/-- What can happen in a run at an event. -/
inductive Steps (sv : Services σ) (r : Run) (s : Shared σ) : Event → Run → Shared σ → Prop
  | loop {r' : Run} {s' : Shared σ} (h : Loops r s r' s') : Steps sv r s .loop r' s'
  | fetch {k : ℕ} {c : Cursor} {s' : Shared σ} (h : r.cursor.stepWorker? sv k s = some (c, s')) :
    Steps sv r s (.fetch k) { r with cursor := c } s'
  | deliver {k : ℕ} {d : Delivery} {s' : Shared σ} (h : r.delivery.step? sv k s = some (d, s')) :
    Steps sv r s (.deliver k) { r with delivery := d } s'
  | heed {c : Cursor} (h : r.cursor.heed? s = some c) : Steps sv r s .heed { r with cursor := c } s
  | cancel {context : String} : Steps sv r s (.cancel context) r (s.cancel context)

theorem steps_of_step? {sv : Services σ} {r r' : Run} {s s' : Shared σ} {e : Event}
    (h : r.step? sv s e = some (r', s')) : Steps sv r s e r' s' := by
  cases e with
  | loop => exact .loop (loops_of_stepLoop? h)
  | fetch k =>
    obtain ⟨⟨c, s₁⟩, hc, heq⟩ := Option.map_eq_some_iff.mp h
    obtain ⟨rfl, rfl⟩ := Prod.mk.inj heq
    exact .fetch hc
  | deliver k =>
    obtain ⟨⟨d, s₁⟩, hd, heq⟩ := Option.map_eq_some_iff.mp h
    obtain ⟨rfl, rfl⟩ := Prod.mk.inj heq
    exact .deliver hd
  | heed =>
    obtain ⟨c, hc, heq⟩ := Option.map_eq_some_iff.mp h
    obtain ⟨rfl, rfl⟩ := Prod.mk.inj heq
    exact .heed hc
  | cancel context =>
    obtain ⟨rfl, rfl⟩ := Prod.mk.inj (Option.some.inj h)
    exact .cancel

end Run

end Ingest.Pipeline

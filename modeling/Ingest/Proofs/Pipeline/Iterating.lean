import Ingest.Proofs.Pipeline.Cursor

/-!
# Cursors among events

A cursor with one consumer among all that can happen around it (`Cursor.Event`): calls for the next
result and for the end, each made while no other is under way and running in steps, the workers of
the batch, cancellations, and what others do to the registers and the world.

Every event keeps the cursor sound (`Sound.act`) and takes the batch through a turn (`act?_turn`).
-/

namespace Ingest.Pipeline

variable {σ : Type}

namespace Cursor

/-- What can happen to a cursor and around it. -/
inductive Event (σ : Type) where
  | advance (context : String)
  | close
  /-- The next step of the consumer's call. -/
  | call
  | work (k : ℕ)
  | heed
  | cancel (context : String)
  /-- Somebody else records an error. -/
  | note (slot : ℕ) (e : Error)
  /-- Somebody else changes the world. -/
  | elsewhere (w : σ)

/-- What others note in an event. -/
def Event.notes : Event σ → List (ℕ × Error)
  | note slot e => [(slot, e)]
  | _ => []

def Event.isClose : Event σ → Bool
  | close => true
  | _ => false

/-- A cursor after an event. None if the event cannot happen now. -/
def act? (sv : Services σ) (t : Cursor × Shared σ) : Event σ → Option (Cursor × Shared σ)
  | .advance context => if t.1.isResting then some (t.1.advance context t.2, t.2) else none
  | .close => if t.1.isResting then some (t.1.close t.2) else none
  | .call => t.1.step? t.2
  | .work k => t.1.stepWorker? sv k t.2
  | .heed => (t.1.heed? t.2).map fun c => (c, t.2)
  | .cancel context => some (t.1, t.2.cancel context)
  | .note slot e => some (t.1, t.2.note slot e)
  | .elsewhere w => some (t.1, { t.2 with world := w })

theorem isResting_iff {c : Cursor} : c.isResting = true ↔ c.phase = .resting := by
  unfold isResting
  cases c.phase <;> simp

/-- Both cursors are over the same feeds and record in the same register. -/
structure Kin (c c' : Cursor) : Prop where
  feeds : c'.feeds = c.feeds
  workers : c'.workers = c.workers
  slot : c'.slot = c.slot

section Turn

variable {sv : Services σ} {c c' : Cursor} {s s' : Shared σ} {feeds : List Feed} {workers slot : ℕ}
  {b? : Option Batch}

/-- Nothing happens to the batch, started or not. -/
theorem turn_of_same (hr : s'.registers = s.registers)
    (hc : ∀ context, s.isCancelled context = true → s'.isCancelled context = true) :
    Batch.Turn sv feeds workers slot false [] b? s b? s' := by
  cases b? with
  | none => exact .wait hr
  | some b => exact .quiet ⟨rfl, rfl, rfl, rfl, rfl, hc _⟩ hr .inl

theorem turn_of_advance (c : Cursor) (context : String) (s : Shared σ) :
    Kin c (c.advance context s) ∧ (c.advance context s).batch = c.batch := by
  rcases c.advance_cases context s with ⟨-, heq⟩ | ⟨-, -, heq⟩ | ⟨-, -, -, heq⟩ |
    ⟨-, -, heq⟩ <;>
    rw [heq] <;> exact ⟨⟨rfl, rfl, rfl⟩, rfl⟩

theorem turn_of_conclude (c : Cursor) (rs : Registers) (r : Received Fetched) :
    Kin c (c.conclude rs r) ∧ (c.conclude rs r).batch = c.batch := by
  unfold Cursor.conclude
  split_ifs
  · exact ⟨⟨rfl, rfl, rfl⟩, rfl⟩
  cases r with
  | closed => cases rs.error? c.slot <;> exact ⟨⟨rfl, rfl, rfl⟩, rfl⟩
  | _ => exact ⟨⟨rfl, rfl, rfl⟩, rfl⟩

theorem Calls.turn (sv : Services σ) (h : Calls c s c' s') (hsound : c.Sound) :
    Kin c c' ∧ Batch.Turn sv c.feeds c.workers c.slot false [] c.batch s c'.batch s' := by
  cases h with
  | start hp =>
    refine ⟨⟨rfl, rfl, rfl⟩, ?_⟩
    rw [hsound.batch_of_starting hp]
    exact .start _
  | enter hp => exact ⟨⟨rfl, rfl, rfl⟩, turn_of_same rfl (by simp)⟩
  | receive hp hb hi =>
    refine ⟨⟨rfl, rfl, rfl⟩, ?_⟩
    rw [hb]
    exact .quiet ⟨rfl, rfl, rfl, rfl, rfl, id⟩ rfl .inl
  | @conclude _ _ r hp =>
    obtain ⟨hkin, hbatch⟩ := turn_of_conclude { c with phase := .resting } s.registers r
    rw [hbatch]
    exact ⟨⟨hkin.feeds, hkin.workers, hkin.slot⟩, turn_of_same rfl (by simp)⟩
  | _ => exact ⟨⟨rfl, rfl, rfl⟩, turn_of_same rfl (fun _ => id)⟩

/-- A call that brings a result has it as the current one when it rests. -/
theorem Calls.delivered (h : Calls c s c' s') (hjoin : c.phase ≠ .joining) : c'.delivered
    = c.delivered ++ if c'.isResting && c'.more then c'.current.toList else [] := by
  cases h with
  | @conclude _ _ r hp =>
    unfold Cursor.conclude
    by_cases hclosed : c.closed = true
    · simp [hclosed]
    simp only [hclosed]
    cases r with
    | closed => cases s.registers.error? c.slot <;> simp
    | _ => simp [isResting]
  | join hp => exact absurd hp hjoin
  | _ => simp [isResting]

theorem Calls.frame (h : Calls c s c' s') (hsound : c.Sound) : c.phase ≠ .resting
    ∧ c'.closed = c.closed ∧ (c.phase ≠ .joining → c'.phase ≠ .joining)
    ∧ (c'.phase = .resting → c'.state ≠ .unstarted ∨ c.phase = .joining)
    ∧ s'.registers = s.registers
    ∧ ∀ context, s'.isCancelled context = s.isCancelled context := by
  cases h with
  | start hp => exact ⟨by simp [hp], rfl, by simp, by simp, rfl, by simp [Batch.start]⟩
  | enter hp => exact ⟨by simp [hp], rfl, by simp, by simp, rfl, by simp⟩
  | @conclude _ _ r hp =>
    have hrun : c.state = .running := by
      have := hsound.phase
      rw [hp] at this
      exact this.1
    have hopen := hsound.open_of_phase (by simp [hp]) (by simp [hp])
    refine ⟨by simp [hp], ?_, fun _ => ?_, fun _ => .inl ?_, rfl, by simp⟩ <;>
      unfold Cursor.conclude <;> cases r <;> cases s.registers.error? c.slot <;> simp [hrun, hopen]
  | join hp => exact ⟨by simp [hp], rfl, fun h => absurd hp h, fun _ => .inr hp, rfl, by simp⟩
  | _ hp => exact ⟨by simp [hp], rfl, by simp, by simp, rfl, by simp⟩

theorem Calls.eq_of_joining (h : Calls c s c' s') (hp : c.phase = .joining) :
    c' = { c with phase := .resting } ∧ s' = s := by
  cases h with
  | join => exact ⟨rfl, rfl⟩
  | _ hp' =>
    rw [hp] at hp'
    cases hp'

theorem turn_of_stepWorker? {k : ℕ} (h : c.stepWorker? sv k s = some (c', s')) :
    Kin c c' ∧ Batch.Turn sv feeds workers slot false [] c.batch s c'.batch s' := by
  obtain ⟨b, b', hb, hs, rfl⟩ := stepWorker?_cases h
  exact ⟨⟨rfl, rfl, rfl⟩, hb ▸ .work hs⟩

theorem turn_of_heed? (sv : Services σ) (h : c.heed? s = some c') :
    Kin c c' ∧ Batch.Turn sv feeds workers slot false [] c.batch s c'.batch s := by
  obtain ⟨b, hb, hc, rfl⟩ := heed?_cases h
  exact ⟨⟨rfl, rfl, rfl⟩,
    hb ▸ .quiet ⟨rfl, rfl, rfl, rfl, rfl, id⟩ rfl (fun _ => .inr hc)⟩

/-- An end stops the batch, unless it was called for before or there is no batch. -/
theorem turn_of_close (sv : Services σ) (c : Cursor) (s : Shared σ) : Kin c (c.close s).1
    ∧ ∃ stops, Batch.Turn sv feeds workers slot stops [] c.batch s (c.close s).1.batch
      (c.close s).2 := by
  rcases c.close_cases s with ⟨-, heq⟩ | ⟨-, heq⟩ | ⟨b, hb, heq⟩ <;> rw [heq]
  · exact ⟨⟨rfl, rfl, rfl⟩, false, turn_of_same rfl (fun _ => id)⟩
  · exact ⟨⟨rfl, rfl, rfl⟩, false, turn_of_same rfl (fun _ => id)⟩
  · refine ⟨⟨rfl, rfl, rfl⟩, true, ?_⟩
    rw [hb]
    exact .stop ⟨rfl, rfl, rfl, rfl, rfl, by simp⟩ rfl

end Turn

section Act

variable {sv : Services σ} {t t' : Cursor × Shared σ} {e : Event σ}

theorem Sound.act (h : t.1.Sound) (ht : act? sv t e = some t') : t'.1.Sound := by
  cases e with
  | advance context =>
    simp only [act?] at ht
    split_ifs at ht with hrest
    exact Option.some.inj ht ▸ h.advance (isResting_iff.mp hrest) _ _
  | close =>
    simp only [act?] at ht
    split_ifs at ht with hrest
    exact Option.some.inj ht ▸ h.close (isResting_iff.mp hrest) _
  | call => exact h.calls (calls_of_step? ht)
  | work k => exact h.work ht
  | heed =>
    obtain ⟨c, hc, rfl⟩ := Option.map_eq_some_iff.mp ht
    exact h.heed hc
  | _ => exact Option.some.inj ht ▸ h

/-- Every event takes the batch through a turn, and only an end stops it. -/
theorem act?_turn (hsound : t.1.Sound) (h : act? sv t e = some t') :
    Kin t.1 t'.1 ∧ ∃ stops, (stops = true → e.isClose = true)
      ∧ Batch.Turn sv t.1.feeds t.1.workers t.1.slot stops e.notes t.1.batch t.2 t'.1.batch t'.2 := by
  cases e with
  | advance context =>
    simp only [act?] at h
    split_ifs at h
    obtain rfl := Option.some.inj h
    obtain ⟨hkin, hb⟩ := turn_of_advance t.1 context t.2
    exact ⟨hkin, false, by simp, hb ▸ turn_of_same rfl (fun _ => id)⟩
  | close =>
    simp only [act?] at h
    split_ifs at h
    obtain rfl := Option.some.inj h
    obtain ⟨hkin, stops, hturn⟩ := turn_of_close sv t.1 t.2
    exact ⟨hkin, stops, fun _ => rfl, hturn⟩
  | call =>
    obtain ⟨hkin, hturn⟩ := (calls_of_step? h).turn sv hsound
    exact ⟨hkin, false, by simp, hturn⟩
  | work k =>
    obtain ⟨hkin, hturn⟩ := turn_of_stepWorker? h
    exact ⟨hkin, false, by simp, hturn⟩
  | heed =>
    obtain ⟨c, hc, rfl⟩ := Option.map_eq_some_iff.mp h
    obtain ⟨hkin, hturn⟩ := turn_of_heed? sv hc
    exact ⟨hkin, false, by simp, hturn⟩
  | cancel context =>
    obtain rfl := Option.some.inj h
    refine ⟨⟨rfl, rfl, rfl⟩, false, by simp, turn_of_same rfl fun other hc => ?_⟩
    rw [Shared.isCancelled_cancel, hc, Bool.or_true]
  | note slot e =>
    obtain rfl := Option.some.inj h
    exact ⟨⟨rfl, rfl, rfl⟩, false, by simp, .note⟩
  | elsewhere w =>
    obtain rfl := Option.some.inj h
    exact ⟨⟨rfl, rfl, rfl⟩, false, by simp, turn_of_same rfl (fun _ => id)⟩

end Act

end Cursor

end Ingest.Pipeline

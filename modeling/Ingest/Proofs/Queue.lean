import Mathlib
import Ingest.Queue.Basic
import Ingest.Queue.Countdown

/-!
# What queues and countdowns answer

Each operation of a queue by its outcomes, and when it has to wait.
-/

namespace Ingest

namespace Queue

variable {α : Type} {q q' : Queue α}

theorem send?_cases {a : α} {accepted : Bool} (h : q.send? a = some (accepted, q')) :
    (q.closed = true ∧ accepted = false ∧ q' = q)
      ∨ (q.closed = false ∧ q.items.length < q.capacity ∧ accepted = true
        ∧ q' = { q with items := q.items ++ [a] }) := by
  unfold send? at h
  split_ifs at h with hc hf
  · obtain ⟨rfl, rfl⟩ := Prod.mk.inj (Option.some.inj h)
    exact .inl ⟨hc, rfl, rfl⟩
  · obtain ⟨rfl, rfl⟩ := Prod.mk.inj (Option.some.inj h)
    refine .inr ⟨by simpa using hc, ?_, rfl, rfl⟩
    simpa [isFull] using hf

theorem send?_of_room {a : α} (hc : q.closed = false) (hroom : q.items.length < q.capacity) :
    q.send? a = some (true, { q with items := q.items ++ [a] }) := by
  simp [send?, hc, isFull, hroom]

theorem receive?_cases {r : Received α} (h : q.receive? = some (r, q')) :
    (∃ a rest, q.items = a :: rest ∧ r = .value a ∧ q' = { q with items := rest })
      ∨ (q.items = [] ∧ q.closed = true ∧ r = .closed ∧ q' = q) := by
  unfold receive? at h
  split at h
  · rename_i a rest hi
    obtain ⟨rfl, rfl⟩ := Prod.mk.inj (Option.some.inj h)
    exact .inl ⟨a, rest, hi, rfl, rfl⟩
  · rename_i hi
    split_ifs at h with hc
    obtain ⟨rfl, rfl⟩ := Prod.mk.inj (Option.some.inj h)
    exact .inr ⟨hi, hc, rfl, rfl⟩

theorem receive?_eq_none_iff : q.receive? = none ↔ q.items = [] ∧ q.closed = false := by
  unfold receive?
  cases q.items <;> simp

theorem receive?_isSome_of_closed (h : q.closed = true) : q.receive?.isSome := by
  unfold receive?
  cases q.items <;> simp [h]

theorem receiveUnless?_cases {cancelled : Bool} {r : Received α}
    (h : q.receiveUnless? cancelled = some (r, q')) :
    (cancelled = true ∧ r = .cancelled ∧ q' = q)
      ∨ (cancelled = false ∧ q.receive? = some (r, q')) := by
  unfold receiveUnless? at h
  split_ifs at h with hc
  · obtain ⟨rfl, rfl⟩ := Prod.mk.inj (Option.some.inj h)
    exact .inl ⟨hc, rfl, rfl⟩
  · exact .inr ⟨by simpa using hc, h⟩

@[simp] theorem close_snd (q : Queue α) : q.close.2 = { q with closed := true } := rfl

end Queue

namespace Countdown

theorem arrive_of_pos {c : Countdown} (h : 0 < c.remaining) :
    c.arrive = (decide (c.remaining = 1), { c with remaining := c.remaining - 1 }) := by
  rw [arrive, if_neg h.ne']

/-- The last arrival completes a countdown. -/
theorem arriveAndAct_of_pos {c : Countdown} (h : 0 < c.remaining) :
    c.arriveAndAct.remaining = c.remaining - 1
      ∧ c.arriveAndAct.completed = (c.completed || decide (c.remaining = 1)) := by
  by_cases h1 : c.remaining = 1 <;> simp [arriveAndAct, arrive_of_pos h, h1, complete]

end Countdown

end Ingest

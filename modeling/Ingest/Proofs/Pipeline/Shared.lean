import Mathlib
import Ingest.Pipeline.Shared

/-!
# What steps do to contexts and registers

Listening and forgetting leave every context as cancelled as it was, and a cancellation cancels one
context for good. Only `Shared.note` changes registers.
-/

namespace Ingest.Pipeline

namespace Shared

variable {σ : Type} (s : Shared σ)

theorem signal_setSignal (context other : String) (signal : Signal Waker) :
    (s.setSignal context signal).signal other
      = if other = context then signal else s.signal other := by
  by_cases h : other = context
  · subst h
    simp [Shared.signal, setSignal]
  · simp [Shared.signal, setSignal, Catalog.get?_set_of_ne _ h, h]

@[simp] theorem isCancelled_listen (context other : String) (w : Waker) :
    (s.listen context w).2.isCancelled other = s.isCancelled other := by
  simp only [listen, isCancelled, signal_setSignal]
  split
  · rename_i h
    subst h
    unfold Signal.listen
    split <;> rfl
  · rfl

@[simp] theorem isCancelled_forget (context other : String) (id : ℕ) :
    (s.forget context id).isCancelled other = s.isCancelled other := by
  simp only [forget, isCancelled, signal_setSignal]
  split
  · rename_i h
    subst h
    rfl
  · rfl

theorem isCancelled_cancel (context other : String) :
    (s.cancel context).isCancelled other = (decide (other = context) || s.isCancelled other) := by
  simp only [cancel, isCancelled, signal_setSignal]
  by_cases h : other = context
  · subst h
    rw [if_pos rfl, decide_eq_true rfl, Bool.true_or]
    unfold Signal.cancel
    split
    · assumption
    · rfl
  · simp [h]

@[simp] theorem isCancelled_note (other : String) (slot : ℕ) (e : Error) :
    (s.note slot e).isCancelled other = s.isCancelled other := rfl

@[simp] theorem isCancelled_say (other : String) (lines : List LogLine) :
    (s.say lines).isCancelled other = s.isCancelled other := rfl

@[simp] theorem isCancelled_world (other : String) (w : σ) :
    { s with world := w }.isCancelled other = s.isCancelled other := rfl

@[simp] theorem registers_listen (context : String) (w : Waker) :
    (s.listen context w).2.registers = s.registers := rfl

@[simp] theorem registers_forget (context : String) (id : ℕ) :
    (s.forget context id).registers = s.registers := rfl

@[simp] theorem registers_note (slot : ℕ) (e : Error) :
    (s.note slot e).registers = s.registers.note slot e := rfl

@[simp] theorem registers_say (lines : List LogLine) :
    (s.say lines).registers = s.registers := rfl

end Shared

/-! ### Notes

Errors that are noted, each with its register. -/

/-- What is noted in register `i`. -/
def notesIn (i : ℕ) (notes : List (ℕ × Error)) : List Error :=
  notes.flatMap fun p => if p.1 = i then [p.2] else []

@[simp] theorem notesIn_nil (i : ℕ) : notesIn i [] = [] := rfl

@[simp] theorem notesIn_singleton (i j : ℕ) (e : Error) :
    notesIn i [(j, e)] = if j = i then [e] else [] :=
  List.flatMap_singleton ..

theorem notesIn_append (i : ℕ) (ns ns' : List (ℕ × Error)) :
    notesIn i (ns ++ ns') = notesIn i ns ++ notesIn i ns' :=
  List.flatMap_append

end Ingest.Pipeline

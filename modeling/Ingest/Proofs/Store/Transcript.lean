import Ingest.Proofs.Store.Statements

/-!
# Transcripts of connections

The log of a scripted server says what it was asked. Replayed from the script as it was in the
beginning, it also tells what was answered, turn by turn and connection by connection (`transcript`).
Whatever is done with the server, the log that it leaves replays to the state that it leaves
(`Follows`).
-/

namespace Ingest.Store.Postgres

/-- What happens on a connection, with its answer. -/
inductive Turn where
  /-- It is attempted; the message of a refusal. -/
  | attempted (refusal : Option String)
  | sent (q : Statement) (answer : Except String Reply)
  | finished
  deriving DecidableEq, Repr

namespace Script

variable {s s' s'' : Script} {es es' : List LogEntry}

/-- The script after it has answered what an entry says that it was asked. -/
def redo (s : Script) : LogEntry → Script
  | .connected _ conninfo => (s.connect conninfo).2
  | .sent n q => (s.execute n q).2
  | .finished n => s.finish n

/-- The connection of an entry, and what happened on it. -/
def turn (s : Script) : LogEntry → Nat × Turn
  | .connected n conninfo => (n, .attempted (s.connect conninfo).1.2)
  | .sent n q => (n, .sent q (s.execute n q).1)
  | .finished n => (n, .finished)

def turns : Script → List LogEntry → List (Nat × Turn)
  | _, [] => []
  | s, e :: es => s.turn e :: turns (s.redo e) es

/-- What happened on one connection. -/
def transcript (s : Script) (n : Nat) (es : List LogEntry) : List Turn :=
  (s.turns es).filterMap fun t => if t.1 = n then some t.2 else none

@[simp] theorem turns_nil (s : Script) : s.turns [] = [] := rfl

theorem turns_append (s : Script) (es es' : List LogEntry) :
    s.turns (es ++ es') = s.turns es ++ (es.foldl redo s).turns es' := by
  induction es generalizing s with
  | nil => rfl
  | cons e es ih => simp [turns, ih]

/-- The log from `s` to `s'` has the entries `es`, and they replay to `s'`. -/
structure Follows (s : Script) (es : List LogEntry) (s' : Script) : Prop where
  log : s'.log = s.log ++ es
  script : es.foldl redo s = s'

namespace Follows

theorem refl (s : Script) : Follows s [] s :=
  ⟨(List.append_nil _).symm, rfl⟩

theorem trans (h : Follows s es s') (h' : Follows s' es' s'') : Follows s (es ++ es') s'' :=
  ⟨by rw [h'.log, h.log, List.append_assoc], by rw [List.foldl_append, h.script, h'.script]⟩

theorem connect (s : Script) (conninfo : String) :
    Follows s [.connected (s.attempts + 1) conninfo] (s.connect conninfo).2 :=
  ⟨rfl, rfl⟩

theorem execute (s : Script) (n : Nat) (q : Statement) :
    Follows s [.sent n q] (s.execute n q).2 :=
  ⟨rfl, rfl⟩

theorem finish (s : Script) (n : Nat) : Follows s [.finished n] (s.finish n) :=
  ⟨rfl, rfl⟩

/-- A further entry is a further turn of its connection. -/
theorem transcript_self (h : Follows s es s') {n : Nat} {e : LogEntry} (hn : (s'.turn e).1 = n) :
    s.transcript n (es ++ [e]) = s.transcript n es ++ [(s'.turn e).2] := by
  rw [transcript, turns_append, h.script, List.filterMap_append]
  simp [turns, transcript, hn]

theorem transcript_of_ne (h : Follows s es s') {n : Nat} {e : LogEntry}
    (hn : (s'.turn e).1 ≠ n) : s.transcript n (es ++ [e]) = s.transcript n es := by
  rw [transcript, turns_append, h.script, List.filterMap_append]
  simp [turns, transcript, hn]

end Follows

/-- Statements that are sent are what the log has more. -/
theorem follows_of_talks {connection : Option Nat} {Q : Statement → Prop}
    (h : server.Talks connection Q s s') : ∃ es, Follows s es s'
      ∧ ∀ e ∈ es, ∃ n q, connection = some n ∧ Q q ∧ e = .sent n q.wire := by
  induction h with
  | quiet s => exact ⟨[], .refl s, by simp⟩
  | @sent n q s s' hn hq _ ih =>
    obtain ⟨es, hes, hsent⟩ := ih
    exact ⟨.sent n q.wire :: es, (Follows.execute s n q.wire).trans hes,
      List.forall_mem_cons.mpr ⟨⟨n, q, hn, hq, rfl⟩, hsent⟩⟩

end Script

end Ingest.Store.Postgres

import Ingest.Store.Postgres.Statement

/-!
# Servers

What a PostgreSQL storage needs of a server: connections, which are numbered, and an answer to each
statement. `Script` is a server that answers from a script and keeps a log of all it was asked.
-/

namespace Ingest.Store.Postgres

/-- The answer to a statement: rows of texts, and the text that counts the rows it changed. -/
structure Reply where
  rows : List (List String) := []
  affected : String := ""
  deriving DecidableEq, Repr

/-- A server in a world `σ`. -/
structure Server (σ : Type) where
  /-- Attempts a connection: its number, and the message of a refusal. -/
  connect : String → σ → (Nat × Option String) × σ
  execute : Nat → Statement → σ → Except String Reply × σ
  finish : Nat → σ → σ

inductive LogEntry where
  | connected (connection : Nat) (conninfo : String)
  | sent (connection : Nat) (statement : Statement)
  | finished (connection : Nat)
  deriving DecidableEq, Repr

structure Script where
  /-- What each connection attempt is answered: none accepts it, as does the end of the list. -/
  connects : List (Option String) := []
  /-- What each statement is answered, over all connections. -/
  replies : List (Except String Reply) := []
  log : List LogEntry := []
  /-- How many connections have been attempted. -/
  attempts : Nat := 0

namespace Script

def connect (conninfo : String) (s : Script) : (Nat × Option String) × Script :=
  let n := s.attempts + 1
  ((n, s.connects.head?.join),
    { s with
      connects := s.connects.tail
      attempts := n
      log := s.log ++ [.connected n conninfo] })

/-- The answer once the script is used up. -/
def exhausted : Except String Reply :=
  .error "no reply scripted\n"

def execute (connection : Nat) (q : Statement) (s : Script) : Except String Reply × Script :=
  (s.replies.head?.getD exhausted,
    { s with replies := s.replies.tail, log := s.log ++ [.sent connection q] })

def finish (connection : Nat) (s : Script) : Script :=
  { s with log := s.log ++ [.finished connection] }

/-- The server that follows the script. -/
def server : Server Script :=
  ⟨connect, execute, finish⟩

end Script

end Ingest.Store.Postgres

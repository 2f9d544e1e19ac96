/-!
# Logging

Warnings and errors, and the levels at which a log keeps them.
-/

namespace Ingest

inductive LogLevel where
  | trace
  | debug
  | info
  | warn
  | error
  | critical
  | off
  deriving DecidableEq, Repr

namespace LogLevel

def all : List LogLevel :=
  [trace, debug, info, warn, error, critical, off]

def name : LogLevel → String
  | trace => "trace"
  | debug => "debug"
  | info => "info"
  | warn => "warn"
  | error => "error"
  | critical => "critical"
  | off => "off"

def ofName? (s : String) : Option LogLevel :=
  all.find? fun l => l.name = s

/-- How much a level leaves out. -/
def rank : LogLevel → Nat
  | trace => 0
  | debug => 1
  | info => 2
  | warn => 3
  | error => 4
  | critical => 5
  | off => 6

end LogLevel

inductive LogLine where
  | warning (text : String)
  | error (text : String)
  deriving DecidableEq, Repr

namespace LogLine

def level : LogLine → LogLevel
  | warning _ => .warn
  | error _ => .error

/-- Whether a log at a level keeps the line. -/
def isKeptAt (l : LogLine) (least : LogLevel) : Bool :=
  least.rank ≤ l.level.rank

/-- The line as it is shown. -/
def render : LogLine → String
  | warning text => "warn: " ++ text
  | error text => "error: " ++ text

end LogLine

end Ingest

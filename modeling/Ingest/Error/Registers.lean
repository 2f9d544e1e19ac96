import Ingest.Error

/-!
# Registers of errors

A slot holds the first error recorded in it and counts the later ones. A slot opened below another
passes everything it is given on to that one first, so a stage keeps a view of its own while the
whole run keeps one for all stages.

`Registers` are all slots, numbered in the order in which they were opened. Each slot knows the
path that a record takes: the slots above it, outermost first, and itself.
-/

namespace Ingest

structure Slot where
  error : Option Error := none
  dropped : Nat := 0
  /-- The numbers of the slots that a record goes through, this slot's own at the end. -/
  path : List Nat
  /-- All that was recorded here, in order; no step looks at it. -/
  noted : List Error := []
  deriving DecidableEq, Repr

namespace Slot

/-- Keeps the first error; a later one is counted and dropped. -/
def note (s : Slot) (e : Error) : Slot :=
  if s.error.isNone then { s with error := some e, noted := s.noted ++ [e] }
  else { s with dropped := s.dropped + 1, noted := s.noted ++ [e] }

end Slot

abbrev Registers := List Slot

namespace Registers

/-- The number that the next slot gets. -/
def next (rs : Registers) : Nat :=
  rs.length

def path (rs : Registers) (i : Nat) : List Nat :=
  match rs[i]? with
  | some s => s.path
  | none => []

/-- Opens a slot below the slot `above`, or one that stands alone. -/
def openSlot (rs : Registers) (above : Option Nat) : Registers :=
  rs ++ [{ path := (match above with | some i => rs.path i | none => []) ++ [rs.next] }]

def error? (rs : Registers) (i : Nat) : Option Error :=
  rs[i]?.bind Slot.error

def dropped (rs : Registers) (i : Nat) : Nat :=
  match rs[i]? with
  | some s => s.dropped
  | none => 0

/-- All that was recorded in a slot, in order. -/
def noted (rs : Registers) (i : Nat) : List Error :=
  match rs[i]? with
  | some s => s.noted
  | none => []

/-- Notes an error in one slot only. -/
def note (rs : Registers) (i : Nat) (e : Error) : Registers :=
  rs.modify i fun s => s.note e

/-- Records an error in a slot and, before it, in every slot above. -/
def record (rs : Registers) (i : Nat) (e : Error) : Registers :=
  (rs.path i).foldl (fun rs j => rs.note j e) rs

/-- Whether a record would become a slot's own error. -/
def isFirst (rs : Registers) (i : Nat) : Bool :=
  (rs.error? i).isNone

end Registers

end Ingest

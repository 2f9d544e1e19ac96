import Ingest.Trial.World

/-!
# Trials of a cursor

A cursor with one worker and a consumer who calls it step by step. The exchange of a job ends only
once so many results have been called for, so that one exchange is under way ahead of the consumer;
after a `close` all may end. Each step lasts until nothing moves any more.
-/

namespace Ingest.Trial

open Pipeline

structure Iteration where
  cursor : Cursor
  shared : Shared World
  services : Services World
  lines : List Line
  /-- A register above the cursor's own, or beside the cursor. -/
  register : Nat
  /-- How many results were brought. -/
  delivered : Nat := 0
  /-- How many exchanges may end; none limits them no more. -/
  reach : Option Nat := some 0

namespace Iteration

/-- A cursor over lines, and a register that may hold an error already; the cursor records there
if it is `registered`. -/
def ofLines (lines : List Line) (l : Limit) (registered : Bool) (prior : Option Error) :
    Iteration :=
  let world := ({} : World).renew l
  let (register, s) := ({ world := world } : Shared World).openSlot none
  let s := match prior with | some e => s.note register e | none => s
  let (cursor, s) :=
    Cursor.ofFeeds (feedsOf lines) 1 (if registered then some register else none) s
  { cursor := cursor, shared := s, services := world.services lines l [], lines := lines,
    register := register }

/-- Lets everything move that can. Long sleeps end only while the consumer waits. -/
def settle (t : Iteration) : Iteration :=
  let pace : Pace := { sendsLast := true, reach := t.reach, cancels := cancelsOf t.lines }
  let bound := stepBound t.lines.length 1 0
  let (cursor, shared) :=
    settleUntil (fun p => p.1.isResting) (Cursor.next? t.services pace) bound (t.cursor, t.shared)
  let (cursor, shared) :=
    Pipeline.settle
      (Cursor.next? t.services { pace with wakes := false }) bound (cursor, shared)
  { t with cursor := cursor, shared := shared }

/-- Calls for the next result. Even a call that fails lets one more exchange end. -/
def advance (t : Iteration) (context : String) : Iteration :=
  let t := { t with
    cursor := t.cursor.advance context t.shared
    reach := t.reach.map fun n => max n (t.delivered + 1) }.settle
  { t with delivered := if t.cursor.more then t.delivered + 1 else t.delivered }

def close (t : Iteration) : Iteration :=
  let (cursor, shared) := t.cursor.close t.shared
  { t with cursor := cursor, shared := shared, reach := none }.settle

def cancel (t : Iteration) (context : String) : Iteration :=
  { t with shared := t.shared.cancel context }.settle

/-- How many exchanges have begun. -/
def calls (t : Iteration) : Nat :=
  match t.cursor.batch with
  | some b => b.begun.length
  | none => 0

end Iteration

end Ingest.Trial

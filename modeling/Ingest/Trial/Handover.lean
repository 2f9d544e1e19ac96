import Ingest.Trial.World

/-!
# Trials of a delivery

A delivery to recording storages, driven step by step; each step lasts until nothing moves any more.
-/

namespace Ingest.Trial

open Pipeline

structure Handover where
  delivery : Delivery
  shared : Shared World
  services : Services World
  workers : Nat

namespace Handover

/-- A delivery, not yet started, to the storages with the given names. -/
def ofStores (stores : Catalog Store.Recorder) (ids : List String) (workers capacity : Nat) :
    Handover :=
  let world : World := { stores := stores }
  let (slot, s) := ({ world := world } : Shared World).openSlot none
  { delivery := .ofCapacity capacity slot, shared := s, services := world.services [] .absent ids,
    workers := workers }

def next? (sv : Services World) (t : Delivery × Shared World) :
    Option (Delivery × Shared World) :=
  (List.range t.1.couriers.length).findSome? fun k => t.1.step? sv k t.2

/-- Lets everything move that can. -/
def settle (t : Handover) : Handover :=
  let (d, s) :=
    Pipeline.settle (next? t.services)
      (stepBound t.delivery.accepted.length t.workers t.services.writers.length)
      (t.delivery, t.shared)
  { t with delivery := d, shared := s }

/-- Submits a payload: whether it was accepted. None if there is no room and never will be. -/
def submit (t : Handover) (u : Upsert) : Option Bool × Handover :=
  match t.delivery.submit? u with
  | none => (none, t)
  | some (accepted, d) => (some accepted, { t with delivery := d }.settle)

def start (t : Handover) (context : String) : Handover :=
  { t with delivery := t.delivery.start context t.workers }.settle

def close (t : Handover) : Handover :=
  { t with delivery := t.delivery.close }.settle

def cancel (t : Handover) (context : String) : Handover :=
  { t with shared := t.shared.cancel context }.settle

def closeStore (t : Handover) (id : String) : Handover :=
  { t with shared := { t.shared with world := t.shared.world.closeStore id } }

end Handover

end Ingest.Trial

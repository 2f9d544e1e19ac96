import Ingest.Proofs.Signal.Counting

/-!
# The tally of listeners

The commands that a registry is told, one after the other, with the numbers that were given for
listeners and those by which listeners were taken away (`Tally`). Whatever the listeners do when
they run, a context that is not cancelled has as many entries as it has listeners that were added
and not taken away and children that are held and not cancelled, and one that is cancelled has none
(`Tally.listenerCount_eq`).
-/

namespace Ingest

namespace Signal

open Registry

/-- The handle by which a command means a context. -/
def Registry.Command.on? : Command → Option String
  | .derive on _ | .share on _ | .cancel on | .listen on _ | .forget on _ | .guardWith on _ _ =>
    some on
  | .create _ | .dropName _ | .dropGuard _ => none

/-- A registry with its past. -/
structure Tally where
  registry : Registry := {}
  /-- The numbers that were given for listeners, each with its context. -/
  added : List (ℕ × ℕ) := []
  /-- The numbers by which listeners were taken away, each with its context. -/
  removed : List (ℕ × ℕ) := []

namespace Tally

variable {s : Tally} {c : Command}

/-- The numbers that a command gives for listeners. A listener that runs may add others. -/
def adds (s : Tally) : Command → List (ℕ × ℕ)
  | .cancel on =>
    (s.registry.named? on).toList.flatMap fun i => s.registry.settleAdds [.cancel i]
  | .listen on l | .guardWith on _ l =>
    (s.registry.named? on).toList.flatMap fun i => s.registry.listenAdds i l
  | _ => []

/-- The numbers by which a command takes listeners away. A guard takes its own away when it ends. -/
def removes (s : Tally) : Command → List (ℕ × ℕ)
  | .forget on id => (s.registry.named? on).toList.map fun i => (i, id)
  | .guardWith on name _ =>
    (s.registry.named? on).toList.flatMap fun _ => s.registry.guardNumber name
  | .dropGuard name => s.registry.guardNumber name
  | _ => []

def obey (s : Tally) (c : Command) : Tally where
  registry := (s.registry.obey c).2
  added := s.added ++ s.adds c
  removed := s.removed ++ s.removes c

/-- A listener is taken away by a number that was given for one. -/
def Permits (s : Tally) : Command → Prop
  | .forget on id => ∀ i, s.registry.named? on = some i → (i, id) ∈ s.added
  | _ => True

/-- The tallies that there can be. -/
inductive Reachable : Tally → Prop
  | start : Reachable {}
  | obey {s : Tally} {c : Command} : Reachable s → s.Permits c → Reachable (s.obey c)

/-- The listeners of a context that were added and not taken away. -/
def standing (s : Tally) (k : ℕ) : List ℕ :=
  Signal.standing s.added s.removed k

/-- Without the handle that it names, a command does nothing. -/
theorem obey_of_not_named {on : String} (hon : c.on? = some on)
    (hname : s.registry.named? on = none) : s.obey c = s := by
  cases c <;> simp_all [Command.on?, obey, adds, removes, Registry.obey]

/-- What one command keeps. -/
theorem accounted_obey (h : Accounted s.added s.removed s.registry) (hc : s.Permits c) :
    Accounted (s.obey c).added (s.obey c).removed (s.obey c).registry := by
  by_cases hidle : ∃ on, c.on? = some on ∧ s.registry.named? on = none
  · obtain ⟨on, hon, hname⟩ := hidle
    rw [obey_of_not_named hon hname]
    exact h
  have hnamed : ∀ on, c.on? = some on → ∃ i ∈ s.registry.held, s.registry.named? on = some i := by
    intro on hon
    obtain ⟨i, hi⟩ := Option.ne_none_iff_exists'.mp fun hname => hidle ⟨on, hon, hname⟩
    exact ⟨i, mem_held_of_named hi, hi⟩
  cases c with
  | create name => simpa [obey, adds, removes, Registry.obey] using h.create name
  | derive on name =>
    obtain ⟨i, hheld, hi⟩ := hnamed on rfl
    simpa [obey, adds, removes, Registry.obey, hi] using h.derive hheld name
  | share on name =>
    obtain ⟨i, hheld, hi⟩ := hnamed on rfl
    simpa [obey, adds, removes, Registry.obey, hi] using h.share hheld name
  | dropName name => simpa [obey, adds, removes, Registry.obey] using h.dropName name
  | cancel on =>
    obtain ⟨i, hheld, hi⟩ := hnamed on rfl
    simpa [obey, adds, removes, Registry.obey, hi] using h.cancel hheld
  | listen on l =>
    obtain ⟨i, hheld, hi⟩ := hnamed on rfl
    simpa [obey, adds, removes, Registry.obey, hi] using (h.listen hheld l).1
  | forget on id =>
    obtain ⟨i, hheld, hi⟩ := hnamed on rfl
    simpa [obey, adds, removes, Registry.obey, hi] using h.forget (hc i hi)
  | guardWith on name l =>
    obtain ⟨i, hheld, hi⟩ := hnamed on rfl
    simpa [obey, adds, removes, Registry.obey, hi] using h.guardWith hheld name l
  | dropGuard name => simpa [obey, adds, removes, Registry.obey] using h.dropGuard name

theorem Reachable.accounted (h : Reachable s) : Accounted s.added s.removed s.registry := by
  induction h with
  | start => exact .empty
  | obey _ hc ih => exact accounted_obey ih hc

/-- A context that is not cancelled has as many entries as there are listeners that were added to it
and not taken away and contexts that were derived from it, are held and not cancelled. A context
that is cancelled has none. -/
theorem listenerCount_eq (h : Reachable s) (k : ℕ) : s.registry.listenerCount k
    = if s.registry.isCancelled k then 0
      else (s.standing k).length + (s.registry.children k).length := by
  obtain ⟨htidy, hbooked⟩ := h.accounted
  split_ifs with hk
  · exact List.length_eq_zero_iff.mpr (htidy.linked.ended k hk)
  · rw [standing, ← hbooked.standing k (by simpa using hk)]
    exact length_entries htidy.linked (hbooked.nodup k)

/-- The listener of a child that is cancelled adds one to the context that it was derived from. Of
this and another one, one is taken away again, and one child is left. -/
theorem listenerCount_eq_mixed :
    let told := [.create "a", .derive "a" "b", .derive "a" "c",
      .listen "b" (.noteThen "x" none "a" (.note "y" none)), .cancel "b",
      .guardWith "a" "g" (.note "z" none)]
    let s := (told.foldl Tally.obey {}).obey (.forget "a" 3)
    Reachable s ∧ s.standing 0 = [4] ∧ s.registry.children 0 = [2]
      ∧ s.registry.listenerCount 0 = 2 := by
  intro told s
  have hderived : Reachable ((told.take 3).foldl Tally.obey {}) :=
    .obey (.obey (.obey .start trivial) trivial) trivial
  have htold : Reachable (told.foldl Tally.obey {}) :=
    .obey (.obey (.obey hderived trivial) trivial) trivial
  have hname : (told.foldl Tally.obey {}).registry.named? "a" = some 0 := by decide +kernel
  have hs : Reachable s := by
    refine htold.obey fun i hi => ?_
    obtain rfl := Option.some.inj (hname.symm.trans hi)
    decide +kernel
  have hstanding : s.standing 0 = [4] := by decide +kernel
  have hchildren : s.registry.children 0 = [2] := by decide +kernel
  have hlive : s.registry.isCancelled 0 = false := by decide +kernel
  refine ⟨hs, hstanding, hchildren, ?_⟩
  rw [listenerCount_eq hs 0, hlive, hstanding, hchildren]
  rfl

end Tally

end Signal

end Ingest

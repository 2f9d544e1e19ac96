import Ingest.Proofs.Signal.Holding

/-!
# Cancellation and descent

The commands that a registry is told, one after the other, with the cancellations among them
(`Story`). Where no listener cancels a context, a context is cancelled if and only if one of the
cancellations reached it: it was of that context, or of one that it descends from while each context in
between that had been derived by then was held (`Story.done_iff_reached`). Nobody is reached through a
context that nobody holds (`Story.dropped_link_spares`).
-/

namespace Ingest

namespace Signal

namespace Registry

variable {r r' : Registry} {H H' : Set ℕ} {i j n : ℕ}

/-- The listeners that a command brings cancel no context. -/
def Command.Quiet : Command → Prop
  | .listen _ l | .guardWith _ _ l => l.Quiet
  | _ => True

theorem Reaches.mono (h : Reaches r H i j) (hH : H ⊆ H') : Reaches r H' i j := by
  induction h with
  | self => exact .self
  | derived _ horigin hc ih => exact .derived ih horigin (hH hc)

/-- What a cancellation reaches does not depend on contexts that came later. -/
theorem Reaches.congr (horigin : ∀ k < n, (r'.cell k).origin = (r.cell k).origin)
    (holder : ∀ k l, (r.cell k).origin = some l → l < k) (hH : ∀ k < n, k ∈ H → k ∈ H')
    (hj : j < n) (h : Reaches r H i j) : Reaches r' H' i j := by
  induction h with
  | self => exact .self
  | derived _ hc hmem ih =>
    exact .derived (ih ((holder _ _ hc).trans hj)) ((horigin _ hj).trans hc) (hH _ hj hmem)

theorem Reaches.cases_iff : Reaches r H i j
    ↔ j = i ∨ ∃ k, (r.cell j).origin = some k ∧ j ∈ H ∧ Reaches r H i k := by
  constructor
  · rintro (_ | ⟨hk, horigin, hj⟩)
    · exact .inl rfl
    · exact .inr ⟨_, horigin, hj, hk⟩
  · rintro (rfl | ⟨k, horigin, hj, hk⟩)
    · exact .self
    · exact .derived hk horigin hj

/-- Nothing that came later was derived from anything. -/
theorem Reaches.of_later (h : Reaches r {k | k ∈ H ∨ r.cells.length ≤ k} i j) :
    Reaches r H i j := by
  induction h with
  | self => exact .self
  | derived _ horigin hmem ih =>
    refine .derived ih horigin (hmem.resolve_right fun hle => ?_)
    rw [cell_of_le hle] at horigin
    cases horigin

end Registry

open Registry

/-- A cancellation, and the registry before it. -/
structure Call where
  context : ℕ
  before : Registry

/-- The contexts that were held at the time, and those that came later. -/
def Call.heldOrLater (call : Call) : Set ℕ :=
  {i | call.before.isHeld i = true ∨ call.before.cells.length ≤ i}

/-- A registry with its past. -/
structure Story where
  registry : Registry := {}
  /-- The numbers that were given for listeners, each with its context. -/
  given : List (ℕ × ℕ) := []
  calls : List Call := []

namespace Story

variable {s : Story} {c : Command} {i : ℕ}

/-- The number that a command gives for a listener. -/
def gives (s : Story) : Command → List (ℕ × ℕ)
  | .listen on l => (s.registry.named? on).toList.map fun i => (i, (s.registry.listen i l).1)
  | _ => []

def callsOf (s : Story) : Command → List Call
  | .cancel on => (s.registry.named? on).toList.map fun i => ⟨i, s.registry⟩
  | _ => []

def obey (s : Story) (c : Command) : Story where
  registry := (s.registry.obey c).2
  given := s.given ++ s.gives c
  calls := s.calls ++ s.callsOf c

/-- A listener is taken away by a number that was given for one. -/
def Permits (s : Story) : Command → Prop
  | .forget on id => ∀ i, s.registry.named? on = some i → (i, id) ∈ s.given
  | _ => True

/-- The stories that there can be. -/
inductive Possible : Story → Prop
  | start : Possible {}
  | obey {s : Story} {c : Command} : Possible s → c.Quiet → s.Permits c → Possible (s.obey c)

/-- A cancellation reached the context: it was of that context, or of one from which it was derived
through contexts that were held at the time, as far as there were any. -/
def Reached (s : Story) (i : ℕ) : Prop :=
  ∃ call ∈ s.calls, Reaches s.registry call.heldOrLater call.context i

/-- What holds all along. -/
structure Sound (s : Story) : Prop where
  tidy : Tidy Listener.Quiet {p | p ∈ s.given} s.registry
  begun : ∀ call ∈ s.calls, call.context < call.before.cells.length
    ∧ call.before.cells.length ≤ s.registry.cells.length
  /-- Who is held now was held at every time since it came into being. -/
  held : ∀ call ∈ s.calls, s.registry.held ⊆ call.heldOrLater
  cancelled_iff : ∀ i, s.registry.isCancelled i = true ↔ s.Reached i

theorem sound_start : Sound {} where
  tidy := tidy_empty.anti fun _ hp => nomatch hp
  begun _ h := nomatch h
  held _ h := nomatch h
  cancelled_iff i := by simp [Reached, isCancelled, cell]

theorem named_of_callsOf (h : s.callsOf c ≠ []) :
    ∃ on k, c = .cancel on ∧ s.registry.named? on = some k := by
  cases c with
  | cancel on =>
    rcases hk : s.registry.named? on with _ | k
    · simp [callsOf, hk] at h
    · exact ⟨on, k, rfl, hk⟩
  | _ => exact absurd rfl h

/-- What is done to the context with a name, if there is one. -/
theorem of_named {P : Registry → Prop} {r : Registry} {on : String} {f : ℕ → Registry} (hr : P r)
    (h : ∀ i, r.named? on = some i → P (f i)) :
    P (match r.named? on with | some i => f i | none => r) := by
  split
  · exact h _ ‹_›
  · exact hr

namespace Sound

/-- A command that adds to the registry and cancels nobody. -/
theorem grow (h : Sound s) (hcalls : s.callsOf c = []) (hgrown : Grown s.registry (s.obey c).registry)
    (htidy : Tidy Listener.Quiet {p | p ∈ (s.obey c).given} (s.obey c).registry) : Sound (s.obey c) := by
  have hcalls' : (s.obey c).calls = s.calls := by simp [Story.obey, hcalls]
  refine ⟨htidy, fun call hcall => ?_, fun call hcall i hi => ?_, fun i => ?_⟩
  · rw [hcalls'] at hcall
    exact (h.begun call hcall).imp_right (·.trans hgrown.length)
  · rw [hcalls'] at hcall
    rcases lt_or_ge i s.registry.cells.length with hold | hnew
    · exact h.held call hcall (hgrown.held i hold hi)
    · exact .inr ((h.begun call hcall).2.trans hnew)
  · unfold Reached
    rw [hcalls']
    induction i using Nat.strong_induction_on with
    | _ i ih =>
      rcases lt_or_ge i s.registry.cells.length with hold | hnew
      · rw [hgrown.flag i hold, h.cancelled_iff i]
        refine exists_congr fun call => and_congr_right fun _ => ⟨?_, ?_⟩
        · exact Reaches.congr hgrown.origin h.tidy.linked.older (fun _ _ hk => hk) hold
        · exact Reaches.congr (fun k hk => (hgrown.origin k hk).symm) htidy.linked.older
            (fun _ _ hk => hk) hold
      · rw [hgrown.fresh i hnew]
        constructor
        · rintro ⟨k, horigin, hk⟩
          obtain ⟨call, hcall, hreach⟩ := (ih k (htidy.linked.older i k horigin)).mp hk
          exact ⟨call, hcall, .derived hreach horigin (.inr ((h.begun call hcall).2.trans hnew))⟩
        · rintro ⟨call, hcall, hreach⟩
          rcases Reaches.cases_iff.mp hreach with rfl | ⟨k, horigin, -, hk⟩
          · obtain ⟨hlt, hle⟩ := h.begun call hcall
            exact absurd (hlt.trans_le hle) (not_lt.mpr hnew)
          · exact ⟨k, horigin, (ih k (htidy.linked.older i k horigin)).mpr ⟨call, hcall, hk⟩⟩

theorem cancel {on : String} {k : ℕ} (h : Sound s) (hk : s.registry.named? on = some k) :
    Sound (s.obey (.cancel on)) := by
  have hheld : k ∈ s.registry.held := mem_held_of_named hk
  have hlt := h.tidy.linked.held_lt k hheld
  obtain ⟨hlinked, hkept, hflag⟩ := h.tidy.linked.cancel_spec hlt
  have hregistry : (s.obey (.cancel on)).registry = s.registry.cancel k := by
    simp [Story.obey, Registry.obey, hk]
  have hcalls : (s.obey (.cancel on)).calls = s.calls ++ [⟨k, s.registry⟩] := by
    simp [Story.obey, callsOf, hk]
  have hgiven : (s.obey (.cancel on)).given = s.given := by simp [Story.obey, gives]
  have hreaches : ∀ H i j, Reaches (s.registry.cancel k) H i j ↔ Reaches s.registry H i j :=
    fun H i j => ⟨
      .congr (fun l _ => (hkept.origin l).symm) hlinked.older (fun _ _ hl => hl) j.lt_succ_self,
      .congr (fun l _ => hkept.origin l) h.tidy.linked.older (fun _ _ hl => hl) j.lt_succ_self⟩
  refine ⟨?_, ?_, ?_, fun i => ?_⟩
  · rw [hregistry, hgiven]
    exact h.tidy.cancel hheld
  · rw [hregistry, hcalls, hkept.length, List.forall_mem_append]
    exact ⟨h.begun, by simpa using hlt⟩
  · rw [hregistry, hcalls, hkept.held, List.forall_mem_append, List.forall_mem_singleton]
    exact ⟨h.held, fun i hi => .inl hi⟩
  · rw [hregistry, hflag, h.cancelled_iff i]
    simp only [Reached, hregistry, hcalls, hreaches, List.mem_append, List.mem_singleton,
      or_and_right, exists_or, exists_eq_left]
    exact or_congr_right ⟨fun hi => hi.mono fun _ hl => .inl hl, fun hi => hi.of_later⟩

theorem grown (h : Sound s) (hc : c.Quiet) (hcalls : s.callsOf c = []) :
    Grown s.registry (s.obey c).registry := by
  have hidle : Grown s.registry s.registry := .of_sameCells (.of_cells rfl) subset_rfl
  have hheld : ∀ {on i}, s.registry.named? on = some i → i ∈ s.registry.held := mem_held_of_named
  show Grown s.registry (s.registry.obey c).2
  cases c with
  | create name => exact h.tidy.grown_create name
  | derive on name => exact of_named hidle fun i hi => h.tidy.grown_derive (hheld hi) name
  | share on name => exact of_named hidle fun i hi => h.tidy.grown_share (hheld hi) name
  | dropName name => exact Tidy.grown_dropName s.registry name
  | cancel on => exact of_named hidle fun i hi => by simp [callsOf, hi] at hcalls
  | listen on l =>
    rcases hi : s.registry.named? on with _ | i <;> simp only [Registry.obey, hi]
    · exact hidle
    · exact h.tidy.grown_listen (hheld hi) hc
  | forget on id => exact of_named hidle fun i _ => .of_sameCells (.forget ..) subset_rfl
  | guardWith on name l => exact of_named hidle fun i hi => h.tidy.grown_guardWith (hheld hi) hc name
  | dropGuard name => exact Tidy.grown_dropGuard s.registry name

theorem tidy_obey (h : Sound s) (hc : c.Quiet) (hp : s.Permits c) :
    Tidy Listener.Quiet {p | p ∈ (s.obey c).given} (s.obey c).registry := by
  have hheld : ∀ {on i}, s.registry.named? on = some i → i ∈ s.registry.held := mem_held_of_named
  suffices hsuff : s.gives c = [] → Tidy Listener.Quiet {p | p ∈ s.given} (s.registry.obey c).2 by
    cases c with
    | listen on l =>
      rcases hi : s.registry.named? on with _ | i
      · have hgives : s.gives (.listen on l) = [] := by simp [gives, hi]
        simpa [Story.obey, hgives] using hsuff hgives
      · have htidy := h.tidy.listen (hheld hi) hc
        simp only [Story.obey, gives, Registry.obey, hi, Option.toList_some, List.map_singleton]
        exact htidy.anti fun p hp => (List.mem_append.mp hp).elim .inr
          fun hp => .inl (List.mem_singleton.mp hp)
    | _ => simpa [Story.obey, gives] using hsuff rfl
  intro hgives
  cases c with
  | create name => exact h.tidy.create name
  | derive on name => exact of_named h.tidy fun i hi => h.tidy.derive (hheld hi) name
  | share on name => exact of_named h.tidy fun i hi => h.tidy.share (hheld hi) name
  | dropName name => exact h.tidy.dropName name
  | cancel on => exact of_named h.tidy fun i hi => h.tidy.cancel (hheld hi)
  | listen on l =>
    rcases hi : s.registry.named? on with _ | i
    · simpa [Registry.obey, hi] using h.tidy
    · simp [gives, hi] at hgives
  | forget on id => exact of_named h.tidy fun i hi => h.tidy.forget (hp i hi)
  | guardWith on name l =>
    exact of_named h.tidy fun i hi => h.tidy.guardWith (hheld hi) hc name
  | dropGuard name => exact h.tidy.dropGuard name

theorem obey (h : Sound s) (hc : c.Quiet) (hp : s.Permits c) : Sound (s.obey c) := by
  by_cases hcalls : s.callsOf c = []
  · exact h.grow hcalls (h.grown hc hcalls) (h.tidy_obey hc hp)
  · obtain ⟨on, k, rfl, hk⟩ := named_of_callsOf hcalls
    exact h.cancel hk

end Sound

theorem Possible.sound (h : Possible s) : Sound s := by
  induction h with
  | start => exact sound_start
  | obey _ hc hp ih => exact ih.obey hc hp

/-- In every story in which no listener cancels a context, a context is cancelled if and only if a
cancellation reached it. That is so for every cancellation of a context from which it descends by
contexts that are all held still. No step cancels a context but to cancel it or one from which it
descends, and no step takes that back. -/
theorem done_iff_reached (h : Possible s) :
    (∀ i, s.registry.isCancelled i = true ↔ s.Reached i)
      ∧ (∀ call ∈ s.calls, ∀ i, Reaches s.registry s.registry.held call.context i →
        s.registry.isCancelled i = true)
      ∧ ∀ c, c.Quiet → s.Permits c → ∀ i < s.registry.cells.length,
        (s.obey c).registry.isCancelled i ≠ s.registry.isCancelled i →
        s.registry.isCancelled i = false ∧ ∃ on k, c = .cancel on ∧ s.registry.named? on = some k
          ∧ Reaches s.registry Set.univ k i := by
  have hs := h.sound
  refine ⟨hs.cancelled_iff, fun call hcall i hi => ?_, fun c hc hp i hlt hne => ?_⟩
  · exact (hs.cancelled_iff i).mpr ⟨call, hcall, hi.mono (hs.held call hcall)⟩
  · by_cases hcalls : s.callsOf c = []
    · exact absurd ((hs.grown hc hcalls).flag i hlt) hne
    · obtain ⟨on, k, rfl, hk⟩ := named_of_callsOf hcalls
      have hlt := hs.tidy.linked.held_lt k (mem_held_of_named hk)
      obtain ⟨-, -, hflag⟩ := hs.tidy.linked.cancel_spec hlt
      have hregistry : (s.obey (.cancel on)).registry = s.registry.cancel k := by
        simp [Story.obey, Registry.obey, hk]
      rw [hregistry] at hne
      cases hold : s.registry.isCancelled i with
      | true => exact absurd ((hflag i).mpr (.inl hold)) (hold ▸ hne)
      | false =>
        rw [hold, Bool.ne_false_iff, hflag, hold] at hne
        have hreach := hne.resolve_left Bool.false_ne_true
        exact ⟨rfl, on, k, rfl, hk, hreach.mono (Set.subset_univ _)⟩

/-- `b` is derived from `a` and `c` from `b`, before what is told last. -/
def threeGenerations (last : List Command) : List Command :=
  [.create "a", .derive "a" "b", .derive "b" "c"] ++ last

theorem Possible.obeyAll (h : Possible s) {cs : List Command}
    (hcs : ∀ c ∈ cs, c.Quiet ∧ ∀ on id, c ≠ .forget on id) : Possible (cs.foldl Story.obey s) := by
  induction cs generalizing s with
  | nil => exact h
  | cons c cs ih =>
    obtain ⟨⟨hquiet, hforget⟩, hrest⟩ := List.forall_mem_cons.mp hcs
    refine ih (h.obey hquiet ?_) hrest
    cases c with
    | forget on id => exact absurd rfl (hforget on id)
    | _ => trivial

theorem possible_threeGenerations {last : List Command}
    (h : ∀ c ∈ last, c.Quiet ∧ ∀ on id, c ≠ .forget on id) :
    Possible ((threeGenerations last).foldl Story.obey {}) :=
  Possible.start.obeyAll (by simpa [threeGenerations, Command.Quiet] using h)

/-- A grandchild is cancelled with its grandparent while the context in between is held. -/
theorem done_iff_reached_held :
    let s := (threeGenerations [.cancel "a", .dropName "b"]).foldl Story.obey {}
    Possible s ∧ s.registry.isCancelled 2 = true ∧ s.Reached 2 := by
  intro s
  have hs : Possible s := possible_threeGenerations (by simp [Command.Quiet])
  have hdone : s.registry.isCancelled 2 = true := by decide +kernel
  exact ⟨hs, hdone, ((done_iff_reached hs).1 2).mp hdone⟩

/-- Not every context that is held is cancelled with one from which it descends: nobody held the one in
between any more. -/
theorem dropped_link_spares : ¬ ∀ s, Possible s → ∀ i, s.registry.isHeld i = true →
    (s.registry.isCancelled i = true
      ↔ ∃ call ∈ s.calls, Reaches s.registry Set.univ call.context i) := by
  intro h
  let s := (threeGenerations [.dropName "b", .cancel "a"]).foldl Story.obey {}
  have hs : Possible s := possible_threeGenerations (by simp [Command.Quiet])
  have hdescends : Reaches s.registry Set.univ 0 2 :=
    .derived (k := 1) (.derived (k := 0) .self (by decide +kernel) trivial) (by decide +kernel) trivial
  have hcall : ∃ call ∈ s.calls, call.context = 0 := ⟨_, List.mem_singleton.mpr rfl, by decide +kernel⟩
  obtain ⟨call, hmem, hzero⟩ := hcall
  have hdone := (h s hs 2 (by decide +kernel)).mpr ⟨call, hmem, hzero ▸ hdescends⟩
  exact absurd hdone (by decide +kernel)

end Story

end Signal

end Ingest

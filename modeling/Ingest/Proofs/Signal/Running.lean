import Ingest.Proofs.Signal.Dispatch

/-!
# How listeners run

Each listener that a registry is told of runs once at most. It runs at once if its context has been
cancelled, and else when the context is cancelled, provided that it stands then: the entries are
gone through in the order of their numbers, and where one is of a context that was derived from it,
that one's whole cancellation takes place there (`Dispatched`). This is read off the moment at which
each event happens (`Registry.moment`), with what is fair at that moment.
-/

namespace Ingest

/-- The labels that a listener notes itself when it runs. -/
def Listener.labels : Listener → List String
  | note label _ | noteThen label _ _ _ => [label]
  | andThen first second => first.labels ++ second.labels

namespace Signal

/-- The labels that are noted, in order. -/
def noted (es : List Event) : List String :=
  es.filterMap fun
    | .noted label => some label
    | _ => none

/-- The labels that an event leads to. -/
def Event.labels : Event → List String
  | .ran _ _ l => l.labels
  | _ => []

/-- The labels that a listener has still to note. -/
def Duty.labels : Duty → List String
  | .task (.run l) => l.labels
  | _ => []

/-- What happens when an entry of the cancelled context `i` is gone through. A listener runs. A
context that was derived from `i` is cancelled, with all its entries, unless it was before. -/
inductive Passed (i : ℕ) (past : List Event) : ℕ × Entry → List Event → Prop
  | listener (id : ℕ) (l : Listener) (inside : List Event) : Passed i past (id, .listener l)
      (.ran i id l :: .noted l.label :: inside ++ [.returned i id])
  | derived (id c : ℕ) (inside : List Event) : .began c ∉ past → Passed i past (id, .derived c)
      (.called c :: .began c :: inside ++ [.ended c])
  | gone (id c : ℕ) : .began c ∈ past → Passed i past (id, .derived c) [.called c]

/-- What happens when the entries of `i` are gone through, one after the other. -/
inductive Passes (i : ℕ) : List Event → List (ℕ × Entry) → List Event → Prop
  | nil (past : List Event) : Passes i past [] []
  | cons {past : List Event} {x : ℕ × Entry} {xs : List (ℕ × Entry)} {es es' : List Event} :
    Passed i past x es → Passes i (past ++ es) xs es' → Passes i past (x :: xs) (es ++ es')

@[simp] theorem noted_append (es es' : List Event) : noted (es ++ es') = noted es ++ noted es' :=
  List.filterMap_append

namespace Registry

variable {es es' : List Event} {ds ds' : List Duty} {d : Duty} {r : Registry} {i j id : ℕ}
  {l : Listener}

/-! ### What is noted -/

theorem fired_detach (r : Registry) (i : ℕ) : (r.detach i).fired = r.fired := by
  rw [detach_eq]
  split <;> rfl

theorem fired_turn (r : Registry) (d : Duty) :
    (r.turn d).after.fired = r.fired ++ noted (r.turn d).events := by
  cases d with
  | told c => cases c <;> simp [turn, tellTurn, noted, unname, unguard]
  | make origin name =>
    rcases origin with _ | i
    · simp [turn, makeTurn, noted, grow]
    · simp only [turn, makeTurn]
      split_ifs <;> simp [noted, grow, sprout, attach, modifyCell]
  | release i =>
    simp only [turn, release]
    split_ifs <;> simp [noted, fired_detach]
  | attend i l =>
    simp only [turn, attendTurn]
    split_ifs <;> simp [noted, attach, modifyCell]
  | task t =>
    cases t with
    | cancel i =>
      simp only [turn, taskTurn, cancelTurn]
      split_ifs <;> simp [noted, fired_detach, shut, modifyCell]
    | cancelNamed name =>
      rcases hname : r.named? name <;> simp [turn, taskTurn, noted, hname]
    | run l => cases l <;> simp [turn, taskTurn, perform, noting, noted]
    | add name l => simp [turn, taskTurn, noted]
  | _ => simp [turn, noted, rename, reguard, forget, modifyCell]

theorem fired_finish (r : Registry) (ds : List Duty) :
    (r.finish ds).fired = r.fired ++ noted (r.course ds) := by
  induction r, ds using course_induction with
  | nil r => simp [noted]
  | cons r d ds ih => rw [finish_cons, course_cons, ih, fired_turn, noted_append, List.append_assoc]

/-- What a duty notes or leaves to be noted is what it had to note, or what a listener has that
starts to run. -/
theorem noted_turn (r : Registry) (d : Duty) :
    noted (r.turn d).events ++ (r.turn d).more.flatMap Duty.labels
      = d.labels ++ (r.turn d).events.flatMap Event.labels := by
  cases d with
  | told c =>
    cases c with
    | guardWith on name l =>
      rcases hname : r.named? on <;> simp [turn, tellTurn, noted, Duty.labels, hname]
    | _ => simp [turn, tellTurn, noted, Duty.labels]
  | make origin name =>
    rcases origin with _ | i
    · simp [turn, makeTurn, noted, Duty.labels]
    · simp only [turn, makeTurn]
      split_ifs <;> simp [noted, Duty.labels, Event.labels]
  | release i =>
    simp only [turn]
    split_ifs <;> simp [noted, Duty.labels, Event.labels]
  | attend i l =>
    simp only [turn, attendTurn]
    split_ifs <;> simp [noted, Duty.labels, Event.labels]
  | task t =>
    cases t with
    | cancel i =>
      simp only [turn, taskTurn, cancelTurn]
      split_ifs
      · simp [noted, Duty.labels, Event.labels]
      · have hentries : ((r.entries i).map (dutyOf i)).flatMap Duty.labels = [] := by
          simp only [List.flatMap_eq_nil_iff, List.mem_map]
          rintro d ⟨⟨id, l | c⟩, -, rfl⟩ <;> rfl
        rw [List.flatMap_append, hentries]
        simp [noted, Duty.labels, Event.labels]
    | cancelNamed name =>
      rcases hname : r.named? name <;>
        simp [turn, taskTurn, noted, Duty.labels, Event.labels, hname]
    | run l =>
      rcases l with ⟨_, _ | _⟩ | ⟨_, _ | _, _, _⟩ | ⟨_, _⟩ <;>
        simp [turn, taskTurn, perform, noting, noted, Duty.labels, Event.labels, Listener.labels]
    | add name l => simp [turn, taskTurn, noted, Duty.labels]
  | _ => simp [turn, noted, Duty.labels, Event.labels]

/-- What is noted is what the listeners that run have to note. -/
theorem perm_noted (r : Registry) (ds : List Duty) : (noted (r.course ds)).Perm
    (ds.flatMap Duty.labels ++ (r.course ds).flatMap Event.labels) := by
  induction r, ds using course_induction with
  | nil r => simp [noted]
  | cons r d ds ih =>
    have hturn := noted_turn r d
    rw [List.flatMap_append, List.append_assoc] at ih
    rw [course_cons, noted_append, List.flatMap_append, List.flatMap_cons]
    refine (ih.append_left _).trans ?_
    rw [← List.append_assoc, hturn, List.append_assoc, List.append_assoc]
    exact (List.perm_append_comm_assoc ..).append_left _

/-! ### How entries are gone through -/

theorem course_run (r : Registry) (l : Listener) :
    ∃ inside, r.course [.task (.run l)] = Event.noted l.label :: inside := by
  induction l generalizing r with
  | note label cancels => exact ⟨_, course_cons r _ _⟩
  | noteThen label cancels on following => exact ⟨_, course_cons r _ _⟩
  | andThen first second ihfirst =>
    have hparts : r.course [.task (.run (.andThen first second))]
        = r.course ([.task (.run first)] ++ [.task (.run second)]) := course_cons r _ _
    obtain ⟨inside, hinside⟩ := ihfirst r
    rw [hparts, course_append, hinside]
    exact ⟨_, rfl⟩

theorem course_start (r : Registry) (i id : ℕ) (l : Listener) : ∃ inside,
    r.course [.start i id l]
      = Event.ran i id l :: Event.noted l.label :: inside ++ [Event.returned i id] := by
  obtain ⟨inside, hinside⟩ := course_run r l
  have hparts : r.course [.start i id l]
      = Event.ran i id l :: r.course ([.task (.run l)] ++ [.returning i id]) := course_cons r _ _
  have hlast : ∀ r : Registry, r.course [.returning i id] = [.returned i id] := fun r => by
    rw [course_cons]
    simp [turn]
  rw [hparts, course_append, hinside, hlast]
  exact ⟨inside, rfl⟩

theorem course_cancel (r : Registry) (i : ℕ) (ds : List Duty) (hlive : r.isCancelled i = false) :
    r.course (.task (.cancel i) :: ds)
      = .called i :: .began i :: ((r.shut i).detach i).course ((r.entries i).map (dutyOf i))
        ++ .ended i :: (((r.shut i).detach i).finish ((r.entries i).map (dutyOf i))).course ds := by
  rw [course_cons, turn_cancel hlive, List.append_assoc, course_append, List.singleton_append,
    course_cons _ (.ending i)]
  rfl

theorem passed_course {x : ℕ × Entry} (h : Recorded es r) :
    Passed i es x (r.course [dutyOf i x]) := by
  rcases x with ⟨id, l | c⟩
  · obtain ⟨inside, hinside⟩ := course_start r i id l
    rw [dutyOf, hinside]
    exact .listener id l inside
  · rw [dutyOf]
    cases hlive : r.isCancelled c with
    | true =>
      rw [course_cons, turn_cancel_of_isCancelled hlive, List.nil_append, course_nil]
      exact .gone id c ((h.flag c).mp hlive)
    | false =>
      rw [course_cancel r c [] hlive, course_nil]
      exact .derived id c _ (h.live.mp hlive)

theorem passes_course {xs : List (ℕ × Entry)} (h : Orderly es (xs.map (dutyOf i) ++ ds) r) :
    Passes i es xs (r.course (xs.map (dutyOf i))) := by
  induction xs generalizing es r with
  | nil =>
    rw [List.map_nil, course_nil]
    exact .nil es
  | cons x xs ih =>
    have hfirst : Orderly es ([dutyOf i x] ++ (xs.map (dutyOf i) ++ ds)) r := h
    have hcourse : r.course ((x :: xs).map (dutyOf i)) = _ :=
      course_append r [dutyOf i x] (xs.map (dutyOf i))
    rw [hcourse]
    exact .cons (passed_course h.recorded) (ih hfirst.finish)

theorem ran_of_passes {xs : List (ℕ × Entry)} (h : Passes i es xs es')
    (hl : (id, .listener l) ∈ xs) : .ran i id l ∈ es' := by
  induction h with
  | nil => cases hl
  | cons hpassed _ ih =>
    rcases List.mem_cons.mp hl with rfl | hl
    · cases hpassed
      simp
    · exact List.mem_append_right _ (ih hl)

/-! ### When things happen -/

section Moments

variable {cs : List Command} {a b : List Event}

/-- What has happened when an event happens, which duty it belongs to, and what happens then. -/
theorem moment (hcalm : Calm (history cs)) {e : Event} (h : history cs = a ++ e :: b) :
    ∃ es d ds r x y, Fair es (d :: ds) r ∧ Happening r d (x ++ e :: y) ∧ a = es ++ x
      ∧ (r.turn d).events = x ++ e :: y
      ∧ b = y ++ (r.turn d).after.course ((r.turn d).more ++ ds) := by
  simpa using exists_moment (P := Fair) (fun _ _ _ _ h => h.turn) (.told cs hcalm) h

/-- A cancellation that is called for never has to wait for one that is still at work. -/
theorem not_open_of_called (hcalm : Calm (history cs)) (h : history cs = a ++ .called i :: b) :
    ¬ Open a i := by
  obtain ⟨es, d, ds, r, x, y, hfair, hhappening, rfl, -, -⟩ := moment hcalm h
  obtain ⟨rfl, rfl | ⟨rfl, -⟩⟩ := hhappening.of_called
  · simpa using hfair.not_open_of_awaits (c := i) rfl
  · simpa using fun hopen : Open es _ => hfair.orderly.recorded.not_began_length hopen.1

/-- Neither does the removal of a listener. -/
theorem not_open_of_removed (hcalm : Calm (history cs))
    (h : history cs = a ++ .removed i id :: b) : ¬ Open a i := by
  obtain ⟨es, d, ds, r, x, y, hfair, hhappening, rfl, -, -⟩ := moment hcalm h
  obtain ⟨rfl, rfl⟩ := hhappening.of_removed
  simpa using hfair.not_open_of_awaits (c := i) rfl

theorem open_of_ended (hcalm : Calm (history cs)) (h : history cs = a ++ .ended i :: b) :
    Open a i := by
  obtain ⟨es, d, ds, r, x, y, hfair, hhappening, rfl, -, -⟩ := moment hcalm h
  obtain ⟨rfl, rfl⟩ | ⟨rfl, rfl⟩ := hhappening.of_ended
  · by_contra hopen
    rw [List.append_nil] at hopen
    exact hfair.not_mem_of_not_open hopen List.mem_cons_self
  · have hbegan := hfair.orderly.recorded.not_began_length
    refine ⟨by simp, fun hended => hbegan (hfair.closed _ ?_)⟩
    simpa using hended

theorem not_began_of_began (hcalm : Calm (history cs)) (h : history cs = a ++ .began i :: b) :
    .began i ∉ a := by
  obtain ⟨es, d, ds, r, x, y, hfair, hhappening, rfl, -, -⟩ := moment hcalm h
  have hrecorded := hfair.orderly.recorded
  obtain ⟨rfl, ⟨rfl, hlive, -⟩ | ⟨rfl, -⟩⟩ := hhappening.of_began
  · simpa using hrecorded.live.mp hlive
  · simpa using hrecorded.not_began_length

/-- When a context is cancelled its entries are gone through in the order of their numbers. -/
theorem passes_of_began (hcalm : Calm (history cs)) (h : history cs = a ++ .began i :: b) :
    (registered a i).Pairwise (fun x y => x.1 < y.1) ∧ ∃ inside rest,
      b = inside ++ .ended i :: rest
        ∧ Passes i (a ++ [.began i]) (registered a i) inside := by
  obtain ⟨es, d, ds, r, x, y, hfair, hhappening, rfl, hevents, rfl⟩ := moment hcalm h
  have hrecorded := hfair.orderly.recorded
  obtain ⟨rfl, hcase⟩ := hhappening.of_began
  have hentries : registered (es ++ [.called i]) i = r.entries i := by
    rw [registered_append_idle (by simp [Event.Idle]), hrecorded.entries]
  rw [hentries]
  refine ⟨hrecorded.ordered.sorted i, ?_⟩
  obtain ⟨rfl, hlive, rfl⟩ | ⟨rfl, rfl, -⟩ := hcase
  · have horderly := hfair.orderly.turn
    rw [turn_cancel hlive, List.append_assoc] at horderly
    rw [turn_cancel hlive, List.append_assoc, course_append, List.singleton_append,
      course_cons _ (.ending i), List.append_assoc es]
    exact ⟨_, _, rfl, passes_course horderly⟩
  · have hnone : r.entries r.cells.length = [] := by rw [entries, cell_of_le le_rfl]
    rw [hnone]
    exact ⟨[], _, rfl, .nil _⟩

theorem not_added_of_added (hcalm : Calm (history cs))
    (h : history cs = a ++ .added i id l :: b) (hid : id ≠ 0) : ∀ l', .added i id l' ∉ a := by
  obtain ⟨es, d, ds, r, x, y, hfair, hhappening, rfl, -, -⟩ := moment hcalm h
  intro l' hadded
  obtain ⟨-, rfl, ⟨-, rfl, -⟩ | ⟨-, rfl⟩⟩ := hhappening.of_added
  · exact hid rfl
  · exact (hfair.orderly.recorded.given i _ l' (by simpa using hadded)).false

/-- A listener that is added to a context that has been cancelled gets no number and runs. -/
theorem of_added (hcalm : Calm (history cs)) (h : history cs = a ++ .added i id l :: b) :
    (id = 0 ↔ .began i ∈ a) ∧ (id = 0 → ∃ b', b = .ran i 0 l :: .noted l.label :: b') := by
  obtain ⟨es, d, ds, r, x, y, hfair, hhappening, rfl, hevents, rfl⟩ := moment hcalm h
  have hrecorded := hfair.orderly.recorded
  obtain ⟨rfl, rfl, ⟨hcancelled, rfl, rfl⟩ | ⟨hlive, rfl⟩⟩ := hhappening.of_added
  · refine ⟨iff_of_true rfl (by simpa using (hrecorded.flag i).mp hcancelled), fun _ => ?_⟩
    obtain ⟨inside, hinside⟩ := course_run r l
    have hrest := course_append r [.task (.run l)] (.returning i 0 :: ds)
    rw [hinside] at hrest
    rw [turn_attend_of_isCancelled hcancelled]
    exact ⟨_, congrArg (Event.ran i 0 l :: ·) hrest⟩
  · have hnext := (hrecorded.ordered.counts i).ne'
    have hbegan : .began i ∉ es := hrecorded.live.mp hlive
    exact ⟨iff_of_false hnext (by simpa using hbegan), fun hzero => absurd hzero hnext⟩

theorem of_ran (hcalm : Calm (history cs)) (h : history cs = a ++ .ran i id l :: b) :
    Due a i id l ∨ id = 0 ∧ ∃ a', a = a' ++ [.added i 0 l] := by
  obtain ⟨es, d, ds, r, x, y, hfair, hhappening, rfl, -, -⟩ := moment hcalm h
  obtain ⟨rfl, rfl⟩ | ⟨-, -, rfl, rfl⟩ := hhappening.of_ran
  · left
    simpa using hfair.due i id l List.mem_cons_self
  · exact .inr ⟨rfl, es, rfl⟩

/-- A number is given once, so that a listener is known by it. -/
theorem eq_of_added (hcalm : Calm (history cs)) {a' b' : List Event} {l' : Listener}
    (h : history cs = a ++ .added i id l :: b) (h' : history cs = a' ++ .added i id l' :: b')
    (hid : id ≠ 0) : a = a' ∧ b = b' := by
  obtain ⟨w, rfl, hw⟩ | ⟨w, rfl, hw⟩ := List.append_eq_append_iff.mp (h.symm.trans h')
  all_goals rcases w with _ | ⟨e, w⟩
  · exact ⟨(List.append_nil a).symm, (List.cons.inj hw).2⟩
  · obtain ⟨rfl, -⟩ := List.cons.inj hw
    exact absurd (by simp) (not_added_of_added hcalm h' hid l)
  · exact ⟨List.append_nil a', (List.cons.inj hw).2.symm⟩
  · obtain ⟨rfl, -⟩ := List.cons.inj hw
    exact absurd (by simp) (not_added_of_added hcalm h hid l')

/-- A listener that was taken away before its context was cancelled does not run. -/
theorem not_ran_of_removed (hcalm : Calm (history cs))
    (h : history cs = a ++ .removed i id :: b) (hadded : .added i id l ∈ a) (hid : id ≠ 0)
    (hbegan : .began i ∉ a) (l' : Listener) : .ran i id l' ∉ history cs := by
  intro hran
  obtain ⟨p, q, hp⟩ := List.append_of_mem hran
  obtain ⟨u, v, rfl, s, t, rfl, -, hremoved⟩ := (of_ran hcalm hp).resolve_right fun hz => hid hz.1
  obtain ⟨a₁, a₂, rfl⟩ := List.append_of_mem hadded
  have hrun : history cs = s ++ .added i id l' :: (t ++ .began i :: (v ++ .ran i id l' :: q)) := by
    simpa using hp
  have hremove : history cs = a₁ ++ .added i id l :: (a₂ ++ .removed i id :: b) := by simpa using h
  obtain ⟨-, htail⟩ := eq_of_added hcalm hrun hremove hid
  obtain ⟨w, rfl, hw⟩ | ⟨w, rfl, hw⟩ := List.append_eq_append_iff.mp htail
  all_goals rcases w with _ | ⟨e, w⟩
  · exact nomatch (List.cons.inj hw).1
  · obtain ⟨rfl, -⟩ := List.cons.inj hw
    exact hbegan (by simp)
  · exact nomatch (List.cons.inj hw).1
  · obtain ⟨rfl, -⟩ := List.cons.inj hw
    exact hremoved (by simp)

/-- A listener runs if its context has been cancelled when it is added, or is cancelled while the
listener stands. -/
theorem ran_iff (hcalm : Calm (history cs)) : .ran i id l ∈ history cs
    ↔ id = 0 ∧ .added i 0 l ∈ history cs ∨ Due (history cs) i id l := by
  constructor
  · intro hran
    obtain ⟨a, b, h⟩ := List.append_of_mem hran
    rcases of_ran hcalm h with hdue | ⟨rfl, a', rfl⟩
    · exact .inr (h ▸ hdue.append _)
    · exact .inl ⟨rfl, by simp [h]⟩
  · rintro (⟨rfl, hadded⟩ | ⟨a, b, h, hstands⟩)
    · obtain ⟨a, b, h⟩ := List.append_of_mem hadded
      obtain ⟨b', rfl⟩ := (of_added hcalm h).2 rfl
      simp [h]
    · obtain ⟨-, inside, rest, rfl, hpasses⟩ := passes_of_began hcalm h
      have hran := ran_of_passes hpasses
        ((mem_registered (not_began_of_began hcalm h)).mpr hstands)
      rw [h]
      simp [hran]

theorem nodup_runs (hcalm : Calm (history cs)) : (runs (history cs)).Nodup := by
  have hall : Fair [] (cs.map .told ++ []) {} := by simpa using Fair.told cs hcalm
  simpa [starts, history] using hall.finish.once

end Moments

/-! ### What commands lead to -/

/-- How a command shows among the events `es` that it leads to. -/
def Told (r : Registry) (es : List Event) : Command → Prop
  | .derive on name => ∀ i, r.named? on = some i → r.isCancelled i = false →
    (r.obey (.derive on name)).2.named? name = some r.cells.length
      ∧ ∃ id rest, es = .derived i id r.cells.length :: rest
  | .cancel on => ∀ i, r.named? on = some i →
    if r.isCancelled i then es = [.called i] ∧ (r.obey (.cancel on)).2 = r
    else ∃ rest, es = .called i :: .began i :: rest
  | .listen on l => ∀ i, r.named? on = some i →
    ∃ id rest, (r.obey (.listen on l)).1 = some id ∧ es = .added i id l :: rest
  | .forget on id => ∀ i, r.named? on = some i → es = [.removed i id]
  | .guardWith on name l => ∀ i, r.named? on = some i →
    ∃ id rest, (r.obey (.guardWith on name l)).2.guards.get? name = some ⟨i, id⟩
      ∧ es = .added i id l :: rest
  | .dropGuard name => ∀ g, r.guards.get? name = some g →
    ∃ rest, es = .removed g.cell g.listener :: rest
  | .create _ | .share _ _ | .dropName _ => True

theorem course_attend (r : Registry) (i : ℕ) (l : Listener) (ds : List Duty) :
    ∃ rest, r.course (.attend i l :: ds) = .added i (r.number i) l :: rest := by
  rw [course_cons, number]
  cases hlive : r.isCancelled i with
  | true =>
    rw [turn_attend_of_isCancelled hlive]
    exact ⟨_, rfl⟩
  | false =>
    rw [turn_attend hlive]
    exact ⟨_, rfl⟩

theorem named?_bindName (r : Registry) (name : String) (i : ℕ) :
    (r.bindName name i).named? name = some i := by
  rw [bindName_eq, named?]
  split
  · rw [handles_release]
    exact Catalog.get?_set_self ..
  · exact Catalog.get?_set_self ..

theorem get?_setGuard (r : Registry) (name : String) (g : Guard) :
    (r.setGuard name g).guards.get? name = some g := by
  rw [setGuard]
  split
  · rw [guards_endGuard]
    exact Catalog.get?_set_self ..
  · exact Catalog.get?_set_self ..

theorem course_told (r : Registry) (c : Command) :
    r.course [.told c] = (r.tellTurn c).after.course (r.tellTurn c).more := by
  rw [course_cons, turn, events_tellTurn, List.nil_append, List.append_nil]

theorem told_course (r : Registry) (c : Command) : Told r (r.course [.told c]) c := by
  rw [course_told]
  cases c with
  | create name => trivial
  | share on name => trivial
  | dropName name => trivial
  | derive on name =>
    intro i hname hlive
    constructor
    · simp only [obey, hname, derive_of_live hlive]
      exact named?_bindName ..
    · simp only [tellTurn, hname, Option.toList_some, List.map_cons, List.map_nil]
      rw [course_cons, turn_make hlive]
      exact ⟨_, _, rfl⟩
  | cancel on =>
    intro i hname
    simp only [tellTurn, obey, hname, Option.toList_some, List.map_cons, List.map_nil]
    split_ifs with hcancelled
    · rw [course_cons, turn_cancel_of_isCancelled hcancelled, Registry.cancel, settle_cons,
        perform_cancel_of_isCancelled hcancelled]
      simp
    · rw [course_cancel r i [] (Bool.eq_false_of_not_eq_true hcancelled)]
      exact ⟨_, rfl⟩
  | listen on l =>
    intro i hname
    simp only [tellTurn, obey, hname, Option.toList_some, List.map_cons, List.map_nil]
    obtain ⟨rest, hrest⟩ := course_attend r i l []
    exact ⟨_, rest, congrArg some (listen_fst r i l), hrest⟩
  | forget on id =>
    intro i hname
    simp only [tellTurn, hname, Option.toList_some, List.map_cons, List.map_nil]
    rw [course_cons]
    simp [turn]
  | guardWith on name l =>
    intro i hname
    obtain ⟨rest, hrest⟩ := course_attend r i l [.setGuard name ⟨i, r.number i⟩]
    refine ⟨r.number i, rest, ?_, ?_⟩
    · simp only [obey, hname, guardWith_eq, listen_fst]
      exact get?_setGuard ..
    · simpa [tellTurn, hname] using hrest
  | dropGuard name =>
    intro g hname
    simp only [tellTurn, hname, Option.toList_some, List.map_cons, List.map_nil]
    rw [course_cons, turn, List.cons_append, course_cons]
    exact ⟨_, rfl⟩

/-! ### How listeners run -/

/-- How listeners run, by what happened. -/
structure Dispatched (es : List Event) : Prop where
  /-- A listener that was kept runs once at most. -/
  once : (runs es).Nodup
  /-- Its number was given to no other listener of the context. -/
  number : ∀ (a b a' b' : List Event) i id l l', es = a ++ .added i id l :: b →
    es = a' ++ .added i id l' :: b' → id ≠ 0 → a = a' ∧ b = b'
  /-- It runs if its context has been cancelled when it is added, or is cancelled while it
  stands. -/
  ran_iff : ∀ i id l, .ran i id l ∈ es ↔ id = 0 ∧ .added i 0 l ∈ es ∨ Due es i id l
  /-- In the first case it is not kept, and runs at once. -/
  at_once : ∀ (a b : List Event) i id l, es = a ++ .added i id l :: b →
    (id = 0 ↔ .began i ∈ a) ∧ (id = 0 → ∃ b', b = .ran i 0 l :: .noted l.label :: b')
  /-- It runs once then, too. -/
  follows : ∀ (a b : List Event) i l, es = a ++ .ran i 0 l :: b → ∃ a', a = a' ++ [.added i 0 l]
  /-- In the second case it runs when its turn comes. A context is cancelled once, all its entries
  are gone through in the order of their numbers, and the cancellation ends. -/
  in_order : ∀ (a b : List Event) i, es = a ++ .began i :: b → .began i ∉ a
    ∧ (registered a i).Pairwise (fun x y => x.1 < y.1)
    ∧ ∃ inside rest, b = inside ++ .ended i :: rest
      ∧ Passes i (a ++ [.began i]) (registered a i) inside
  /-- It ends once. -/
  ended : ∀ (a b : List Event) i, es = a ++ .ended i :: b → Open a i
  /-- Neither a cancellation nor the removal of a listener has to wait for a cancellation that is at
  work. -/
  called : ∀ (a b : List Event) i, es = a ++ .called i :: b → ¬ Open a i
  removing : ∀ (a b : List Event) i id, es = a ++ .removed i id :: b → ¬ Open a i
  /-- A listener that was taken away before its context was cancelled does not run. -/
  removed : ∀ (a b : List Event) i id l, es = a ++ .removed i id :: b → .added i id l ∈ a → id ≠ 0 →
    .began i ∉ a → ∀ l', .ran i id l' ∉ es

/-- Whatever a registry is told, if no listener asks for the cancellation of a context that is still
being cancelled, listeners run once and in order. What the listeners that run have to note is what
is noted, and it shows what each command leads to. -/
theorem dispatched_history (cs : List Command) (hcalm : Calm (history cs)) :
    Dispatched (history cs) ∧ Recorded (history cs) (after cs)
      ∧ (after cs).fired = noted (history cs)
      ∧ (noted (history cs)).Perm ((history cs).flatMap Event.labels)
      ∧ ∀ told c rest, cs = told ++ c :: rest → ∃ es later,
        history (told ++ [c]) = history told ++ es ∧ history cs = history told ++ es ++ later
          ∧ Told (after told) es c where
  left := {
    once := nodup_runs hcalm
    number := fun _ _ _ _ _ _ _ _ h h' hid => eq_of_added hcalm h h' hid
    ran_iff := fun _ _ _ => ran_iff hcalm
    at_once := fun _ _ _ _ _ h => of_added hcalm h
    follows := fun _ _ _ _ h => by
      rcases of_ran hcalm h with hdue | hadded
      · exact absurd rfl hdue.ne_zero
      · exact hadded.2
    in_order := fun _ _ _ h => ⟨not_began_of_began hcalm h, passes_of_began hcalm h⟩
    ended := fun _ _ _ h => open_of_ended hcalm h
    called := fun _ _ _ h => not_open_of_called hcalm h
    removing := fun _ _ _ _ h => not_open_of_removed hcalm h
    removed := fun _ _ _ _ _ h hadded hid hbegan => not_ran_of_removed hcalm h hadded hid hbegan }
  right := by
    refine ⟨?_, ?_, ?_, ?_⟩
    · have hall : Orderly [] (cs.map .told ++ []) {} := by simpa using Orderly.told cs
      have hdone := hall.finish.recorded
      rwa [finish_map_told, List.nil_append] at hdone
    · rw [← finish_map_told, fired_finish, history, List.nil_append]
    · have hnone : (cs.map Duty.told).flatMap Duty.labels = [] := by simp [Duty.labels]
      have hperm := perm_noted {} (cs.map .told)
      rwa [hnone, List.nil_append] at hperm
    · rintro told c rest rfl
      have hparts : history (told ++ c :: rest) = history told ++ (after told).course [.told c]
          ++ (after (told ++ [c])).course (rest.map .told) := by
        rw [List.append_cons, history_append, history_append]
        rfl
      exact ⟨_, _, history_append told [c], hparts, told_course (after told) c⟩

/-- A child's listener cancels another context and adds a listener to the one that is being
cancelled. A listener and a guard have gone before. -/
theorem dispatched_history_nested :
    let told := [.create "a", .create "c", .derive "a" "b", .listen "a" (.note "1" none),
      .listen "b" (.noteThen "2" (some "c") "a" (.note "3" none)), .listen "c" (.note "4" none),
      .guardWith "a" "g" (.note "5" none), .dropGuard "g", .listen "a" (.note "6" none),
      .forget "a" 4, .cancel "a", .cancel "a"]
    Calm (history told) ∧ Dispatched (history told)
      ∧ (after told).fired = ["2", "4", "3", "1"] := by
  intro told
  have hcalm : Calm (history told) := by decide +kernel
  exact ⟨hcalm, (dispatched_history told hcalm).1, by decide +kernel⟩

end Registry

end Signal

end Ingest

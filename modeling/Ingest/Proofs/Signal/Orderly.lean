import Ingest.Proofs.Signal.Recorded

/-!
# What duties keep

Whatever duty is done, what has happened is recorded, and what is left to do is about contexts that
are there (`Orderly`). Each event belongs to one duty (`Happening`), and can be looked at together
with what holds before that one is done (`Registry.exists_moment`).
-/

namespace Ingest

namespace Signal

/-- The context that a duty is about is among the first `n`. -/
def Duty.Within (n : ℕ) : Duty → Prop
  | make (some i) _ | bind _ i | attend i _ | task (.cancel i) => i < n
  | setGuard _ g => g.cell < n
  | _ => True

theorem Duty.Within.mono {n m : ℕ} {d : Duty} (h : d.Within n) (hnm : n ≤ m) : d.Within m := by
  match d with
  | make (some _) _ | bind _ _ | attend _ _ | task (.cancel _) => exact lt_of_lt_of_le h hnm
  | setGuard _ _ => exact lt_of_lt_of_le h hnm
  | told _ | make none _ | release _ | endGuard _ | remove _ _ | start _ _ _ | returning _ _
  | ending _ | task (.cancelNamed _) | task (.run _) | task (.add _ _) => trivial

namespace Registry

variable {r r' : Registry} {es : List Event} {ds : List Duty} {d : Duty} {i id : ℕ}

/-- What is known by a name, and what is left to do, is about contexts that are there. -/
structure Sound (ds : List Duty) (r : Registry) : Prop where
  handles : ∀ name, ∀ i ∈ r.named? name, i < r.cells.length
  guards : ∀ name, ∀ g ∈ r.guards.get? name, g.cell < r.cells.length
  duties : ∀ d ∈ ds, d.Within r.cells.length

theorem cells_tellTurn (r : Registry) (c : Command) : (r.tellTurn c).after.cells = r.cells := by
  cases c <;> rfl

theorem events_tellTurn (r : Registry) (c : Command) : (r.tellTurn c).events = [] := by
  cases c <;> rfl

theorem cells_perform_run (r : Registry) (l : Listener) :
    (r.perform (.run l)).2.cells = r.cells := by
  cases l <;> rfl

theorem idle_noting (l : Listener) : ∀ e ∈ noting l, e.Idle := by
  cases l <;> simp [noting, Event.Idle]

namespace Recorded

/-- What one duty keeps. -/
theorem turn (h : Recorded es r) (hs : Sound (d :: ds) r) :
    Recorded (es ++ (r.turn d).events) (r.turn d).after := by
  have hd : d.Within r.cells.length := hs.duties d List.mem_cons_self
  cases d with
  | told c => exact h.idle (cells_tellTurn r c) (by simp [Registry.turn, events_tellTurn])
  | make origin name =>
    rcases origin with _ | i
    · simpa [Registry.turn, makeTurn] using h.create
    · cases hlive : r.isCancelled i with
      | true =>
        rw [turn_make_of_isCancelled hlive]
        exact h.deriveEnded Nat.one_pos rfl rfl rfl
      | false =>
        rw [turn_make hlive]
        exact h.sprout hd
  | bind name i => exact h.idle rfl (by simp [Registry.turn])
  | release i =>
    cases hheld : r.isHeld i with
    | true => simpa [Registry.turn, release, hheld] using h
    | false => simpa [Registry.turn, release, hheld] using h.detach i
  | setGuard name g => exact h.idle rfl (by simp [Registry.turn])
  | endGuard g => exact h.idle rfl (by simp [Registry.turn])
  | attend i l =>
    cases hlive : r.isCancelled i with
    | true =>
      rw [turn_attend_of_isCancelled hlive]
      exact h.idle rfl (by simp [Event.Idle])
    | false =>
      rw [turn_attend hlive]
      exact h.attach hd l
  | remove i id => exact h.forget i id
  | task t =>
    cases t with
    | cancel i =>
      cases hlive : r.isCancelled i with
      | true =>
        rw [turn_cancel_of_isCancelled hlive]
        exact h.idle rfl (by simp [Event.Idle])
      | false =>
        rw [turn_cancel hlive]
        exact h.cancel hd
    | cancelNamed name => exact h.idle rfl (by simp [Registry.turn, taskTurn, Event.Idle])
    | run l => exact h.idle (cells_perform_run r l) (idle_noting l)
    | add name l => exact h.idle rfl (by simp [Registry.turn, taskTurn])
  | start i id l => exact h.idle rfl (by simp [Registry.turn, Event.Idle])
  | returning i id => exact h.idle rfl (by simp [Registry.turn, Event.Idle])
  | ending i => exact h.idle rfl (by simp [Registry.turn, Event.Idle])

end Recorded

namespace Sound

variable {more : List Duty}

theorem next (h : Sound (d :: ds) r) (hhandles : r'.handles = r.handles)
    (hguards : r'.guards = r.guards) (hlength : r.cells.length ≤ r'.cells.length)
    (hmore : ∀ d ∈ more, d.Within r'.cells.length) : Sound (more ++ ds) r' where
  handles name i hi := by
    rw [named?, hhandles] at hi
    exact (h.handles name i hi).trans_le hlength
  guards name g hg := by
    rw [hguards] at hg
    exact (h.guards name g hg).trans_le hlength
  duties e he := by
    rcases List.mem_append.mp he with hnew | hold
    · exact hmore e hnew
    · exact (h.duties e (List.mem_cons_of_mem _ hold)).mono hlength

theorem named (h : Sound ds r) (name : String) {f : ℕ → Duty}
    (hf : ∀ i < r.cells.length, (f i).Within r.cells.length) :
    ∀ d ∈ (r.named? name).toList.map f, d.Within r.cells.length := by
  simp only [List.mem_map, Option.mem_toList]
  rintro d ⟨i, hi, rfl⟩
  exact hf i (h.handles name i hi)

theorem told {c : Command} (h : Sound (.told c :: ds) r) :
    Sound ((r.tellTurn c).more ++ ds) (r.tellTurn c).after := by
  cases c with
  | create name => exact h.next rfl rfl le_rfl (by simp [tellTurn, Duty.Within])
  | derive on name => exact h.next rfl rfl le_rfl (h.named on fun _ hi => hi)
  | share on name => exact h.next rfl rfl le_rfl (h.named on fun _ hi => hi)
  | dropName name =>
    have hdropped : Sound (.told (.dropName name) :: ds) (r.unname name) :=
      { h with handles := Catalog.forall_get?_erase h.handles name }
    exact hdropped.next rfl rfl le_rfl (by simp [tellTurn, Duty.Within])
  | cancel on => exact h.next rfl rfl le_rfl (h.named on fun _ hi => hi)
  | listen on l => exact h.next rfl rfl le_rfl (h.named on fun _ hi => hi)
  | forget on id => exact h.next rfl rfl le_rfl (h.named on fun _ _ => trivial)
  | guardWith on name l =>
    refine h.next rfl rfl le_rfl ?_
    simp only [tellTurn, List.mem_flatMap, Option.mem_toList, List.mem_cons, List.not_mem_nil,
      or_false]
    rintro d ⟨i, hi, rfl | rfl⟩
    · exact h.handles on i hi
    · exact h.handles on i hi
  | dropGuard name =>
    have hdropped : Sound (.told (.dropGuard name) :: ds) (r.unguard name) :=
      { h with guards := Catalog.forall_get?_erase h.guards name }
    exact hdropped.next rfl rfl le_rfl (by simp [tellTurn, Duty.Within])

theorem make {origin : Option ℕ} {name : String} (h : Sound (.make origin name :: ds) r) :
    Sound ((r.makeTurn name origin).more ++ ds) (r.makeTurn name origin).after := by
  rcases origin with _ | i
  · exact h.next rfl rfl (by simp [makeTurn]) (by simp [makeTurn, Duty.Within])
  · simp only [makeTurn]
    split_ifs
    · exact h.next rfl rfl (by simp) (by simp [Duty.Within])
    · refine h.next rfl rfl ?_ ?_ <;> simp [sprout, Duty.Within]

theorem cancel (ho : Ordered r) (h : Sound (.task (.cancel i) :: ds) r) :
    Sound ((r.cancelTurn i).more ++ ds) (r.cancelTurn i).after := by
  unfold cancelTurn
  split_ifs
  · exact h.next rfl rfl le_rfl (by simp)
  · refine h.next (handles_detach ..) (guards_detach ..) (by simp) fun d hd => ?_
    rw [length_detach, length_shut]
    rcases List.mem_append.mp hd with hentry | hlast
    · obtain ⟨⟨id, l | c⟩, he, rfl⟩ := List.mem_map.mp hentry
      · trivial
      · exact ho.lt_of_derived he
    · obtain rfl := List.mem_singleton.mp hlast
      trivial

/-- What one duty keeps. -/
theorem turn (ho : Ordered r) (h : Sound (d :: ds) r) :
    Sound ((r.turn d).more ++ ds) (r.turn d).after := by
  cases d with
  | told c => exact h.told
  | make origin name => exact h.make
  | bind name i =>
    have hbound : Sound (.bind name i :: ds) (r.rename name i) :=
      { h with handles := Catalog.forall_get?_set h.handles (h.duties _ List.mem_cons_self) }
    exact hbound.next rfl rfl le_rfl (by simp [Registry.turn, Duty.Within])
  | release i =>
    exact h.next (handles_release ..) (guards_release ..) (SameCells.release ..).length.ge
      (by simp [Registry.turn])
  | setGuard name g =>
    have hset : Sound (.setGuard name g :: ds) (r.reguard name g) :=
      { h with guards := Catalog.forall_get?_set h.guards (h.duties _ List.mem_cons_self) }
    exact hset.next rfl rfl le_rfl (by simp [Registry.turn, Duty.Within])
  | endGuard g => exact h.next rfl rfl le_rfl (by simp [Registry.turn, Duty.Within])
  | attend i l =>
    simp only [Registry.turn, attendTurn]
    split_ifs
    · exact h.next rfl rfl le_rfl (by simp [Duty.Within])
    · exact h.next rfl rfl (length_attach ..).ge (by simp)
  | remove i id => exact h.next rfl rfl (length_forget ..).ge (by simp [Registry.turn])
  | task t =>
    cases t with
    | cancel i => exact h.cancel ho
    | cancelNamed name => exact h.next rfl rfl le_rfl (h.named name fun _ hi => hi)
    | run l =>
      have hmore : ∀ d ∈ (r.taskTurn (.run l)).more, d.Within r.cells.length := by
        rcases l with ⟨_, _ | _⟩ | ⟨_, _ | _, _, _⟩ | ⟨_, _⟩ <;>
          simp [taskTurn, perform, Duty.Within]
      cases l <;> exact h.next rfl rfl le_rfl hmore
    | add name l => exact h.next rfl rfl le_rfl (h.named name fun _ hi => hi)
  | start i id l => exact h.next rfl rfl le_rfl (by simp [Registry.turn, Duty.Within])
  | returning i id => exact h.next rfl rfl le_rfl (by simp [Registry.turn])
  | ending i => exact h.next rfl rfl le_rfl (by simp [Registry.turn])

end Sound

/-- In the course of duties: what has happened is recorded, and what is left to do makes sense. -/
structure Orderly (es : List Event) (ds : List Duty) (r : Registry) : Prop where
  recorded : Recorded es r
  sound : Sound ds r

namespace Orderly

theorem turn (h : Orderly es (d :: ds) r) :
    Orderly (es ++ (r.turn d).events) ((r.turn d).more ++ ds) (r.turn d).after :=
  ⟨h.recorded.turn h.sound, h.sound.turn h.recorded.ordered⟩

/-- What is recorded stays so until some of the duties are done. -/
theorem finish {ds' : List Duty} (h : Orderly es (ds ++ ds') r) :
    Orderly (es ++ r.course ds) ds' (r.finish ds) :=
  course_preserves (fun _ _ _ _ h => h.turn) h

theorem told (cs : List Command) : Orderly [] (cs.map .told) {} where
  recorded := .empty
  sound := {
    handles := fun _ _ hi => nomatch hi
    guards := fun _ _ hg => nomatch hg
    duties := by simp [Duty.Within] }

end Orderly

/-! ### When an event happens -/

/-- What can happen when a duty is done, and when. -/
inductive Happening (r : Registry) : Duty → List Event → Prop
  | nothing (d : Duty) : Happening r d []
  | deriveEnded (i : ℕ) (name : String) : r.isCancelled i = true →
    Happening r (.make (some i) name)
      [.called r.cells.length, .began r.cells.length, .ended r.cells.length]
  | derive (i : ℕ) (name : String) : r.isCancelled i = false →
    Happening r (.make (some i) name) [.derived i (r.cell i).signal.next r.cells.length]
  | release (i : ℕ) : Happening r (.release i) [.left i]
  | attendEnded (i : ℕ) (l : Listener) : r.isCancelled i = true →
    Happening r (.attend i l) [.added i 0 l, .ran i 0 l]
  | attend (i : ℕ) (l : Listener) : r.isCancelled i = false →
    Happening r (.attend i l) [.added i (r.cell i).signal.next l]
  | remove (i id : ℕ) : Happening r (.remove i id) [.removed i id]
  | again (i : ℕ) : r.isCancelled i = true → Happening r (.task (.cancel i)) [.called i]
  | cancel (i : ℕ) : r.isCancelled i = false →
    Happening r (.task (.cancel i)) [.called i, .began i]
  | ask (name : String) (i : ℕ) : r.named? name = some i →
    Happening r (.task (.cancelNamed name)) [.asked i]
  | run (l : Listener) (label : String) : Happening r (.task (.run l)) [.noted label]
  | start (i id : ℕ) (l : Listener) : Happening r (.start i id l) [.ran i id l]
  | returning (i id : ℕ) : Happening r (.returning i id) [.returned i id]
  | ending (i : ℕ) : Happening r (.ending i) [.ended i]

theorem happening (r : Registry) (d : Duty) : Happening r d (r.turn d).events := by
  cases d with
  | told c => exact events_tellTurn r c ▸ .nothing _
  | make origin name =>
    rcases origin with _ | i
    · exact .nothing _
    · cases hlive : r.isCancelled i with
      | true => exact turn_make_of_isCancelled hlive name ▸ .deriveEnded i name hlive
      | false => exact turn_make hlive name ▸ .derive i name hlive
  | release i =>
    cases hheld : r.isHeld i with
    | true => simpa [turn, hheld] using Happening.nothing _
    | false => simpa [turn, hheld] using Happening.release i
  | attend i l =>
    cases hlive : r.isCancelled i with
    | true => exact turn_attend_of_isCancelled hlive l ▸ .attendEnded i l hlive
    | false => exact turn_attend hlive l ▸ .attend i l hlive
  | task t =>
    cases t with
    | cancel i =>
      cases hlive : r.isCancelled i with
      | true => exact turn_cancel_of_isCancelled hlive ▸ .again i hlive
      | false => exact turn_cancel hlive ▸ .cancel i hlive
    | cancelNamed name =>
      rcases hname : r.named? name with _ | i
      · simpa [turn, taskTurn, hname] using Happening.nothing _
      · simpa [turn, taskTurn, hname] using Happening.ask name i hname
    | run l =>
      cases l with
      | andThen first second => exact .nothing _
      | note label cancels => exact .run _ label
      | noteThen label cancels on following => exact .run _ label
    | add name l => exact .nothing _
  | remove i id => exact .remove i id
  | start i id l => exact .start i id l
  | returning i id => exact .returning i id
  | ending i => exact .ending i
  | bind name i => exact .nothing _
  | setGuard name g => exact .nothing _
  | endGuard g => exact .nothing _

namespace Happening

variable {x y : List Event} {l : Listener}

theorem of_called (h : Happening r d (x ++ .called i :: y)) : x = [] ∧ (d = .task (.cancel i)
    ∨ i = r.cells.length ∧ ∃ k name, d = .make (some k) name) := by
  generalize hev : x ++ .called i :: y = ev at h
  cases h <;> simp [List.append_eq_cons_iff, List.cons_eq_append_iff] at hev
  · obtain ⟨rfl, rfl, -⟩ := hev
    simp
  · simp [hev]
  · simp [hev]

theorem of_began (h : Happening r d (x ++ .began i :: y)) : x = [.called i]
    ∧ (d = .task (.cancel i) ∧ r.isCancelled i = false ∧ y = []
      ∨ i = r.cells.length ∧ y = [.ended i] ∧ ∃ k name, d = .make (some k) name) := by
  generalize hev : x ++ .began i :: y = ev at h
  cases h <;> simp [List.append_eq_cons_iff, List.cons_eq_append_iff] at hev
  · obtain ⟨rfl, rfl, rfl⟩ := hev
    simp
  · obtain ⟨rfl, rfl, rfl⟩ := hev
    simpa

theorem of_ended (h : Happening r d (x ++ .ended i :: y)) : d = .ending i ∧ x = []
    ∨ i = r.cells.length ∧ x = [.called i, .began i] := by
  generalize hev : x ++ .ended i :: y = ev at h
  cases h <;> simp [List.append_eq_cons_iff, List.cons_eq_append_iff] at hev
  · obtain ⟨rfl, rfl, -⟩ := hev
    simp
  · simp [hev]

theorem of_ran (h : Happening r d (x ++ .ran i id l :: y)) : d = .start i id l ∧ x = []
    ∨ d = .attend i l ∧ r.isCancelled i = true ∧ id = 0 ∧ x = [.added i 0 l] := by
  generalize hev : x ++ .ran i id l :: y = ev at h
  cases h <;> simp [List.append_eq_cons_iff, List.cons_eq_append_iff] at hev
  · obtain ⟨rfl, ⟨rfl, rfl, rfl⟩, -⟩ := hev
    simpa
  · obtain ⟨rfl, ⟨rfl, rfl, rfl⟩, -⟩ := hev
    simp

theorem of_added (h : Happening r d (x ++ .added i id l :: y)) : d = .attend i l ∧ x = []
    ∧ (r.isCancelled i = true ∧ id = 0 ∧ y = [.ran i 0 l]
      ∨ r.isCancelled i = false ∧ id = (r.cell i).signal.next) := by
  generalize hev : x ++ .added i id l :: y = ev at h
  cases h <;> simp [List.append_eq_cons_iff, List.cons_eq_append_iff] at hev
  · obtain ⟨rfl, ⟨rfl, rfl, rfl⟩, rfl⟩ := hev
    exact ⟨rfl, rfl, .inl ⟨‹_›, rfl, rfl⟩⟩
  · obtain ⟨rfl, ⟨rfl, rfl, rfl⟩, -⟩ := hev
    exact ⟨rfl, rfl, .inr ⟨‹_›, rfl⟩⟩

theorem of_removed (h : Happening r d (x ++ .removed i id :: y)) : d = .remove i id ∧ x = [] := by
  generalize hev : x ++ .removed i id :: y = ev at h
  cases h <;> simp [List.append_eq_cons_iff, List.cons_eq_append_iff] at hev
  simp [hev]

end Happening

/-- Each event happens when some duty is done, at which what every duty keeps holds. -/
theorem exists_moment {P : List Event → List Duty → Registry → Prop}
    (step : ∀ es d ds r, P es (d :: ds) r →
      P (es ++ (r.turn d).events) ((r.turn d).more ++ ds) (r.turn d).after)
    (h : P es ds r) {a b : List Event} {e : Event} (hsplit : r.course ds = a ++ e :: b) :
    ∃ es' d ds' r' x y, P es' (d :: ds') r' ∧ Happening r' d (x ++ e :: y) ∧ es ++ a = es' ++ x
      ∧ (r'.turn d).events = x ++ e :: y
      ∧ b = y ++ (r'.turn d).after.course ((r'.turn d).more ++ ds') := by
  induction r, ds using course_induction generalizing es a with
  | nil r => simp at hsplit
  | cons r d ds ih =>
    have hturn := step es d ds r h
    rw [course_cons, List.append_eq_append_iff] at hsplit
    have hlater : ∀ a', (r.turn d).after.course ((r.turn d).more ++ ds) = a' ++ e :: b →
        es ++ a = es ++ (r.turn d).events ++ a' → _ := fun a' hrest ha => by
      have hmoment := ih hturn hrest
      rwa [← ha] at hmoment
    obtain ⟨a', rfl, hrest⟩ | ⟨y, hevents, hrest⟩ := hsplit
    · exact hlater a' hrest (List.append_assoc ..).symm
    · cases y with
      | nil => exact hlater [] hrest.symm (by simp [hevents])
      | cons e' y =>
        obtain ⟨rfl, rfl⟩ := List.cons.inj hrest
        exact ⟨es, d, ds, r, a, y, h, hevents ▸ happening r d, rfl, hevents, rfl⟩

end Registry

end Signal

end Ingest

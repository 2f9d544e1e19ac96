import Ingest.Proofs.Signal.Orderly

/-!
# How listeners are dispatched

While duties are done, a listener's number is at each moment among those that ran or those that are
still to run, and once (`Fair`). An ending that is left to do stands for a cancellation that has
begun and not ended, and nothing that is done before it has to wait for that one.
-/

namespace Ingest

namespace Signal

/-- The cancellation of a context has begun and not ended. -/
def Open (es : List Event) (i : ℕ) : Prop :=
  .began i ∈ es ∧ .ended i ∉ es

instance (es : List Event) (i : ℕ) : Decidable (Open es i) :=
  inferInstanceAs (Decidable (_ ∧ _))

/-- The context whose cancellation a listener asks for. -/
def Event.asks : Event → Option ℕ
  | .asked i => some i
  | _ => none

/-- No listener asks for the cancellation of a context that is still being cancelled. -/
def Calm (es : List Event) : Prop :=
  ∀ a b i, es = a ++ .asked i :: b → ¬ Open a i

theorem calm_iff (es : List Event) : Calm es
    ↔ ∀ n : Fin es.length, ∀ i ∈ es[n].asks.toList, ¬ Open (es.take n) i := by
  constructor
  · intro h n i hi
    refine h _ (es.drop (n + 1)) i ?_
    have hn : es[n] = .asked i := by
      cases he : es[n] <;> simp [he, Event.asks] at hi
      rw [hi]
    rw [← hn, Fin.getElem_fin, List.getElem_cons_drop, List.take_append_drop]
  · rintro h a b i rfl
    simpa [Event.asks] using h ⟨a.length, by simp⟩ i

instance (es : List Event) : Decidable (Calm es) :=
  decidable_of_iff' _ (calm_iff es)

/-- When the context was cancelled, the listener stood among its listeners. -/
def Due (es : List Event) (i id : ℕ) (l : Listener) : Prop :=
  ∃ a b, es = a ++ .began i :: b ∧ Stands a i id l

/-- The numbers of the listeners that ran, each with its context. One that was not kept has none. -/
def runs (es : List Event) : List (ℕ × ℕ) :=
  es.filterMap fun
    | .ran i id _ => if id = 0 then none else some (i, id)
    | _ => none

/-- The numbers of the listeners that are to run. -/
def starts (ds : List Duty) : List (ℕ × ℕ) :=
  ds.filterMap fun
    | .start i id _ => some (i, id)
    | _ => none

/-- The event neither begins nor ends a cancellation, and no listener runs by its number. -/
def Event.Quiet : Event → Prop
  | .began _ | .ended _ => False
  | .ran _ id _ => id = 0
  | .added _ _ _ | .removed _ _ | .derived _ _ _ | .left _ | .asked _ | .called _ | .returned _ _
  | .noted _ => True

/-- The duty neither ends a cancellation nor starts a listener. -/
def Duty.Plain : Duty → Prop
  | .start _ _ _ | .ending _ => False
  | _ => True

/-- The duty may have to wait for the cancellation of the context `c` to end. -/
def Duty.Awaits (c : ℕ) : Duty → Prop
  | .told _ | .setGuard _ _ | .endGuard _ => True
  | .remove i _ | .task (.cancel i) => i = c
  | _ => False

variable {es es' : List Event} {ds ds' : List Duty} {d : Duty} {r : Registry} {i j id : ℕ}
  {l : Listener}

theorem Due.append (h : Due es i id l) (es' : List Event) : Due (es ++ es') i id l := by
  obtain ⟨a, b, rfl, hstands⟩ := h
  exact ⟨a, b ++ es', by simp, hstands⟩

theorem Due.began (h : Due es i id l) : .began i ∈ es := by
  obtain ⟨a, b, rfl, -⟩ := h
  exact List.mem_append_right _ List.mem_cons_self

theorem Due.ne_zero (h : Due es i id l) : id ≠ 0 := by
  obtain ⟨-, -, -, -, -, -, hid, -⟩ := h
  exact hid

@[simp] theorem runs_append (es es' : List Event) : runs (es ++ es') = runs es ++ runs es' :=
  List.filterMap_append

@[simp] theorem starts_append (ds ds' : List Duty) : starts (ds ++ ds') = starts ds ++ starts ds' :=
  List.filterMap_append

theorem runs_of_quiet (h : ∀ e ∈ es, e.Quiet) : runs es = [] := by
  refine List.filterMap_eq_nil_iff.mpr fun e he => ?_
  have hquiet := h e he
  cases e <;> simp_all [Event.Quiet]

theorem starts_of_plain (h : ∀ d ∈ ds, d.Plain) : starts ds = [] := by
  refine List.filterMap_eq_nil_iff.mpr fun d hd => ?_
  have hplain := h d hd
  cases d <;> simp_all [Duty.Plain]

/-- The listeners that are to run are among the entries, in their order. -/
theorem starts_map_dutyOf (i : ℕ) (xs : List (ℕ × Entry)) :
    (starts (xs.map (dutyOf i))).Sublist (xs.map fun x => (i, x.1)) := by
  induction xs with
  | nil => exact .slnil
  | cons x xs ih =>
    rcases x with ⟨id, l | c⟩
    · exact ih.cons_cons _
    · exact ih.cons _

theorem open_append_of_quiet (h : ∀ e ∈ es', e.Quiet) : Open (es ++ es') i ↔ Open es i := by
  have hbegan : .began i ∉ es' := fun hmem => h _ hmem
  have hended : .ended i ∉ es' := fun hmem => h _ hmem
  simp [Open, hbegan, hended]

namespace Registry

/-! ### What the entries of a cancelled context stand for -/

section Entries

theorem fst_of_mem_starts {p : ℕ × ℕ} (h : p ∈ starts ((r.entries i).map (dutyOf i))) :
    p.1 = i := by
  obtain ⟨x, -, rfl⟩ := List.mem_map.mp ((starts_map_dutyOf i _).subset h)
  rfl

theorem ending_not_mem_map_dutyOf (xs : List (ℕ × Entry)) : .ending j ∉ xs.map (dutyOf i) := by
  rw [List.mem_map]
  rintro ⟨⟨n, l | c⟩, -, he⟩ <;> cases he

theorem Ordered.nodup_starts (h : Ordered r) (i : ℕ) :
    (starts ((r.entries i).map (dutyOf i))).Nodup := by
  refine (starts_map_dutyOf i _).nodup (List.pairwise_map.mpr ((h.sorted i).imp ?_))
  exact fun hlt heq => hlt.ne (Prod.mk.inj heq).2

/-- The entry of a derived context stands only while that one is not cancelled. -/
theorem Recorded.not_open_of_awaits (h : Recorded es r) {x : ℕ × Entry} (hx : x ∈ r.entries i)
    {c : ℕ} (hc : (dutyOf i x).Awaits c) : c ≠ i ∧ ¬ Open es c := by
  rcases x with ⟨n, l | c'⟩
  · exact hc.elim
  · obtain rfl : c' = c := hc
    have hsource := h.ordered.source i n c' hx
    refine ⟨(h.ordered.older c' i n hsource).ne', fun hopen => ?_⟩
    exact h.live.mp (h.ordered.alive c' _ hsource) hopen.1

/-- A listener that is to run because its context is cancelled stood there. -/
theorem Recorded.due (h : Recorded es r) (hi : .began i ∉ es)
    (hl : .start j id l ∈ (r.entries i).map (dutyOf i)) :
    Due (es ++ [.called i, .began i]) j id l := by
  obtain ⟨⟨n, l' | c⟩, hx, he⟩ := List.mem_map.mp hl
  · obtain ⟨rfl, rfl, rfl⟩ := Duty.start.inj he
    rw [h.entries, mem_registered hi] at hx
    exact ⟨es ++ [.called i], [], by simp, stands_concat.mpr (.inr ⟨hx, nofun⟩)⟩
  · cases he

end Entries

theorem plain_tellTurn (r : Registry) (c : Command) : ∀ d ∈ (r.tellTurn c).more, d.Plain := by
  cases c with
  | guardWith on name l => rcases hname : r.named? on <;> simp [tellTurn, hname, Duty.Plain]
  | _ => simp [tellTurn, Duty.Plain]

/-- In the course of duties, with what has happened so far. -/
structure Fair (es : List Event) (ds : List Duty) (r : Registry) : Prop where
  orderly : Orderly es ds r
  calm : Calm (es ++ r.course ds)
  /-- What is about to run has not run, and is about to run once. -/
  once : (runs es ++ starts ds).Nodup
  began : ∀ p ∈ runs es ++ starts ds, .began p.1 ∈ es
  due : ∀ i id l, .start i id l ∈ ds → Due es i id l
  closed : ∀ i, .ended i ∈ es → .began i ∈ es
  ending : ∀ i, ds.count (.ending i) = if Open es i then 1 else 0
  /-- Nothing waits for the end of a cancellation that is left to do after it. -/
  free : ds.Pairwise fun d d' => ∀ c, d.Awaits c → d' ≠ .ending c

namespace Fair

theorem told (cs : List Command) (h : Calm (history cs)) : Fair [] (cs.map .told) {} where
  orderly := .told cs
  calm := h
  once := by
    rw [starts_of_plain (by simp [Duty.Plain])]
    exact List.nodup_nil
  began := by
    rw [starts_of_plain (by simp [Duty.Plain])]
    exact fun _ hp => nomatch hp
  due := by simp
  closed _ hi := nomatch hi
  ending i := by
    have hopen : ¬ Open [] i := fun hopen => nomatch hopen.1
    rw [if_neg hopen]
    exact List.count_eq_zero.mpr (by simp)
  free := List.pairwise_map.mpr
    (List.pairwise_of_forall_mem_list fun _ _ _ _ _ _ heq => nomatch heq)

/-- A duty never has to wait for a cancellation to end. -/
theorem not_open_of_awaits (h : Fair es (d :: ds) r) {c : ℕ} (hd : d.Awaits c) : ¬ Open es c := by
  intro hopen
  have hcount := h.ending c
  rw [if_pos hopen] at hcount
  have hmem : .ending c ∈ d :: ds := List.count_pos_iff.mp (hcount ▸ Nat.one_pos)
  rcases List.mem_cons.mp hmem with rfl | hmem
  · exact hd
  · exact List.rel_of_pairwise_cons h.free hmem c hd rfl

theorem not_mem_of_not_open (h : Fair es ds r) (hi : ¬ Open es i) : .ending i ∉ ds := by
  have hcount := h.ending i
  rw [if_neg hi] at hcount
  exact List.count_eq_zero.mp hcount

/-- All that happens is the same after a turn. -/
theorem calm_turn (h : Fair es (d :: ds) r) :
    Calm (es ++ (r.turn d).events ++ (r.turn d).after.course ((r.turn d).more ++ ds)) := by
  rw [List.append_assoc, ← course_cons]
  exact h.calm

/-- A duty that starts no listener that has a number, and leaves open what was. -/
theorem plain (h : Fair es (d :: ds) r) (hruns : runs (r.turn d).events = [])
    (hopen : ∀ i, Open (es ++ (r.turn d).events) i ↔ Open es i)
    (hclosed : ∀ i, .ended i ∈ (r.turn d).events → .began i ∈ (r.turn d).events)
    (hd : d.Plain) (hmore : ∀ d' ∈ (r.turn d).more, d'.Plain)
    (hawaits : ∀ d' ∈ (r.turn d).more, ∀ c, d'.Awaits c → ¬ Open es c) :
    Fair (es ++ (r.turn d).events) ((r.turn d).more ++ ds) (r.turn d).after := by
  have hplain : ∀ d' ∈ [d], d'.Plain := by simpa using hd
  have hstarts : starts (d :: ds) = starts ds := by
    rw [← List.singleton_append, starts_append, starts_of_plain hplain, List.nil_append]
  have hsame : runs (es ++ (r.turn d).events) ++ starts ((r.turn d).more ++ ds)
      = runs es ++ starts (d :: ds) := by
    rw [runs_append, hruns, starts_append, starts_of_plain hmore, hstarts, List.append_nil,
      List.nil_append]
  have hending : ∀ i, .ending i ∉ (r.turn d).more := fun i hi => hmore _ hi
  obtain ⟨-, htail⟩ := List.pairwise_cons.mp h.free
  exact {
    orderly := h.orderly.turn
    calm := h.calm_turn
    once := hsame ▸ h.once
    began := fun p hp => List.mem_append_left _ (h.began p (hsame ▸ hp))
    due := fun i id l hi => by
      rcases List.mem_append.mp hi with hnew | hold
      · exact (hmore _ hnew).elim
      · exact (h.due i id l (List.mem_cons_of_mem _ hold)).append _
    closed := fun i hi => by
      rcases List.mem_append.mp hi with hold | hnew
      · exact List.mem_append_left _ (h.closed i hold)
      · exact List.mem_append_right _ (hclosed i hnew)
    ending := fun i => by
      have hne : d ≠ .ending i := fun heq => by
        rw [heq] at hd
        exact hd
      rw [List.count_append, List.count_eq_zero.mpr (hending i), Nat.zero_add,
        ← List.count_cons_of_ne hne, h.ending i]
      exact if_congr (hopen i).symm rfl rfl
    free := by
      refine List.pairwise_append.mpr ⟨?_, htail, ?_⟩
      · refine List.pairwise_of_forall_mem_list fun d₁ _ d₂ hd₂ c _ heq => ?_
        exact hending c (heq ▸ hd₂)
      · rintro d₁ hd₁ d₂ hd₂ c hc rfl
        exact h.not_mem_of_not_open (hawaits d₁ hd₁ c hc) (List.mem_cons_of_mem _ hd₂) }

/-- A duty that begins and ends nothing. -/
theorem quiet (h : Fair es (d :: ds) r) (hevents : ∀ e ∈ (r.turn d).events, e.Quiet)
    (hd : d.Plain) (hmore : ∀ d' ∈ (r.turn d).more, d'.Plain)
    (hawaits : ∀ d' ∈ (r.turn d).more, ∀ c, d'.Awaits c → ¬ Open es c) :
    Fair (es ++ (r.turn d).events) ((r.turn d).more ++ ds) (r.turn d).after :=
  h.plain (runs_of_quiet hevents) (fun _ => open_append_of_quiet hevents)
    (fun _ hi => (hevents _ hi).elim) hd hmore hawaits

/-- A listener starts to run. -/
theorem start (h : Fair es (.start i id l :: ds) r) :
    Fair (es ++ (r.turn (.start i id l)).events) ((r.turn (.start i id l)).more ++ ds)
      (r.turn (.start i id l)).after := by
  have hdue := h.due i id l List.mem_cons_self
  have hruns : runs (es ++ [.ran i id l]) ++ starts ds
      = runs es ++ starts (.start i id l :: ds) := by
    simp [runs, starts, hdue.ne_zero]
  obtain ⟨-, htail⟩ := List.pairwise_cons.mp h.free
  exact {
    orderly := h.orderly.turn
    calm := h.calm_turn
    once := by
      have honce := h.once
      rwa [← hruns] at honce
    began := fun p hp => List.mem_append_left _ (h.began p (hruns ▸ hp))
    due := fun i' id' l' hi => by
      have hold : .start i' id' l' ∈ ds := by simpa [Registry.turn] using hi
      exact (h.due i' id' l' (List.mem_cons_of_mem _ hold)).append _
    closed := by simpa [Registry.turn] using h.closed
    ending := fun i' => by
      have hcount := h.ending i'
      rw [List.count_cons_of_ne (by simp)] at hcount
      refine Eq.trans ?_ (hcount.trans (if_congr ?_ rfl rfl))
      · simp [Registry.turn]
      · simp [Registry.turn, Open]
    free := by
      refine List.Pairwise.cons ?_ (List.Pairwise.cons ?_ htail) <;>
        exact fun _ _ _ hawaits => hawaits.elim }

/-- A cancellation ends. -/
theorem ends (h : Fair es (.ending i :: ds) r) :
    Fair (es ++ (r.turn (.ending i)).events) ((r.turn (.ending i)).more ++ ds)
      (r.turn (.ending i)).after := by
  have hcount := h.ending i
  have hopen : Open es i := by
    by_contra hopen
    simp [hopen] at hcount
  have hruns : runs (es ++ [.ended i]) ++ starts ds = runs es ++ starts (.ending i :: ds) := by
    simp [runs, starts]
  obtain ⟨-, htail⟩ := List.pairwise_cons.mp h.free
  exact {
    orderly := h.orderly.turn
    calm := h.calm_turn
    once := by
      have honce := h.once
      rwa [← hruns] at honce
    began := fun p hp => List.mem_append_left _ (h.began p (hruns ▸ hp))
    due := fun i' id' l' hi => by
      have hold : .start i' id' l' ∈ ds := by simpa [Registry.turn] using hi
      exact (h.due i' id' l' (List.mem_cons_of_mem _ hold)).append _
    closed := fun i' hi => by
      rcases List.mem_append.mp hi with hold | hnew
      · exact List.mem_append_left _ (h.closed i' hold)
      · obtain rfl := Event.ended.inj (List.mem_singleton.mp hnew)
        exact List.mem_append_left _ hopen.1
    ending := fun i' => by
      by_cases hi : i' = i
      · subst hi
        rw [if_pos hopen, List.count_cons_self] at hcount
        have hended : ¬ Open (es ++ [.ended i']) i' := by simp [Open]
        rw [Registry.turn, if_neg hended]
        exact Nat.succ.inj hcount
      · have hother := h.ending i'
        rw [List.count_cons_of_ne fun heq => hi (Duty.ending.inj heq).symm] at hother
        refine hother.trans (if_congr ?_ rfl rfl)
        simp [Registry.turn, Open, hi]
    free := htail }

/-- A context is cancelled: what its entries stand for is left to do. -/
theorem begin (h : Fair es (.task (.cancel i) :: ds) r) (hlive : r.isCancelled i = false) :
    Fair (es ++ [.called i, .began i]) ((r.entries i).map (dutyOf i) ++ [.ending i] ++ ds)
      ((r.shut i).detach i) := by
  have horderly := h.orderly.turn
  have hcalm := h.calm_turn
  rw [turn_cancel hlive] at horderly hcalm
  have hrecorded := h.orderly.recorded
  have hbegan : .began i ∉ es := hrecorded.live.mp hlive
  have hclosed : .ended i ∉ es := fun hi => hbegan (h.closed i hi)
  have hsame : runs (es ++ [.called i, .began i])
        ++ starts ((r.entries i).map (dutyOf i) ++ [.ending i] ++ ds)
      = runs es ++ (starts ((r.entries i).map (dutyOf i)) ++ starts ds) := by
    simp [runs, starts]
  have hrest : starts (.task (.cancel i) :: ds) = starts ds := by simp [starts]
  have honce := h.once
  have hbefore := h.began
  rw [hrest] at honce hbefore
  obtain ⟨-, htail⟩ := List.pairwise_cons.mp h.free
  exact {
    orderly := horderly
    calm := hcalm
    once := by
      rw [hsame, (List.perm_append_comm_assoc ..).nodup_iff]
      refine (hrecorded.ordered.nodup_starts i).append honce fun p hp hp' => ?_
      exact hbegan (fst_of_mem_starts hp ▸ hbefore p hp')
    began := fun p hp => by
      rw [hsame, (List.perm_append_comm_assoc ..).mem_iff] at hp
      rcases List.mem_append.mp hp with hnew | hold
      · rw [fst_of_mem_starts hnew]
        simp
      · exact List.mem_append_left _ (hbefore p hold)
    due := fun j id l hl => by
      rw [List.append_assoc, List.mem_append] at hl
      rcases hl with hnew | hold
      · exact hrecorded.due hbegan hnew
      · have hmem : .start j id l ∈ ds := by simpa using hold
        exact (h.due j id l (List.mem_cons_of_mem _ hmem)).append _
    closed := fun j hj => List.mem_append_left _ (h.closed j (by simpa using hj))
    ending := fun j => by
      have hcount := h.ending j
      rw [List.count_cons_of_ne (by simp)] at hcount
      rw [List.append_assoc, List.count_append,
        List.count_eq_zero.mpr (ending_not_mem_map_dutyOf _), List.singleton_append]
      by_cases hj : j = i
      · subst hj
        rw [List.count_cons_self, hcount, if_neg fun hopen => hbegan hopen.1,
          if_pos ⟨by simp, by simpa using hclosed⟩]
      · rw [List.count_cons_of_ne fun heq => hj (Duty.ending.inj heq).symm, hcount, Nat.zero_add]
        exact if_congr (by simp [Open, hj]) rfl rfl
    free := by
      rw [List.append_assoc]
      refine List.pairwise_append.mpr ⟨?_, List.Pairwise.cons (fun _ _ _ hc => hc.elim) htail, ?_⟩
      · refine List.pairwise_of_forall_mem_list fun d₁ _ d₂ hd₂ c _ heq => ?_
        exact ending_not_mem_map_dutyOf _ (heq ▸ hd₂)
      · rintro d₁ hd₁ d₂ hd₂ c hc rfl
        obtain ⟨x, hx, rfl⟩ := List.mem_map.mp hd₁
        obtain ⟨hne, hopen⟩ := hrecorded.not_open_of_awaits hx hc
        have hmem : .ending c ∈ ds := by simpa [hne] using hd₂
        exact h.not_mem_of_not_open hopen (List.mem_cons_of_mem _ hmem) }

theorem cancel (h : Fair es (.task (.cancel i) :: ds) r) :
    Fair (es ++ (r.turn (.task (.cancel i))).events) ((r.turn (.task (.cancel i))).more ++ ds)
      (r.turn (.task (.cancel i))).after := by
  cases hlive : r.isCancelled i with
  | true =>
    refine h.quiet ?_ trivial ?_ ?_ <;> simp [turn_cancel_of_isCancelled hlive, Event.Quiet]
  | false =>
    rw [turn_cancel hlive]
    exact h.begin hlive

theorem make {origin : Option ℕ} {name : String} (h : Fair es (.make origin name :: ds) r) :
    Fair (es ++ (r.turn (.make origin name)).events) ((r.turn (.make origin name)).more ++ ds)
      (r.turn (.make origin name)).after := by
  rcases origin with _ | i
  · refine h.quiet ?_ trivial ?_ ?_ <;> simp [Registry.turn, makeTurn, Duty.Plain, Duty.Awaits]
  cases hlive : r.isCancelled i with
  | false =>
    refine h.quiet ?_ trivial ?_ ?_ <;>
      simp [turn_make hlive, Event.Quiet, Duty.Plain, Duty.Awaits]
  | true =>
    have hbegan := h.orderly.recorded.not_began_length
    refine h.plain ?_ (fun j => ?_) ?_ trivial ?_ ?_ <;> rw [turn_make_of_isCancelled hlive]
    · simp [runs]
    · by_cases hj : j = r.cells.length <;> simp [Open, hj, hbegan]
    · simp
    · simp [Duty.Plain]
    · simp [Duty.Awaits]

/-- A listener asks for the cancellation of a context. -/
theorem ask {name : String} (h : Fair es (.task (.cancelNamed name) :: ds) r) :
    Fair (es ++ (r.turn (.task (.cancelNamed name))).events)
      ((r.turn (.task (.cancelNamed name))).more ++ ds)
      (r.turn (.task (.cancelNamed name))).after := by
  rcases hname : r.named? name with _ | i
  · refine h.quiet ?_ trivial ?_ ?_ <;> simp [Registry.turn, taskTurn, hname]
  · have hopen : ¬ Open es i := by
      refine h.calm es (r.course (.task (.cancel i) :: ds)) i ?_
      rw [course_cons]
      simp [Registry.turn, taskTurn, hname]
    refine h.quiet ?_ trivial ?_ ?_ <;>
      simp [Registry.turn, taskTurn, hname, Event.Quiet, Duty.Plain, Duty.Awaits, hopen]

/-- What one duty keeps. -/
theorem turn (h : Fair es (d :: ds) r) :
    Fair (es ++ (r.turn d).events) ((r.turn d).more ++ ds) (r.turn d).after := by
  cases d with
  | told c =>
    exact h.quiet (by simp [Registry.turn, events_tellTurn]) trivial (plain_tellTurn r c)
      fun _ _ _ _ => h.not_open_of_awaits trivial
  | make origin name => exact h.make
  | bind name i =>
    refine h.quiet ?_ trivial ?_ ?_ <;> simp [Registry.turn, Duty.Plain, Duty.Awaits]
  | release i =>
    refine h.quiet ?_ trivial ?_ ?_ <;> simp [Registry.turn, Event.Quiet]
  | setGuard name g =>
    refine h.quiet ?_ trivial ?_ fun _ _ _ _ => h.not_open_of_awaits trivial <;>
      simp [Registry.turn, Duty.Plain]
  | endGuard g =>
    refine h.quiet ?_ trivial ?_ fun _ _ _ _ => h.not_open_of_awaits trivial <;>
      simp [Registry.turn, Duty.Plain]
  | attend i l =>
    refine h.quiet ?_ trivial ?_ ?_ <;> simp only [Registry.turn, attendTurn] <;> split_ifs <;>
      simp [Event.Quiet, Duty.Plain, Duty.Awaits]
  | remove i id => refine h.quiet ?_ trivial ?_ ?_ <;> simp [Registry.turn, Event.Quiet]
  | task t =>
    cases t with
    | cancel i => exact h.cancel
    | cancelNamed name => exact h.ask
    | run l =>
      refine h.quiet ?_ trivial ?_ ?_ <;>
        rcases l with ⟨_, _ | _⟩ | ⟨_, _ | _, _, _⟩ | ⟨_, _⟩ <;>
        simp [Registry.turn, taskTurn, perform, noting, Event.Quiet, Duty.Plain, Duty.Awaits]
    | add name l =>
      refine h.quiet ?_ trivial ?_ ?_ <;> simp [Registry.turn, taskTurn, Duty.Plain, Duty.Awaits]
  | start i id l => exact h.start
  | returning i id => refine h.quiet ?_ trivial ?_ ?_ <;> simp [Registry.turn, Event.Quiet]
  | ending i => exact h.ends

/-- What is fair stays so until some of the duties are done. -/
theorem finish (h : Fair es (ds ++ ds') r) : Fair (es ++ r.course ds) ds' (r.finish ds) :=
  course_preserves (fun _ _ _ _ h => h.turn) h

end Fair

end Registry

end Signal

end Ingest

import Ingest.Queue.Traffic
import Ingest.Proofs.Queue
import Ingest.Proofs.History

/-!
# A queue loses nothing

Callers begin, are answered and leave in any order, while the queue is closed and signals are cancelled
at any time (`Event`). What can be seen of it is who was answered what, and which close was the first
(`Deed`). Whatever happens, the values that were received followed by those in the queue are the
accepted ones in order (`nothing_is_lost`), and the listeners of a signal are those of the callers who
watch it and have not left (`Attended`).
-/

namespace Ingest.Queue

variable {α : Type}

/-- The call watches the signal. -/
def Caller.watches (c : Caller α) (name : String) : Bool :=
  match c.call with
  | .receiveWatching watched => watched == name
  | _ => false

namespace Traffic

/-- What can happen at a queue. -/
inductive Event (α : Type) where
  | start (name : String) (c : Call α)
  /-- The caller in place `k` is answered. -/
  | decide (k : ℕ)
  | leave (k : ℕ)
  | close
  | cancel (signal : String)

def Event.isClose : Event α → Bool
  | close => true
  | _ => false

/-- A queue after an event. None if the event cannot happen now. -/
def act? (t : Traffic α) : Event α → Option (Traffic α)
  | .start name c => some (t.start name c)
  | .decide k => t.decide? k
  | .leave k => t.leave? k
  | .close => some t.close.2
  | .cancel name => some (t.cancel name)

/-- What can be seen. -/
inductive Deed (α : Type) where
  | answered (c : Call α) (a : Answer α)
  | closed (first : Bool)

def Deed.isFirstClose : Deed α → Bool
  | closed first => first
  | _ => false

/-- What can be seen of an event. -/
def deeds (t : Traffic α) : Event α → List (Deed α)
  | .decide k =>
    match t.callers[k]? with
    | some c => ((t.attempt? c.call).map fun p => .answered c.call p.1).toList
    | none => []
  | .close => [.closed t.close.1]
  | _ => []

/-- The values of the accepted sends. -/
def accepted (log : List (Deed α)) : List α :=
  log.filterMap fun
    | .answered (.send a) (.sent true) => some a
    | _ => none

/-- The values that were received. -/
def received (log : List (Deed α)) : List α :=
  log.filterMap fun
    | .answered _ (.received (.value a)) => some a
    | _ => none

variable {t t' : Traffic α} {k : ℕ} {c : Caller α}

/-! ### The signals and their listeners -/

theorem signal_setSignal (t : Traffic α) (watched : String) (s : Signal String) (name : String) :
    (t.setSignal watched s).signal name = if name = watched then s else t.signal name := by
  unfold setSignal signal
  split_ifs with h
  · rw [h, Catalog.get?_set_self]
  · rw [Catalog.get?_set_of_ne _ h]

/-- The numbers and names under which callers watch a signal, in the order in which they came. -/
def watchers (callers : List (Caller α)) (name : String) : List (ℕ × String) :=
  callers.filterMap fun c => if c.watches name then some (c.listener, c.name) else none

theorem watchers_append (callers : List (Caller α)) (c : Caller α) (name : String) :
    watchers (callers ++ [c]) name
      = watchers callers name ++ if c.watches name then [(c.listener, c.name)] else [] := by
  unfold watchers
  rw [List.filterMap_append]
  cases hc : c.watches name <;> simp [hc]

theorem watchers_answered {callers : List (Caller α)} (hk : callers[k]? = some c)
    (a : Option (Answer α)) (name : String) :
    watchers (callers.set k { c with answer := a }) name = watchers callers name := by
  obtain ⟨l₁, l₂, rfl, hset⟩ := exists_split_of_getElem? hk
  rw [hset]
  unfold watchers
  rw [List.filterMap_append, List.filterMap_append, List.filterMap_cons, List.filterMap_cons]
  rfl

theorem exists_watchers {callers : List (Caller α)} (hk : callers[k]? = some c) (name : String) :
    ∃ w₁ w₂, watchers callers name
        = w₁ ++ (if c.watches name then [(c.listener, c.name)] else []) ++ w₂
      ∧ watchers (callers.eraseIdx k) name = w₁ ++ w₂ := by
  obtain ⟨hlt, hc⟩ := List.getElem?_eq_some_iff.mp hk
  refine ⟨watchers (callers.take k) name, watchers (callers.drop (k + 1)) name, ?_, ?_⟩
  · rw [← watchers_append, ← hc, List.take_append_getElem]
    unfold watchers
    rw [← List.filterMap_append, List.take_append_drop]
  · unfold watchers
    rw [← List.filterMap_append, List.eraseIdx_eq_take_drop_succ]

/-- The listeners of a signal are those who watch it, until it is cancelled. -/
structure Attended (ws : List (ℕ × String)) (s : Signal String) : Prop where
  listeners : s.listeners = if s.cancelled then [] else ws
  numbers : s.cancelled = false → ∀ w ∈ ws, w.1 < s.next
  ascending : s.cancelled = false → ws.Pairwise (·.1 < ·.1)

namespace Attended

variable {ws w₁ w₂ : List (ℕ × String)} {s : Signal String} {name : String} {id : ℕ}

theorem of_cancelled (hs : s.cancelled = true) (hnone : s.listeners = []) : Attended ws s where
  listeners := by rw [hs, hnone]; rfl
  numbers hlive := by rw [hs] at hlive; cases hlive
  ascending hlive := by rw [hs] at hlive; cases hlive

theorem cancel (h : Attended ws s) : Attended ws s.cancel.2 := by
  cases hs : s.cancelled with
  | true =>
    have hsame : s.cancel.2 = s := by rw [Signal.cancel, if_pos hs]
    rwa [hsame]
  | false =>
    have hcancel : s.cancel.2 = { s with cancelled := true, listeners := [] } := by
      rw [Signal.cancel, hs]
      rfl
    rw [hcancel]
    exact of_cancelled rfl rfl

/-- Somebody comes to watch the signal. -/
theorem listen (h : Attended ws s) (name : String) :
    Attended (ws ++ [((s.listen name).1, name)]) (s.listen name).2 := by
  cases hs : s.cancelled with
  | true =>
    have hsame : (s.listen name).2 = s := by rw [Signal.listen, if_pos hs]
    rw [hsame]
    exact of_cancelled hs (by rw [h.listeners, if_pos hs])
  | false =>
    have hlisten : s.listen name
        = (s.next, { s with next := s.next + 1, listeners := s.listeners ++ [(s.next, name)] }) := by
      rw [Signal.listen, hs]
      rfl
    rw [hlisten]
    refine ⟨by simp [h.listeners, hs], fun _ w hw => ?_, fun _ => ?_⟩
    · rcases List.mem_append.mp hw with hw | hw
      · exact (h.numbers hs w hw).trans (Nat.lt_succ_self _)
      · rw [List.mem_singleton.mp hw]
        exact Nat.lt_succ_self _
    · rw [List.pairwise_append]
      refine ⟨h.ascending hs, List.pairwise_singleton _ _, fun w hw v hv => ?_⟩
      rw [List.mem_singleton.mp hv]
      exact h.numbers hs w hw

/-- Somebody who watches the signal takes the listener away. -/
theorem forget (h : Attended (w₁ ++ [(id, name)] ++ w₂) s) : Attended (w₁ ++ w₂) (s.forget id) := by
  have hsub : (w₁ ++ w₂).Sublist (w₁ ++ [(id, name)] ++ w₂) :=
    (List.sublist_append_left ..).append_right _
  refine ⟨?_, fun hs w hw => h.numbers hs w (hsub.subset hw), fun hs => (h.ascending hs).sublist hsub⟩
  show s.listeners.filter (fun l => l.1 != id) = if s.cancelled then [] else w₁ ++ w₂
  rw [h.listeners]
  cases hs : s.cancelled with
  | true => rfl
  | false =>
    have hother : ∀ w ∈ w₁ ++ w₂, (w.1 != id) = true := by
      have hasc := h.ascending hs
      rw [List.pairwise_append, List.pairwise_append] at hasc
      obtain ⟨⟨-, -, hbefore⟩, -, hafter⟩ := hasc
      intro w hw
      rcases List.mem_append.mp hw with hw | hw
      · simpa using (hbefore w hw _ (List.mem_singleton_self _)).ne
      · simpa using (hafter (id, name) (by simp) w hw).ne'
    obtain ⟨h₁, h₂⟩ := List.forall_mem_append.mp hother
    simp [List.filter_eq_self.mpr h₁, List.filter_eq_self.mpr h₂]

end Attended

/-! ### What a step does -/

theorem start_spec (t : Traffic α) (caller : String) (call : Call α) :
    ∃ c : Caller α, c.call = call ∧ c.answer = none ∧ (t.start caller call).queue = t.queue
      ∧ (t.start caller call).callers = t.callers ++ [c]
      ∧ ∀ name, if c.watches name
        then c.listener = ((t.signal name).listen c.name).1
          ∧ (t.start caller call).signal name = ((t.signal name).listen c.name).2
        else (t.start caller call).signal name = t.signal name := by
  cases call with
  | receiveWatching watched =>
    refine ⟨{
      name := caller
      call := .receiveWatching watched
      listener := ((t.signal watched).listen caller).1 }, rfl, rfl, rfl, rfl, fun name => ?_⟩
    have hsignal : (t.start caller (.receiveWatching watched)).signal name
        = if name = watched then ((t.signal watched).listen caller).2 else t.signal name :=
      signal_setSignal ..
    rw [hsignal]
    by_cases hname : name = watched
    · simp [Caller.watches, hname]
    · simp [Caller.watches, hname, Ne.symm hname]
  | send a => exact ⟨_, rfl, rfl, rfl, rfl, fun _ => rfl⟩
  | receive => exact ⟨_, rfl, rfl, rfl, rfl, fun _ => rfl⟩

theorem decide?_cases (h : t.decide? k = some t') : ∃ c a q, t.callers[k]? = some c
    ∧ c.answer = none ∧ t.attempt? c.call = some (a, q)
    ∧ t' = { t with queue := q, callers := t.callers.set k { c with answer := some a } } := by
  unfold decide? at h
  split at h
  · cases h
  · rename_i c hc
    split at h
    · cases h
    · rename_i hnone
      obtain ⟨⟨a, q⟩, ha, rfl⟩ := Option.map_eq_some_iff.mp h
      exact ⟨c, a, q, hc, hnone, ha, rfl⟩

theorem leave?_cases (h : t.leave? k = some t') : ∃ c, t.callers[k]? = some c
    ∧ t'.queue = t.queue ∧ t'.callers = t.callers.eraseIdx k
    ∧ ∀ name, t'.signal name
      = if c.watches name then (t.signal name).forget c.listener else t.signal name := by
  unfold leave? at h
  split at h
  · cases h
  · rename_i c hc
    obtain ⟨a, ha, rfl⟩ := Option.map_eq_some_iff.mp h
    refine ⟨c, hc, ?_, ?_, fun name => ?_⟩
    · split <;> rfl
    · split <;> rfl
    · obtain ⟨caller, call, listener, answer⟩ := c
      cases call with
      | receiveWatching watched =>
        refine (signal_setSignal ..).trans ?_
        by_cases hname : name = watched
        · simp [Caller.watches, hname]
        · simp [Caller.watches, hname, Ne.symm hname]
      | _ => rfl

/-- Every event leaves the listeners of every signal to those who watch it. -/
theorem attended_act? {e : Event α} (h : ∀ name, Attended (watchers t.callers name) (t.signal name))
    (ht : t.act? e = some t') (name : String) :
    Attended (watchers t'.callers name) (t'.signal name) := by
  cases e with
  | start caller call =>
    obtain rfl := Option.some.inj ht
    obtain ⟨c, -, -, -, hcallers, hsignal⟩ := t.start_spec caller call
    have hwatch := hsignal name
    rw [hcallers, watchers_append]
    split_ifs at hwatch ⊢ with hc
    · rw [hwatch.1, hwatch.2]
      exact (h name).listen c.name
    · rw [hwatch, List.append_nil]
      exact h name
  | decide k =>
    obtain ⟨c, a, q, hc, -, -, rfl⟩ := decide?_cases ht
    have hsame := watchers_answered hc (some a) name
    exact hsame.symm ▸ h name
  | leave k =>
    obtain ⟨c, hc, -, hcallers, hsignal⟩ := leave?_cases ht
    obtain ⟨w₁, w₂, hbefore, hafter⟩ := exists_watchers hc name
    have hold := h name
    rw [hbefore] at hold
    rw [hcallers, hafter, hsignal]
    cases hwatch : c.watches name with
    | true => exact Attended.forget (by simpa [hwatch] using hold)
    | false => simpa [hwatch] using hold
  | close =>
    obtain rfl := Option.some.inj ht
    exact h name
  | cancel watched =>
    obtain rfl := Option.some.inj ht
    rw [cancel, signal_setSignal]
    split_ifs with heq
    · exact heq ▸ (h watched).cancel
    · exact h name

/-! ### The account of a history -/

/-- What must have been seen before something is seen: a send is accepted until the queue is closed,
it is closed once, and a receiver learns that it is closed when everything accepted was received. -/
def Fair (log : List (Deed α)) : Deed α → Prop
  | .answered (.send _) (.sent accepted) => accepted = true ↔ .closed true ∉ log
  | .answered _ (.received .closed) => .closed true ∈ log ∧ received log = accepted log
  | .closed first => first = true ↔ .closed true ∉ log
  | _ => True

/-- A queue of `n` after what was seen. -/
structure Recorded (n : ℕ) (log : List (Deed α)) (q : Queue α) : Prop where
  capacity : q.capacity = max n 1
  bounded : q.items.length ≤ max n 1
  order : received log ++ q.items = accepted log
  closed_iff : q.closed = true ↔ .closed true ∈ log
  closings : log.countP Deed.isFirstClose = if q.closed then 1 else 0
  fair : ∀ before d after, log = before ++ d :: after → Fair before d

namespace Recorded

variable {n : ℕ} {log : List (Deed α)} {q : Queue α}

theorem ofCapacity (n : ℕ) : Recorded n [] (.ofCapacity n : Queue α) where
  capacity := rfl
  bounded := Nat.zero_le _
  order := rfl
  closed_iff := by simp [Queue.ofCapacity]
  closings := rfl
  fair before d after h := by simp at h

theorem fair_append {d : Deed α} (h : Recorded n log q) (hd : Fair log d) :
    ∀ before d' after, log ++ [d] = before ++ d' :: after → Fair before d' := by
  intro before d' after heq
  rcases List.eq_nil_or_concat after with rfl | ⟨rest, e, rfl⟩
  · obtain ⟨rfl, hlast⟩ := List.append_inj' heq rfl
    exact (List.singleton_inj.mp hlast) ▸ hd
  · have hsplit : log ++ [d] = (before ++ d' :: rest) ++ [e] := by simpa using heq
    exact h.fair before d' rest (List.append_inj' hsplit rfl).1

theorem sent {a : α} {b : Bool} {q' : Queue α} (h : Recorded n log q)
    (hsend : q.send? a = some (b, q')) : Recorded n (log ++ [.answered (.send a) (.sent b)]) q' := by
  obtain ⟨hclosed, rfl, rfl⟩ | ⟨hopen, hroom, rfl, rfl⟩ := send?_cases hsend
  · exact {
      capacity := h.capacity
      bounded := h.bounded
      order := by simpa [received, accepted] using h.order
      closed_iff := by simpa using h.closed_iff
      closings := by simpa [Deed.isFirstClose] using h.closings
      fair := h.fair_append (by simpa [Fair] using h.closed_iff.mp hclosed) }
  · have hnot : .closed true ∉ log := by
      rw [← h.closed_iff, hopen]
      exact Bool.false_ne_true
    exact {
      capacity := h.capacity
      bounded := by simpa using hroom.trans_eq h.capacity
      order := by simpa [received, accepted] using congrArg (· ++ [a]) h.order
      closed_iff := by simpa using h.closed_iff
      closings := by simpa [Deed.isFirstClose] using h.closings
      fair := h.fair_append (by simpa [Fair] using hnot) }

theorem answered_received {c : Call α} {r : Received α} {q' : Queue α} (h : Recorded n log q)
    (hreceive : q.receive? = some (r, q')) :
    Recorded n (log ++ [.answered c (.received r)]) q' := by
  obtain ⟨a, rest, hitems, rfl, rfl⟩ | ⟨hnil, hclosed, rfl, rfl⟩ := receive?_cases hreceive
  · have hbound := h.bounded
    have horder := h.order
    rw [hitems] at hbound horder
    exact {
      capacity := h.capacity
      bounded := (Nat.le_succ _).trans hbound
      order := by simpa [received, accepted] using horder
      closed_iff := by simpa using h.closed_iff
      closings := by simpa [Deed.isFirstClose] using h.closings
      fair := h.fair_append (by cases c <;> trivial) }
  · have horder := h.order
    rw [hnil, List.append_nil] at horder
    exact {
      capacity := h.capacity
      bounded := h.bounded
      order := by simpa [received, accepted] using h.order
      closed_iff := by simpa using h.closed_iff
      closings := by simpa [Deed.isFirstClose] using h.closings
      fair := h.fair_append (by cases c <;> exact ⟨h.closed_iff.mp hclosed, horder⟩) }

theorem answered_cancelled {c : Call α} (h : Recorded n log q) :
    Recorded n (log ++ [.answered c (.received .cancelled)]) q where
  capacity := h.capacity
  bounded := h.bounded
  order := by simpa [received, accepted] using h.order
  closed_iff := by simpa using h.closed_iff
  closings := by simpa [Deed.isFirstClose] using h.closings
  fair := h.fair_append (by cases c <;> trivial)

/-- A call is answered. -/
theorem answered {c : Call α} {a : Answer α} {t : Traffic α} (h : Recorded n log t.queue)
    (ha : t.attempt? c = some (a, q)) : Recorded n (log ++ [.answered c a]) q := by
  cases c with
  | send x =>
    obtain ⟨⟨b, q'⟩, hsend, heq⟩ := Option.map_eq_some_iff.mp ha
    obtain ⟨rfl, rfl⟩ := Prod.mk.inj heq
    exact h.sent hsend
  | receive =>
    obtain ⟨⟨r, q'⟩, hreceive, heq⟩ := Option.map_eq_some_iff.mp ha
    obtain ⟨rfl, rfl⟩ := Prod.mk.inj heq
    exact h.answered_received hreceive
  | receiveWatching watched =>
    obtain ⟨⟨r, q'⟩, hreceive, heq⟩ := Option.map_eq_some_iff.mp ha
    obtain ⟨rfl, rfl⟩ := Prod.mk.inj heq
    obtain ⟨-, rfl, rfl⟩ | ⟨-, hreceive⟩ := receiveUnless?_cases hreceive
    · exact h.answered_cancelled
    · exact h.answered_received hreceive

theorem close (h : Recorded n log q) : Recorded n (log ++ [.closed q.close.1]) q.close.2 where
  capacity := h.capacity
  bounded := h.bounded
  order := by simpa [received, accepted] using h.order
  closed_iff := by
    cases hc : q.closed <;> simp [Queue.close, hc, ← h.closed_iff]
  closings := by
    rw [List.countP_append, h.closings]
    cases hc : q.closed <;> simp [Queue.close, hc, Deed.isFirstClose]
  fair := h.fair_append (by simp [Fair, Queue.close, ← h.closed_iff])

end Recorded

theorem recorded_act? {n : ℕ} {log : List (Deed α)} {e : Event α} (h : Recorded n log t.queue)
    (ht : t.act? e = some t') : Recorded n (log ++ t.deeds e) t'.queue := by
  cases e with
  | start caller call =>
    obtain rfl := Option.some.inj ht
    obtain ⟨c, -, -, hqueue, -, -⟩ := t.start_spec caller call
    simpa [deeds, hqueue] using h
  | decide k =>
    obtain ⟨c, a, q, hc, -, ha, rfl⟩ := decide?_cases ht
    have hdeeds : t.deeds (.decide k) = [.answered c.call a] := by simp [deeds, hc, ha]
    rw [hdeeds]
    exact h.answered ha
  | leave k =>
    obtain ⟨c, -, hqueue, -⟩ := leave?_cases ht
    simpa [deeds, hqueue] using h
  | close =>
    obtain rfl := Option.some.inj ht
    exact h.close
  | cancel watched =>
    obtain rfl := Option.some.inj ht
    simpa [deeds, cancel, setSignal] using h

theorem closed_act? {n : ℕ} {log : List (Deed α)} {e : Event α} (h : Recorded n log t.queue)
    (ht : t.act? e = some t') : t'.queue.closed = (t.queue.closed || e.isClose) := by
  have hclosed : t'.queue.closed = true ↔ t.queue.closed = true ∨ .closed true ∈ t.deeds e := by
    rw [(recorded_act? h ht).closed_iff, h.closed_iff, List.mem_append]
  cases e with
  | close =>
    obtain rfl := Option.some.inj ht
    exact (Bool.or_true _).symm
  | decide k =>
    obtain ⟨c, a, q, hc, -, ha, -⟩ := decide?_cases ht
    have hdeeds : t.deeds (.decide k) = [.answered c.call a] := by simp [deeds, hc, ha]
    show t'.queue.closed = (t.queue.closed || false)
    rw [Bool.or_false, Bool.eq_iff_iff, hclosed, hdeeds]
    simp
  | _ =>
    show t'.queue.closed = (t.queue.closed || false)
    rw [Bool.or_false, Bool.eq_iff_iff, hclosed]
    simp [deeds]

/-- What is seen while events happen at a new queue. -/
def log (n : ℕ) (es : List (Event α)) : List (Deed α) :=
  along act? deeds (ofCapacity n) es

theorem recorded_follow? {n : ℕ} {es : List (Event α)} (h : follow? act? (ofCapacity n) es = some t) :
    Recorded n (log n es) t.queue ∧ t.queue.closed = es.any Event.isClose
      ∧ ∀ name, Attended (watchers t.callers name) (t.signal name) := by
  refine follow?_induction (fun es t => Recorded n (log n es) t.queue
    ∧ t.queue.closed = es.any Event.isClose
    ∧ ∀ name, Attended (watchers t.callers name) (t.signal name)) ⟨?_, rfl, ?_⟩ ?_ es h
  · exact Recorded.ofCapacity n
  · exact fun name => ⟨rfl, fun _ => nofun, fun _ => List.Pairwise.nil⟩
  · intro es e t t' hes hall ht
    obtain ⟨hrecorded, hclosed, hattended⟩ := hall
    have hlog : log n (es ++ [e]) = log n es ++ t.deeds e := by
      rw [log, along_append _ _ hes, along_singleton _ ht]
      rfl
    refine ⟨hlog ▸ recorded_act? hrecorded ht, ?_, attended_act? hattended ht⟩
    rw [closed_act? hrecorded ht, hclosed, List.any_append, List.any_cons, List.any_nil, Bool.or_false]

/-- To settle is to answer some callers, each of whom leaves at once. -/
theorem follow?_settle (t : Traffic α) : ∃ es, follow? act? t es = some t.settle := by
  have hwithin : ∀ n (t : Traffic α), ∃ es, follow? act? t es = some (settleWithin n t) := by
    intro n
    induction n with
    | zero => exact fun t => ⟨[], rfl⟩
    | succ n ih =>
      intro t
      rcases hfirst : t.finishFirst? with _ | t₁
      · exact ⟨[], by simp [settleWithin, hfirst, follow?]⟩
      · obtain ⟨k, -, hk⟩ := List.exists_of_findSome?_eq_some hfirst
        obtain ⟨t₀, hdecide, hleave⟩ := Option.bind_eq_some_iff.mp hk
        obtain ⟨es, hes⟩ := ih t₁
        exact ⟨.decide k :: .leave k :: es,
          by simp [follow?, act?, hdecide, hleave, hes, settleWithin, hfirst]⟩
  exact hwithin _ t

/-- Whatever happens at a queue, the values that were received followed by those that it holds are the
accepted ones in order, and it never holds more than it has room for. The first close closes it and no
later one, no send is accepted afterwards, and a receiver is told so when everything accepted was
received. A receive that watches a cancelled signal is answered that and takes nothing. The listeners
of a signal are those of the receives that watch it and have not left. -/
theorem nothing_is_lost (n : ℕ) (es : List (Event α)) (t : Traffic α)
    (h : follow? act? (ofCapacity n) es = some t) :
    received (log n es) ++ t.queue.items = accepted (log n es)
      ∧ t.queue.items.length ≤ max n 1
      ∧ (log n es).countP Deed.isFirstClose = (if es.any Event.isClose then 1 else 0)
      ∧ (∀ before after a, log n es = before ++ .answered (.send a) (.sent true) :: after →
        .closed true ∉ before)
      ∧ (∀ before after c, log n es = before ++ .answered c (.received .closed) :: after →
        .closed true ∈ before ∧ received before = accepted before)
      ∧ (∀ k c name, t.callers[k]? = some c → c.answer = none → c.call = .receiveWatching name →
        (t.signal name).cancelled = true → t.decide? k = some { t with
          callers := t.callers.set k { c with answer := some (.received .cancelled) } })
      ∧ ∀ name, (t.signal name).listeners
        = if (t.signal name).cancelled then [] else watchers t.callers name := by
  obtain ⟨hrecorded, hclosed, hattended⟩ := recorded_follow? h
  refine ⟨hrecorded.order, hrecorded.bounded, hclosed ▸ hrecorded.closings, ?_, ?_, ?_,
    fun name => (hattended name).listeners⟩
  · intro before after a hlog
    exact (hrecorded.fair _ _ _ hlog).mp rfl
  · intro before after c hlog
    have hfair := hrecorded.fair _ _ _ hlog
    cases c <;> exact hfair
  · intro k c name hc hnone hcall hcancelled
    simp [decide?, hc, hnone, hcall, attempt?, receiveUnless?, hcancelled]

/-- A value is sent, and a receiver comes who is cancelled before it could be had. -/
theorem nothing_is_lost_cancelled :
    let es : List (Event ℕ) := [.start "p" (.send 7), .start "c" (.receiveWatching "x"), .decide 0,
      .cancel "x", .decide 1, .leave 1, .close]
    ∃ t, follow? act? (ofCapacity 0) es = some t ∧ (t.signal "x").listeners = []
      ∧ accepted (log 0 es) = [7] ∧ received (log 0 es) ++ t.queue.items = [7] := by
  intro es
  obtain ⟨t, ht⟩ := Option.isSome_iff_exists.mp
    (by decide +kernel : (follow? act? (ofCapacity 0) es).isSome = true)
  obtain ⟨horder, -, -, -, -, -, hlisteners⟩ := nothing_is_lost 0 es t ht
  have hcancelled : ((follow? act? (ofCapacity 0) es).map
      fun t => (t.signal "x").cancelled) = some true := by decide +kernel
  rw [ht] at hcancelled
  have hvalues : accepted (log 0 es) = [7] := by decide +kernel
  exact ⟨t, ht, by rw [hlisteners, if_pos (Option.some.inj hcancelled)], hvalues,
    horder.trans hvalues⟩

end Traffic

end Ingest.Queue

import Ingest.Proofs.Pipeline.Batch

/-!
# Every feed brings one result

A batch among all that can happen around it (`Batch.Event`): its workers step in any order, a
consumer receives, contexts are cancelled, the batch heeds its caller or is stopped, and others
record errors and change the world.

`publishes_each_feed_once` says that all this never keeps a worker waiting, and that in the end there
is one result for each feed. The results are closed once, after the last of them, so that a consumer
receives them all and then learns that there are no more.
-/

namespace Ingest.Pipeline

variable {σ : Type}

/-- Services without a limiter, whose client answers every request alike. -/
def Services.constant (outcome : Except Error Http.Response) (writers : List (Writer Unit)) :
    Services Unit :=
  { send := fun _ w => (outcome, [], w), writers := writers }

namespace Batch

/-- What can happen to a batch and around it. -/
inductive Event (σ : Type) where
  | work (k : ℕ)
  | heed
  | stop
  /-- A consumer receives from the results. -/
  | receive
  | cancel (context : String)
  /-- Somebody else records an error. -/
  | note (slot : ℕ) (e : Error)
  /-- Somebody else changes the world. -/
  | elsewhere (w : σ)

def Event.isWork : Event σ → Bool
  | work _ => true
  | _ => false

/-- A batch after an event. None if the event cannot happen now. -/
def act? (sv : Services σ) (t : Batch × Shared σ) : Event σ → Option (Batch × Shared σ)
  | .work k => t.1.step? sv k t.2
  | .heed => (t.1.heed? t.2).map fun b => (b, t.2)
  | .stop => some (t.1.stop t.2)
  | .receive => t.1.results.receive?.map fun p => ({ t.1 with results := p.2 }, t.2)
  | .cancel context => some (t.1, t.2.cancel context)
  | .note slot e => some (t.1, t.2.note slot e)
  | .elsewhere w => some (t.1, { t.2 with world := w })

/-- What the consumer receives. -/
def received (t : Batch × Shared σ) : Event σ → List Fetched
  | .receive =>
    match t.1.results.receive? with
    | some (.value f, _) => [f]
    | _ => []
  | _ => []

/-- What an attempt to close the results answers. -/
def closings (t : Batch × Shared σ) : Event σ → List Bool
  | .work k =>
    match t.1.workers[k]? with
    | some .closing => [t.1.results.close.1]
    | _ => []
  | _ => []

variable {sv : Services σ} {t t' : Batch × Shared σ} {e : Event σ}

theorem act?_moves (h : act? sv t e = some t') : t'.1 = t.1 ∨ Moves sv t.1 t'.1 := by
  cases e with
  | work k => exact .inr (.work h)
  | heed =>
    obtain ⟨b, hb, rfl⟩ := Option.map_eq_some_iff.mp h
    unfold heed? at hb
    split_ifs at hb
    exact Option.some.inj hb ▸ .inr .cancel
  | stop =>
    exact Option.some.inj h ▸ .inr .cancel
  | receive =>
    obtain ⟨⟨r, q⟩, hq, rfl⟩ := Option.map_eq_some_iff.mp h
    rcases Queue.receive?_cases hq with ⟨f, rest, hi, rfl, rfl⟩ | ⟨-, -, -, rfl⟩
    · exact .inr (.receive hi)
    · exact .inl rfl
  | cancel context => exact Option.some.inj h ▸ .inl rfl
  | note slot e => exact Option.some.inj h ▸ .inl rfl
  | elsewhere w => exact Option.some.inj h ▸ .inl rfl

/-- No event changes where the batch records, nor the registers that a record goes through. -/
theorem act?_path (h : act? sv t e = some t') :
    t'.2.registers.path t'.1.slot = t.2.registers.path t.1.slot := by
  cases e with
  | work k =>
    obtain ⟨w, w', c, -, hworks, hb, -⟩ := step?_cases h
    rw [hworks.path, hb]
    exact congrArg _ hworks.frame.2.2.2.1
  | heed =>
    obtain ⟨b, hb, rfl⟩ := Option.map_eq_some_iff.mp h
    unfold heed? at hb
    split_ifs at hb
    exact Option.some.inj hb ▸ rfl
  | stop => exact Option.some.inj h ▸ rfl
  | receive =>
    obtain ⟨⟨r, q⟩, -, rfl⟩ := Option.map_eq_some_iff.mp h
    rfl
  | cancel context => exact Option.some.inj h ▸ rfl
  | note slot e => exact Option.some.inj h ▸ Registers.path_note ..
  | elsewhere w => exact Option.some.inj h ▸ rfl

theorem Sound.act {feeds : List Feed} (h : Sound feeds t.1) (ht : act? sv t e = some t') :
    Sound feeds t'.1 := by
  rcases act?_moves ht with heq | hm
  · exact heq ▸ h
  · exact h.moves hm

/-- Only the workers make the load smaller, and nothing makes it larger. -/
theorem act?_load {n : ℕ} (h : act? sv t e = some t')
    (hn : (t.2.registers.path t.1.slot).length ≤ n) :
    t'.1.load n + (if e.isWork then 1 else 0) ≤ t.1.load n := by
  cases e with
  | work k => exact step?_load h hn
  | heed =>
    obtain ⟨b, hb, rfl⟩ := Option.map_eq_some_iff.mp h
    unfold heed? at hb
    split_ifs at hb
    exact Option.some.inj hb ▸ le_rfl
  | receive =>
    obtain ⟨⟨r, q⟩, -, rfl⟩ := Option.map_eq_some_iff.mp h
    exact le_rfl
  | _ => exact Option.some.inj h ▸ le_rfl

/-- What was received and what is buffered is what was published, in order. -/
theorem act?_received {fs : List Fetched} (h : act? sv t e = some t')
    (hfs : fs ++ t.1.results.items = t.1.published) :
    fs ++ received t e ++ t'.1.results.items = t'.1.published := by
  cases e with
  | work k =>
    obtain ⟨w, w', c, -, hworks, hb, -⟩ := step?_cases h
    obtain ⟨gs, hitems, hpub⟩ := hworks.published
    rw [hb]
    show fs ++ [] ++ c.results.items = c.published
    rw [hitems, hpub, ← hfs, List.append_nil, List.append_assoc]
  | heed =>
    obtain ⟨b, hb, rfl⟩ := Option.map_eq_some_iff.mp h
    unfold heed? at hb
    split_ifs at hb
    obtain rfl := Option.some.inj hb
    simpa [received] using hfs
  | receive =>
    obtain ⟨⟨r, q⟩, hq, rfl⟩ := Option.map_eq_some_iff.mp h
    rcases Queue.receive?_cases hq with ⟨f, rest, hi, rfl, rfl⟩ | ⟨hi, -, rfl, rfl⟩
    · simp only [received, hq]
      simpa [hi] using hfs
    · simp only [received, hq]
      simpa using hfs
  | _ =>
    obtain rfl := Option.some.inj h
    simpa [received, stop] using hfs

/-- The results are closed by one attempt, which finds them open. -/
theorem act?_closings {feeds : List Feed} (hsound : Sound feeds t.1) (h : act? sv t e = some t') :
    (if t.1.results.closed then [true] else []) ++ closings t e
      = if t'.1.results.closed then [true] else [] := by
  cases e with
  | work k =>
    obtain ⟨w, w', c, hw, hworks, hb, -⟩ := step?_cases h
    rw [hb]
    cases hclosing : w.isClosing with
    | false =>
      have hlook : closings t (.work k : Event σ) = [] := by
        simp only [closings, hw]
        cases w <;> simp_all
      rw [hlook, List.append_nil]
      show _ = if c.results.closed then [true] else []
      rw [hworks.closed, hclosing, Bool.false_or]
    | true =>
      obtain rfl : w = .closing := by cases w <;> simp_all
      have hopen := hsound.open_of_mem (List.mem_of_getElem? hw) rfl
      have hclosed : c.results.closed = true := hworks.closed
      simp [closings, hw, hopen, hclosed, Queue.close]
  | heed =>
    obtain ⟨b, hb, rfl⟩ := Option.map_eq_some_iff.mp h
    unfold heed? at hb
    split_ifs at hb
    obtain rfl := Option.some.inj hb
    simp [closings]
  | receive =>
    obtain ⟨⟨r, q⟩, hq, rfl⟩ := Option.map_eq_some_iff.mp h
    rcases Queue.receive?_cases hq with ⟨f, rest, hi, rfl, rfl⟩ | ⟨hi, -, rfl, rfl⟩ <;>
      simp [closings]
  | _ =>
    obtain rfl := Option.some.inj h
    exact List.append_nil _

theorem sound_of_follow? {feeds : List Feed} {es : List (Event σ)} (h₀ : Sound feeds t.1)
    (h : follow? (act? sv) t es = some t') : Sound feeds t'.1 :=
  follow?_invariant (P := fun t => Sound feeds t.1) (fun _ _ _ _ hs ht => hs.act ht) h₀ h

section Follow

variable {caller : String} {feeds : List Feed} {workers slot : ℕ} {s₀ : Shared σ}
  {es : List (Event σ)}

theorem received_of_follow? (h : follow? (act? sv) (start caller feeds workers slot s₀) es = some t) :
    along (act? sv) received (start caller feeds workers slot s₀) es ++ t.1.results.items
      = t.1.published := by
  refine follow?_induction (fun es t => along (act? sv) received
    (start caller feeds workers slot s₀) es ++ t.1.results.items = t.1.published) rfl ?_ es h
  intro es e t t' ht hP hs
  rw [along_append received [e] ht, along_singleton received hs]
  exact act?_received hs hP

theorem closings_of_follow? (h : follow? (act? sv) (start caller feeds workers slot s₀) es = some t) :
    along (act? sv) closings (start caller feeds workers slot s₀) es
      = if t.1.results.closed then [true] else [] := by
  refine follow?_induction (fun es t => along (act? sv) closings
    (start caller feeds workers slot s₀) es = if t.1.results.closed then [true] else [])
    rfl ?_ es h
  intro es e t t' ht hP hs
  rw [along_append closings [e] ht, along_singleton closings hs, hP]
  exact act?_closings (sound_of_follow? (sound_start _ _ _ _ _) ht) hs

/-- The workers make a bounded number of steps. -/
theorem countP_isWork_le (h : follow? (act? sv) (start caller feeds workers slot s₀) es = some t) :
    es.countP Event.isWork ≤ 3 * workerCount workers feeds.length
      + feeds.length * ((s₀.registers.path slot).length + 8) := by
  have hmoves : es.countP Event.isWork + t.1.load (s₀.registers.path slot).length
      ≤ (start caller feeds workers slot s₀).1.load (s₀.registers.path slot).length := by
    refine countP_add_load_le (fun t => t.1.load (s₀.registers.path slot).length)
      (P := fun t => t.2.registers.path t.1.slot = s₀.registers.path slot) ?_ rfl h
    intro e _ t t' hP hs
    exact ⟨(act?_path hs).trans hP, act?_load hs (by rw [hP])⟩
  rw [load_start] at hmoves
  omega

end Follow

/-- Whatever the limiter and the client answer and in whatever order things happen to a batch of `n`
feeds: no worker ever waits, every publication is accepted, and the workers make a bounded number of
steps. Once they are gone there is one result for each feed, with either a response or an error. The
results are closed by then and not before, by one attempt. So a consumer receives, in order, what was
published; it waits only while workers are there, and learns that there are no more results exactly
when it has received `n`. -/
theorem publishes_each_feed_once (sv : Services σ) (caller : String) (feeds : List Feed)
    (workers slot : ℕ) (s₀ : Shared σ) (es : List (Event σ)) {b : Batch} {s : Shared σ}
    (h : follow? (act? sv) (start caller feeds workers slot s₀) es = some (b, s)) :
    (∀ k w, b.workers[k]? = some w → w.isGone = false → (b.step? sv k s).isSome)
      ∧ (∀ f, .publishing f ∈ b.workers → ∃ q, b.results.send? f = some (true, q))
      ∧ es.countP Event.isWork ≤ 3 * workerCount workers feeds.length
        + feeds.length * ((s₀.registers.path slot).length + 8)
      ∧ b.published.length ≤ feeds.length
      ∧ (b.isOver = true → (b.published.map Fetched.address).Perm (feeds.map addressOf))
      ∧ (∀ f ∈ b.published, f.response?.isSome ≠ f.error?.isSome)
      ∧ b.results.closed = b.isOver
      ∧ along (act? sv) closings (start caller feeds workers slot s₀) es
        = (if b.isOver then [true] else [])
      ∧ along (act? sv) received (start caller feeds workers slot s₀) es ++ b.results.items
        = b.published
      ∧ (b.results.receive? = none → b.isOver = false)
      ∧ ((∃ q, b.results.receive? = some (.closed, q)) ↔ b.isOver = true
        ∧ (along (act? sv) received (start caller feeds workers slot s₀) es).length
          = feeds.length) := by
  have hsound : Sound feeds b := sound_of_follow? (sound_start _ _ _ _ _) h
  have hclosed : b.results.closed = b.isOver :=
    Bool.eq_iff_iff.mpr hsound.isOver_iff_closed.symm
  have hlen := hsound.length_eq
  have hreceived : along (act? sv) received (start caller feeds workers slot s₀) es
      ++ b.results.items = b.published := received_of_follow? h
  have hclosings := closings_of_follow? h
  refine ⟨fun k w hw hgone => hsound.step?_isSome sv s hw hgone, ?_, countP_isWork_le h, by omega,
    hsound.published_perm, ?_, hclosed, hclosed ▸ hclosings, hreceived, ?_, ?_⟩
  · intro f hf
    exact ⟨_, Queue.send?_of_room (hsound.open_of_mem hf rfl) (hsound.room_of_publishing hf)⟩
  · intro f _
    obtain ⟨_, _, o⟩ := f
    cases o <;> simp [Fetched.response?, Fetched.error?]
  · intro hnone
    rw [← hclosed]
    exact (Queue.receive?_eq_none_iff.mp hnone).2
  · constructor
    · rintro ⟨q, hq⟩
      rcases Queue.receive?_cases hq with ⟨_, _, _, hr, _⟩ | ⟨hi, hc, -, -⟩
      · cases hr
      rw [hclosed] at hc
      refine ⟨hc, ?_⟩
      rw [hi, List.append_nil] at hreceived
      rw [hreceived]
      simpa using (hsound.published_perm hc).length_eq
    · rintro ⟨hover, hall⟩
      have hpub := (hsound.published_perm hover).length_eq
      simp only [List.length_map] at hpub
      have hi : b.results.items = [] := by
        have := congrArg List.length hreceived
        rw [List.length_append] at this
        exact List.length_eq_zero_iff.mp (by omega)
      exact ⟨b.results, by simp [Queue.receive?, hi, hclosed, hover]⟩

/-- Two workers: the batch is stopped when one job has passed the check of the context, and the other
job is given up. -/
theorem publishes_each_feed_once_stopped :
    ∃ b s, follow? (act? (.constant (.ok ⟨200, "a", [], []⟩) []))
        (start "ctx" [⟨{ url := "a" }, "", "t"⟩, ⟨{ url := "b" }, "d", "t"⟩] 2 0 { world := () })
        [.work 0, .work 0, .work 1, .stop, .work 0, .work 0, .work 0, .work 0, .work 0, .work 1,
          .work 1, .work 1, .work 1, .work 1, .work 1, .receive, .receive] = some (b, s)
      ∧ (b.published.map Fetched.address).Perm [("a", ⟨"", "t"⟩), ("b", ⟨"d", "t"⟩)] := by
  have hrun : ∃ b s, follow? (act? (.constant (.ok ⟨200, "a", [], []⟩) []))
      (start "ctx" [⟨{ url := "a" }, "", "t"⟩, ⟨{ url := "b" }, "d", "t"⟩] 2 0 { world := () })
      [.work 0, .work 0, .work 1, .stop, .work 0, .work 0, .work 0, .work 0, .work 0, .work 1,
        .work 1, .work 1, .work 1, .work 1, .work 1, .receive, .receive] = some (b, s)
      ∧ b.isOver = true := ⟨_, _, rfl, rfl⟩
  obtain ⟨b, s, h, hover⟩ := hrun
  exact ⟨b, s, h, (publishes_each_feed_once _ _ _ _ _ _ _ h).2.2.2.2.1 hover⟩

end Batch

end Ingest.Pipeline

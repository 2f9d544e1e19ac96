import Ingest.Proofs.Pipeline.Fetching
import Ingest.Proofs.Pipeline.Iterating

/-!
# No failure is silent, unless it looks like a cancellation

A failed result is recorded once in every register of its batch, unless it was excused, and excused
are exactly the failures whose code is `cancelled` while the caller is not cancelled
(`failures_are_recorded_unless_excused`). For a batch that was stopped these are the requests it gave
up. But a client may report that code as well, and then nobody learns of the failure, not even by a
cursor that ends exhausted (`cancelled_by_client_is_silent`).
-/

namespace Ingest.Pipeline

variable {σ : Type}

namespace Batch

/-- What others note in an event. -/
def Event.notes : Event σ → List (ℕ × Error)
  | note slot e => [(slot, e)]
  | _ => []

def Event.isStop : Event σ → Bool
  | stop => true
  | _ => false

variable {sv : Services σ}

theorem act?_turn {t t' : Batch × Shared σ} {e : Event σ} (h : act? sv t e = some t')
    (feeds : List Feed) (workers slot : ℕ) :
    Turn sv feeds workers slot e.isStop e.notes (some t.1) t.2 (some t'.1) t'.2 := by
  cases e with
  | work k => exact .work h
  | heed =>
    obtain ⟨b, hb, rfl⟩ := Option.map_eq_some_iff.mp h
    unfold heed? at hb
    split_ifs at hb with hc
    obtain rfl := Option.some.inj hb
    simp only [Bool.and_eq_true] at hc
    exact .quiet ⟨rfl, rfl, rfl, rfl, rfl, id⟩ rfl (fun _ => .inr hc.2)
  | stop =>
    obtain rfl := Option.some.inj h
    exact .stop ⟨rfl, rfl, rfl, rfl, rfl, by simp [Batch.stop]⟩ rfl
  | receive =>
    obtain ⟨⟨r, q⟩, -, rfl⟩ := Option.map_eq_some_iff.mp h
    exact .quiet ⟨rfl, rfl, rfl, rfl, rfl, id⟩ rfl .inl
  | cancel context =>
    obtain rfl := Option.some.inj h
    refine .quiet ⟨rfl, rfl, rfl, rfl, rfl, fun hc => ?_⟩ rfl .inl
    rw [Shared.isCancelled_cancel, hc, Bool.or_true]
  | note slot e =>
    obtain rfl := Option.some.inj h
    exact .note
  | elsewhere w =>
    obtain rfl := Option.some.inj h
    exact .quiet ⟨rfl, rfl, rfl, rfl, rfl, id⟩ rfl .inl

/-- The books of a batch after a history. -/
theorem books_of_follow? {feeds : List Feed} {base : ℕ → List Error} {b b' : Batch}
    {s s' : Shared σ} {es : List (Event σ)} (hsound : Sound feeds b)
    (h : Books base b.slot (some b) s) (hes : follow? (act? sv) (b, s) es = some (b', s')) :
    Books (fun i => base i ++ notesIn i (es.flatMap Event.notes)) b.slot (some b') s' := by
  refine follow?_induction (fun es t => Books (fun i => base i ++ notesIn i
    (es.flatMap Event.notes)) b.slot (some t.1) t.2) (by simpa using h) ?_ es hes
  intro es e t t' ht hbooks hs
  have := hbooks.turn (by rintro _ ⟨⟩; exact sound_of_follow? hsound ht) (act?_turn hs feeds 0 _)
  simpa [notesIn_append] using this

/-- Once the caller is cancelled no more failures are excused. -/
theorem excused_of_follow? {b b' : Batch} {s s' : Shared σ} {es : List (Event σ)}
    (hcaller : s.isCancelled b.caller = true)
    (hes : follow? (act? sv) (b, s) es = some (b', s')) : b'.excused = b.excused := by
  refine (follow?_invariant (P := fun t => t.1.caller = b.caller ∧
    t.2.isCancelled b.caller = true ∧ t.1.excused = b.excused) ?_ ⟨rfl, hcaller, rfl⟩ hes).2.2
  rintro e - t t' ⟨hb, hc, hx⟩ ht
  obtain ⟨b', heq, hcall, -, hexcused, -⟩ := (act?_turn ht [] 0 0).frame
  obtain rfl := Option.some.inj heq
  rw [hb] at hexcused hcall
  exact ⟨hcall, (hexcused hc).1, (hexcused hc).2.trans hx⟩

theorem caller_of_follow? {b b' : Batch} {s s' : Shared σ} {es : List (Event σ)}
    (hes : follow? (act? sv) (b, s) es = some (b', s')) : b'.caller = b.caller := by
  refine follow?_invariant (P := fun t => t.1.caller = b.caller) ?_ rfl hes
  intro e _ t t' hb ht
  obtain ⟨b', heq, hcall, -⟩ := (act?_turn ht [] 0 0).frame
  obtain rfl := Option.some.inj heq
  exact hcall.trans hb

theorem unstopped_of_follow? {b b' : Batch} {s s' : Shared σ} {es : List (Event σ)}
    (hcandid : sv.Candid) (h : Unstopped b s) (hstop : ∀ e ∈ es, e.isStop = false)
    (hes : follow? (act? sv) (b, s) es = some (b', s')) : Unstopped b' s' := by
  refine follow?_invariant (P := fun t => Unstopped t.1 t.2) ?_ h hes
  intro e he t t' hP ht
  have hturn := act?_turn ht [] 0 0
  rw [hstop e he] at hturn
  exact Unstopped.turn hcandid (by rintro _ ⟨⟩; exact hP) hturn t'.1 rfl

end Batch

namespace Cursor

variable {sv : Services σ} {t t' : Cursor × Shared σ} {e : Event σ}

/-- A cursor becomes exhausted when it learns that there are no more results and finds its register
empty. -/
theorem act?_exhausted (h : act? sv t e = some t') (hx : t'.1.state = .exhausted) :
    t.1.state = .exhausted
      ∨ (t'.1.batch = t.1.batch ∧ t.2.registers.error? t.1.slot = none) := by
  cases e with
  | advance context =>
    simp only [act?] at h
    split_ifs at h
    obtain rfl := Option.some.inj h
    rcases t.1.advance_cases context t.2 with ⟨-, heq⟩ | ⟨-, -, heq⟩ | ⟨-, -, -, heq⟩ |
      ⟨-, -, heq⟩ <;>
      simp only [heq] at hx
    · exact .inl hx
    · cases hx
    · exact .inl hx
    · exact .inl hx
  | close =>
    simp only [act?] at h
    split_ifs at h
    obtain rfl := Option.some.inj h
    rcases t.1.close_cases t.2 with ⟨-, heq⟩ | ⟨-, heq⟩ | ⟨b, -, heq⟩ <;>
      simp only [heq] at hx <;> exact .inl hx
  | call =>
    obtain ⟨c', s'⟩ := t'
    cases calls_of_step? h with
    | start hp => cases hx
    | @conclude _ _ r hp =>
      unfold conclude at hx ⊢
      split_ifs at hx ⊢ with hclosed
      · exact .inl hx
      cases r with
      | value f => exact .inl hx
      | cancelled => cases hx
      | closed =>
        cases he : t.2.registers.error? t.1.slot with
        | some e => simp [he] at hx
        | none => exact .inr ⟨rfl, rfl⟩
    | _ => exact .inl hx
  | work k =>
    obtain ⟨c', s'⟩ := t'
    obtain ⟨b, b', -, -, rfl⟩ := stepWorker?_cases h
    exact .inl hx
  | heed =>
    obtain ⟨c', hc, rfl⟩ := Option.map_eq_some_iff.mp h
    obtain ⟨b, -, -, rfl⟩ := heed?_cases hc
    exact .inl hx
  | _ =>
    obtain rfl := Option.some.inj h
    exact .inl hx

/-- What holds of a cursor over feeds that records in a register: the books of its batch, and once
the cursor is exhausted, that every failure was excused. -/
structure Reports (feeds : List Feed) (base : ℕ → List Error) (slot : ℕ) (c : Cursor)
    (s : Shared σ) : Prop where
  sound : c.Sound
  origin : c.feeds = feeds ∧ c.slot = slot
  path : slot ∈ s.registers.path slot
  books : Batch.Books base slot c.batch s
  exhausted : c.state = .exhausted → ∀ b, c.batch = some b →
    (b.published.flatMap Fetched.errors).Perm b.excused

variable {feeds : List Feed} {base : ℕ → List Error} {slot : ℕ}

theorem reports_ofFeeds {s : Shared σ} (hv : s.registers.Valid) (feeds : List Feed) (workers : ℕ)
    (above : Option ℕ) : Reports feeds s.registers.noted s.registers.length
      (ofFeeds feeds workers above s).1 (ofFeeds feeds workers above s).2 := by
  refine ⟨.ofFeeds _ _ _ _, ⟨rfl, rfl⟩, ?_, ⟨hv.openSlot above, ?_, ?_, ?_⟩, ?_⟩
  · exact (hv.openSlot above).mem_path (by simp)
  · intro _ i _
    rw [show (ofFeeds feeds workers above s).2.registers = s.registers.openSlot above from rfl,
      Registers.noted_openSlot]
  all_goals simp [ofFeeds]

theorem Reports.act (h : Reports feeds base slot t.1 t.2) (ht : act? sv t e = some t') :
    Reports feeds (fun i => base i ++ notesIn i e.notes) slot t'.1 t'.2 := by
  have hsound := h.sound.act ht
  obtain ⟨hkin, stops, -, hturn⟩ := act?_turn h.sound ht
  obtain ⟨hfeeds, hslot⟩ := h.origin
  have hbooks := h.books.turn h.sound.batch (hslot ▸ hturn)
  refine ⟨hsound, ⟨hkin.feeds.trans hfeeds, hkin.slot.trans hslot⟩, ?_, hbooks, ?_⟩
  · rw [hturn.path]
    exact h.path
  · intro hx b' hb'
    rcases act?_exhausted ht hx with hold | ⟨hsame, hnone⟩
    · have hdrained := h.sound.state
      rw [hold] at hdrained
      obtain ⟨b, hb, hover, -⟩ := hdrained
      rw [hb] at hturn
      obtain ⟨b₁, hb₁, -, -, -, hframe⟩ := hturn.frame
      obtain rfl := Option.some.inj (hb'.symm.trans hb₁)
      rw [(hframe hover).2.1, (hframe hover).2.2]
      exact h.exhausted hold b hb
    · have hdrained := hsound.state
      rw [hx] at hdrained
      obtain ⟨b, hb, hover, -⟩ := hdrained
      obtain rfl := Option.some.inj (hb.symm.trans hb')
      obtain ⟨hbslot, hledger⟩ := h.books.ledger b (hsame ▸ hb)
      rw [hslot] at hnone
      exact hledger.perm_excused (h.books.excuses b (hsame ▸ hb)) hover (hbslot ▸ h.path)
        ((Registers.error?_eq_none h.books.valid).mp hnone)

theorem reports_of_follow? {c c' : Cursor} {s s' : Shared σ} {es : List (Event σ)}
    (h : Reports feeds base slot c s) (hes : follow? (act? sv) (c, s) es = some (c', s')) :
    Reports feeds (fun i => base i ++ notesIn i (es.flatMap Event.notes)) slot c' s' := by
  refine follow?_induction (fun es t => Reports feeds (fun i => base i ++ notesIn i
    (es.flatMap Event.notes)) slot t.1 t.2) (by simpa using h) ?_ es hes
  intro es e t t' _ hP ht
  simpa [notesIn_append] using hP.act ht

/-- The batch of a cursor that was never closed was never stopped. -/
theorem unstopped_of_follow? {c c' : Cursor} {s s' : Shared σ} {es : List (Event σ)}
    (hcandid : sv.Candid) (hsound : c.Sound) (hnone : c.batch = none)
    (hclose : ∀ e ∈ es, e.isClose = false)
    (hes : follow? (act? sv) (c, s) es = some (c', s')) :
    ∀ b, c'.batch = some b → b.Unstopped s' := by
  refine (follow?_invariant (P := fun t => t.1.Sound ∧
    ∀ b, t.1.batch = some b → b.Unstopped t.2) ?_ ⟨hsound, by simp [hnone]⟩ hes).2
  rintro e he t t' ⟨hs, hb⟩ ht
  refine ⟨hs.act ht, ?_⟩
  obtain ⟨-, stops, hstops, hturn⟩ := act?_turn hs ht
  obtain rfl : stops = false := by
    by_contra h
    have := hstops (by simpa using h)
    rw [hclose e he] at this
    cases this
  exact Batch.Unstopped.turn hcandid hb hturn

end Cursor

/-- Whatever the limiter and the client answer and in whatever order things happen: each failed
result of a batch was recorded, as it is, once in the batch's register and once in every register
above it, unless it was excused. Excused are failures with the code `cancelled` only, and of those
all until the caller is cancelled and none afterwards. So a batch that is stopped records nothing for
the requests that it gives up, and one that is not stopped excuses nothing, if neither the client nor
the limiter reports a cancellation of its own.

A cursor that is never closed and ends exhausted has delivered a result for every feed, and all of
its failures were excused. -/
theorem failures_are_recorded_unless_excused (sv : Services σ) (s₀ : Shared σ)
    (hvalid : s₀.registers.Valid) (feeds : List Feed) (workers : ℕ) :
    (∀ (caller : String) (slot : ℕ) (es : List (Batch.Event σ)) (b : Batch) (s : Shared σ),
      follow? (Batch.act? sv) (Batch.start caller feeds workers slot s₀) es = some (b, s) →
      (∀ i ∈ s₀.registers.path slot, (s.registers.noted i ++ b.excused).Perm
          (s₀.registers.noted i ++ notesIn i (es.flatMap Batch.Event.notes)
            ++ b.published.flatMap Fetched.errors ++ b.workers.flatMap (Fetcher.recordedIn i)))
        ∧ (∀ e ∈ b.excused, e.code = .cancelled)
        ∧ (s.isCancelled caller = false →
          b.excused.Perm (b.failures.filter fun e => e.code = .cancelled))
        ∧ (s.isCancelled caller = false → ∀ i ∈ s₀.registers.path slot, ∀ e : Error,
          e.code = .cancelled → (s.registers.noted i).count e
            ≤ (s₀.registers.noted i ++ notesIn i (es.flatMap Batch.Event.notes)).count e)
        ∧ (s.isCancelled caller = true → ∀ (es' : List (Batch.Event σ)) (b' : Batch)
          (s' : Shared σ), follow? (Batch.act? sv) (b, s) es' = some (b', s') →
          b'.excused = b.excused)
        ∧ (sv.Candid → (∀ e ∈ es, e.isStop = false) → b.excused = []))
      ∧ ∀ (above : Option ℕ) (es : List (Cursor.Event σ)) (c : Cursor) (s : Shared σ),
        follow? (Cursor.act? sv) (Cursor.ofFeeds feeds workers above s₀) es = some (c, s) →
        (∀ e ∈ es, e.isClose = false) → c.state = .exhausted → c.phase = .resting →
        ∃ b, c.batch = some b ∧ (c.delivered.map Fetched.address).Perm (feeds.map addressOf)
          ∧ (c.delivered.flatMap Fetched.errors).Perm b.excused
          ∧ (∀ e ∈ b.excused, e.code = .cancelled)
          ∧ (sv.Candid → ∀ f ∈ c.delivered, f.response?.isSome) := by
  constructor
  · intro caller slot es b s h
    have hsound := Batch.sound_start caller feeds workers slot s₀
    have hbooks := Batch.books_of_follow? hsound (Batch.Books.start hvalid caller feeds workers slot) h
    obtain ⟨hslot, hledger⟩ := hbooks.ledger b rfl
    have hexcuses := hbooks.excuses b rfl
    have hcaller : b.caller = caller := Batch.caller_of_follow? h
    have hpath : s.registers.path b.slot = s₀.registers.path slot := by
      refine follow?_invariant (P := fun t => t.2.registers.path t.1.slot
        = s₀.registers.path slot) ?_ rfl h
      exact fun _ _ _ _ hP ht => (Batch.act?_path ht).trans hP
    refine ⟨fun i hi => hledger.balance i (hpath ▸ hi), hexcuses.code, fun hc => ?_,
      fun hc i hi e => hledger.count_noted_le hexcuses (hcaller ▸ hc) (hpath ▸ hi),
      fun hc es' b' s' => Batch.excused_of_follow? (hcaller ▸ hc),
      fun hcandid hstop => ?_⟩
    · rw [List.perm_iff_count]
      intro e
      by_cases he : e.code = .cancelled
      · rw [List.count_filter (by simpa using he)]
        exact hexcuses.all (hcaller ▸ hc) e he
      · rw [List.count_eq_zero_of_not_mem fun h => he (hexcuses.code e h),
          List.count_eq_zero_of_not_mem fun h => he (by simpa using (List.mem_filter.mp h).2)]
    · exact (Batch.unstopped_of_follow? hcandid (Batch.Unstopped.start caller workers slot s₀) hstop
        h).excused
  · intro above es c s h hclose hx hrest
    have hreports := Cursor.reports_of_follow? (Cursor.reports_ofFeeds hvalid feeds workers above) h
    obtain ⟨b, hb, hover, hdelivered⟩ := hreports.sound.delivered_eq (.inl hx) (.inl hrest)
    have hperm := hreports.exhausted hx b hb
    have hbsound := hreports.sound.batch b hb
    rw [hreports.origin.1] at hbsound
    rw [← hdelivered] at hperm
    refine ⟨b, hb, hdelivered ▸ hbsound.published_perm hover, hperm,
      (hreports.books.excuses b hb).code, fun hcandid f hf => ?_⟩
    have hexcused := (Cursor.unstopped_of_follow? hcandid (.ofFeeds feeds workers above s₀) rfl
      hclose h b hb).excused
    rw [hexcused, List.perm_nil, List.flatMap_eq_nil_iff] at hperm
    have := hperm f hf
    unfold Fetched.errors Fetched.error? at this
    unfold Fetched.response?
    cases ho : f.outcome <;> simp_all

theorem Services.candid_constant {outcome : Except Error Http.Response} {writers : List (Writer Unit)}
    (h : ∀ e, outcome = .error e → e.code ≠ .cancelled) : (constant outcome writers).Candid := by
  refine ⟨fun {j w e lines w'} hs => ?_, fun {w e w'} ha => ?_⟩
  · simp only [constant, Prod.mk.injEq] at hs
    exact h e hs.1
  · simp [constant, Limiter.absent] at ha

/-- A batch below another register is stopped after the failure of its first request, and a cursor is
read to its end. -/
theorem failures_are_recorded_unless_excused_stopped :
    (∃ b s, follow? (Batch.act? (.constant (.error ⟨.requestFailed, "down"⟩) []))
          (Batch.start "ctx" [⟨{ url := "a" }, "", "t"⟩, ⟨{ url := "b" }, "", "t"⟩] 1 1
            { registers := [{ path := [0] }, { path := [0, 1] }], world := () })
          [.work 0, .work 0, .work 0, .work 0, .work 0, .work 0, .work 0, .work 0, .work 0, .stop,
            .work 0, .work 0, .work 0, .work 0, .work 0, .work 0, .work 0] = some (b, s)
      ∧ b.excused = [⟨.cancelled, "fetch b: context canceled"⟩]
      ∧ (s.registers.noted 0 ++ b.excused).Perm (b.published.flatMap Fetched.errors)
      ∧ (s.registers.noted 1 ++ b.excused).Perm (b.published.flatMap Fetched.errors))
      ∧ ∃ c s, follow? (Cursor.act? (.constant (.ok ⟨200, "a", [], []⟩) []))
          (Cursor.ofFeeds [⟨{ url := "a" }, "", "t"⟩] 1 none { world := () })
          [.advance "ctx", .call, .call, .work 0, .work 0, .work 0, .work 0, .work 0, .call, .call,
            .advance "ctx", .call, .work 0, .work 0, .work 0, .call, .call] = some (c, s)
      ∧ ∀ f ∈ c.delivered, f.response?.isSome := by
  have hbatch : ∃ b s, follow? (Batch.act? (.constant (.error ⟨.requestFailed, "down"⟩) []))
        (Batch.start "ctx" [⟨{ url := "a" }, "", "t"⟩, ⟨{ url := "b" }, "", "t"⟩] 1 1
          { registers := [{ path := [0] }, { path := [0, 1] }], world := () })
        [.work 0, .work 0, .work 0, .work 0, .work 0, .work 0, .work 0, .work 0, .work 0, .stop,
          .work 0, .work 0, .work 0, .work 0, .work 0, .work 0, .work 0] = some (b, s)
      ∧ b.excused = [⟨.cancelled, "fetch b: context canceled"⟩]
      ∧ ∀ i, b.workers.flatMap (Fetcher.recordedIn i) = [] := ⟨_, _, rfl, rfl, fun _ => rfl⟩
  have hcursor : ∃ c s, follow? (Cursor.act? (.constant (.ok ⟨200, "a", [], []⟩) []))
        (Cursor.ofFeeds [⟨{ url := "a" }, "", "t"⟩] 1 none { world := () })
        [.advance "ctx", .call, .call, .work 0, .work 0, .work 0, .work 0, .work 0, .call, .call,
          .advance "ctx", .call, .work 0, .work 0, .work 0, .call, .call] = some (c, s)
      ∧ c.state = .exhausted ∧ c.phase = .resting := ⟨_, _, rfl, rfl, rfl⟩
  have hvalid : Registers.Valid [{ path := [0] }, { path := [0, 1] }] := by
    have := (Registers.valid_nil.openSlot none).openSlot (some 0)
    exact this
  constructor
  · obtain ⟨b, s, h, hexcused, hhand⟩ := hbatch
    have hbalance := ((failures_are_recorded_unless_excused _ _ hvalid _ _).1 _ _ _ _ _ h).1
    have h0 := hbalance 0 (by decide)
    have h1 := hbalance 1 (by decide)
    rw [hhand, List.append_nil] at h0 h1
    exact ⟨b, s, h, hexcused, h0, h1⟩
  · obtain ⟨c, s, h, hx, hrest⟩ := hcursor
    obtain ⟨b, -, -, -, -, hall⟩ := (failures_are_recorded_unless_excused _ _ Registers.valid_nil _ _).2
      _ _ _ _ h (by decide) hx hrest
    exact ⟨c, s, h, hall (Services.candid_constant (by simp))⟩

/-- A client that reports a cancellation of its own: its failures are recorded nowhere, and a cursor
that delivers nothing but failures ends exhausted. -/
theorem cancelled_by_client_is_silent :
    (∃ b s, follow? (Batch.act? (.constant (.error ⟨.cancelled, "x"⟩) []))
          (Batch.start "ctx" [⟨{ url := "a" }, "", "t"⟩] 1 0
            { registers := [{ path := [0] }], world := () })
          [.work 0, .work 0, .work 0, .work 0, .work 0, .work 0, .work 0, .work 0, .work 0]
        = some (b, s)
      ∧ b.isOver = true ∧ s.isCancelled "ctx" = false
      ∧ b.published.flatMap Fetched.errors = [⟨.cancelled, "fetch a: x"⟩]
      ∧ s.registers.noted 0 = [])
      ∧ ∃ c s, follow? (Cursor.act? (.constant (.error ⟨.cancelled, "x"⟩) []))
          (Cursor.ofFeeds [⟨{ url := "a" }, "", "t"⟩] 1 none { world := () })
          [.advance "ctx", .call, .call, .work 0, .work 0, .work 0, .work 0, .work 0, .work 0,
            .call, .call, .advance "ctx", .call, .work 0, .work 0, .work 0, .call, .call]
        = some (c, s)
      ∧ c.state = .exhausted
      ∧ c.delivered.flatMap Fetched.errors = [⟨.cancelled, "fetch a: x"⟩]
      ∧ s.registers.noted 0 = [] := by
  refine ⟨⟨_, _, rfl, rfl, rfl, rfl, rfl⟩, ⟨_, _, rfl, rfl, rfl, rfl⟩⟩

end Ingest.Pipeline

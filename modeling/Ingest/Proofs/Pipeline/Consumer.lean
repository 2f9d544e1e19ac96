import Ingest.Proofs.Pipeline.Iterating

/-!
# What the consumer of a cursor sees

The consumer calls for one result after the other. Beside the workers, cancellations and notes others
may call for the end as well, at any time while the consumer rests or waits for a result (`Happening`).
What was brought is then the beginning of what the batch has published, a value that a call has in hand
when the end is called for being lost (`Standing`). The answers are results at first and refusals from
then on, and with the first refusal the cursor stays as it is (`Told`).
-/

namespace Ingest.Pipeline.Cursor

variable {σ : Type}

/-- What can happen to a cursor while others may call for its end. -/
inductive Happening (σ : Type) where
  | event (e : Event σ)
  /-- Somebody else calls for the end. -/
  | shut
  /-- Who has called for the end stops the batch. -/
  | halt

/-- A call that starts the batch is not interrupted. -/
def isStarting (c : Cursor) : Bool :=
  match c.phase with
  | .starting _ => true
  | _ => false

/-- A cursor after something that happens. None if it cannot happen now. -/
def happen? (sv : Services σ) (t : Cursor × Shared σ) : Happening σ → Option (Cursor × Shared σ)
  | .event e => act? sv t e
  | .shut => if t.1.isStarting then none else some (t.1.shut, t.2)
  | .halt => if t.1.closed then t.1.halt? t.2 else none

/-- What a consumer reads off a cursor that has answered. -/
structure Reading where
  more : Bool
  current : Option Fetched
  state : State
  error : Option Error

def reading (c : Cursor) : Reading :=
  ⟨c.more, c.current, c.state, c.error⟩

/-- The answer that there is no more. -/
def refusal (c : Cursor) : Reading :=
  ⟨false, c.current, c.state, c.error⟩

/-- Whether a call for the next result is answered. -/
def answers (c c' : Cursor) : Happening σ → Bool
  | .event (.advance _) => c'.isResting
  | .event .call =>
    match c.phase with
    | .leaving .. => true
    | _ => false
  | _ => false

/-- What the consumer reads when something happens. -/
def readings (sv : Services σ) (t : Cursor × Shared σ) (h : Happening σ) : List Reading :=
  match happen? sv t h with
  | none => []
  | some t' => if answers t.1 t'.1 h then [t'.1.reading] else []

/-- The end was called for or reached. -/
def IsFinished (c : Cursor) : Prop :=
  c.closed = true ∨ c.state.isTerminal = true

/-- A cursor over feeds that records in the register `own`. -/
structure Standing (feeds : List Feed) (own : ℕ) (c : Cursor) : Prop where
  origin : c.feeds = feeds ∧ c.slot = own
  batch : ∀ b, c.batch = some b → b.Sound feeds
  /-- What was received after the end is lost. -/
  conserved : ∃ lost, c.delivered ++ lost ++ inHand c.phase ++ buffered c.batch = published c.batch
    ∧ (c.closed = false → lost = [])
  current : c.current = c.delivered.getLast?
  state : c.state.Fits c.batch
  phase : c.phase.Fits c.state c.batch
  starting : ∀ context, c.phase = .starting context → c.closed = false
  full : c.state = .exhausted ∨ c.state = .errored → c.delivered.length = feeds.length

variable {feeds : List Feed} {own : ℕ} {sv : Services σ} {c c' : Cursor} {s s' : Shared σ}

namespace Standing

theorem ofFeeds (feeds : List Feed) (workers : ℕ) (above : Option ℕ) (s : Shared σ) :
    Standing feeds s.registers.length (ofFeeds feeds workers above s).1 where
  origin := ⟨rfl, rfl⟩
  batch _ h := nomatch h
  conserved := ⟨[], rfl, fun _ => rfl⟩
  current := rfl
  state := rfl
  phase := trivial
  starting _ h := nomatch h
  full h := by rcases h with h | h <;> cases h

/-- What is delivered is the beginning of what the batch has published. -/
theorem delivered_prefix (h : Standing feeds own c) : c.delivered <+: published c.batch := by
  obtain ⟨lost, hcons, -⟩ := h.conserved
  rw [← hcons, List.append_assoc, List.append_assoc]
  exact List.prefix_append _ _

theorem length_published_le (h : Standing feeds own c) :
    (published c.batch).length ≤ feeds.length := by
  rcases hb : c.batch with _ | b
  · exact Nat.zero_le _
  · have := (h.batch b hb).length_eq
    show b.published.length ≤ _
    omega

/-- A call that finds the results closed has delivered all of them. -/
theorem length_of_drained (h : Standing feeds own c) (hopen : c.closed = false)
    (hhand : inHand c.phase = []) (hdrained : Drained c.batch) :
    c.delivered.length = feeds.length := by
  obtain ⟨b, hb, hover, hi⟩ := hdrained
  obtain ⟨lost, hcons, hlost⟩ := h.conserved
  rw [hlost hopen, hhand, hb] at hcons
  have hpublished : c.delivered = b.published := by simpa [hi] using hcons
  have := ((h.batch b hb).published_perm hover).length_eq
  simpa [hpublished] using this

theorem advance (h : Standing feeds own c) (hrest : c.phase = .resting) (context : String)
    (s : Shared σ) : Standing feeds own (c.advance context s) := by
  have hcons := h.conserved
  rw [hrest] at hcons
  rcases c.advance_cases context s with ⟨-, heq⟩ | ⟨-, -, heq⟩ | ⟨hs, hopen, -, heq⟩ |
    ⟨hs, -, heq⟩ <;> rw [heq]
  · exact { h with }
  · exact { h with state := trivial, phase := hrest ▸ trivial, full := by simp }
  · exact { h with conserved := hcons, phase := hs, starting := fun _ _ => hopen }
  · exact { h with conserved := hcons, phase := hs, starting := by simp }

theorem conclude (h : Standing feeds own c) {context : String} {listener : ℕ} {r : Received Fetched}
    (hp : c.phase = .leaving context listener r) (rs : Registers) :
    Standing feeds own (Cursor.conclude { c with phase := .resting } rs r) := by
  have hcons := h.conserved
  have hfits := h.phase
  rw [hp] at hcons hfits
  obtain ⟨lost, hcons, hlost⟩ := hcons
  by_cases hclosed : c.closed = true
  · unfold Cursor.conclude
    rw [if_pos hclosed]
    refine { h with conserved := ⟨lost ++ inHand c.phase, ?_, ?_⟩, phase := trivial, starting := by simp }
    · simpa [hp] using hcons
    · intro hopen
      rw [hopen] at hclosed
      cases hclosed
  have hopen : c.closed = false := by simpa using hclosed
  obtain rfl := hlost hopen
  rw [List.append_nil] at hcons
  cases r with
  | value f =>
    rw [conclude_value (c := { c with phase := .resting }) hopen]
    exact { h with
      conserved := ⟨[], by simpa using hcons, fun _ => rfl⟩
      current := by simp
      phase := trivial
      starting := by simp
      full := by simp [hfits.1] }
  | cancelled =>
    rw [conclude_cancelled (c := { c with phase := .resting }) hopen]
    exact { h with
      conserved := ⟨[], by simpa using hcons, fun _ => rfl⟩
      state := trivial
      phase := trivial
      starting := by simp
      full := by simp }
  | closed =>
    rw [conclude_closed (c := { c with phase := .resting }) hopen]
    have hdrained := hfits.2 rfl
    exact { h with
      conserved := ⟨[], by simpa using hcons, fun _ => rfl⟩
      state := by
        show State.Fits c.batch _
        split_ifs <;> exact hdrained
      phase := trivial
      starting := by simp
      full := fun _ => h.length_of_drained hopen (by simp [hp]) hdrained }

theorem of_batch (h : Standing feeds own c) {b b' : Batch} (hb : c.batch = some b)
    (hsound : b'.Sound feeds)
    (hover : b.isOver = true → b'.isOver = true ∧ b'.results.items = b.results.items)
    (hpub : ∃ fs, b'.results.items = b.results.items ++ fs ∧ b'.published = b.published ++ fs) :
    Standing feeds own { c with batch := some b' } := by
  obtain ⟨fs, hitems, hpublished⟩ := hpub
  obtain ⟨lost, hcons, hlost⟩ := h.conserved
  refine { h with batch := ?_, conserved := ⟨lost, ?_, hlost⟩, state := ?_, phase := ?_ }
  · rintro b₀ ⟨⟩
    exact hsound
  · rw [hb] at hcons
    simp only [buffered, published] at hcons ⊢
    rw [hitems, hpublished, ← hcons, ← List.append_assoc]
  · exact (hb ▸ h.state).mono hover
  · exact (hb ▸ h.phase).mono hover

theorem cancel (h : Standing feeds own c) {b : Batch} (hb : c.batch = some b) :
    Standing feeds own { c with batch := some { b with cancelled := true } } :=
  h.of_batch hb (h.batch b hb).cancel (fun ho => ⟨ho, rfl⟩) ⟨[], by simp⟩

theorem calls (h : Standing feeds own c) (hcalls : Calls c s c' s') : Standing feeds own c' := by
  have hcons := h.conserved
  have hfits := h.phase
  cases hcalls with
  | start hp =>
    rw [hp] at hcons hfits
    have hunstarted : c.state = .unstarted := hfits
    have hnone : c.batch = none := by simpa [hunstarted, State.Fits] using h.state
    obtain ⟨lost, hcons, hlost⟩ := hcons
    refine { h with
      batch := ?_
      conserved := ⟨lost, ?_, hlost⟩
      state := ⟨_, rfl⟩
      phase := rfl
      starting := by simp
      full := by simp }
    · rintro b ⟨⟩
      exact h.origin.1 ▸ Batch.sound_start _ _ _ _ _
    · rw [hnone] at hcons
      simpa [Batch.start, Queue.ofCapacity] using hcons
  | enter hp =>
    rw [hp] at hcons hfits
    exact { h with conserved := hcons, phase := hfits, starting := by simp }
  | cancelled hp hb hc =>
    rw [hp] at hcons hfits
    exact { h with conserved := hcons, phase := ⟨hfits, by simp⟩, starting := by simp }
  | @receive _ _ b f rest hp hb hi =>
    rw [hp, hb] at hcons
    rw [hp] at hfits
    have hrun : c.state = .running := hfits
    obtain ⟨lost, hcons, hlost⟩ := hcons
    refine { h with
      batch := ?_
      conserved := ⟨lost, by simpa [hi] using hcons, hlost⟩
      state := ?_
      phase := ⟨hrun, by simp⟩
      starting := by simp }
    · rintro b' ⟨⟩
      exact (h.batch b hb).receive hi
    · show State.Fits _ c.state
      rw [hrun]
      exact ⟨_, rfl⟩
  | @close _ _ b hp hb hi hc =>
    rw [hp] at hcons hfits
    have hover := (h.batch b hb).isOver_iff_closed.mpr hc
    exact { h with
      conserved := hcons
      phase := ⟨hfits, fun _ => ⟨b, hb, hover, hi⟩⟩
      starting := by simp }
  | conclude hp => exact h.conclude hp _
  | join hp =>
    rw [hp] at hcons
    exact { h with conserved := hcons, phase := trivial, starting := by simp }

theorem shut (h : Standing feeds own c) (hs : c.isStarting = false) :
    Standing feeds own c.shut := by
  obtain ⟨lost, hcons, -⟩ := h.conserved
  refine { h with conserved := ⟨lost, hcons, by simp [Cursor.shut]⟩, starting := fun context hp => ?_ }
  have hp : c.phase = .starting context := hp
  simp [isStarting, hp] at hs

theorem halt (h : Standing feeds own c) (hh : c.halt? s = some (c', s')) :
    Standing feeds own c' := by
  unfold halt? at hh
  rcases hb : c.batch with _ | b
  · simp [hb] at hh
  · simp only [hb, Option.some.injEq, Prod.mk.injEq] at hh
    exact hh.1 ▸ h.cancel hb

theorem close (h : Standing feeds own c) (hrest : c.phase = .resting) (s : Shared σ) :
    Standing feeds own (c.close s).1 := by
  rcases c.close_cases s with ⟨-, heq⟩ | ⟨-, heq⟩ | ⟨b, hb, heq⟩ <;> rw [heq]
  · exact h
  · exact h.shut (by simp [isStarting, hrest])
  · have hshut := (h.shut (by simp [isStarting, hrest])).cancel hb
    have hcons := hshut.conserved
    have hrest' : c.shut.phase = .resting := hrest
    simp only [hrest'] at hcons
    exact { hshut with conserved := hcons, phase := trivial, starting := by simp }

theorem act {e : Event σ} (h : Standing feeds own c) (ht : act? sv (c, s) e = some (c', s')) :
    Standing feeds own c' := by
  cases e with
  | advance context =>
    simp only [act?] at ht
    split_ifs at ht with hrest
    obtain ⟨rfl, -⟩ := Prod.mk.inj (Option.some.inj ht)
    exact h.advance (isResting_iff.mp hrest) _ _
  | close =>
    simp only [act?] at ht
    split_ifs at ht with hrest
    obtain rfl : (c.close s).1 = c' := congrArg Prod.fst (Option.some.inj ht)
    exact h.close (isResting_iff.mp hrest) _
  | call => exact h.calls (calls_of_step? ht)
  | work k =>
    obtain ⟨b, b', hb, hs, rfl⟩ := stepWorker?_cases ht
    refine h.of_batch hb ((h.batch b hb).step hs) (fun ho => ?_) ?_
    · rw [Batch.step?_of_isOver ho] at hs
      cases hs
    · obtain ⟨w, w', b₁, -, hworks, rfl, -⟩ := Batch.step?_cases hs
      exact hworks.published
  | heed =>
    obtain ⟨c₁, hc, heq⟩ := Option.map_eq_some_iff.mp ht
    obtain ⟨rfl, -⟩ := Prod.mk.inj heq
    obtain ⟨b, hb, -, rfl⟩ := heed?_cases hc
    exact h.cancel hb
  | _ => exact (Prod.mk.inj (Option.some.inj ht)).1 ▸ h

theorem happen {e : Happening σ} (h : Standing feeds own c)
    (ht : happen? sv (c, s) e = some (c', s')) : Standing feeds own c' := by
  cases e with
  | event e => exact h.act ht
  | shut =>
    simp only [happen?] at ht
    split_ifs at ht with hs
    obtain ⟨rfl, -⟩ := Prod.mk.inj (Option.some.inj ht)
    exact h.shut (by simpa using hs)
  | halt =>
    simp only [happen?] at ht
    split_ifs at ht
    exact h.halt ht

end Standing

/-! ### What is read -/

/-- What the consumer reads while a cursor becomes another. -/
inductive Sees (c c' : Cursor) : List Reading → Prop
  | nothing (hd : c'.delivered = c.delivered)
    (hstill : IsFinished c → IsFinished c' ∧ c'.refusal = c.refusal) : Sees c c' []
  | result {f : Fetched} {r : Reading} (hopen : ¬ IsFinished c) (hd : c'.delivered = c.delivered ++ [f])
    (hmore : r.more = true) (hcurrent : r.current = some f) : Sees c c' [r]
  | refusal (hd : c'.delivered = c.delivered) (hfinished : IsFinished c')
    (hstill : IsFinished c → c'.refusal = c.refusal) : Sees c c' [c'.refusal]

theorem advance_of_isFinished (h : IsFinished c) (context : String) (s : Shared σ) :
    c.advance context s = { c with more := false } := by
  rw [advance, if_pos (by simpa [IsFinished] using h)]

theorem not_isFinished (hopen : c.closed = false) (hstate : c.state.isTerminal = false) :
    ¬ IsFinished c := by
  simp [IsFinished, hopen, hstate]

theorem sees_advance (c : Cursor) (context : String) (s : Shared σ) (hrest : c.isResting = true) :
    Sees c (c.advance context s)
      (if (c.advance context s).isResting then [(c.advance context s).reading] else []) := by
  have hphase := isResting_iff.mp hrest
  by_cases hfinished : IsFinished c
  · have heq := advance_of_isFinished hfinished context s
    have hresting : (c.advance context s).isResting = true := by rw [heq]; exact hrest
    rw [if_pos hresting, heq]
    exact .refusal rfl hfinished fun _ => rfl
  rcases c.advance_cases context s with ⟨hend, -⟩ | ⟨hs, -, heq⟩ | ⟨-, -, -, heq⟩ | ⟨-, -, heq⟩
  · exact absurd hend hfinished
  · have hresting : (c.advance context s).isResting = true := by rw [heq]; exact hrest
    rw [if_pos hresting, heq]
    exact .refusal rfl (.inr rfl) fun hc => absurd hc hfinished
  · rw [heq]
    exact .nothing rfl fun hc => absurd hc hfinished
  · rw [heq]
    exact .nothing rfl fun hc => absurd hc hfinished

theorem sees_conclude (h : Standing feeds own c) {context : String} {listener : ℕ}
    {r : Received Fetched} (hp : c.phase = .leaving context listener r) (rs : Registers) :
    Sees c (Cursor.conclude { c with phase := .resting } rs r)
      [(Cursor.conclude { c with phase := .resting } rs r).reading] := by
  have hfits := h.phase
  rw [hp] at hfits
  by_cases hclosed : c.closed = true
  · unfold Cursor.conclude
    rw [if_pos hclosed]
    exact .refusal rfl (.inl hclosed) fun _ => rfl
  have hopen : c.closed = false := by simpa using hclosed
  have hnot : ¬ IsFinished c := not_isFinished hopen (by rw [hfits.1]; rfl)
  cases r with
  | value f =>
    rw [conclude_value (c := { c with phase := .resting }) hopen]
    exact .result hnot rfl rfl rfl
  | cancelled =>
    rw [conclude_cancelled (c := { c with phase := .resting }) hopen]
    exact .refusal rfl (.inr rfl) fun hc => absurd hc hnot
  | closed =>
    rw [conclude_closed (c := { c with phase := .resting }) hopen]
    refine .refusal rfl (.inr ?_) fun hc => absurd hc hnot
    show State.isTerminal (if _ then _ else _) = true
    split_ifs <;> rfl

theorem sees_calls (h : Standing feeds own c) (hcalls : Calls c s c' s') : Sees c c'
    (if answers c c' (.event (.call : Event σ)) then [c'.reading] else []) := by
  cases hcalls with
  | conclude hp =>
    rw [answers, hp, if_pos rfl]
    exact sees_conclude h hp _
  | start hp =>
    have hfits := h.phase
    rw [hp] at hfits
    have hnot : ¬ IsFinished c := not_isFinished (h.starting _ hp)
      (by rw [show c.state = .unstarted from hfits]; rfl)
    rw [answers, hp, if_neg Bool.false_ne_true]
    exact .nothing rfl fun hc => absurd hc hnot
  | _ hp =>
    rw [answers, hp, if_neg Bool.false_ne_true]
    exact .nothing rfl fun hc => ⟨hc, rfl⟩

/-- All but the consumer's call for the next result is without an answer and leaves to the consumer
what there is. -/
theorem frame_of_happen {e : Happening σ} (hcall : e ≠ .event .call)
    (hadvance : ∀ context, e ≠ .event (.advance context))
    (ht : happen? sv (c, s) e = some (c', s')) : answers c c' e = false
      ∧ c'.delivered = c.delivered ∧ c'.refusal = c.refusal ∧ (c.closed = true → c'.closed = true) := by
  cases e with
  | event e =>
    cases e with
    | advance context => exact absurd rfl (hadvance context)
    | call => exact absurd rfl hcall
    | close =>
      simp only [happen?, act?] at ht
      split_ifs at ht
      obtain rfl : (c.close s).1 = c' := congrArg Prod.fst (Option.some.inj ht)
      rcases c.close_cases s with ⟨-, heq⟩ | ⟨-, heq⟩ | ⟨b, -, heq⟩ <;> rw [heq]
      · exact ⟨rfl, rfl, rfl, id⟩
      · exact ⟨rfl, rfl, rfl, fun _ => rfl⟩
      · exact ⟨rfl, rfl, rfl, fun _ => rfl⟩
    | work k =>
      obtain ⟨b, b', -, -, rfl⟩ := stepWorker?_cases ht
      exact ⟨rfl, rfl, rfl, id⟩
    | heed =>
      obtain ⟨c₁, hc, heq⟩ := Option.map_eq_some_iff.mp ht
      obtain ⟨rfl, -⟩ := Prod.mk.inj heq
      obtain ⟨b, -, -, rfl⟩ := heed?_cases hc
      exact ⟨rfl, rfl, rfl, id⟩
    | _ =>
      obtain ⟨rfl, -⟩ := Prod.mk.inj (Option.some.inj ht)
      exact ⟨rfl, rfl, rfl, id⟩
  | shut =>
    simp only [happen?] at ht
    split_ifs at ht
    obtain ⟨rfl, -⟩ := Prod.mk.inj (Option.some.inj ht)
    exact ⟨rfl, rfl, rfl, fun _ => rfl⟩
  | halt =>
    simp only [happen?] at ht
    split_ifs at ht
    unfold halt? at ht
    rcases hb : c.batch with _ | b
    · simp [hb] at ht
    · simp only [hb, Option.some.injEq, Prod.mk.injEq] at ht
      obtain ⟨rfl, -⟩ := ht
      exact ⟨rfl, rfl, rfl, id⟩

theorem sees {e : Happening σ} (h : Standing feeds own c)
    (ht : happen? sv (c, s) e = some (c', s')) : Sees c c' (readings sv (c, s) e) := by
  rw [readings, ht]
  show Sees c c' (if answers c c' e then [c'.reading] else [])
  by_cases hcall : e = .event .call
  · subst hcall
    exact sees_calls h (calls_of_step? ht)
  by_cases hadvance : ∃ context, e = .event (.advance context)
  · obtain ⟨context, rfl⟩ := hadvance
    simp only [happen?, act?] at ht
    split_ifs at ht with hrest
    obtain ⟨rfl, -⟩ := Prod.mk.inj (Option.some.inj ht)
    exact sees_advance c context s hrest
  obtain ⟨hsilent, hd, hsame, hclosed⟩ := frame_of_happen hcall (not_exists.mp hadvance) ht
  have hstate : c'.state = c.state := congrArg Reading.state hsame
  rw [hsilent, if_neg Bool.false_ne_true]
  exact .nothing hd fun hc => ⟨hc.imp hclosed fun hend => hstate ▸ hend, hsame⟩

/-- What was read so far: the results that were delivered, and then refusals that leave everything as
it is. -/
structure Told (c : Cursor) (taken refused : List Reading) : Prop where
  more : ∀ r ∈ taken, r.more = true
  delivered : taken.map Reading.current = c.delivered.map some
  finished : refused ≠ [] → IsFinished c
  same : ∀ r ∈ refused, r = c.refusal

theorem told_start (h : c.delivered = []) : Told c [] [] where
  more := by simp
  delivered := by simp [h]
  finished hne := absurd rfl hne
  same := by simp

theorem Told.sees {taken refused rs : List Reading} (h : Told c taken refused) (hs : Sees c c' rs) :
    ∃ taken' refused', taken ++ refused ++ rs = taken' ++ refused' ∧ Told c' taken' refused' := by
  cases hs with
  | nothing hd hstill =>
    refine ⟨taken, refused, List.append_nil _, h.more, hd ▸ h.delivered,
      fun hne => (hstill (h.finished hne)).1, fun r hr => ?_⟩
    rw [(hstill (h.finished (List.ne_nil_of_mem hr))).2]
    exact h.same r hr
  | @result f r hopen hd hmore hcurrent =>
    obtain rfl : refused = [] := by_contra fun hne => hopen (h.finished hne)
    refine ⟨taken ++ [r], [], by simp, ?_, ?_, fun hne => absurd rfl hne, by simp⟩
    · simpa [or_imp, forall_and] using ⟨h.more, hmore⟩
    · simp [h.delivered, hd, hcurrent]
  | refusal hd hfinished hstill =>
    refine ⟨taken, refused ++ [c'.refusal], by simp, h.more, hd ▸ h.delivered,
      fun _ => hfinished, fun r hr => ?_⟩
    rcases List.mem_append.mp hr with hr | hr
    · rw [hstill (h.finished (List.ne_nil_of_mem hr))]
      exact h.same r hr
    · exact List.mem_singleton.mp hr

theorem told_of_follow? {t₀ t : Cursor × Shared σ} {es : List (Happening σ)}
    (h₀ : Standing feeds own t₀.1) (hnone : t₀.1.delivered = [])
    (h : follow? (happen? sv) t₀ es = some t) : Standing feeds own t.1
      ∧ ∃ taken refused, along (happen? sv) (readings sv) t₀ es = taken ++ refused
        ∧ Told t.1 taken refused := by
  refine follow?_induction (fun es t => Standing feeds own t.1 ∧ ∃ taken refused,
    along (happen? sv) (readings sv) t₀ es = taken ++ refused ∧ Told t.1 taken refused)
    ⟨h₀, [], [], rfl, told_start hnone⟩ ?_ es h
  intro es e t t' hes hall ht
  obtain ⟨hstanding, taken, refused, hlog, htold⟩ := hall
  obtain ⟨taken', refused', happend, htold'⟩ := htold.sees (sees hstanding ht)
  refine ⟨hstanding.happen ht, taken', refused', ?_, htold'⟩
  rw [along_append _ _ hes, along_singleton _ ht, hlog, happend]

/-- After the end nothing changes any more, and every answer is the same refusal. -/
theorem still_of_follow? {t t' : Cursor × Shared σ} {es : List (Happening σ)}
    (h : Standing feeds own t.1) (hfinished : IsFinished t.1)
    (hes : follow? (happen? sv) t es = some t') : t'.1.refusal = t.1.refusal
      ∧ ∀ r ∈ along (happen? sv) (readings sv) t es, r = t.1.refusal := by
  suffices hall : Standing feeds own t'.1 ∧ IsFinished t'.1 ∧ t'.1.refusal = t.1.refusal
      ∧ ∀ r ∈ along (happen? sv) (readings sv) t es, r = t.1.refusal from hall.2.2
  refine follow?_induction (fun es t' => Standing feeds own t'.1 ∧ IsFinished t'.1
    ∧ t'.1.refusal = t.1.refusal ∧ ∀ r ∈ along (happen? sv) (readings sv) t es, r = t.1.refusal)
    ⟨h, hfinished, rfl, by simp [along]⟩ ?_ es hes
  intro es e t₁ t₂ hes hall ht
  obtain ⟨hstanding, hfinished, hsame, hread⟩ := hall
  refine ⟨hstanding.happen ht, ?_⟩
  rw [along_append _ _ hes, along_singleton _ ht]
  cases hrs : readings sv t₁ e with
  | nil =>
    cases hrs ▸ sees hstanding ht with
    | nothing hd hstill =>
      exact ⟨(hstill hfinished).1, (hstill hfinished).2.trans hsame, by simpa using hread⟩
  | cons r rs =>
    cases hrs ▸ sees hstanding ht with
    | result hopen => exact absurd hfinished hopen
    | refusal hd hfinished' hstill =>
      have hlast := (hstill hfinished).trans hsame
      exact ⟨hfinished', hlast, by simpa [or_imp, forall_and, hlast] using hread⟩

theorem state_of_advance (c : Cursor) (context : String) (s : Shared σ) :
    (c.advance context s).state = c.state ∨ (c.advance context s).state = .cancelled := by
  rcases c.advance_cases context s with ⟨-, heq⟩ | ⟨-, -, heq⟩ | ⟨-, -, -, heq⟩ | ⟨-, -, heq⟩ <;>
    rw [heq]
  · exact .inl rfl
  · exact .inr rfl
  · exact .inl rfl
  · exact .inl rfl

/-- When a call finds the end, the cursor's own register decides what that is. -/
theorem ended_of_calls (h : Standing feeds own c) (hcalls : Calls c s c' s')
    (hbefore : c.state ≠ .exhausted ∧ c.state ≠ .errored)
    (hafter : c'.state = .exhausted ∨ c'.state = .errored) :
    c'.error = s.registers.error? own
      ∧ (c'.state = .errored ↔ (s.registers.error? own).isSome = true) := by
  have hsame : c'.state ≠ c.state := by
    rintro heq
    rcases hafter with hs | hs
    · exact hbefore.1 (heq ▸ hs)
    · exact hbefore.2 (heq ▸ hs)
  cases hcalls with
  | start hp => simp at hafter
  | @conclude _ _ r hp =>
    by_cases hclosed : c.closed = true
    · exact absurd (by simp [Cursor.conclude, hclosed]) hsame
    have hopen : c.closed = false := by simpa using hclosed
    cases r with
    | value f => exact absurd (by simp [Cursor.conclude, hopen]) hsame
    | cancelled => simp [Cursor.conclude, hopen] at hafter
    | closed =>
      rw [conclude_closed (c := { c with phase := .resting }) hopen, ← h.origin.2]
      refine ⟨rfl, ?_⟩
      cases s.registers.error? c.slot <;> simp
  | _ => exact absurd rfl hsame

theorem ended_of_happen {e : Happening σ} (h : Standing feeds own c)
    (ht : happen? sv (c, s) e = some (c', s')) (hbefore : c.state ≠ .exhausted ∧ c.state ≠ .errored)
    (hafter : c'.state = .exhausted ∨ c'.state = .errored) :
    c'.error = s.registers.error? own
      ∧ (c'.state = .errored ↔ (s.registers.error? own).isSome = true) := by
  by_cases hcall : e = .event .call
  · subst hcall
    exact ended_of_calls h (calls_of_step? ht) hbefore hafter
  have hother : c'.state = c.state ∨ c'.state = .cancelled := by
    by_cases hadvance : ∃ context, e = .event (.advance context)
    · obtain ⟨context, rfl⟩ := hadvance
      simp only [happen?, act?] at ht
      split_ifs at ht
      obtain ⟨rfl, -⟩ := Prod.mk.inj (Option.some.inj ht)
      exact state_of_advance c context s
    · obtain ⟨-, -, hsame, -⟩ := frame_of_happen hcall (not_exists.mp hadvance) ht
      exact .inl (congrArg Reading.state hsame)
  rcases hother with hs | hs <;> rw [hs] at hafter
  · exact absurd hafter (by simp [hbefore])
  · simp at hafter

end Ingest.Pipeline.Cursor

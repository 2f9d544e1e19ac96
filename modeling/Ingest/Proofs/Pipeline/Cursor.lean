import Ingest.Pipeline.Cursor
import Ingest.Proofs.Pipeline.Failures

/-!
# What a cursor keeps

What a cursor has delivered, what a call has in hand and what is buffered is, in order, what its
batch has published (`Sound.conserved`). Each state says how far the batch is (`State.Fits`): a
cursor that is exhausted or failed has delivered everything.
-/

namespace Ingest.Pipeline

variable {σ : Type}

namespace Cursor

/-- What a call has received but not answered yet. -/
@[simp] def inHand : Phase → List Fetched
  | .leaving _ _ (.value f) => [f]
  | _ => []

@[simp] def published : Option Batch → List Fetched
  | some b => b.published
  | none => []

/-- What the batch has published and nobody has received. -/
@[simp] def buffered : Option Batch → List Fetched
  | some b => b.results.items
  | none => []

/-- The batch is over, and everything was received. -/
def Drained (b? : Option Batch) : Prop :=
  ∃ b, b? = some b ∧ b.isOver = true ∧ b.results.items = []

def State.Fits (b? : Option Batch) : State → Prop
  | .unstarted => b? = none
  | .running => ∃ b, b? = some b
  | .exhausted | .errored => Drained b?
  | .cancelled => True

theorem State.isTerminal_iff {state : State} :
    state.isTerminal = true ↔ state ≠ .unstarted ∧ state ≠ .running := by
  cases state <;> simp [isTerminal]

theorem State.ended_of_isTerminal {state : State} (h : state.isTerminal = true)
    (hc : state ≠ .cancelled) : state = .exhausted ∨ state = .errored := by
  obtain ⟨hstarted, hrunning⟩ := isTerminal_iff.mp h
  cases state <;> first | contradiction | exact .inl rfl | exact .inr rfl

/-- What the phase of a call says about the state and the batch. -/
def Phase.Fits (state : State) (b? : Option Batch) : Phase → Prop
  | .resting | .joining => True
  | .starting _ => state = .unstarted
  | .entering _ | .waiting _ _ => state = .running
  | .leaving _ _ r => state = .running ∧ (r = .closed → Drained b?)

section Mono

variable {b b' : Batch} {state : State}
  (hover : b.isOver = true → b'.isOver = true ∧ b'.results.items = b.results.items)
include hover

theorem Drained.mono : Drained (some b) → Drained (some b') := by
  rintro ⟨_, ⟨⟩, ho, hi⟩
  exact ⟨_, rfl, (hover ho).1, (hover ho).2.trans hi⟩

/-- A batch that goes on, and stays as it is once it is over, leaves every state fitting. -/
theorem State.Fits.mono (h : state.Fits (some b)) : state.Fits (some b') := by
  cases state with
  | unstarted => cases h
  | running => exact ⟨_, rfl⟩
  | exhausted | errored => exact Drained.mono hover h
  | cancelled => trivial

theorem Phase.Fits.mono {phase : Phase} (h : phase.Fits state (some b)) :
    phase.Fits state (some b') := by
  cases phase with
  | leaving => exact ⟨h.1, fun hr => Drained.mono hover (h.2 hr)⟩
  | _ => exact h

end Mono

structure Sound (c : Cursor) : Prop where
  batch : ∀ b, c.batch = some b → b.Sound c.feeds
  conserved : c.delivered ++ inHand c.phase ++ buffered c.batch = published c.batch
  current : c.current = c.delivered.getLast?
  state : c.state.Fits c.batch
  phase : c.phase.Fits c.state c.batch
  /-- An end without an error is an exhausted cursor. -/
  error : c.state.isTerminal = true → (c.error = none ↔ c.state = .exhausted)
  /-- A call that has brought nothing was the last one. -/
  answered : c.phase = .resting → c.more = false → c.state = .running → c.closed = true
  joining : c.phase = .joining → c.closed = true
  /-- The end is not called for while another call is under way. -/
  calling : c.closed = true → c.phase = .resting ∨ c.phase = .joining
  /-- After the end no worker is left. -/
  stopped : c.closed = true → c.phase = .resting → ∀ b, c.batch = some b → b.isOver = true

/-- What the consumer's call can do in one step. -/
inductive Calls (c : Cursor) (s : Shared σ) : Cursor → Shared σ → Prop
  | start {context : String} (hp : c.phase = .starting context) :
    Calls c s { c with
        batch := some (Batch.start context c.feeds c.workers c.slot s).1
        state := .running
        phase := .entering context }
      (Batch.start context c.feeds c.workers c.slot s).2
  | enter {context : String} (hp : c.phase = .entering context) :
    Calls c s { c with phase := .waiting context (s.listen context .receiver).1 }
      (s.listen context .receiver).2
  | cancelled {context : String} {listener : ℕ} {b : Batch} (hp : c.phase = .waiting context listener)
    (hb : c.batch = some b) (hc : s.isCancelled context = true) :
    Calls c s { c with phase := .leaving context listener .cancelled } s
  | receive {context : String} {listener : ℕ} {b : Batch} {f : Fetched} {rest : List Fetched}
    (hp : c.phase = .waiting context listener) (hb : c.batch = some b)
    (hi : b.results.items = f :: rest) :
    Calls c s { c with
      batch := some { b with results := { b.results with items := rest } }
      phase := .leaving context listener (.value f) } s
  | close {context : String} {listener : ℕ} {b : Batch} (hp : c.phase = .waiting context listener)
    (hb : c.batch = some b) (hi : b.results.items = []) (hc : b.results.closed = true) :
    Calls c s { c with phase := .leaving context listener .closed } s
  | conclude {context : String} {listener : ℕ} {r : Received Fetched}
    (hp : c.phase = .leaving context listener r) :
    Calls c s ({ c with phase := .resting }.conclude s.registers r) (s.forget context listener)
  | join {b : Batch} (hp : c.phase = .joining) (hb : c.batch = some b) (ho : b.isOver = true) :
    Calls c s { c with phase := .resting } s

theorem calls_of_step? {c c' : Cursor} {s s' : Shared σ} (h : c.step? s = some (c', s')) :
    Calls c s c' s' := by
  unfold step? at h
  cases hp : c.phase with
  | resting => simp [hp] at h
  | starting context =>
    simp only [hp, Option.some.injEq, Prod.mk.injEq] at h
    obtain ⟨rfl, rfl⟩ := h
    exact .start hp
  | entering context =>
    simp only [hp, Option.some.injEq, Prod.mk.injEq] at h
    obtain ⟨rfl, rfl⟩ := h
    exact .enter hp
  | waiting context listener =>
    simp only [hp] at h
    rcases hb : c.batch with _ | b
    · simp [hb] at h
    rcases hr : b.results.receiveUnless? (s.isCancelled context) with _ | ⟨r, q⟩
    · simp [hb, hr] at h
    simp only [hb, hr, Option.some.injEq, Prod.mk.injEq] at h
    obtain ⟨rfl, rfl⟩ := h
    rcases Queue.receiveUnless?_cases hr with ⟨hc, rfl, rfl⟩ | ⟨-, hr⟩
    · rw [← hb]
      exact .cancelled hp hb hc
    rcases Queue.receive?_cases hr with ⟨f, rest, hi, rfl, rfl⟩ | ⟨hi, hc, rfl, rfl⟩
    · exact .receive hp hb hi
    · rw [← hb]
      exact .close hp hb hi hc
  | leaving context listener r =>
    simp only [hp, Option.some.injEq, Prod.mk.injEq] at h
    obtain ⟨rfl, rfl⟩ := h
    exact .conclude hp
  | joining =>
    simp only [hp] at h
    rcases hb : c.batch with _ | b
    · simp [hb] at h
    simp only [hb] at h
    split_ifs at h with ho
    simp only [Option.some.injEq, Prod.mk.injEq] at h
    obtain ⟨rfl, rfl⟩ := h
    rw [← hb]
    exact .join hp hb ho

/-- A first call for the end stops the batch, if there is one. -/
theorem close_cases (c : Cursor) (s : Shared σ) :
    (c.closed = true ∧ c.close s = (c, s))
      ∨ (c.batch = none ∧ c.close s = ({ c with closed := true }, s))
      ∨ ∃ b, c.batch = some b ∧ c.close s = ({ c with
          closed := true
          batch := some { b with cancelled := true }
          phase := .joining }, s.forget b.caller b.link) := by
  unfold Cursor.close
  split_ifs with hclosed
  · exact .inl ⟨hclosed, rfl⟩
  rcases hb : c.batch with _ | b
  · exact .inr (.inl ⟨rfl, by simp [shut, halt?, hb]⟩)
  · exact .inr (.inr ⟨b, rfl, by simp [shut, halt?, hb, Batch.stop]⟩)

/-- A call for the next result is answered at once, or begins. -/
theorem advance_cases (c : Cursor) (context : String) (s : Shared σ) :
    ((c.closed = true ∨ c.state.isTerminal = true)
        ∧ c.advance context s = { c with more := false })
      ∨ (c.state = .unstarted ∧ s.isCancelled context = true ∧ c.advance context s
        = { c with state := .cancelled, error := some .contextCancelled, more := false })
      ∨ (c.state = .unstarted ∧ c.closed = false ∧ s.isCancelled context = false
        ∧ c.advance context s = { c with phase := .starting context })
      ∨ (c.state = .running ∧ c.closed = false
        ∧ c.advance context s = { c with phase := .entering context }) := by
  unfold Cursor.advance
  split_ifs with hend hstate hc
  · exact .inl ⟨by simpa using hend, rfl⟩
  · exact .inr (.inl ⟨hstate, hc, rfl⟩)
  · simp only [Bool.or_eq_true, not_or, Bool.not_eq_true] at hend
    exact .inr (.inr (.inl ⟨hstate, hend.1, by simpa using hc, rfl⟩))
  · simp only [Bool.or_eq_true, not_or, Bool.not_eq_true] at hend
    refine .inr (.inr (.inr ⟨?_, hend.1, rfl⟩))
    by_contra hrunning
    rw [State.isTerminal_iff.mpr ⟨hstate, hrunning⟩] at hend
    cases hend.2

section Conclude

variable {c : Cursor} (h : c.closed = false) (rs : Registers)
include h

theorem conclude_value (f : Fetched) : c.conclude rs (.value f) = { c with
    current := some f, error := none, more := true, delivered := c.delivered ++ [f] } := by
  simp [conclude, h]

theorem conclude_cancelled : c.conclude rs .cancelled = { c with
    state := .cancelled, error := some .contextCancelled, more := false } := by
  simp [conclude, h]

/-- At the end of the results the cursor's own register decides. -/
theorem conclude_closed : c.conclude rs .closed = { c with
    state := if (rs.error? c.slot).isSome then .errored else .exhausted
    error := rs.error? c.slot
    more := false } := by
  unfold conclude
  rw [if_neg (by simp [h])]
  cases rs.error? c.slot <;> rfl

end Conclude

variable {sv : Services σ} {c c' : Cursor} {s s' : Shared σ}

theorem stepWorker?_cases {k : ℕ} (h : c.stepWorker? sv k s = some (c', s')) :
    ∃ b b', c.batch = some b ∧ b.step? sv k s = some (b', s')
      ∧ c' = { c with batch := some b' } := by
  unfold stepWorker? at h
  rcases hb : c.batch with _ | b
  · simp [hb] at h
  simp only [hb] at h
  obtain ⟨⟨b', s₁⟩, hs, heq⟩ := Option.map_eq_some_iff.mp h
  obtain ⟨rfl, rfl⟩ := Prod.mk.inj heq
  exact ⟨b, b', rfl, hs, rfl⟩

theorem heed?_cases (h : c.heed? s = some c') :
    ∃ b, c.batch = some b ∧ s.isCancelled b.caller = true
      ∧ c' = { c with batch := some { b with cancelled := true } } := by
  obtain ⟨b', hb', rfl⟩ := Option.map_eq_some_iff.mp h
  obtain ⟨b, hb, hheed⟩ := Option.bind_eq_some_iff.mp hb'
  unfold Batch.heed? at hheed
  split_ifs at hheed with hc
  obtain rfl := Option.some.inj hheed
  simp only [Bool.and_eq_true] at hc
  exact ⟨b, hb, hc.2, rfl⟩

namespace Sound

theorem ofFeeds (feeds : List Feed) (workers : ℕ) (above : Option ℕ) (s : Shared σ) :
    Sound (ofFeeds feeds workers above s).1 := by
  refine ⟨?_, rfl, rfl, rfl, trivial, ?_, ?_, ?_, ?_, ?_⟩ <;>
    simp [Cursor.ofFeeds, State.isTerminal]

theorem advance (h : c.Sound) (hrest : c.phase = .resting) (context : String) (s : Shared σ) :
    (c.advance context s).Sound := by
  have hcons := h.conserved
  rw [hrest] at hcons
  rcases c.advance_cases context s with ⟨hend, heq⟩ | ⟨hs, -, heq⟩ | ⟨hs, hc, -, heq⟩ |
    ⟨hs, hc, heq⟩ <;> rw [heq]
  · refine { h with error := h.error, answered := fun _ _ hrun => ?_ }
    simp only at hrun
    simpa [hrun, State.isTerminal] using hend
  · exact { h with
      state := trivial
      phase := hrest ▸ trivial
      error := by simp
      answered := by simp }
  · exact { h with
      conserved := hcons
      phase := hs
      answered := by simp
      joining := by simp
      calling := by simp [hc]
      stopped := by simp }
  · exact { h with
      conserved := hcons
      phase := hs
      answered := by simp
      joining := by simp
      calling := by simp [hc]
      stopped := by simp }

/-- There is no batch before a call has started one. -/
theorem batch_of_starting (h : c.Sound) {context : String} (hp : c.phase = .starting context) :
    c.batch = none := by
  have hstate : c.state = .unstarted := by simpa [hp, Phase.Fits] using h.phase
  simpa [hstate, State.Fits] using h.state

/-- A call that is under way was made before the end. -/
theorem open_of_phase (h : c.Sound) (hrest : c.phase ≠ .resting) (hjoin : c.phase ≠ .joining) :
    c.closed = false := by
  by_contra hc
  rcases h.calling (by simpa using hc) with hp | hp
  · exact hrest hp
  · exact hjoin hp

theorem conclude (h : c.Sound) {context : String} {listener : ℕ} {r : Received Fetched}
    (hp : c.phase = .leaving context listener r) (rs : Registers) :
    Sound (Cursor.conclude { c with phase := .resting } rs r) := by
  have hcons := h.conserved
  have hfits := h.phase
  rw [hp] at hcons hfits
  have hopen := h.open_of_phase (by simp [hp]) (by simp [hp])
  obtain ⟨hrun, hdrained⟩ := hfits
  cases r with
  | value f =>
    rw [conclude_value (c := { c with phase := .resting }) hopen]
    refine ⟨h.batch, ?_, by simp, h.state, trivial, ?_, by simp, by simp, by simp,
      by simp [hopen]⟩
    · simpa using hcons
    · simp [hrun, State.isTerminal]
  | cancelled =>
    rw [conclude_cancelled (c := { c with phase := .resting }) hopen]
    exact ⟨h.batch, hcons, h.current, trivial, trivial, by simp, by simp, by simp, by simp,
      by simp [hopen]⟩
  | closed =>
    rw [conclude_closed (c := { c with phase := .resting }) hopen]
    refine ⟨h.batch, hcons, h.current, ?_, trivial, ?_, ?_, by simp, by simp, by simp [hopen]⟩ <;>
      cases rs.error? c.slot
    · exact hdrained rfl
    · exact hdrained rfl
    all_goals simp

theorem calls (h : c.Sound) (hcalls : Calls c s c' s') : c'.Sound := by
  have hcons := h.conserved
  have hfits := h.phase
  cases hcalls with
  | start hp =>
    rw [hp] at hfits
    have hopen := h.open_of_phase (by simp [hp]) (by simp [hp])
    have hnone : c.batch = none := by
      have := h.state
      rwa [show c.state = .unstarted from hfits] at this
    refine ⟨?_, ?_, h.current, ⟨_, rfl⟩, rfl, by simp [State.isTerminal], by simp, by simp,
      by simp [hopen], by simp⟩
    · rintro b ⟨⟩
      exact Batch.sound_start _ _ _ _ _
    · rw [hp, hnone] at hcons
      simpa [Batch.start, Queue.ofCapacity] using hcons
  | enter hp =>
    rw [hp] at hcons hfits
    have hopen := h.open_of_phase (by simp [hp]) (by simp [hp])
    exact ⟨h.batch, hcons, h.current, h.state, hfits, h.error, by simp, by simp, by simp [hopen],
      by simp⟩
  | cancelled hp hb hc =>
    rw [hp] at hcons hfits
    have hopen := h.open_of_phase (by simp [hp]) (by simp [hp])
    exact ⟨h.batch, hcons, h.current, h.state, ⟨hfits, by simp⟩, h.error, by simp, by simp,
      by simp [hopen], by simp⟩
  | @receive _ _ b f rest hp hb hi =>
    rw [hp] at hfits
    have hopen := h.open_of_phase (by simp [hp]) (by simp [hp])
    have hrun : c.state = .running := hfits
    refine ⟨?_, ?_, h.current, ?_, ⟨hrun, by simp⟩, h.error, by simp, by simp, by simp [hopen],
      by simp⟩
    · rintro b' ⟨⟩
      exact (h.batch b hb).receive hi
    · rw [hp, hb] at hcons
      simpa [hi] using hcons
    · show State.Fits _ c.state
      rw [hrun]
      exact ⟨_, rfl⟩
  | @close _ _ b hp hb hi hc =>
    rw [hp] at hcons hfits
    have hopen := h.open_of_phase (by simp [hp]) (by simp [hp])
    refine ⟨h.batch, hcons, h.current, h.state, ⟨hfits, fun _ => ⟨b, hb, ?_, hi⟩⟩, h.error,
      by simp, by simp, by simp [hopen], by simp⟩
    exact (h.batch b hb).isOver_iff_closed.mpr hc
  | conclude hp => exact h.conclude hp _
  | join hp hb ho =>
    rw [hp] at hcons
    refine ⟨h.batch, hcons, h.current, h.state, trivial, h.error, fun _ _ _ => h.joining hp,
      by simp, by simp, fun _ _ b' hb' => ?_⟩
    obtain rfl := Option.some.inj (hb.symm.trans hb')
    exact ho

theorem of_batch (h : c.Sound) {b b' : Batch} (hb : c.batch = some b) (hsound : b'.Sound c.feeds)
    (hover : b.isOver = true → b'.isOver = true ∧ b'.results.items = b.results.items)
    (hpub : ∃ fs, b'.results.items = b.results.items ++ fs ∧ b'.published = b.published ++ fs) :
    Sound { c with batch := some b' } := by
  obtain ⟨fs, hitems, hpublished⟩ := hpub
  refine { h with batch := ?_, conserved := ?_, state := ?_, phase := ?_, stopped := ?_ }
  · rintro b₀ ⟨⟩
    exact hsound
  · have hcons := h.conserved
    rw [hb] at hcons
    simp only [buffered, published] at hcons ⊢
    rw [hitems, hpublished, ← hcons, ← List.append_assoc]
  · exact (hb ▸ h.state).mono hover
  · exact (hb ▸ h.phase).mono hover
  · rintro hc hrest b₀ ⟨⟩
    exact (hover (h.stopped hc hrest b hb)).1

theorem work (h : c.Sound) {k : ℕ} (hw : c.stepWorker? sv k s = some (c', s')) : c'.Sound := by
  obtain ⟨b, b', hb, hs, rfl⟩ := stepWorker?_cases hw
  refine h.of_batch hb ((h.batch b hb).step hs) (fun ho => ?_) ?_
  · rw [Batch.step?_of_isOver ho] at hs
    cases hs
  · obtain ⟨w, w', b₁, -, hworks, rfl, -⟩ := Batch.step?_cases hs
    exact hworks.published

/-- The batch is cancelled, by its caller or by the cursor. -/
theorem cancel (h : c.Sound) {b : Batch} (hb : c.batch = some b) :
    Sound { c with batch := some { b with cancelled := true } } :=
  h.of_batch hb (h.batch b hb).cancel (fun ho => ⟨ho, rfl⟩) ⟨[], by simp⟩

theorem heed (h : c.Sound) (hc : c.heed? s = some c') : c'.Sound := by
  obtain ⟨b, hb, -, rfl⟩ := heed?_cases hc
  exact h.cancel hb

theorem close (h : c.Sound) (hrest : c.phase = .resting) (s : Shared σ) :
    (c.close s).1.Sound := by
  rcases c.close_cases s with ⟨-, heq⟩ | ⟨hb, heq⟩ | ⟨b, hb, heq⟩ <;> rw [heq]
  · exact h
  · exact { h with
      answered := fun _ _ _ => rfl
      joining := fun _ => rfl
      calling := fun _ => .inl hrest
      stopped := by simp [hb] }
  · have hcancel := h.cancel hb
    have hcons := hcancel.conserved
    simp only [hrest] at hcons
    exact { hcancel with
      conserved := hcons
      phase := trivial
      answered := by simp
      joining := fun _ => rfl
      calling := fun _ => .inr rfl
      stopped := by simp }

theorem drained (h : c.Sound) (hend : c.state = .exhausted ∨ c.state = .errored) :
    Drained c.batch := by
  have hstate := h.state
  rcases hend with hs | hs <;> rwa [hs] at hstate

/-- A cursor at its end with no cancellation has delivered a result for every feed. -/
theorem delivered_eq (h : c.Sound) (hend : c.state = .exhausted ∨ c.state = .errored)
    (hrest : c.phase = .resting ∨ c.phase = .joining) :
    ∃ b, c.batch = some b ∧ b.isOver = true ∧ c.delivered = b.published := by
  obtain ⟨b, hb, hover, hi⟩ := h.drained hend
  have hcons := h.conserved
  rw [hb] at hcons
  simp only [buffered, hi, published] at hcons
  refine ⟨b, hb, hover, ?_⟩
  rcases hrest with hp | hp <;> simpa [hp] using hcons

end Sound

end Cursor

end Ingest.Pipeline

import Ingest.Proofs.Pipeline.Exchanges
import Ingest.Proofs.Pipeline.Fetching
import Ingest.Proofs.Pipeline.Run

/-!
# Runs that nobody disturbs

While the context of a run is not cancelled, the client reports no cancellation and the limiter admits
every request, the results that the loop has before it come from exchanges (`Batch.Backs`). The batch
is stopped only after its end, or after a response that cannot be decoded (`Run.Faithful`).
-/

namespace Ingest.Pipeline

variable {σ : Type}

namespace Batch

/-- Delivered results come from exchanges; with one worker, from the first ones, which were made for
the first jobs of the batch. -/
structure Backs (feeds : List Feed) (b : Batch) (delivered : List Fetched) : Prop where
  exchanged : ∀ f ∈ delivered, ∃ x ∈ b.exchanged, Exchange.fetched x = f
  inOrder : b.workers.length = 1 → ∃ xs ys, b.exchanged = xs ++ ys
    ∧ xs.map Exchange.fetched = delivered ∧ xs.map Prod.fst <+: jobsOf feeds

variable {feeds : List Feed} {b b' : Batch} {delivered : List Fetched}

theorem Answers.backs (h : Answers feeds b) (hd : delivered <+: b.published) :
    Backs feeds b delivered := by
  obtain ⟨rest, hrest⟩ := hd
  constructor
  · intro f hf
    have hmem : f ∈ b.exchanged.map Exchange.fetched := by
      rw [h.answered.mem_iff, ← hrest]
      simp [hf]
    exact List.mem_map.mp hmem
  · intro hlen
    obtain ⟨w, hw⟩ := List.length_eq_one_iff.mp hlen
    obtain ⟨horder, hjobs⟩ := h.inOrder w hw
    rw [← hrest, List.append_assoc] at horder
    obtain ⟨xs, ys, hx, hxs, -⟩ := List.map_eq_append_iff.mp horder
    refine ⟨xs, ys, hx, hxs, ?_⟩
    rw [hx, List.map_append, List.append_assoc] at hjobs
    exact ⟨_, hjobs⟩

theorem Backs.mono (h : Backs feeds b delivered) (hx : b.exchanged <+: b'.exchanged)
    (hw : b'.workers.length = b.workers.length) : Backs feeds b' delivered := by
  constructor
  · intro f hf
    obtain ⟨x, hmem, rfl⟩ := h.exchanged f hf
    exact ⟨x, hx.subset hmem, rfl⟩
  · intro hlen
    obtain ⟨xs, ys, hxs, hfetched, hjobs⟩ := h.inOrder (hw.symm.trans hlen)
    obtain ⟨zs, hzs⟩ := hx
    exact ⟨xs, ys ++ zs, by rw [← hzs, hxs, List.append_assoc], hfetched, hjobs⟩

theorem Unstopped.of_contexts {s s' : Shared σ} (h : Unstopped b s)
    (hc : ∀ context, s'.isCancelled context = s.isCancelled context) : Unstopped b s' :=
  h.quiet ⟨rfl, rfl, rfl, rfl, rfl, fun hb => (hc _).trans hb⟩ .inl

end Batch

/-- The call was made under a context that is not cancelled. -/
def Cursor.Phase.Under (context : String) : Cursor.Phase → Prop
  | .starting c | .entering c | .waiting c _ => c = context
  | .leaving _ _ r => r ≠ .cancelled
  | .resting | .joining => True

namespace Run

@[simp] def Phase.isStopped : Phase → Bool
  | .joining | .reporting | .returned _ => true
  | _ => false

/-- What holds of a run whose context is not cancelled, if the limiter admits every request and the
client reports no cancellation. -/
structure Faithful (feeds : List Feed) (workers : ℕ) (r : Run) (s : Shared σ) : Prop where
  quiet : s.isCancelled r.context = false
  under : r.cursor.phase.Under r.context
  staff : r.cursor.workers = workers ∧ r.delivery.couriers.length = workers
  batch : ∀ b, r.cursor.batch = some b → b.caller = r.context
    ∧ b.workers.length = Batch.workerCount workers feeds.length
  uncancelled : r.cursor.state ≠ .cancelled
  errored : r.cursor.state = .errored → ∃ f ∈ r.cursor.delivered, f.errors ≠ []
  running : r.phase.isStopped = false → ∀ b, r.cursor.batch = some b →
    b.cancelled = false ∧ b.Unstopped s ∧ b.Answers feeds
  backed : ∀ b, r.cursor.batch = some b → b.Backs feeds r.cursor.delivered
  /-- A batch that is stopped after its end has made all exchanges, and excused nothing. -/
  finished : r.phase.isStopped = true → r.cursor.state.isTerminal = true →
    ∃ b, r.cursor.batch = some b ∧ b.isOver = true ∧ b.excused = [] ∧ b.Answers feeds

variable {sv : Services σ} {feeds : List Feed} {handled : List Fetched} {base told : ℕ → List Error}
  {workers : ℕ} {r r' : Run} {s s' : Shared σ}

theorem faithful_start {context : String} (hquiet : s.isCancelled context = false)
    (feeds : List Feed) (workers : ℕ) :
    Faithful feeds workers (start context feeds workers s).1 (start context feeds workers s).2 := by
  refine ⟨hquiet, trivial, ⟨rfl, ?_⟩, ?_, ?_, ?_, ?_, ?_, ?_⟩ <;>
    simp [start, Cursor.ofFeeds, Delivery.start]

namespace Faithful

theorem wait (h : Faithful feeds workers r s)
    (hc : ∀ context, s'.isCancelled context = s.isCancelled context) :
    Faithful feeds workers r s' := by
  refine { h with quiet := (hc _).trans h.quiet, running := fun hstop b hb => ?_ }
  obtain ⟨hcancelled, hunstopped, hanswers⟩ := h.running hstop b hb
  exact ⟨hcancelled, hunstopped.of_contexts hc, hanswers⟩

theorem rephase (h : Faithful feeds workers r s) (hcontext : r'.context = r.context)
    (hcursor : r'.cursor = r.cursor) (hcouriers : r'.delivery.couriers = r.delivery.couriers)
    (hstop : r'.phase.isStopped = r.phase.isStopped) : Faithful feeds workers r' s := by
  obtain ⟨h1, h2, h3, h4, h5, h6, h7, h8, h9⟩ := h
  rw [← hcontext, ← hcursor, ← hcouriers, ← hstop] at *
  exact ⟨h1, h2, h3, h4, h5, h6, h7, h8, h9⟩

theorem fetch (h : Faithful feeds workers r s) (hfits : Fits sv feeds handled base told r s)
    (hadmits : sv.Admits) (hcandid : sv.Candid) {c : Cursor} {k : ℕ}
    (hs : r.cursor.stepWorker? sv k s = some (c, s')) :
    Faithful feeds workers { r with cursor := c } s' := by
  obtain ⟨b, b', hb, hstep, rfl⟩ := Cursor.stepWorker?_cases hs
  have hsound := hfits.cursor.batch b hb
  rw [hfits.origin] at hsound
  have hover : b.isOver ≠ true := fun ho => by
    rw [Batch.step?_of_isOver ho] at hstep
    cases hstep
  have hb' := hstep
  obtain ⟨w, w', b₁, -, hworks, hb₁, -⟩ := Batch.step?_cases hb'
  have hlen : b'.workers.length = b.workers.length := by rw [hb₁]; simp
  have hcaller : b'.caller = b.caller := by rw [hb₁]; exact hworks.frame.2.2.1
  have hcancelled : b'.cancelled = b.cancelled := by rw [hb₁]; exact hworks.frame.2.2.2.2.2
  have hexchanged : b.exchanged <+: b'.exchanged := by rw [hb₁]; exact hworks.exchanged
  refine { h with
    quiet := (Batch.step?_isCancelled hstep _).trans h.quiet
    batch := ?_
    running := ?_
    backed := ?_
    finished := ?_ }
  · rintro _ ⟨⟩
    exact ⟨hcaller.trans (h.batch b hb).1, hlen.trans (h.batch b hb).2⟩
  · rintro hstop _ ⟨⟩
    obtain ⟨hc, hunstopped, hanswers⟩ := h.running hstop b hb
    exact ⟨hcancelled.trans hc, hunstopped.step hcandid hstep, hanswers.step hadmits hc hsound hstep⟩
  · rintro _ ⟨⟩
    exact (h.backed b hb).mono hexchanged hlen
  · intro hstop hterminal
    obtain ⟨b₂, hb₂, ho, -⟩ := h.finished hstop hterminal
    obtain rfl := Option.some.inj (hb.symm.trans hb₂)
    exact absurd ho hover

theorem deliver (h : Faithful feeds workers r s) {d : Delivery} {k : ℕ}
    (hs : r.delivery.step? sv k s = some (d, s')) :
    Faithful feeds workers { r with delivery := d } s' := by
  have hcontexts := (Delivery.step?_frame hs).2.2.2.2.1
  have hcouriers : d.couriers.length = r.delivery.couriers.length := by
    obtain ⟨c, c', d₁, -, -, rfl⟩ := Delivery.step?_cases hs
    simp
  have hwait := h.wait hcontexts
  exact { hwait with staff := ⟨h.staff.1, hcouriers.trans h.staff.2⟩ }

/-- The batch has nothing to heed. -/
theorem heed (h : Faithful feeds workers r s) : r.cursor.heed? s = none := by
  by_contra hne
  obtain ⟨c, hc⟩ := Option.ne_none_iff_exists'.mp hne
  obtain ⟨b, hb, hcancelled, -⟩ := Cursor.heed?_cases hc
  rw [(h.batch b hb).1, h.quiet] at hcancelled
  cases hcancelled

theorem cancel (h : Faithful feeds workers r s) {context : String} (hne : context ≠ r.context) :
    Faithful feeds workers r (s.cancel context) := by
  have hquiet : (s.cancel context).isCancelled r.context = false := by
    rw [Shared.isCancelled_cancel, h.quiet, Bool.or_false, decide_eq_false hne.symm]
  refine { h with quiet := hquiet, running := fun hstop b hb => ?_ }
  obtain ⟨hc, hunstopped, hanswers⟩ := h.running hstop b hb
  refine ⟨hc, hunstopped.quiet ⟨rfl, rfl, rfl, rfl, rfl, fun hb => ?_⟩ .inl, hanswers⟩
  rw [Shared.isCancelled_cancel, hb, Bool.or_true]

/-- The results of a batch that is not stopped come from exchanges. -/
theorem backs_of_answers {c : Cursor} (hc : c.Sound)
    (h : ∀ b, c.batch = some b → b.Answers feeds) :
    ∀ b, c.batch = some b → b.Backs feeds c.delivered := by
  intro b hb
  refine (h b hb).backs ?_
  have hcons := hc.conserved
  rw [hb, List.append_assoc] at hcons
  exact ⟨_, hcons⟩

theorem call (h : Faithful feeds workers r s) (hp : r.phase = .calling) :
    Faithful feeds workers
      { r with cursor := r.cursor.advance r.context s, phase := .advancing } s := by
  have hrunning := h.running (by rw [hp]; rfl)
  have hquiet := h.quiet
  rcases r.cursor.advance_cases r.context s with ⟨-, heq⟩ | ⟨-, hc, heq⟩ | ⟨-, -, -, heq⟩ |
    ⟨-, -, heq⟩ <;> rw [heq]
  · exact { h with running := fun _ => hrunning, finished := by simp }
  · rw [hquiet] at hc
    cases hc
  · exact { h with under := rfl, running := fun _ => hrunning, finished := by simp }
  · exact { h with under := rfl, running := fun _ => hrunning, finished := by simp }

/-- A cursor that ends with an error has delivered a failure: nobody but the batch notes anything in
its register. -/
theorem errored_of_conclude (hfits : Fits sv feeds handled base told r s) {context : String}
    {listener : ℕ} (hp : r.cursor.phase = .leaving context listener .closed) {e : Error}
    (he : s.registers.error? r.cursor.slot = some e) :
    ∃ f ∈ r.cursor.delivered, f.errors ≠ [] := by
  have hphase := hfits.cursor.phase
  rw [hp] at hphase
  obtain ⟨b, hb, hover, hi⟩ := hphase.2 rfl
  have hdelivered := hfits.cursor.conserved
  rw [hp, hb] at hdelivered
  simp only [Cursor.inHand, Cursor.buffered, hi, Cursor.published, List.append_nil] at hdelivered
  obtain ⟨hslot, hledger⟩ := hfits.books.ledger b hb
  have hperm := hledger.of_isOver hover (i := r.cursor.slot)
    (by rw [hslot, hfits.slots.2.2]; simp)
  rw [hfits.own, List.nil_append] at hperm
  have hnoted : s.registers.noted r.cursor.slot ≠ [] := by
    intro hnil
    rw [(Registers.error?_eq_none hfits.books.valid).mpr hnil] at he
    cases he
  by_contra hall
  push Not at hall
  rw [← hdelivered, List.flatMap_eq_nil_iff.mpr hall, List.perm_nil,
    List.append_eq_nil_iff] at hperm
  exact hnoted hperm.1

theorem start (h : Faithful feeds workers r s) (hfits : Fits sv feeds handled base told r s)
    (hp : r.phase = .advancing) (hphase : r.cursor.phase = .starting r.context) :
    Faithful feeds workers { r with cursor := { r.cursor with
        batch := some (Batch.start r.context r.cursor.feeds r.cursor.workers r.cursor.slot s).1
        state := .running
        phase := .entering r.context } }
      (Batch.start r.context r.cursor.feeds r.cursor.workers r.cursor.slot s).2 := by
  have hsound := hfits.cursor.calls (.start (s := s) hphase)
  have hanswers := Batch.Answers.start r.context r.cursor.feeds r.cursor.workers r.cursor.slot s
  have hcontext : (s.listen r.context .batch).2.isCancelled r.context = false := by
    rw [Shared.isCancelled_listen, h.quiet]
  rw [hfits.origin] at hanswers
  refine { h with
    quiet := hcontext
    under := rfl
    batch := ?_
    uncancelled := by simp
    errored := by simp
    running := ?_
    backed := backs_of_answers hsound ?_
    finished := fun hs => by rw [show r.phase = .advancing from hp] at hs; cases hs }
  · rintro _ ⟨⟩
    refine ⟨rfl, ?_⟩
    rw [← h.staff.1, ← hfits.origin]
    simp [Batch.start]
  · rintro - _ ⟨⟩
    exact ⟨hcontext, .start _ _ _ _, hfits.origin ▸ hanswers⟩
  · rintro _ ⟨⟩
    exact hfits.origin ▸ hanswers

theorem conclude (h : Faithful feeds workers r s) (hfits : Fits sv feeds handled base told r s)
    (hp : r.phase = .advancing) {context : String} {listener : ℕ} {e : Received Fetched}
    (hphase : r.cursor.phase = .leaving context listener e) :
    Faithful feeds workers
      { r with cursor := Cursor.conclude { r.cursor with phase := .resting } s.registers e }
      (s.forget context listener) := by
  have hunder := h.under
  rw [hphase] at hunder
  have hstopped : r.phase.isStopped = true → False := by rw [hp]; simp
  have hanswers : ∀ b, r.cursor.batch = some b → b.Answers feeds := fun b hb =>
    (h.running (by rw [hp]; rfl) b hb).2.2
  have hsound := hfits.cursor.conclude hphase s.registers
  have hwait : Faithful feeds workers r (s.forget context listener) := h.wait (by simp)
  have hopen := hfits.cursor.open_of_phase (by simp [hphase]) (by simp [hphase])
  unfold Cursor.conclude at hsound ⊢
  rw [if_neg (by simp [hopen])] at hsound ⊢
  cases e with
  | value f =>
    refine { hwait with
      under := trivial
      errored := fun he => ?_
      backed := backs_of_answers hsound hanswers }
    obtain ⟨g, hg, hne⟩ := h.errored he
    exact ⟨g, List.mem_append_left _ hg, hne⟩
  | cancelled => exact absurd rfl hunder
  | closed =>
    cases he : s.registers.error? r.cursor.slot with
    | some e =>
      have herrored := errored_of_conclude hfits hphase he
      exact { hwait with
        under := trivial
        uncancelled := by simp
        errored := fun _ => herrored
        finished := fun hs => (hstopped hs).elim }
    | none =>
      exact { hwait with
        under := trivial
        uncancelled := by simp
        errored := by simp
        finished := fun hs => (hstopped hs).elim }

theorem await (h : Faithful feeds workers r s) (hfits : Fits sv feeds handled base told r s)
    (hp : r.phase = .advancing) {c : Cursor} (hc : r.cursor.Calls s c s') :
    Faithful feeds workers { r with cursor := c } s' := by
  have hrunning := h.running (by rw [hp]; rfl)
  have hunder := h.under
  have hsound := hfits.cursor.calls hc
  cases hc with
  | @start context hphase =>
    rw [hphase] at hunder
    obtain rfl : context = r.context := hunder
    exact h.start hfits hp hphase
  | @enter context hphase =>
    rw [hphase] at hunder
    have hwait : Faithful feeds workers r (s.listen context .receiver).2 := h.wait (by simp)
    exact { hwait with under := hunder }
  | @cancelled context _ _ hphase hb hcancelled =>
    rw [hphase] at hunder
    obtain rfl : context = r.context := hunder
    rw [h.quiet] at hcancelled
    cases hcancelled
  | @receive _ _ b f rest hphase hb hi =>
    obtain ⟨hcancelled, hunstopped, hanswers⟩ := hrunning b hb
    have hanswers' : Batch.Answers feeds
        { b with results := { b.results with items := rest } } := hanswers.congr rfl rfl rfl rfl
    refine { h with
      under := by simp [Cursor.Phase.Under]
      batch := ?_
      running := ?_
      backed := backs_of_answers hsound ?_
      finished := fun hs => by rw [show r.phase = .advancing from hp] at hs; cases hs }
    · rintro _ ⟨⟩
      exact h.batch b hb
    · rintro - _ ⟨⟩
      exact ⟨hcancelled, hunstopped.quiet ⟨rfl, rfl, rfl, rfl, rfl, id⟩ .inl, hanswers'⟩
    · rintro _ ⟨⟩
      exact hanswers'
  | close hphase hb hi hclosed => exact { h with under := by simp [Cursor.Phase.Under] }
  | conclude hphase => exact h.conclude hfits hp hphase
  | join hphase hb ho => exact { h with under := trivial }

/-- The loop stops the batch, which has come to its end unless a result was refused. -/
theorem stop (h : Faithful feeds workers r s) (hfits : Fits sv feeds handled base told r s)
    (hp : r.phase = .stopping) :
    Faithful feeds workers { r with
      ended := r.cursor.error
      cursor := (r.cursor.close s).1
      phase := .joining } (r.cursor.close s).2 := by
  have hrunning := h.running (by rw [hp]; rfl)
  have hdrained : r.cursor.state.isTerminal = true → ∃ b, r.cursor.batch = some b
      ∧ b.isOver = true ∧ b.excused = [] ∧ b.Answers feeds := by
    intro hterminal
    obtain ⟨b, hb, ho, -⟩ := hfits.cursor.drained
      (Cursor.State.ended_of_isTerminal hterminal h.uncancelled)
    exact ⟨b, hb, ho, (hrunning b hb).2.1.excused, (hrunning b hb).2.2⟩
  rcases r.cursor.close_cases s with ⟨-, heq⟩ | ⟨-, heq⟩ | ⟨b, hb, heq⟩ <;> rw [heq]
  · exact { h with running := by simp, finished := fun _ => hdrained }
  · exact { h with running := by simp, finished := fun _ => hdrained }
  · have hwait : Faithful feeds workers r (s.forget b.caller b.link) := h.wait (by simp)
    refine { hwait with
      under := trivial
      batch := ?_
      running := by simp
      backed := ?_
      finished := fun _ hterminal => ?_ }
    · rintro _ ⟨⟩
      exact h.batch b hb
    · rintro _ ⟨⟩
      exact (h.backed b hb).mono List.prefix_rfl rfl
    · obtain ⟨b₁, hb₁, ho, hx, hanswers⟩ := hdrained hterminal
      obtain rfl := Option.some.inj (hb.symm.trans hb₁)
      exact ⟨_, rfl, ho, hx, hanswers.congr rfl rfl rfl rfl⟩

theorem loops (h : Faithful feeds workers r s) (hfits : Fits sv feeds handled base told r s)
    (hl : Loops r s r' s') : Faithful feeds workers r' s' := by
  cases hl with
  | call hp => exact h.call hp
  | await hp hc =>
    rcases hp with hp | hp
    · exact h.await hfits hp hc
    · have hstage := hfits.stage
      simp only [Stage, hp] at hstage
      obtain ⟨hrest, -⟩ := hc.frame hfits.cursor
      obtain ⟨rfl, rfl⟩ := hc.eq_of_joining (hstage.1.resolve_right hrest)
      exact { h with under := trivial }
  | @note e i is hp =>
    have hwait : Faithful feeds workers r (s.note i e) := h.wait (by simp)
    exact hwait.rephase rfl rfl rfl (by rw [hp]; rfl)
  | stop hp => exact h.stop hfits hp
  | report hp =>
    have hwait : Faithful feeds workers r (s.say (r.warnings s.registers)) := h.wait (by simp)
    exact hwait.rephase rfl rfl rfl (by rw [hp]; rfl)
  | _ hp => exact h.rephase rfl rfl rfl (by rw [hp]; rfl)

theorem step (h : Faithful feeds workers r s) (hfits : Fits sv feeds handled base told r s)
    (hadmits : sv.Admits) (hcandid : sv.Candid) {e : Event} (he : e ≠ .cancel r.context)
    (hs : r.step? sv s e = some (r', s')) : Faithful feeds workers r' s' := by
  cases steps_of_step? hs with
  | loop hl => exact h.loops hfits hl
  | fetch hc => exact h.fetch hfits hadmits hcandid hc
  | deliver hd => exact h.deliver hd
  | heed hc =>
    rw [h.heed] at hc
    cases hc
  | cancel => exact h.cancel fun hc => he (by rw [hc])

end Faithful

theorem faithful_of_follow? {context : String} (hw : 0 < workers) (hadmits : sv.Admits)
    (hcandid : sv.Candid) {s₀ : Shared σ} (hv : s₀.registers.Valid)
    (hquiet : s₀.isCancelled context = false) {es : List Event} (hes : .cancel context ∉ es)
    (h : follow? (act? sv) (start context feeds workers s₀) es = some (r, s)) :
    ∃ handled base told, Fits sv feeds handled base told r s ∧ Faithful feeds workers r s := by
  let P (t : Run × Shared σ) : Prop := t.1.context = context
    ∧ (∃ handled base told, Fits sv feeds handled base told t.1 t.2) ∧ Faithful feeds workers t.1 t.2
  have hstep : ∀ e ∈ es, ∀ t t', P t → act? sv t e = some t' → P t' := by
    rintro e he ⟨r, s⟩ ⟨r', s'⟩ ⟨hcontext, ⟨handled, base, told, hfits⟩, hfaithful⟩ ht
    refine ⟨?_, hfits.step ht, ?_⟩
    · exact (context_of_step? ht).trans hcontext
    · exact hfaithful.step hfits hadmits hcandid (fun hc => hes (hcontext ▸ hc ▸ he)) ht
  have hstart : P (start context feeds workers s₀) :=
    ⟨rfl, ⟨_, _, _, fits_start sv context feeds hw hv⟩, faithful_start hquiet feeds workers⟩
  obtain ⟨-, ⟨handled, base, told, hfits⟩, hfaithful⟩ := follow?_invariant hstep hstart h
  exact ⟨handled, base, told, hfits, hfaithful⟩

end Run

end Ingest.Pipeline

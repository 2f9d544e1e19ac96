import Ingest.Proofs.Pipeline.Loop

/-!
# What a run keeps

The loop of a run has handled some of the delivered results, and has handed over what these brought
(`Fits.accepted`). It goes on until the cursor is at its end or a result is refused
(`Run.Stage`), and it returns when all couriers and all workers of the batch are gone.

The run's register holds the failures of the batch that were not excused, the failures of the
delivery and the refusal (`Fits.books`, `Fits.balance`), so that a run returns no error only if there
were none.
-/

namespace Ingest.Pipeline

variable {σ : Type}

namespace Run

/-- A result that was delivered and that the loop has not handled yet. -/
def pending (r : Run) : List Fetched :=
  match r.phase with
  | .advancing => if r.cursor.isResting && r.cursor.more then r.cursor.current.toList else []
  | .handling => r.cursor.current.toList
  | _ => []

@[simp] def Phase.offered : Phase → List Upsert
  | .submitting u => [u]
  | _ => []

/-- A refusal that register `i` was not told yet. -/
@[simp] def Phase.unrecordedIn (i : ℕ) : Phase → List Error
  | .noting e slots => if i ∈ slots then [e] else []
  | _ => []

/-- No result was refused. -/
def Clean (fs : List Fetched) : Prop :=
  ∀ f ∈ fs, f.refusal? = none

/-- The last result was refused, and no other. -/
def Refused (fs : List Fetched) (e : Error) : Prop :=
  ∃ gs f, fs = gs ++ [f] ∧ Clean gs ∧ f.refusal? = some e

/-- The loop has come to its end: there are no more results, or one was refused. -/
def Ended (handled : List Fetched) (c : Cursor) : Prop :=
  (Clean handled ∧ c.state.isTerminal = true) ∨ ∃ e, Refused handled e

/-- What the phase of the loop says about the cursor, the queue of the delivery and the results that
were handled. -/
def Stage (handled : List Fetched) (r : Run) : Prop :=
  match r.phase with
  | .calling | .handling | .submitting _ =>
    r.cursor.phase = .resting ∧ r.cursor.closed = false ∧ r.delivery.queue.closed = false
      ∧ Clean handled
  | .advancing =>
    r.cursor.phase ≠ .joining ∧ (r.cursor.phase = .resting → r.cursor.state ≠ .unstarted)
      ∧ r.cursor.closed = false ∧ r.delivery.queue.closed = false ∧ Clean handled
  | .noting e slots =>
    r.cursor.phase = .resting ∧ Refused handled e ∧ slots <:+ [r.slot]
  | .closing => r.cursor.phase = .resting ∧ Ended handled r.cursor
  | .draining | .stopping =>
    r.cursor.phase = .resting ∧ r.delivery.queue.closed = true ∧ Ended handled r.cursor
  | .joining =>
    (r.cursor.phase = .joining ∨ r.cursor.phase = .resting) ∧ r.cursor.closed = true
      ∧ r.delivery.queue.closed = true ∧ Ended handled r.cursor ∧ r.ended = r.cursor.error
  | .reporting | .returned _ =>
    r.cursor.phase = .resting ∧ r.delivery.queue.closed = true
      ∧ Ended handled r.cursor ∧ r.ended = r.cursor.error

@[simp] def Phase.isDrained : Phase → Bool
  | .stopping | .joining | .reporting | .returned _ => true
  | _ => false

@[simp] def Phase.isJoined : Phase → Bool
  | .reporting | .returned _ => true
  | _ => false

/-- What holds of a run at every moment. The loop has handled the results `handled`; beside the batch,
`base` was noted in each register, of which `told` by couriers. -/
structure Fits (sv : Services σ) (feeds : List Feed) (handled : List Fetched)
    (base told : ℕ → List Error) (r : Run) (s : Shared σ) : Prop where
  cursor : r.cursor.Sound
  origin : r.cursor.feeds = feeds
  slots : s.registers.path r.slot = [r.slot] ∧ r.delivery.slot = r.slot
    ∧ s.registers.path r.cursor.slot = [r.slot, r.cursor.slot]
  context : r.delivery.context = r.context
  delivery : r.delivery.Sound sv.writers.length (s.isCancelled r.delivery.context)
  delivered : handled ++ r.pending = r.cursor.delivered
  accepted : handled.filterMap Fetched.payload? = r.delivery.accepted ++ r.phase.offered
  submitted : r.submitted = r.delivery.accepted.length
  stage : r.Stage handled
  drained : r.phase.isDrained = true → r.delivery.isOver = true
  joined : r.phase.isJoined = true → ∀ b, r.cursor.batch = some b → b.isOver = true
  books : Batch.Books base r.cursor.slot r.cursor.batch s
  own : base r.cursor.slot = []
  tells : r.delivery.Tells told s.registers
  balance : (base r.slot ++ r.phase.unrecordedIn r.slot).Perm
    (told r.slot ++ handled.filterMap Fetched.refusal?)
  result : ∀ e?, r.phase = .returned e? → e? = r.result s.registers

theorem Clean.concat {fs : List Fetched} (h : Clean fs) {f : Fetched} (hf : f.refusal? = none) :
    Clean (fs ++ [f]) := by
  intro g hg
  rcases List.mem_append.mp hg with hg | hg
  · exact h g hg
  · rw [List.mem_singleton.mp hg]
    exact hf

theorem Clean.filterMap_eq {fs : List Fetched} (h : Clean fs) :
    fs.filterMap Fetched.refusal? = [] :=
  List.filterMap_eq_nil_iff.mpr h

theorem Refused.filterMap_eq {fs : List Fetched} {e : Error} (h : Refused fs e) :
    fs.filterMap Fetched.refusal? = [e] := by
  obtain ⟨gs, f, rfl, hgs, hf⟩ := h
  rw [List.filterMap_append, hgs.filterMap_eq]
  simp [hf]

variable {sv : Services σ} {feeds : List Feed} {handled : List Fetched} {base told : ℕ → List Error}
  {r r' : Run} {s s' : Shared σ}

theorem noted_of_length_le {rs : Registers} {i : ℕ} (hi : rs.length ≤ i) : rs.noted i = [] := by
  simp [Registers.noted, List.getElem?_eq_none hi]

theorem fits_start (sv : Services σ) (context : String) (feeds : List Feed) {workers : ℕ}
    (hw : 0 < workers) {s : Shared σ} (hv : s.registers.Valid) :
    Fits sv feeds [] s.registers.noted (fun _ => []) (start context feeds workers s).1
      (start context feeds workers s).2 := by
  have hv₁ := hv.openSlot none
  have hlen : s.registers.length < (s.registers.openSlot none).length := by simp
  have hregs : (start context feeds workers s).2.registers
      = (s.registers.openSlot none).openSlot (some s.registers.length) := rfl
  have hpath := Registers.path_openSlot_none s.registers
  constructor
  case cursor => exact .ofFeeds feeds workers (some s.registers.length) _
  case origin => rfl
  case slots =>
    rw [hregs]
    refine ⟨?_, rfl, ?_⟩
    · show ((s.registers.openSlot none).openSlot _).path s.registers.length = [s.registers.length]
      rw [Registers.path_openSlot_of_lt hlen, hpath]
    · show ((s.registers.openSlot none).openSlot _).path (s.registers.openSlot none).length
        = [s.registers.length, (s.registers.openSlot none).length]
      rw [Registers.path_openSlot_some, hpath]
      rfl
  case delivery => exact .start (.ofCapacity _ _) _ hw _ _
  case books =>
    refine ⟨hregs ▸ hv₁.openSlot _, fun _ i _ => ?_, fun b hb => ?_, fun b hb => ?_⟩
    · rw [hregs, Registers.noted_openSlot, Registers.noted_openSlot]
    all_goals cases hb
  case own => exact noted_of_length_le (by simp [start, Cursor.ofFeeds, Shared.openSlot, Registers.next])
  case tells => exact .start (.of_idle (.ofCapacity _ _) _) rfl _ _
  case balance =>
    show (s.registers.noted s.registers.length ++ []).Perm _
    rw [noted_of_length_le le_rfl]
    simp
  case stage => exact ⟨rfl, rfl, rfl, by simp [Clean]⟩
  all_goals simp [start, pending, Cursor.ofFeeds, Delivery.start, Delivery.ofCapacity]

namespace Fits

theorem of_turn (h : Fits sv feeds handled base told r s) {b?' : Option Batch}
    (hcursor : Cursor.Sound { r.cursor with batch := b?' })
    (ht : Batch.Turn sv r.cursor.feeds r.cursor.workers r.cursor.slot false [] r.cursor.batch s
      b?' s') (hnone : r.cursor.batch = none → b?' = none)
    (hcontexts : ∀ context, s.isCancelled context = true → s'.isCancelled context = true)
    (hregisters : r.phase.isJoined = true → s'.registers = s.registers) :
    Fits sv feeds handled base told { r with cursor := { r.cursor with batch := b?' } } s' := by
  refine { h with
    cursor := hcursor
    slots := ?_
    delivery := h.delivery.mono (hcontexts _)
    joined := fun hj b' hb' => ?_
    books := h.books.turn_nil h.cursor.batch ht
    tells := h.tells.congr ht.path
    result := fun e? he => ?_ }
  · rw [ht.path, ht.path]
    exact h.slots
  · replace hj : r.phase.isJoined = true := hj
    obtain rfl : b?' = some b' := hb'
    obtain ⟨b, hb⟩ := Option.ne_none_iff_exists'.mp (mt hnone (by simp))
    rw [hb] at ht
    obtain ⟨b₁, heq, -, -, -, hover⟩ := ht.frame
    obtain rfl := Option.some.inj heq
    exact (hover (h.joined hj b hb)).1
  · replace he : r.phase = .returned e? := he
    have := hregisters (by rw [he]; rfl)
    rw [h.result e? he]
    show r.result s.registers = Run.result _ s'.registers
    rw [this]
    rfl

theorem fetch (h : Fits sv feeds handled base told r s) {c : Cursor} {k : ℕ}
    (hs : r.cursor.stepWorker? sv k s = some (c, s')) :
    Fits sv feeds handled base told { r with cursor := c } s' := by
  have hcursor := h.cursor.work hs
  obtain ⟨-, hturn⟩ := Cursor.turn_of_stepWorker? hs
  obtain ⟨b, b', hb, hstep, rfl⟩ := Cursor.stepWorker?_cases hs
  refine h.of_turn hcursor hturn (by simp [hb]) (fun context => ?_) (fun hj => ?_)
  · rw [Batch.step?_isCancelled hstep]
    exact id
  · rw [Batch.step?_of_isOver (h.joined hj b hb)] at hstep
    cases hstep

theorem heed (h : Fits sv feeds handled base told r s) {c : Cursor}
    (hs : r.cursor.heed? s = some c) :
    Fits sv feeds handled base told { r with cursor := c } s := by
  have hcursor := h.cursor.heed hs
  obtain ⟨-, hturn⟩ := Cursor.turn_of_heed? sv hs
  obtain ⟨b, hb, -, rfl⟩ := Cursor.heed?_cases hs
  exact h.of_turn hcursor hturn (by simp [hb]) (fun _ => id) (fun _ => rfl)

theorem wait (h : Fits sv feeds handled base told r s) (hr : s'.registers = s.registers)
    (hcontexts : ∀ context, s.isCancelled context = true → s'.isCancelled context = true) :
    Fits sv feeds handled base told r s' :=
  h.of_turn h.cursor (Cursor.turn_of_same hr hcontexts) id hcontexts (fun _ => hr)

theorem cancel (h : Fits sv feeds handled base told r s) (context : String) :
    Fits sv feeds handled base told r (s.cancel context) := by
  refine h.wait rfl fun other hc => ?_
  rw [Shared.isCancelled_cancel, hc, Bool.or_true]

/-- A courier notes nothing in the register of the cursor. -/
theorem deliver (h : Fits sv feeds handled base told r s) {d : Delivery} {k : ℕ}
    (hs : r.delivery.step? sv k s = some (d, s')) :
    Fits sv feeds handled (fun i => base i ++ notesIn i (r.delivery.notes k))
      (fun i => told i ++ notesIn i (r.delivery.notes k)) { r with delivery := d } s' := by
  obtain ⟨hcontext, hslot, haccepted, hclosed, hcontexts, hpath⟩ := Delivery.step?_frame hs
  obtain ⟨hrun, hdslot, hcursor⟩ := h.slots
  have hover : r.delivery.isOver ≠ true := fun ho => by
    rw [Delivery.step?_of_isOver ho] at hs
    cases hs
  have hturn : Batch.Turn sv r.cursor.feeds r.cursor.workers r.cursor.slot false
      (r.delivery.notes k) r.cursor.batch s r.cursor.batch s' := by
    rcases Delivery.step?_registers hs with ⟨hn, hr⟩ | ⟨i, e, hn, rfl⟩
    · rw [hn]
      exact Cursor.turn_of_same hr fun context hc => (hcontexts context).trans hc
    · rw [hn]
      exact .note
  have hown : notesIn r.cursor.slot (r.delivery.notes k) = [] := by
    rcases Delivery.step?_registers hs with ⟨hn, -⟩ | ⟨i, e, hn, -⟩
    · rw [hn, notesIn_nil]
    · have hi := h.tells.mem_path (hn ▸ List.mem_singleton_self (i, e))
      rw [hdslot, hrun] at hi
      have hnd : [r.slot, r.cursor.slot].Nodup := hcursor ▸ h.books.valid.path_nodup r.cursor.slot
      have hne : i ≠ r.cursor.slot := by
        rw [List.mem_singleton.mp hi]
        simpa using hnd
      rw [hn, notesIn_singleton, if_neg hne]
  refine { h with
    slots := ?_
    context := hcontext.trans h.context
    delivery := h.delivery.step hs
    accepted := haccepted ▸ h.accepted
    submitted := haccepted ▸ h.submitted
    stage := ?_
    drained := fun hd => absurd (h.drained hd) hover
    books := h.books.turn h.cursor.batch hturn
    own := by rw [h.own, hown]; rfl
    tells := h.tells.step h.books.valid hs
    balance := ?_
    result := fun e? he => ?_ }
  · rw [hpath, hpath]
    exact ⟨hrun, hslot.trans hdslot, hcursor⟩
  · have hstage := h.stage
    unfold Stage at hstage ⊢
    simp only [hclosed]
    exact hstage
  · rw [List.perm_iff_count]
    intro x
    have h1 := h.balance.count_eq x
    simp only [List.count_append] at h1 ⊢
    omega
  · replace he : r.phase = .returned e? := he
    exact absurd (h.drained (by rw [he]; rfl)) hover

theorem call (h : Fits sv feeds handled base told r s) (hp : r.phase = .calling) :
    Fits sv feeds handled base told
      { r with cursor := r.cursor.advance r.context s, phase := .advancing } s := by
  have hstage := h.stage
  have hdelivered := h.delivered
  have haccepted := h.accepted
  have hbalance := h.balance
  simp only [Stage, hp] at hstage
  simp only [pending, hp] at hdelivered
  simp only [hp] at haccepted hbalance
  obtain ⟨hrest, hopen, hqueue, hclean⟩ := hstage
  obtain ⟨hkin, hbatch⟩ := Cursor.turn_of_advance r.cursor r.context s
  have hcall : (r.cursor.advance r.context s).delivered = r.cursor.delivered
      ∧ (r.cursor.advance r.context s).closed = false
      ∧ (r.cursor.advance r.context s).phase ≠ .joining
      ∧ ((r.cursor.advance r.context s).phase = .resting →
        (r.cursor.advance r.context s).state ≠ .unstarted
          ∧ (r.cursor.advance r.context s).more = false) := by
    rcases r.cursor.advance_cases r.context s with ⟨hend, heq⟩ | ⟨hs, -, heq⟩ | ⟨hs, -, -, heq⟩ |
      ⟨hs, -, heq⟩ <;> rw [heq]
    · refine ⟨rfl, hopen, by simp [hrest], fun _ => ⟨fun hs => ?_, rfl⟩⟩
      replace hs : r.cursor.state = .unstarted := hs
      rcases hend with hend | hend
      · rw [hopen] at hend
        cases hend
      · simp [hs, Cursor.State.isTerminal] at hend
    · exact ⟨rfl, hopen, by simp [hrest], fun _ => ⟨by simp, rfl⟩⟩
    · exact ⟨rfl, hopen, by simp, by simp⟩
    · exact ⟨rfl, hopen, by simp, by simp⟩
  refine { h with
    cursor := h.cursor.advance hrest _ _
    origin := hkin.feeds.trans h.origin
    slots := by rw [hkin.slot]; exact h.slots
    delivered := ?_
    accepted := haccepted
    stage := ⟨hcall.2.2.1, fun hrest => (hcall.2.2.2 hrest).1, hcall.2.1, hqueue, hclean⟩
    drained := by simp
    joined := by simp
    books := by rw [hkin.slot, hbatch]; exact h.books
    own := by rw [hkin.slot]; exact h.own
    balance := hbalance
    result := by simp }
  show handled ++ (if (r.cursor.advance r.context s).isResting
    && (r.cursor.advance r.context s).more then _ else []) = _
  rw [if_neg, hcall.1]
  · exact hdelivered
  · rw [Bool.and_eq_true, Cursor.isResting_iff]
    rintro ⟨hrest, hmore⟩
    rw [(hcall.2.2.2 hrest).2] at hmore
    cases hmore

/-- The loop's call, for the next result or for the end, goes on. -/
theorem await (h : Fits sv feeds handled base told r s) {c : Cursor}
    (hp : r.phase = .advancing ∨ r.phase = .joining) (hc : r.cursor.Calls s c s') :
    Fits sv feeds handled base told { r with cursor := c } s' := by
  obtain ⟨hrest, hclosed, hjoin, hstate, hregs, hcontexts⟩ := hc.frame h.cursor
  obtain ⟨hkin, hturn⟩ := hc.turn sv h.cursor
  have hstage := h.stage
  have hjoined : r.phase.isJoined = false := by rcases hp with hp | hp <;> rw [hp] <;> rfl
  have hbooks := h.books.turn_nil h.cursor.batch hturn
  refine { h with
    cursor := h.cursor.calls hc
    origin := hkin.feeds.trans h.origin
    slots := by rw [hkin.slot, hregs]; exact h.slots
    delivery := h.delivery.mono fun hcancel => (hcontexts _).trans hcancel
    delivered := ?_
    stage := ?_
    joined := fun hj => by rw [show r.phase.isJoined = true from hj] at hjoined; cases hjoined
    books := hkin.slot ▸ hbooks
    own := hkin.slot ▸ h.own
    tells := hregs ▸ h.tells
    result := fun e? he => by rcases hp with hp | hp <;> rw [hp] at he <;> cases he }
  · have hdelivered := h.delivered
    rcases hp with hp | hp <;> simp only [Stage, hp] at hstage <;>
      simp only [pending, hp] at hdelivered ⊢
    · rw [if_neg (by rw [Bool.and_eq_true, Cursor.isResting_iff]; exact fun h => hrest h.1),
        List.append_nil] at hdelivered
      rw [hc.delivered hstage.1, hdelivered]
    · obtain ⟨rfl, -⟩ := hc.eq_of_joining (hstage.1.resolve_right hrest)
      exact hdelivered
  · rcases hp with hp | hp <;> simp only [Stage, hp] at hstage ⊢
    · obtain ⟨hnj, -, hopen, hqueue, hclean⟩ := hstage
      exact ⟨hjoin hnj, fun hr => (hstate hr).resolve_right hnj, hclosed.trans hopen, hqueue, hclean⟩
    · obtain ⟨rfl, -⟩ := hc.eq_of_joining (hstage.1.resolve_right hrest)
      exact ⟨.inr rfl, hstage.2⟩

/-- The loop goes on before the couriers are gone. -/
theorem goOn {handled' : List Fetched} {phase : Phase} (h : Fits sv feeds handled base told r s)
    (hphase : phase.isDrained = false)
    (hdelivered : handled' ++ pending { r with phase := phase } = r.cursor.delivered)
    (haccepted : handled'.filterMap Fetched.payload? = r.delivery.accepted ++ phase.offered)
    (hstage : Stage handled' { r with phase := phase })
    (hbalance : (base r.slot ++ phase.unrecordedIn r.slot).Perm
      (told r.slot ++ handled'.filterMap Fetched.refusal?)) :
    Fits sv feeds handled' base told { r with phase := phase } s :=
  { h with
    delivered := hdelivered
    accepted := haccepted
    stage := hstage
    drained := fun hd => absurd (hphase.symm.trans hd) Bool.false_ne_true
    joined := fun hj => by cases phase <;> simp_all
    balance := hbalance
    result := fun e? he => by rw [show phase = .returned e? from he] at hphase; cases hphase }

theorem value (h : Fits sv feeds handled base told r s) (hp : r.phase = .advancing)
    (hrest : r.cursor.phase = .resting) (hmore : r.cursor.more = true) :
    Fits sv feeds handled base told { r with phase := .handling } s := by
  have hstage := h.stage
  have hdelivered := h.delivered
  simp only [Stage, hp] at hstage
  simp only [pending, hp, hmore, Cursor.isResting_iff.mpr hrest, Bool.and_self, if_true]
    at hdelivered
  exact h.goOn rfl hdelivered (by simpa [hp] using h.accepted) ⟨hrest, hstage.2.2⟩
    (by simpa [hp] using h.balance)

theorem atEnd (h : Fits sv feeds handled base told r s) (hp : r.phase = .advancing)
    (hrest : r.cursor.phase = .resting) (hmore : r.cursor.more = false) :
    Fits sv feeds handled base told { r with phase := .closing } s := by
  have hstage := h.stage
  have hdelivered := h.delivered
  simp only [Stage, hp] at hstage
  simp only [pending, hp, hmore, Bool.and_false, Bool.false_eq_true, if_false] at hdelivered
  have hterminal : r.cursor.state.isTerminal = true := by
    refine Cursor.State.isTerminal_iff.mpr ⟨hstage.2.1 hrest, fun hrunning => ?_⟩
    have hclosed := h.cursor.answered hrest hmore hrunning
    rw [hstage.2.2.1] at hclosed
    cases hclosed
  exact h.goOn rfl hdelivered (by simpa [hp] using h.accepted)
    ⟨hrest, .inl ⟨hstage.2.2.2.2, hterminal⟩⟩ (by simpa [hp] using h.balance)

theorem delivered_of_handling (h : Fits sv feeds handled base told r s) (hp : r.phase = .handling)
    {f : Fetched} (hf : r.cursor.current = some f) : handled ++ [f] = r.cursor.delivered := by
  have hdelivered := h.delivered
  simpa only [pending, hp, hf, Option.toList_some] using hdelivered

theorem skip (h : Fits sv feeds handled base told r s) (hp : r.phase = .handling)
    (hf : ∀ f, r.cursor.current = some f → f.payload? = none ∧ f.refusal? = none) :
    ∃ handled', Fits sv feeds handled' base told { r with phase := .calling } s := by
  have hstage := h.stage
  have hdelivered := h.delivered
  have haccepted := h.accepted
  have hbalance := h.balance
  simp only [Stage, hp] at hstage
  simp only [pending, hp] at hdelivered
  simp only [hp] at haccepted hbalance
  obtain ⟨hrest, hopen, hqueue, hclean⟩ := hstage
  have hskip : Clean (handled ++ r.cursor.current.toList)
      ∧ r.cursor.current.toList.filterMap Fetched.payload? = [] := by
    cases hcur : r.cursor.current with
    | none => simpa using hclean
    | some f => exact ⟨hclean.concat (hf f hcur).2, by simp [(hf f hcur).1]⟩
  refine ⟨_, h.goOn rfl ((List.append_nil _).trans hdelivered) ?_
    ⟨hrest, hopen, hqueue, hskip.1⟩ ?_⟩
  · rw [List.filterMap_append, hskip.2, List.append_nil]
    exact haccepted
  · rw [hskip.1.filterMap_eq]
    rwa [hclean.filterMap_eq] at hbalance

theorem refuse (h : Fits sv feeds handled base told r s) (hp : r.phase = .handling) {f : Fetched}
    {e : Error} (hf : r.cursor.current = some f) (he : f.refusal? = some e)
    (hu : f.payload? = none) : Fits sv feeds (handled ++ [f]) base told
      { r with phase := .noting e (s.registers.path r.slot) } s := by
  have hstage := h.stage
  have haccepted := h.accepted
  have hbalance := h.balance
  simp only [Stage, hp] at hstage
  simp only [hp] at haccepted hbalance
  refine h.goOn rfl ((List.append_nil _).trans (h.delivered_of_handling hp hf)) ?_
    ⟨hstage.1, ⟨_, _, rfl, hstage.2.2.2, he⟩, by rw [h.slots.1]⟩ ?_
  · rw [List.filterMap_append, haccepted]
    simp [hu]
  · rw [h.slots.1, List.filterMap_append]
    simpa [he, ← List.append_assoc] using hbalance.append_right [e]

theorem offer (h : Fits sv feeds handled base told r s) (hp : r.phase = .handling) {f : Fetched}
    {u : Upsert} (hf : r.cursor.current = some f) (hu : f.payload? = some u)
    (he : f.refusal? = none) :
    Fits sv feeds (handled ++ [f]) base told { r with phase := .submitting u } s := by
  have hstage := h.stage
  have haccepted := h.accepted
  have hbalance := h.balance
  simp only [Stage, hp] at hstage
  simp only [hp] at haccepted hbalance
  refine h.goOn rfl ((List.append_nil _).trans (h.delivered_of_handling hp hf)) ?_
    ⟨hstage.1, hstage.2.1, hstage.2.2.1, hstage.2.2.2.concat he⟩ ?_
  · rw [List.filterMap_append, haccepted]
    simp [hu]
  · rw [List.filterMap_append]
    simpa [he] using hbalance

/-- The refusal is noted in the register of the run, and nowhere else. -/
theorem note (h : Fits sv feeds handled base told r s) {e : Error} {i : ℕ} {is : List ℕ}
    (hp : r.phase = .noting e (i :: is)) : ∃ base',
      Fits sv feeds handled base' told { r with phase := .noting e is } (s.note i e) := by
  have hstage := h.stage
  have hdelivered := h.delivered
  have haccepted := h.accepted
  have hbalance := h.balance
  simp only [Stage, hp] at hstage
  simp only [pending, hp] at hdelivered
  simp only [hp] at haccepted hbalance
  obtain ⟨hrest, hrefused, hslots⟩ := hstage
  obtain ⟨rfl, rfl⟩ : i = r.slot ∧ is = [] := by
    have hmem := hslots.subset List.mem_cons_self
    have hlen := hslots.length_le
    simp only [List.length_cons, List.length_nil] at hlen
    exact ⟨by simpa using hmem, List.length_eq_zero_iff.mp (by omega)⟩
  have hturn : Batch.Turn sv r.cursor.feeds r.cursor.workers r.cursor.slot false [(r.slot, e)]
      r.cursor.batch s r.cursor.batch (s.note r.slot e) := .note
  have hne : r.slot ≠ r.cursor.slot := by
    have hnd := h.books.valid.path_nodup r.cursor.slot
    rw [h.slots.2.2] at hnd
    simpa using hnd
  refine ⟨fun i => base i ++ notesIn i [(r.slot, e)], { h with
    slots := ?_
    delivered := hdelivered
    accepted := haccepted
    stage := ⟨hrest, hrefused, List.nil_suffix⟩
    drained := by simp
    joined := by simp
    books := h.books.turn h.cursor.batch hturn
    own := by rw [h.own, notesIn_singleton, if_neg hne]; rfl
    tells := h.tells.congr fun j => by simp
    balance := ?_
    result := by simp }⟩
  · rw [Shared.registers_note, Registers.path_note, Registers.path_note]
    exact h.slots
  · simpa using hbalance

theorem submit (h : Fits sv feeds handled base told r s) {u : Upsert}
    (hp : r.phase = .submitting u) (hopen : r.delivery.queue.closed = false) :
    Fits sv feeds handled base told { r with
      delivery := { r.delivery with
        queue := { r.delivery.queue with items := r.delivery.queue.items ++ [u] }
        accepted := r.delivery.accepted ++ [u] }
      submitted := r.submitted + 1
      phase := .calling } s := by
  have hstage := h.stage
  have hdelivered := h.delivered
  have haccepted := h.accepted
  have hbalance := h.balance
  simp only [Stage, hp] at hstage
  simp only [pending, hp] at hdelivered
  simp only [hp] at haccepted hbalance
  exact { h with
    delivery := h.delivery.submit hopen
    delivered := hdelivered
    accepted := by rw [haccepted]; exact (List.append_nil _).symm
    submitted := by rw [List.length_append]; exact congrArg (· + 1) h.submitted
    stage := hstage
    drained := by simp
    joined := by simp
    tells := ⟨h.tells.slots, h.tells.balance⟩
    balance := hbalance
    result := by simp }

theorem stop (h : Fits sv feeds handled base told r s) (hp : r.phase = .stopping) :
    Fits sv feeds handled base told { r with
      ended := r.cursor.error
      cursor := (r.cursor.close s).1
      phase := .joining } (r.cursor.close s).2 := by
  have hstage := h.stage
  have hdelivered := h.delivered
  have haccepted := h.accepted
  have hbalance := h.balance
  simp only [Stage, hp] at hstage
  simp only [pending, hp] at hdelivered
  simp only [hp] at haccepted hbalance
  obtain ⟨hkin, stops, hturn⟩ : Cursor.Kin r.cursor (r.cursor.close s).1 ∧ ∃ stops,
      Batch.Turn sv r.cursor.feeds r.cursor.workers r.cursor.slot stops [] r.cursor.batch s
        (r.cursor.close s).1.batch (r.cursor.close s).2 := Cursor.turn_of_close sv r.cursor s
  have hbooks := h.books.turn_nil h.cursor.batch hturn
  have hclose : (r.cursor.close s).1.delivered = r.cursor.delivered
      ∧ ((r.cursor.close s).1.phase = .joining ∨ (r.cursor.close s).1.phase = .resting)
      ∧ (r.cursor.close s).1.closed = true ∧ (r.cursor.close s).1.state = r.cursor.state
      ∧ (r.cursor.close s).1.error = r.cursor.error
      ∧ (∀ context, (r.cursor.close s).2.isCancelled context = s.isCancelled context) := by
    rcases r.cursor.close_cases s with ⟨hc, heq⟩ | ⟨-, heq⟩ | ⟨b, -, heq⟩ <;> rw [heq]
    · exact ⟨rfl, .inr hstage.1, hc, rfl, rfl, fun _ => rfl⟩
    · exact ⟨rfl, .inr hstage.1, rfl, rfl, rfl, fun _ => rfl⟩
    · exact ⟨rfl, .inl rfl, rfl, rfl, rfl, fun _ => by simp⟩
  obtain ⟨hsame, hphase, hclosed, hstate, herror, hcontexts⟩ := hclose
  refine { h with
    cursor := h.cursor.close hstage.1 s
    origin := hkin.feeds.trans h.origin
    slots := by rw [hturn.path, hturn.path, hkin.slot]; exact h.slots
    delivery := h.delivery.mono fun hc => (hcontexts _).trans hc
    delivered := hdelivered.trans hsame.symm
    accepted := haccepted
    stage := ⟨hphase, hclosed, hstage.2.1, ?_, herror.symm⟩
    drained := fun _ => h.drained (by rw [hp]; rfl)
    joined := by simp
    books := hkin.slot ▸ hbooks
    own := hkin.slot ▸ h.own
    tells := h.tells.congr hturn.path
    balance := hbalance
    result := by simp }
  exact hstage.2.2.imp_left fun hend => ⟨hend.1, hstate ▸ hend.2⟩

theorem loops (h : Fits sv feeds handled base told r s) (hl : Loops r s r' s') :
    ∃ handled' base', Fits sv feeds handled' base' told r' s' := by
  have hstage := h.stage
  have hdelivered := h.delivered
  have haccepted := h.accepted
  have hbalance := h.balance
  cases hl with
  | call hp => exact ⟨_, _, h.call hp⟩
  | await hp hc => exact ⟨_, _, h.await hp hc⟩
  | value hp hrest hmore => exact ⟨_, _, h.value hp hrest hmore⟩
  | atEnd hp hrest hmore => exact ⟨_, _, h.atEnd hp hrest hmore⟩
  | skip hp hf =>
    obtain ⟨handled', h'⟩ := h.skip hp hf
    exact ⟨_, _, h'⟩
  | refuse hp hf he hu => exact ⟨_, _, h.refuse hp hf he hu⟩
  | offer hp hf hu he => exact ⟨_, _, h.offer hp hf hu he⟩
  | note hp =>
    obtain ⟨base', h'⟩ := h.note hp
    exact ⟨_, _, h'⟩
  | noted hp =>
    simp only [Stage, hp] at hstage
    simp only [pending, hp] at hdelivered
    simp only [hp] at haccepted hbalance
    exact ⟨_, _, h.goOn rfl hdelivered haccepted ⟨hstage.1, .inr ⟨_, hstage.2.1⟩⟩ hbalance⟩
  | submit hp hopen => exact ⟨_, _, h.submit hp hopen⟩
  | reject hp hclosed =>
    simp only [Stage, hp] at hstage
    rw [hclosed] at hstage
    cases hstage.2.2.1
  | close hp =>
    simp only [Stage, hp] at hstage
    simp only [pending, hp] at hdelivered
    simp only [hp] at haccepted hbalance
    exact ⟨_, _, { h with
      delivery := h.delivery.close
      delivered := hdelivered
      accepted := haccepted
      stage := ⟨hstage.1, rfl, hstage.2⟩
      drained := by simp
      joined := by simp
      tells := ⟨h.tells.slots, h.tells.balance⟩
      balance := hbalance
      result := by simp }⟩
  | drained hp hover =>
    simp only [Stage, hp] at hstage
    simp only [pending, hp] at hdelivered
    simp only [hp] at haccepted hbalance
    exact ⟨_, _, { h with
      delivered := hdelivered
      accepted := haccepted
      stage := hstage
      drained := fun _ => hover
      joined := by simp
      balance := hbalance
      result := by simp }⟩
  | stop hp => exact ⟨_, _, h.stop hp⟩
  | joined hp hrest =>
    simp only [Stage, hp] at hstage
    simp only [pending, hp] at hdelivered
    simp only [hp] at haccepted hbalance
    exact ⟨_, _, { h with
      delivered := hdelivered
      accepted := haccepted
      stage := ⟨hrest, hstage.2.2⟩
      drained := fun _ => h.drained (by rw [hp]; rfl)
      joined := fun _ => h.cursor.stopped hstage.2.1 hrest
      balance := hbalance
      result := by simp }⟩
  | report hp =>
    simp only [Stage, hp] at hstage
    simp only [pending, hp] at hdelivered
    simp only [hp] at haccepted hbalance
    have hwait : Fits sv feeds handled base told r (s.say (r.warnings s.registers)) :=
      h.wait rfl fun _ => id
    exact ⟨_, _, { hwait with
      delivered := hdelivered
      accepted := haccepted
      stage := hstage
      drained := fun _ => h.drained (by rw [hp]; rfl)
      joined := fun _ => h.joined (by rw [hp]; rfl)
      balance := hbalance
      result := fun e? he => by cases he; rfl }⟩

theorem step (h : Fits sv feeds handled base told r s) {e : Event}
    (hs : r.step? sv s e = some (r', s')) :
    ∃ handled' base' told', Fits sv feeds handled' base' told' r' s' := by
  cases steps_of_step? hs with
  | loop hl =>
    obtain ⟨handled', base', h'⟩ := h.loops hl
    exact ⟨_, _, _, h'⟩
  | fetch hc => exact ⟨_, _, _, h.fetch hc⟩
  | deliver hd => exact ⟨_, _, _, h.deliver hd⟩
  | heed hc => exact ⟨_, _, _, h.heed hc⟩
  | cancel => exact ⟨_, _, _, h.cancel _⟩

/-- In the end the couriers and the loop have noted the failed writes and the refusal. -/
theorem base_perm (h : Fits sv feeds handled base told r s) {e? : Option Error}
    (hp : r.phase = .returned e?) :
    (base r.slot).Perm (r.delivery.failures ++ handled.filterMap Fetched.refusal?) := by
  have h1 := h.tells.of_isOver (h.drained (by rw [hp]; rfl)) (i := r.slot)
    (by rw [h.slots.2.1, h.slots.1]; simp)
  have h2 := h.balance
  simp only [hp, Phase.unrecordedIn, List.append_nil] at h2
  exact h2.trans (h1.append_right _)

/-- A run whose register is empty in the end had no failed writes and refused nothing. -/
theorem of_noted_eq_nil (h : Fits sv feeds handled base told r s) {e? : Option Error}
    (hp : r.phase = .returned e?) (hempty : s.registers.noted r.slot = []) :
    r.delivery.failures = [] ∧ handled.filterMap Fetched.refusal? = [] := by
  have hbase : base r.slot = [] := by
    refine List.eq_nil_iff_forall_not_mem.mpr fun x hx => ?_
    have hle := h.books.count_base_le (h.joined (by rw [hp]; rfl)) (i := r.slot)
      (by rw [h.slots.2.2]; simp) x
    rw [hempty, List.count_nil] at hle
    have := List.count_pos_iff.mpr hx
    omega
  have hperm := h.base_perm hp
  rw [hbase, List.nil_perm] at hperm
  exact List.append_eq_nil_iff.mp hperm

end Fits

/-- A run together with what its threads share, after an event. -/
def act? (sv : Services σ) (t : Run × Shared σ) (e : Event) : Option (Run × Shared σ) :=
  t.1.step? sv t.2 e

theorem fits_of_follow? {context : String} {workers : ℕ} (hw : 0 < workers)
    {s₀ : Shared σ} (hv : s₀.registers.Valid) {es : List Event}
    (hes : follow? (act? sv) (start context feeds workers s₀) es = some (r, s)) :
    ∃ handled base told, Fits sv feeds handled base told r s := by
  refine follow?_invariant (P := fun t => ∃ handled base told,
    Fits sv feeds handled base told t.1 t.2) ?_ ⟨_, _, _, fits_start sv context feeds hw hv⟩ hes
  rintro e - t t' ⟨handled, base, told, h⟩ ht
  exact h.step ht

theorem context_of_step? {e : Event} (hs : r.step? sv s e = some (r', s')) :
    r'.context = r.context := by
  cases steps_of_step? hs with
  | loop hl => cases hl <;> rfl
  | _ => rfl

theorem context_of_follow? {context : String} {workers : ℕ} {s₀ : Shared σ} {es : List Event}
    (hes : follow? (act? sv) (start context feeds workers s₀) es = some (r, s)) :
    r.context = context := by
  refine follow?_invariant (P := fun t : Run × Shared σ => t.1.context = context) ?_ rfl hes
  intro e _ t t' hc ht
  exact (context_of_step? ht).trans hc

end Run

end Ingest.Pipeline

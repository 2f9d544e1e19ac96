import Ingest.Proofs.Pipeline.Batch

/-!
# Where failures are recorded

The registers that a batch records in hold, beside what others note there, each failure of a result
once, but for those that were excused as the batch's own doing (`Ledger`). Excused are the failures
whose code is `cancelled`, as long as the caller is not cancelled, and none afterwards (`Excuses`).

So nothing is excused in a batch that was never stopped, if neither the client nor the limiter
reports a cancellation that did not happen (`Unstopped`).
-/

namespace Ingest.Pipeline

variable {σ : Type}

namespace Fetcher

/-- The failure in hand that register `i` has been told already. -/
@[simp] def recordedIn (i : ℕ) : Fetcher → List Error
  | noting _ e slots => if i ∈ slots then [] else [e]
  | publishing f => f.errors
  | _ => []

/-- The failure in hand of which it is decided whether it counts. -/
@[simp] def decided : Fetcher → List Error
  | noting _ e _ => [e]
  | publishing f => f.errors
  | _ => []

/-- The registers that the failure in hand goes through still. -/
@[simp] def slots : Fetcher → List ℕ
  | noting _ _ slots => slots
  | _ => []

end Fetcher

namespace Batch

/-- All failures so far of which it is decided whether they count. -/
def failures (b : Batch) : List Error :=
  b.published.flatMap Fetched.errors ++ b.workers.flatMap Fetcher.decided

/-- Each register of the batch holds what others noted there, `base`, and every failure that was
published or is about to be, once, unless it was excused. -/
structure Ledger (base : ℕ → List Error) (b : Batch) (rs : Registers) : Prop where
  valid : rs.Valid
  slots : ∀ w ∈ b.workers, w.slots <:+ rs.path b.slot
  balance : ∀ i ∈ rs.path b.slot, (rs.noted i ++ b.excused).Perm
    (base i ++ b.published.flatMap Fetched.errors ++ b.workers.flatMap (Fetcher.recordedIn i))

/-- Failures are excused for their code, and until the caller is cancelled all that have it are. -/
structure Excuses (b : Batch) (s : Shared σ) : Prop where
  code : ∀ e ∈ b.excused, e.code = .cancelled
  among : ∀ e, b.excused.count e ≤ b.failures.count e
  all : s.isCancelled b.caller = false → ∀ e, e.code = .cancelled →
    b.excused.count e = b.failures.count e

/-- The batch was cancelled by its caller if at all, and so were the requests that a cancellation
made fail. -/
structure Unstopped (b : Batch) (s : Shared σ) : Prop where
  heeds : b.cancelled = true → s.isCancelled b.caller = true
  failing : ∀ j e, .failing j e ∈ b.workers → e.code = .cancelled → s.isCancelled b.caller = true
  excused : b.excused = []

end Batch

/-- Neither the client nor the limiter reports a cancellation of its own. -/
structure Services.Candid (sv : Services σ) : Prop where
  send : ∀ {j w e lines w'}, sv.send j w = (.error e, lines, w') → e.code ≠ .cancelled
  ask : ∀ {w e w'}, sv.limiter.ask false w = (.refuse e, w') → e.code ≠ .cancelled

namespace Batch

section Step

variable {sv : Services σ} {b c : Batch} {s s' : Shared σ} {w w' : Fetcher}

theorem Works.valid (h : Works sv b s w w' c s') (hv : s.registers.Valid) : s'.registers.Valid := by
  cases h with
  | note => exact hv.note _ _
  | _ => exact hv

theorem Works.isCancelled (h : Works sv b s w w' c s') (context : String) :
    s'.isCancelled context = s.isCancelled context := by
  cases h <;> simp

theorem Works.slots (h : Works sv b s w w' c s') (hw : w.slots <:+ s.registers.path b.slot) :
    w'.slots <:+ s.registers.path b.slot := by
  cases h with
  | blame => exact List.suffix_rfl
  | note => exact (List.suffix_cons _ _).trans hw
  | arrive => split <;> exact List.nil_suffix
  | _ => exact List.nil_suffix

/-- A step that brings a failure nearer to being published tells a register of it, or it has been
told, or excuses it. -/
theorem Works.balance (h : Works sv b s w w' c s') (hv : s.registers.Valid)
    (hslots : w.slots <:+ s.registers.path b.slot)
    (hopen : w.isGone = false → b.results.closed = false) {i : ℕ}
    (hi : i ∈ s.registers.path b.slot) (x : Error) :
    (s'.registers.noted i).count x + c.excused.count x
        + (b.published.flatMap Fetched.errors).count x + (w.recordedIn i).count x
      = (s.registers.noted i).count x + b.excused.count x
        + (c.published.flatMap Fetched.errors).count x + (w'.recordedIn i).count x := by
  cases h with
  | note =>
    rename_i j e k ks
    have hnd : (k :: ks).Nodup := (hv.path_nodup b.slot).sublist hslots.sublist
    have hk : k ∉ ks := (List.nodup_cons.mp hnd).1
    rw [Shared.registers_note, Registers.noted_note (hv.lt_of_mem_path hi), List.count_append]
    by_cases hki : k = i
    · subst hki
      simp only [Fetcher.recordedIn, List.mem_cons, hk, or_false, ↓reduceIte, List.count_nil, add_zero]
      omega
    · simp [hki, Ne.symm hki]
  | excuse =>
    simp only [Fetcher.recordedIn, Fetched.ofJob_error_errors, List.count_append, List.count_nil]
    omega
  | blame => simp [hi]
  | publish =>
    simp only [Fetcher.recordedIn, List.flatMap_append, List.flatMap_singleton, List.count_append,
      List.count_nil]
    omega
  | lose hc =>
    rw [hopen rfl] at hc
    cases hc
  | arrive => split <;> simp
  | _ => simp

/-- As long as the caller is not cancelled, every failure with the code `cancelled` is excused. -/
theorem Works.excused (h : Works sv b s w w' c s') (hcaller : s.isCancelled b.caller = false)
    (hopen : w.isGone = false → b.results.closed = false) {x : Error} (hx : x.code = .cancelled) :
    c.excused.count x + (b.published.flatMap Fetched.errors).count x + w.decided.count x
      = b.excused.count x + (c.published.flatMap Fetched.errors).count x + w'.decided.count x := by
  cases h with
  | excuse =>
    simp only [Fetcher.decided, Fetched.ofJob_error_errors, List.count_append, List.count_nil]
    omega
  | blame ho =>
    rename_i j e
    have hne : e ≠ x := by
      rintro rfl
      simp [isOwnDoing, hx, hcaller] at ho
    simp [hne]
  | publish =>
    simp only [Fetcher.decided, List.flatMap_append, List.flatMap_singleton, List.count_append,
      List.count_nil]
    omega
  | lose hc =>
    rw [hopen rfl] at hc
    cases hc
  | arrive => split <;> simp
  | _ => simp

theorem Works.excused_le (h : Works sv b s w w' c s')
    (hopen : w.isGone = false → b.results.closed = false) (x : Error) :
    c.excused.count x + (b.published.flatMap Fetched.errors).count x + w.decided.count x
      ≤ b.excused.count x + (c.published.flatMap Fetched.errors).count x + w'.decided.count x := by
  cases h with
  | excuse =>
    simp only [Fetcher.decided, Fetched.ofJob_error_errors, List.count_append, List.count_nil]
    omega
  | publish =>
    simp only [Fetcher.decided, List.flatMap_append, List.flatMap_singleton, List.count_append,
      List.count_nil]
    omega
  | lose hc =>
    rw [hopen rfl] at hc
    cases hc
  | arrive => split <;> simp
  | _ => simp

theorem Works.excused_code (h : Works sv b s w w' c s')
    (hb : ∀ e ∈ b.excused, e.code = .cancelled) : ∀ e ∈ c.excused, e.code = .cancelled := by
  cases h with
  | excuse ho =>
    intro e he
    rcases List.mem_append.mp he with he | he
    · exact hb e he
    · rw [List.mem_singleton.mp he]
      unfold isOwnDoing at ho
      simp only [Bool.and_eq_true, decide_eq_true_eq] at ho
      exact ho.1
  | _ => exact hb

/-- Nothing is excused once the caller is cancelled. -/
theorem Works.excused_eq (h : Works sv b s w w' c s') (hcaller : s.isCancelled b.caller = true) :
    c.excused = b.excused := by
  cases h with
  | excuse ho => simp [isOwnDoing, hcaller] at ho
  | _ => rfl

/-- A failure with the code `cancelled` comes from a cancellation of the batch. -/
theorem Works.failing (h : Works sv b s w w' c s') (hcandid : sv.Candid) {j : Job} {e : Error}
    (hw' : w' = .failing j e) (he : e.code = .cancelled) : b.cancelled = true := by
  cases h with
  | refuse ha =>
    by_contra hc
    rw [Bool.not_eq_true] at hc
    rw [hc] at ha
    simp only [Fetcher.fail, Fetcher.failing.injEq] at hw'
    rw [← hw'.2] at he
    exact hcandid.ask ha he
  | giveUp hc => exact hc
  | fail hs =>
    simp only [Fetcher.fail, Fetcher.failing.injEq] at hw'
    rw [← hw'.2] at he
    exact (hcandid.send hs he).elim
  | arrive => split at hw' <;> cases hw'
  | _ => cases hw'

end Step

/-- Nothing happens to the failures of a batch: others move on, contexts may be cancelled, and the
batch may heed its caller. -/
structure Quiet (b b' : Batch) (s s' : Shared σ) : Prop where
  caller : b'.caller = b.caller
  slot : b'.slot = b.slot
  workers : b'.workers = b.workers
  published : b'.published = b.published
  excused : b'.excused = b.excused
  contexts : s.isCancelled b.caller = true → s'.isCancelled b.caller = true

variable {sv : Services σ} {feeds : List Feed} {base : ℕ → List Error} {b b' : Batch}
  {s s' : Shared σ} {rs : Registers} {k : ℕ}

namespace Ledger

theorem start (hv : rs.Valid) (caller : String) (workers slot : ℕ) (s : Shared σ)
    (hbase : ∀ i ∈ rs.path slot, (rs.noted i).Perm (base i)) :
    Ledger base (start caller feeds workers slot s).1 rs := by
  refine ⟨hv, fun w hw => ?_, fun i hi => ?_⟩
  · obtain ⟨-, rfl⟩ := List.mem_replicate.mp hw
    exact List.nil_suffix
  · simpa [Batch.start, List.flatMap_replicate] using hbase i hi

theorem step (h : Ledger base b s.registers) (hsound : Sound feeds b)
    (hs : b.step? sv k s = some (b', s')) : Ledger base b' s'.registers := by
  obtain ⟨w, w', c, hw, hworks, rfl, -⟩ := step?_cases hs
  have hmem : w ∈ b.workers := List.mem_of_getElem? hw
  have hslot : c.slot = b.slot := hworks.frame.2.2.2.1
  have hpath : s'.registers.path c.slot = s.registers.path b.slot := by rw [hworks.path, hslot]
  refine ⟨hworks.valid h.valid, ?_, fun i hi => ?_⟩
  · rw [hpath]
    exact forall_mem_set h.slots (hworks.slots (h.slots w hmem))
  · replace hi : i ∈ s.registers.path b.slot := hpath ▸ hi
    rw [List.perm_iff_count]
    intro x
    have h1 := (h.balance i hi).count_eq x
    have h2 := hworks.balance h.valid (h.slots w hmem) (hsound.open_of_mem hmem) hi x
    have h3 := count_flatMap_set (b := w') (Fetcher.recordedIn i) x hw
    simp only [List.count_append] at h1 ⊢
    omega

theorem note (h : Ledger base b rs) (j : ℕ) (e : Error) :
    Ledger (fun i => base i ++ notesIn i [(j, e)]) b (rs.note j e) := by
  refine ⟨h.valid.note j e, fun w hw => ?_, fun i hi => ?_⟩
  · rw [Registers.path_note]
    exact h.slots w hw
  · rw [Registers.path_note] at hi
    rw [Registers.noted_note (h.valid.lt_of_mem_path hi), List.perm_iff_count]
    intro x
    have h1 := (h.balance i hi).count_eq x
    simp only [notesIn, List.flatMap_singleton, List.count_append] at h1 ⊢
    omega

theorem quiet (h : Ledger base b s.registers) (hq : Quiet b b' s s')
    (hr : s'.registers = s.registers) : Ledger base b' s'.registers := by
  rw [hr]
  refine ⟨h.valid, ?_, ?_⟩
  · rw [hq.slot, hq.workers]
    exact h.slots
  · rw [hq.slot, hq.workers, hq.published, hq.excused]
    exact h.balance

/-- Once every worker is gone, a register of the batch holds what others noted there and the failures
of all results that were not excused. -/
theorem of_isOver (h : Ledger base b rs) (hover : b.isOver = true) {i : ℕ}
    (hi : i ∈ rs.path b.slot) :
    (rs.noted i ++ b.excused).Perm (base i ++ b.published.flatMap Fetched.errors) := by
  have hhand : b.workers.flatMap (Fetcher.recordedIn i) = [] := flatMap_of_isOver hover rfl
  simpa [hhand] using h.balance i hi

end Ledger

namespace Excuses

theorem start (caller : String) (workers slot : ℕ) (s s' : Shared σ) :
    Excuses (start caller feeds workers slot s).1 s' := by
  refine ⟨fun e he => ?_, fun e => ?_, fun _ e _ => ?_⟩
  · simp [Batch.start] at he
  · simp [Batch.start]
  · simp [Batch.start, failures, List.flatMap_replicate]

theorem step (h : Excuses b s) (hsound : Sound feeds b) (hs : b.step? sv k s = some (b', s')) :
    Excuses b' s' := by
  obtain ⟨w, w', c, hw, hworks, rfl, -⟩ := step?_cases hs
  have hmem : w ∈ b.workers := List.mem_of_getElem? hw
  refine ⟨hworks.excused_code h.code, fun e => ?_, fun hcaller e he => ?_⟩
  · have h1 := h.among e
    have h2 := hworks.excused_le (hsound.open_of_mem hmem) e
    have h3 := count_flatMap_set (b := w') Fetcher.decided e hw
    unfold failures at h1 ⊢
    simp only [List.count_append] at h1 ⊢
    omega
  replace hcaller : s.isCancelled b.caller = false := by
    rw [← hworks.isCancelled, ← hworks.frame.2.2.1]
    exact hcaller
  have h1 := h.all hcaller e he
  have h2 := hworks.excused hcaller (hsound.open_of_mem hmem) he
  have h3 := count_flatMap_set (b := w') Fetcher.decided e hw
  unfold failures at h1 ⊢
  simp only [List.count_append] at h1 ⊢
  omega

theorem quiet (h : Excuses b s) (hq : Quiet b b' s s') : Excuses b' s' := by
  have hfailures : b'.failures = b.failures := by
    unfold failures
    rw [hq.published, hq.workers]
  refine ⟨hq.excused ▸ h.code, fun e => ?_, fun hc => ?_⟩
  · rw [hq.excused, hfailures]
    exact h.among e
  rw [hq.caller] at hc
  rw [hq.excused, hfailures]
  refine h.all ?_
  by_contra hs
  rw [hq.contexts (by simpa using hs)] at hc
  cases hc

end Excuses

theorem count_recordedIn_le (b : Batch) (i : ℕ) (x : Error) :
    (b.workers.flatMap (Fetcher.recordedIn i)).count x
      ≤ (b.workers.flatMap Fetcher.decided).count x := by
  rw [List.count_flatMap, List.count_flatMap]
  refine List.sum_le_sum fun w _ => ?_
  cases w with
  | noting j e slots =>
    simp only [Function.comp_apply, Fetcher.recordedIn, Fetcher.decided]
    split <;> simp
  | _ => exact le_rfl

/-- Until the caller is cancelled a register holds no failure with the code `cancelled` but those
that others noted there. -/
theorem Ledger.count_noted_le (h : Ledger base b rs) (hx : Excuses b s)
    (hcaller : s.isCancelled b.caller = false) {i : ℕ} (hi : i ∈ rs.path b.slot) {x : Error}
    (hcode : x.code = .cancelled) : (rs.noted i).count x ≤ (base i).count x := by
  have h1 := (h.balance i hi).count_eq x
  have h2 := hx.all hcaller x hcode
  have h3 := count_recordedIn_le b i x
  unfold failures at h2
  simp only [List.count_append] at h1 h2
  omega

theorem Excuses.count_le_of_isOver (h : Excuses b s) (hover : b.isOver = true) (x : Error) :
    b.excused.count x ≤ (b.published.flatMap Fetched.errors).count x := by
  have hhand : b.workers.flatMap Fetcher.decided = [] := flatMap_of_isOver hover rfl
  simpa [failures, hhand] using h.among x

/-- If a register of a batch that is over is empty, then every failure was excused. -/
theorem Ledger.perm_excused (h : Ledger base b rs) (hx : Excuses b s) (hover : b.isOver = true)
    {i : ℕ} (hi : i ∈ rs.path b.slot) (hempty : rs.noted i = []) :
    (b.published.flatMap Fetched.errors).Perm b.excused := by
  have hbalance := h.of_isOver hover hi
  rw [List.perm_iff_count]
  intro x
  have h1 := hbalance.count_eq x
  have h2 := hx.count_le_of_isOver hover x
  rw [hempty, List.nil_append, List.count_append] at h1
  omega

namespace Unstopped

theorem start (caller : String) (workers slot : ℕ) (s : Shared σ) :
    Unstopped (start caller feeds workers slot s).1 (start caller feeds workers slot s).2 := by
  refine ⟨fun h => ?_, fun j e he => ?_, rfl⟩
  · simpa [Batch.start] using h
  · have := (List.mem_replicate.mp he).2
    cases this

theorem step (h : Unstopped b s) (hcandid : sv.Candid) (hs : b.step? sv k s = some (b', s')) :
    Unstopped b' s' := by
  obtain ⟨w, w', c, hw, hworks, rfl, -⟩ := step?_cases hs
  have hmem : w ∈ b.workers := List.mem_of_getElem? hw
  have hcaller : s'.isCancelled c.caller = s.isCancelled b.caller := by
    rw [hworks.isCancelled, hworks.frame.2.2.1]
  refine ⟨fun hc => ?_, ?_, ?_⟩
  · show s'.isCancelled c.caller = true
    rw [hcaller]
    exact h.heeds (hworks.frame.2.2.2.2.2 ▸ hc)
  · intro j e hj he
    show s'.isCancelled c.caller = true
    rw [hcaller]
    rcases List.mem_or_eq_of_mem_set hj with hj | hj
    · exact h.failing j e hj he
    · exact h.heeds (hworks.failing hcandid hj.symm he)
  · show c.excused = []
    rw [← h.excused]
    cases hworks with
    | excuse ho =>
      unfold isOwnDoing at ho
      simp only [Bool.and_eq_true, decide_eq_true_eq, Bool.not_eq_true'] at ho
      rw [h.failing _ _ hmem ho.1] at ho
      cases ho.2
    | _ => rfl

theorem quiet (h : Unstopped b s) (hq : Quiet b b' s s')
    (hc : b'.cancelled = true → b.cancelled = true ∨ s'.isCancelled b.caller = true) :
    Unstopped b' s' := by
  refine ⟨fun hb => ?_, ?_, hq.excused.trans h.excused⟩
  · rw [hq.caller]
    rcases hc hb with hb | hs
    · exact hq.contexts (h.heeds hb)
    · exact hs
  · rw [hq.caller, hq.workers]
    exact fun j e hj he => hq.contexts (h.failing j e hj he)

end Unstopped

/-! ### Turns

What any event can do to a batch, which may not have been started yet. -/

/-- One event, with what others note in it; the flag says whether it stops the batch. -/
inductive Turn (sv : Services σ) (feeds : List Feed) (workers slot : ℕ) :
    Bool → List (ℕ × Error) → Option Batch → Shared σ → Option Batch → Shared σ → Prop
  | start {s : Shared σ} (context : String) : Turn sv feeds workers slot false [] none s
    (some (Batch.start context feeds workers slot s).1)
    (Batch.start context feeds workers slot s).2
  | work {b b' : Batch} {s s' : Shared σ} {k : ℕ} (h : b.step? sv k s = some (b', s')) :
    Turn sv feeds workers slot false [] (some b) s (some b') s'
  | note {b? : Option Batch} {s : Shared σ} {i : ℕ} {e : Error} :
    Turn sv feeds workers slot false [(i, e)] b? s b? (s.note i e)
  | quiet {b b' : Batch} {s s' : Shared σ} (h : Quiet b b' s s')
    (hr : s'.registers = s.registers)
    (hc : b'.cancelled = true → b.cancelled = true ∨ s'.isCancelled b.caller = true) :
    Turn sv feeds workers slot false [] (some b) s (some b') s'
  | wait {s s' : Shared σ} (h : s'.registers = s.registers) :
    Turn sv feeds workers slot false [] none s none s'
  | stop {b b' : Batch} {s s' : Shared σ} (h : Quiet b b' s s')
    (hr : s'.registers = s.registers) :
    Turn sv feeds workers slot true [] (some b) s (some b') s'

/-- The ledger and the excuses of a batch, from before its start. -/
structure Books (base : ℕ → List Error) (slot : ℕ) (b? : Option Batch) (s : Shared σ) : Prop where
  valid : s.registers.Valid
  before : b? = none → ∀ i ∈ s.registers.path slot, (s.registers.noted i).Perm (base i)
  ledger : ∀ b, b? = some b → b.slot = slot ∧ Ledger base b s.registers
  excuses : ∀ b, b? = some b → Excuses b s

theorem Books.start {s : Shared σ} (hv : s.registers.Valid) (caller : String) (feeds : List Feed)
    (workers slot : ℕ) : Books s.registers.noted slot
      (some (Batch.start caller feeds workers slot s).1) (Batch.start caller feeds workers slot s).2 := by
  refine ⟨hv, by simp, ?_, ?_⟩ <;> rintro b ⟨⟩
  · exact ⟨rfl, .start hv _ _ _ _ fun _ _ => .refl _⟩
  · exact .start _ _ _ _ _

variable {b? b?' : Option Batch} {workers slot : ℕ} {stops : Bool} {notes : List (ℕ × Error)}

/-- A batch stays the same one. Nothing more is excused once its caller is cancelled, and nothing
happens to its results once it is over. -/
theorem Turn.frame (ht : Turn sv feeds workers slot stops notes (some b) s b?' s') :
    ∃ b', b?' = some b' ∧ b'.caller = b.caller ∧ b'.slot = b.slot
      ∧ (s.isCancelled b.caller = true →
        s'.isCancelled b.caller = true ∧ b'.excused = b.excused)
      ∧ (b.isOver = true →
        b'.isOver = true ∧ b'.published = b.published ∧ b'.excused = b.excused) := by
  have hquiet : ∀ b', Quiet b b' s s' → b'.caller = b.caller ∧ b'.slot = b.slot
      ∧ (s.isCancelled b.caller = true →
        s'.isCancelled b.caller = true ∧ b'.excused = b.excused)
      ∧ (b.isOver = true →
        b'.isOver = true ∧ b'.published = b.published ∧ b'.excused = b.excused) := by
    intro b' hq
    refine ⟨hq.caller, hq.slot, fun hc => ⟨hq.contexts hc, hq.excused⟩,
      fun ho => ⟨?_, hq.published, hq.excused⟩⟩
    unfold isOver at ho ⊢
    rwa [hq.workers]
  cases ht with
  | work hs =>
    refine ⟨_, rfl, ?_⟩
    have hover : b.isOver ≠ true := fun ho => by
      rw [step?_of_isOver ho] at hs
      cases hs
    obtain ⟨w, w', c, -, hworks, rfl, -⟩ := step?_cases hs
    refine ⟨hworks.frame.2.2.1, hworks.frame.2.2.2.1, fun hc => ⟨?_, hworks.excused_eq hc⟩,
      fun ho => absurd ho hover⟩
    rw [hworks.isCancelled, hc]
  | note => exact ⟨b, rfl, rfl, rfl, fun hc => ⟨hc, rfl⟩, fun ho => ⟨ho, rfl, rfl⟩⟩
  | quiet hq _ _ => exact ⟨_, rfl, hquiet _ hq⟩
  | stop hq _ => exact ⟨_, rfl, hquiet _ hq⟩

theorem Turn.path (ht : Turn sv feeds workers slot stops notes b? s b?' s') (i : ℕ) :
    s'.registers.path i = s.registers.path i := by
  cases ht with
  | start context => rfl
  | work hs =>
    obtain ⟨w, w', c, -, hworks, -, -⟩ := step?_cases hs
    exact hworks.path i
  | note => simp
  | quiet _ hr _ => rw [hr]
  | wait hr => rw [hr]
  | stop _ hr => rw [hr]

theorem Books.turn (h : Books base slot b? s) (hsound : ∀ b, b? = some b → Sound feeds b)
    (ht : Turn sv feeds workers slot stops notes b? s b?' s') :
    Books (fun i => base i ++ notesIn i notes) slot b?' s' := by
  have hsame : ∀ b s, Ledger base b s → Ledger (fun i => base i ++ notesIn i []) b s :=
    fun b s hb => by simpa using hb
  cases ht with
  | start context =>
    refine ⟨h.valid, by simp, ?_, ?_⟩ <;> rintro b ⟨⟩
    · exact ⟨rfl, hsame _ _ (.start h.valid _ _ _ _ (h.before rfl))⟩
    · exact .start _ _ _ _ _
  | @work b b' s s' k hs =>
    obtain ⟨hslot, hledger⟩ := h.ledger b rfl
    have hsb := hsound b rfl
    obtain ⟨w, w', c, -, hworks, rfl, -⟩ := step?_cases hs
    refine ⟨(hledger.step hsb hs).valid, by simp, ?_, ?_⟩ <;> rintro b' ⟨⟩
    · exact ⟨hworks.frame.2.2.2.1.trans hslot, hsame _ _ (hledger.step hsb hs)⟩
    · exact (h.excuses b rfl).step hsb hs
  | @note _ _ j e =>
    refine ⟨h.valid.note _ _, fun hb i hi => ?_, fun b hb => ?_, fun b hb => ?_⟩
    · rw [Shared.registers_note, Registers.path_note] at hi
      rw [Shared.registers_note, Registers.noted_note (h.valid.lt_of_mem_path hi)]
      simpa [notesIn] using (h.before hb i hi).append_right (if j = i then [e] else [])
    · exact ⟨(h.ledger b hb).1, (h.ledger b hb).2.note _ _⟩
    · exact (h.excuses b hb).quiet ⟨rfl, rfl, rfl, rfl, rfl, id⟩
  | @quiet b b' s s' hq hr hc =>
    refine ⟨hr ▸ h.valid, by simp, ?_, ?_⟩ <;> rintro b' ⟨⟩
    · exact ⟨hq.slot.trans (h.ledger b rfl).1, hsame _ _ ((h.ledger b rfl).2.quiet hq hr)⟩
    · exact (h.excuses b rfl).quiet hq
  | wait hs =>
    refine ⟨hs ▸ h.valid, fun _ => ?_, by simp, by simp⟩
    rw [hs]
    simpa using h.before rfl
  | @stop b b' s s' hq hr =>
    refine ⟨hr ▸ h.valid, by simp, ?_, ?_⟩ <;> rintro b' ⟨⟩
    · exact ⟨hq.slot.trans (h.ledger b rfl).1, hsame _ _ ((h.ledger b rfl).2.quiet hq hr)⟩
    · exact (h.excuses b rfl).quiet hq

/-- A register holds at least what others noted there, once the batch is over. -/
theorem Books.count_base_le (h : Books base slot b? s)
    (hover : ∀ b, b? = some b → b.isOver = true) {i : ℕ} (hi : i ∈ s.registers.path slot)
    (x : Error) : (base i).count x ≤ (s.registers.noted i).count x := by
  cases hb : b? with
  | none => exact ((h.before hb i hi).count_eq x).ge
  | some b =>
    obtain ⟨hslot, hledger⟩ := h.ledger b hb
    have h1 := (hledger.of_isOver (hover b hb) (hslot ▸ hi)).count_eq x
    have h2 := (h.excuses b hb).count_le_of_isOver (hover b hb) x
    simp only [List.count_append] at h1
    omega

theorem Books.turn_nil (h : Books base slot b? s) (hsound : ∀ b, b? = some b → Sound feeds b)
    (ht : Turn sv feeds workers slot stops [] b? s b?' s') : Books base slot b?' s' := by
  simpa using h.turn hsound ht

theorem step?_isCancelled (hs : b.step? sv k s = some (b', s')) (context : String) :
    s'.isCancelled context = s.isCancelled context := by
  obtain ⟨w, w', c, -, hworks, -, -⟩ := step?_cases hs
  exact hworks.isCancelled context

theorem Unstopped.turn (hcandid : sv.Candid) (h : ∀ b, b? = some b → Unstopped b s)
    (ht : Turn sv feeds workers slot false notes b? s b?' s') :
    ∀ b, b?' = some b → Unstopped b s' := by
  cases ht with
  | start context =>
    rintro b ⟨⟩
    exact .start _ _ _ _
  | work hs =>
    rintro b ⟨⟩
    exact (h _ rfl).step hcandid hs
  | note => exact fun b hb => (h b hb).quiet ⟨rfl, rfl, rfl, rfl, rfl, id⟩ .inl
  | quiet hq hr hc =>
    rintro b ⟨⟩
    exact (h _ rfl).quiet hq hc
  | wait hs => simp

end Batch

end Ingest.Pipeline

import Ingest.Proofs.Pipeline.Accounts
import Ingest.Proofs.Pipeline.Refinement

/-!
# Where payloads come from

Whatever is cancelled in a run and whenever, its exchanges are what the client has answered in the
events so far, in order, and each result comes from one of them or was given up (`Run.Traced`). A
result that was given up brings nothing. So the payloads that couriers take are among those of the
exchanges, none of them more often than it was brought (`Run.Fits.taken_subperm`).
-/

namespace Ingest.Pipeline

variable {σ : Type}

theorem Fetched.payload?_givenUp (p : Job × Error) : (givenUp p).payload? = none := rfl

namespace Batch

/-- The exchange that ends with the next step of worker `k`, as a list. -/
def answers (sv : Services σ) (b : Batch) (k : ℕ) (s : Shared σ) : List Exchange :=
  match b.workers[k]? with
  | some (.sending j) => [(j, (sv.send j s.world).1)]
  | _ => []

/-- What becomes of a batch apart from the steps of its workers: it is started, or its jobs stay
where they are. -/
inductive Rests (feeds : List Feed) (s : Shared σ) : Option Batch → Option Batch → Prop
  | start (caller : String) (workers slot : ℕ) :
    Rests feeds s none (some (Batch.start caller feeds workers slot s).1)
  | wait : Rests feeds s none none
  | keep {b b' : Batch} (hx : b'.exchanged = b.exchanged) (hp : b'.published = b.published)
    (hw : b'.workers = b.workers) (hj : b'.jobs = b.jobs) (hb : b'.begun = b.begun) :
    Rests feeds s (some b) (some b')

variable {sv : Services σ} {feeds : List Feed} {b b' : Batch} {b? : Option Batch} {s s' : Shared σ}
  {k : ℕ}

theorem Rests.refl : Rests feeds s b? b? := by
  cases b? with
  | none => exact .wait
  | some b => exact .keep rfl rfl rfl rfl rfl

theorem step?_exchanged (h : b.step? sv k s = some (b', s')) :
    b'.exchanged = b.exchanged ++ b.answers sv k s := by
  obtain ⟨w, w', c, hw, hworks, rfl, -⟩ := step?_cases h
  simp only [answers, hw]
  cases hworks with
  | answer hs | fail hs => simp [hs]
  | _ => simp

end Batch

namespace Cursor

variable {c c' : Cursor} {s s' : Shared σ}

theorem Calls.rests (h : Calls c s c' s') (hsound : c.Sound) :
    Batch.Rests c.feeds s c.batch c'.batch := by
  cases h with
  | start hp =>
    rw [hsound.batch_of_starting hp]
    exact .start _ _ _
  | receive hp hb =>
    rw [hb]
    exact .keep rfl rfl rfl rfl rfl
  | @conclude _ _ r hp =>
    rw [(turn_of_conclude { c with phase := .resting } s.registers r).2]
    exact .refl
  | _ => exact .refl

theorem rests_close (c : Cursor) (s : Shared σ) :
    Batch.Rests c.feeds s c.batch (c.close s).1.batch := by
  rcases c.close_cases s with ⟨-, heq⟩ | ⟨-, heq⟩ | ⟨b, hb, heq⟩ <;> rw [heq]
  · exact .refl
  · exact .refl
  · rw [hb]
    exact .keep rfl rfl rfl rfl rfl

end Cursor

namespace Run

/-- The exchange that ends in an event, as a list. -/
def answers (sv : Services σ) (t : Run × Shared σ) : Event → List Exchange
  | .fetch k => t.1.cursor.batch.elim [] fun b => b.answers sv k t.2
  | _ => []

variable {sv : Services σ} {feeds : List Feed} {handled : List Fetched} {base told : ℕ → List Error}
  {r r' : Run} {s s' : Shared σ}

theorem Loops.rests (h : Loops r s r' s') (hsound : r.cursor.Sound) :
    Batch.Rests r.cursor.feeds s r.cursor.batch r'.cursor.batch := by
  cases h with
  | call =>
    rw [(Cursor.turn_of_advance r.cursor r.context s).2]
    exact .refl
  | await _ hc => exact hc.rests hsound
  | stop => exact r.cursor.rests_close s
  | _ => exact .refl

/-- Only a worker's step takes the jobs of a batch further. -/
theorem step?_batch (hsound : r.cursor.Sound) {e : Event} (hs : r.step? sv s e = some (r', s')) :
    (∃ k b b', e = .fetch k ∧ r.cursor.batch = some b ∧ b.step? sv k s = some (b', s')
        ∧ r'.cursor.batch = some b')
      ∨ answers sv (r, s) e = [] ∧ Batch.Rests r.cursor.feeds s r.cursor.batch r'.cursor.batch := by
  cases steps_of_step? hs with
  | loop hl => exact .inr ⟨rfl, hl.rests hsound⟩
  | @fetch k _ _ hc =>
    obtain ⟨b, b', hb, hstep, rfl⟩ := Cursor.stepWorker?_cases hc
    exact .inl ⟨k, b, b', rfl, hb, hstep, rfl⟩
  | heed hc =>
    obtain ⟨b, hb, -, rfl⟩ := Cursor.heed?_cases hc
    refine .inr ⟨rfl, ?_⟩
    rw [hb]
    exact .keep rfl rfl rfl rfl rfl
  | deliver | cancel => exact .inr ⟨rfl, .refl⟩

/-- The exchanges of a run are `xs`, and its jobs have led to these or were given up, if they are not
on their way still. -/
structure Traced (feeds : List Feed) (xs : List Exchange) (r : Run) : Prop where
  exchanges : r.exchanges = xs
  accounts : ∀ b, r.cursor.batch = some b → ∃ given, b.Accounts feeds given

namespace Traced

variable {xs : List Exchange}

theorem rest (h : Traced feeds xs r)
    (hrests : Batch.Rests feeds s r.cursor.batch r'.cursor.batch) : Traced feeds xs r' := by
  obtain ⟨hxs, haccounts⟩ := h
  unfold Run.exchanges at hxs
  generalize hb : r.cursor.batch = b?, hb' : r'.cursor.batch = b?' at hrests hxs haccounts
  cases hrests with
  | start caller workers slot =>
    refine ⟨by rw [Run.exchanges, hb', ← hxs]; rfl, fun b heq => ?_⟩
    obtain rfl := Option.some.inj (hb'.symm.trans heq)
    exact ⟨[], .start caller feeds workers slot s⟩
  | wait => exact ⟨by rw [Run.exchanges, hb', ← hxs], by simp [hb']⟩
  | @keep b b' hx hp hw hj hbegun =>
    refine ⟨by rw [Run.exchanges, hb', ← hxs]; exact hx, fun b₁ heq => ?_⟩
    obtain rfl := Option.some.inj (hb'.symm.trans heq)
    obtain ⟨given, h⟩ := haccounts b rfl
    exact ⟨given, h.congr hx hp hw hj hbegun⟩

theorem step (h : Traced feeds xs r) (hfits : Fits sv feeds handled base told r s)
    (hlimiter : sv.limiter.IsBuiltIn) {e : Event} (hs : r.step? sv s e = some (r', s')) :
    Traced feeds (xs ++ answers sv (r, s) e) r' := by
  have hsound := hfits.cursor
  rcases step?_batch hsound hs with ⟨k, b, b', rfl, hb, hstep, hb'⟩ | ⟨hnone, hrests⟩
  · obtain ⟨given, haccounts⟩ := h.accounts b hb
    refine ⟨?_, fun b₁ heq => ?_⟩
    · rw [Faithful.exchanges_eq hb', Batch.step?_exchanged hstep, ← h.exchanges,
        Faithful.exchanges_eq hb, answers, hb]
      rfl
    · obtain rfl := Option.some.inj (hb'.symm.trans heq)
      exact haccounts.step hlimiter (hfits.origin ▸ hsound.batch b hb) hstep
  · rw [hnone, List.append_nil]
    exact h.rest (hfits.origin ▸ hrests)

/-- What was published brings what exchanges have brought. -/
theorem published (h : Traced feeds xs r) :
    ((Cursor.published r.cursor.batch).filterMap Fetched.payload?).Subperm
      ((xs.map Exchange.fetched).filterMap Fetched.payload?) := by
  cases hb : r.cursor.batch with
  | none => exact List.nil_subperm
  | some b =>
    obtain ⟨given, haccounts⟩ := h.accounts b hb
    have hgiven : (given.map Fetched.givenUp).filterMap Fetched.payload? = [] := by
      rw [List.filterMap_map]
      exact List.filterMap_eq_nil_iff.mpr fun p _ => Fetched.payload?_givenUp p
    have hperm := haccounts.results.symm.filterMap Fetched.payload?
    rw [List.filterMap_append, List.filterMap_append, hgiven, List.append_nil,
      ← Faithful.exchanges_eq hb, h.exchanges] at hperm
    exact (List.sublist_append_left _ _).subperm.trans hperm.subperm

end Traced

theorem traced_of_follow? (hlimiter : sv.limiter.IsBuiltIn) {context : String} {workers : ℕ}
    (hw : 0 < workers) {s₀ : Shared σ} (hv : s₀.registers.Valid) {es : List Event}
    (hes : follow? (act? sv) (start context feeds workers s₀) es = some (r, s)) :
    Traced feeds (along (act? sv) (answers sv) (start context feeds workers s₀) es) r := by
  refine follow?_induction (fun es t => Traced feeds
    (along (act? sv) (answers sv) (start context feeds workers s₀) es) t.1)
    ⟨rfl, by simp [start, Cursor.ofFeeds]⟩ ?_ es hes
  intro es e t t' ht h hs
  obtain ⟨handled, base, told, hfits⟩ := fits_of_follow? hw hv ht
  rw [along_append _ _ ht, along_singleton _ hs]
  exact h.step hfits hlimiter hs

/-- What couriers take was brought by exchanges, each by another one. -/
theorem Fits.taken_subperm (h : Fits sv feeds handled base told r s) {xs : List Exchange}
    (htraced : Traced feeds xs r) :
    r.delivery.taken.Subperm ((xs.map Exchange.fetched).filterMap Fetched.payload?) := by
  have htaken : r.delivery.taken.Sublist (handled.filterMap Fetched.payload?) := by
    rw [h.accepted, ← h.delivery.conserved, List.append_assoc]
    exact List.sublist_append_left _ _
  have hhandled : handled.Sublist (Cursor.published r.cursor.batch) := by
    rw [← h.cursor.conserved, ← h.delivered, List.append_assoc, List.append_assoc]
    exact List.sublist_append_left _ _
  exact (htaken.trans (hhandled.filterMap _)).subperm.trans htraced.published

end Run

end Ingest.Pipeline

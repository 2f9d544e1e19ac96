import Ingest.Proofs.Pipeline.Progress
import Ingest.Proofs.Pipeline.World

/-!
# The run that is carried out returns

At a pace that bars nobody there is always a next move until the run has returned
(`Run.returned_of_next?_eq_none`). Each move makes less of what is left to do: a thread moves, or the
batch takes note of a cancellation, which it does once (`Cursor.heedable`). The number of moves that
are made is large enough for all of them (`Run.returned_carryOut`).
-/

namespace Ingest.Pipeline

variable {σ : Type}

/-- If every move makes a number smaller, so many moves leave none. -/
theorem settle_stuck {τ : Type} {next? : τ → Option τ} (P : τ → Prop) (left : τ → ℕ)
    (hnext : ∀ t t', P t → next? t = some t' → P t' ∧ left t' + 1 ≤ left t) {n : ℕ} {t : τ} (ht : P t)
    (hleft : left t ≤ n) : P (settle next? n t) ∧ next? (settle next? n t) = none := by
  induction n generalizing t with
  | zero =>
    refine ⟨ht, ?_⟩
    rw [Option.eq_none_iff_forall_not_mem]
    intro t' ht'
    have := (hnext t t' ht ht').2
    omega
  | succ n ih =>
    unfold settle
    cases hn : next? t with
    | none => exact ⟨ht, hn⟩
    | some t' =>
      obtain ⟨ht', hless⟩ := hnext t t' ht hn
      exact ih ht' (by omega)

/-- At this pace nothing is held back for ever, and no exchange cancels a context. -/
structure Pace.Free (p : Pace) : Prop where
  reach : p.reach = none
  wakes : p.wakes = true
  cancels : ∀ n, p.cancels n = none

namespace Pace.Free

variable {p : Pace}

theorem moveOf (h : p.Free) (s : Shared σ) (k : ℕ) (w : Fetcher) : p.moveOf s k w = .work k := by
  cases w <;> simp [Pace.moveOf, h.cancels]

theorem bars (h : p.Free) (w : Fetcher) : p.bars w = false := by
  cases w <;> simp [Pace.bars, Pace.reaches, h.reach, h.wakes]

end Pace.Free

theorem Pace.lowest_eq_none {α : Type} {xs : List (ℕ × α)} (h : lowest xs = none) : xs = [] := by
  cases xs with
  | nil => rfl
  | cons x xs => cases h

theorem Pace.lowest_mem {α : Type} {xs : List (ℕ × α)} {a : α} (h : lowest xs = some a) :
    ∃ n, (n, a) ∈ xs := by
  cases xs with
  | nil => cases h
  | cons x xs =>
    obtain rfl := Option.some.inj h
    suffices hmem : ∀ (ys : List (ℕ × α)) (y : ℕ × α),
        ys.foldl (fun best y => if y.1 < best.1 then y else best) y ∈ y :: ys from ⟨_, hmem xs x⟩
    intro ys
    induction ys with
    | nil => simp
    | cons z ys ih =>
      intro y
      rw [List.foldl_cons]
      have := ih (if z.1 < y.1 then z else y)
      split_ifs at this ⊢ <;> simp only [List.mem_cons] at this ⊢ <;> tauto

/-- A worker who is held back has not left. -/
theorem Pace.isGone_of_held? {p : Pace} {b : Batch} {w : Fetcher} {n : ℕ}
    (h : p.held? b w = some n) : w.isGone = false := by
  cases w <;> first | rfl | cases h

namespace Cursor

/-- How often the batch can take note of a cancellation. -/
def heedable (c : Cursor) : ℕ :=
  match c.batch with
  | some b => if b.cancelled then 0 else 1
  | none => 1

variable {c c' : Cursor} {s s' : Shared σ}

theorem heedable_le_one (c : Cursor) : c.heedable ≤ 1 := by
  unfold heedable
  split
  · split_ifs <;> omega
  · exact le_rfl

theorem heedable_close (c : Cursor) (s : Shared σ) : (c.close s).1.heedable ≤ c.heedable := by
  rcases c.close_cases s with ⟨-, heq⟩ | ⟨-, heq⟩ | ⟨b, hb, heq⟩ <;> rw [heq]
  · exact le_rfl
  · exact Nat.zero_le _

theorem heedable_advance (c : Cursor) (context : String) (s : Shared σ) :
    (c.advance context s).heedable = c.heedable := by
  rw [heedable, heedable, (turn_of_advance c context s).2]

theorem Calls.heedable_le (h : c.Calls s c' s') (hsound : c.Sound) : c'.heedable ≤ c.heedable := by
  cases h with
  | start hp =>
    rw [show c.heedable = 1 by simp [heedable, hsound.batch_of_starting hp]]
    exact heedable_le_one _
  | receive hp hb hi => simp [heedable, hb]
  | conclude hp => simp only [heedable, turn_of_conclude, le_refl]
  | _ => exact le_rfl

theorem heedable_heed (h : c.heed? s = some c') : c'.heedable + 1 = c.heedable := by
  obtain ⟨b', hb', rfl⟩ := Option.map_eq_some_iff.mp h
  obtain ⟨b, hb, hheed⟩ := Option.bind_eq_some_iff.mp hb'
  unfold Batch.heed? at hheed
  split_ifs at hheed with hc
  obtain rfl := Option.some.inj hheed
  have hlive : b.cancelled = false := by simpa using (Bool.and_eq_true_iff.mp hc).1
  simp [heedable, hb, hlive]

end Cursor

namespace Run

variable {sv : Services σ} {feeds : List Feed} {handled : List Fetched} {base told : ℕ → List Error}
  {r r' : Run} {s s' : Shared σ} {p : Pace}

/-- Each event but a cancellation leaves less to do. -/
theorem Fits.left_lt (h : Fits sv feeds handled base told r s) {e : Event}
    (he : e.isThread = true ∨ e = .heed) (hs : r.step? sv s e = some (r', s')) :
    r'.load sv.writers.length + r'.cursor.heedable + 1
      ≤ r.load sv.writers.length + r.cursor.heedable := by
  have hload := h.step_load hs
  cases steps_of_step? hs with
  | loop hl =>
    have hheedable : r'.cursor.heedable ≤ r.cursor.heedable := by
      cases hl with
      | call => exact (r.cursor.heedable_advance _ _).le
      | await _ hc => exact hc.heedable_le h.cursor
      | stop => exact r.cursor.heedable_close s
      | _ => exact le_rfl
    simp only [Event.isThread, if_true] at hload
    omega
  | @fetch k c _ hc =>
    have hheedable : c.heedable = r.cursor.heedable := by
      obtain ⟨b, b', hb, hb', rfl⟩ := Cursor.stepWorker?_cases hc
      obtain ⟨w, w', b₁, -, hworks, rfl, -⟩ := Batch.step?_cases hb'
      simp [Cursor.heedable, hb, hworks.frame.2.2.2.2.2]
    simp only [Event.isThread, if_true] at hload
    show load _ { r with cursor := c } + c.heedable + 1 ≤ _
    omega
  | deliver =>
    simp only [Event.isThread, if_true] at hload
    exact Nat.add_right_comm _ _ _ ▸ Nat.add_le_add_right hload _
  | @heed c hc =>
    have := Cursor.heedable_heed hc
    simp only [Event.isThread, Bool.false_eq_true, if_false, Nat.add_zero] at hload
    show load _ { r with cursor := c } + c.heedable + 1 ≤ _
    omega
  | cancel => simp at he

theorem mem_candidates (hp : p.Free) {e : Event} (he : e ∈ r.candidates p s) :
    e.isThread = true ∨ e = .heed := by
  have hwork : ∀ k w, eventOf (p.moveOf s k w) = .fetch k := fun k w => by rw [hp.moveOf]; rfl
  simp only [candidates, List.mem_append, List.mem_map, List.mem_singleton] at he
  rcases he with (((rfl | ⟨m, hm, rfl⟩) | rfl) | ⟨k, -, rfl⟩) | ⟨m, hm, rfl⟩
  · exact .inr rfl
  · cases hb : r.cursor.batch with
    | none => simp [hb] at hm
    | some b =>
      simp only [hb, Pace.prompt, List.mem_filterMap] at hm
      obtain ⟨⟨w, k⟩, -, hm⟩ := hm
      split at hm
      · obtain rfl := Option.some.inj hm
        exact .inl (by rw [hwork]; rfl)
      · cases hm
  · exact .inl rfl
  · exact .inl rfl
  · cases hb : r.cursor.batch with
    | none => simp [hb] at hm
    | some b =>
      simp only [hb, Option.mem_toList, Pace.late] at hm
      obtain ⟨n, hm⟩ := Pace.lowest_mem hm
      obtain ⟨⟨w, k⟩, -, hm⟩ := List.mem_filterMap.mp hm
      split_ifs at hm
      obtain ⟨n', -, hm⟩ := Option.map_eq_some_iff.mp hm
      obtain ⟨rfl, rfl⟩ := Prod.mk.inj hm
      exact .inl (by rw [hwork]; rfl)

/-- If a worker can move, one of those can whose turn it is. -/
theorem exists_fetch_mem_candidates (hp : p.Free) {b : Batch} (hb : r.cursor.batch = some b)
    (hsound : b.Sound feeds) {k : ℕ} (hk : (r.step? sv s (.fetch k)).isSome) :
    ∃ e ∈ r.candidates p s, (r.step? sv s e).isSome := by
  have hmoves : ∀ i w, b.workers[i]? = some w → w.isGone = false →
      (r.step? sv s (.fetch i)).isSome := by
    intro i w hw hgone
    have := hsound.step?_isSome sv s hw hgone
    simpa [step?, Cursor.stepWorker?, hb] using this
  obtain ⟨w, hw⟩ : ∃ w, b.workers[k]? = some w := by
    by_contra hnone
    have hnone : b.workers[k]? = none :=
      Option.eq_none_iff_forall_ne_some.mpr (not_exists.mp hnone)
    simp [step?, Cursor.stepWorker?, hb, Batch.step?, hnone] at hk
  have hmem : (w, k) ∈ b.workers.zipIdx := List.mem_zipIdx_iff_getElem?.mpr hw
  cases hheld : p.held? b w with
  | none =>
    refine ⟨.fetch k, ?_, hk⟩
    simp only [candidates, hb, List.mem_append, List.mem_map]
    refine .inl (.inl (.inl (.inr ⟨.work k, ?_, rfl⟩)))
    refine List.mem_filterMap.mpr ⟨(w, k), hmem, ?_⟩
    simp [hheld, hp.moveOf]
  | some n =>
    have hlate : p.late b s ≠ none := by
      intro hnone
      have hempty := Pace.lowest_eq_none hnone
      rw [List.filterMap_eq_nil_iff] at hempty
      simpa [hp.bars, hheld] using hempty (w, k) hmem
    obtain ⟨m, hm⟩ := Option.ne_none_iff_exists'.mp hlate
    obtain ⟨n', hm'⟩ := Pace.lowest_mem hm
    obtain ⟨⟨w', k'⟩, hmem', hm'⟩ := List.mem_filterMap.mp hm'
    simp only [hp.bars, Bool.false_eq_true, if_false] at hm'
    obtain ⟨n'', hheld', hm'⟩ := Option.map_eq_some_iff.mp hm'
    obtain ⟨-, rfl⟩ := Prod.mk.inj hm'
    refine ⟨.fetch k', ?_, hmoves k' w' (List.mem_zipIdx_iff_getElem?.mp hmem')
      (Pace.isGone_of_held? hheld')⟩
    simp only [candidates, hb, hm, List.mem_append, List.mem_map]
    exact .inr ⟨_, List.mem_singleton_self _, by rw [hp.moveOf]; rfl⟩

/-- There is a next move until the run has returned. -/
theorem Fits.returned_of_next?_eq_none (h : Fits sv feeds handled base told r s)
    (hready : Ready feeds r) (hp : p.Free) (hnone : next? sv p (r, s) = none) :
    r.returned? ≠ none := by
  intro hreturned
  obtain ⟨e, hthread, hmoves⟩ := h.exists_step hready hreturned
  suffices hcandidate : ∃ e ∈ r.candidates p s, (r.step? sv s e).isSome by
    obtain ⟨e, he, hmoves⟩ := hcandidate
    have := List.findSome?_eq_none_iff.mp hnone e he
    simp [this] at hmoves
  cases e with
  | loop => exact ⟨.loop, by simp [candidates], hmoves⟩
  | fetch k =>
    cases hb : r.cursor.batch with
    | none => simp [act?, step?, Cursor.stepWorker?, hb] at hmoves
    | some b => exact exists_fetch_mem_candidates hp hb (h.cursor.batch b hb) hmoves
  | deliver k =>
    refine ⟨.deliver k, ?_, hmoves⟩
    have hk : k < r.delivery.couriers.length := by
      by_contra hlarge
      have hnone : r.delivery.couriers[k]? = none := by simpa using hlarge
      simp [act?, step?, Delivery.step?, hnone] at hmoves
    simp [candidates, hk]
  | _ => cases hthread

theorem load_start_le (context : String) (feeds : List Feed) (workers writers : ℕ) (s : Shared σ) :
    (start context feeds workers s).1.load writers + 1
      ≤ stepBound feeds.length workers writers := by
  have hload := load_start context feeds workers writers s
  have hcount : Batch.workerCount workers feeds.length ≤ workers + 1 := by
    unfold Batch.workerCount
    omega
  have hmul : feeds.length * (3 * writers + 22) ≤ feeds.length * (40 + 4 * writers) :=
    Nat.mul_le_mul_left _ (by omega)
  have hsucc : (feeds.length + 1) * (40 + 4 * writers)
      = feeds.length * (40 + 4 * writers) + (40 + 4 * writers) := Nat.succ_mul _ _
  rw [hload, stepBound]
  omega

/-- The run that is carried out returns, whatever the limiter, the client and the storages do. -/
theorem returned_carryOut (sv : Services σ) (hp : p.Free) (context : String) (feeds : List Feed)
    {workers : ℕ} (hw : 0 < workers) {s₀ : Shared σ} (hv : s₀.registers.Valid) :
    (carryOut sv p context feeds workers s₀).1.returned? ≠ none := by
  have hstuck : ((∃ handled base told, Fits sv feeds handled base told
        (carryOut sv p context feeds workers s₀).1 (carryOut sv p context feeds workers s₀).2)
      ∧ Ready feeds (carryOut sv p context feeds workers s₀).1)
      ∧ next? sv p (carryOut sv p context feeds workers s₀) = none := by
    refine settle_stuck
      (fun t : Run × Shared σ => (∃ handled base told, Fits sv feeds handled base told t.1 t.2)
        ∧ Ready feeds t.1)
      (fun t => t.1.load sv.writers.length + t.1.cursor.heedable) ?_
      ⟨⟨_, _, _, fits_start sv context feeds hw hv⟩, ready_start ..⟩ ?_
    · rintro t t' ⟨⟨handled, base, told, hfits⟩, hready⟩ ht
      obtain ⟨e, he, hs⟩ := List.exists_of_findSome?_eq_some ht
      exact ⟨⟨hfits.step hs, hready.step hs⟩, hfits.left_lt (mem_candidates hp he) hs⟩
    · have := load_start_le context feeds workers sv.writers.length s₀
      have := (start context feeds workers s₀).1.cursor.heedable_le_one
      omega
  obtain ⟨⟨⟨handled, base, told, hfits⟩, hready⟩, hnone⟩ := hstuck
  exact hfits.returned_of_next?_eq_none hready hp hnone

end Run

end Ingest.Pipeline

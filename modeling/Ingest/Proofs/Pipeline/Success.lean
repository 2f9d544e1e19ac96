import Ingest.Proofs.Pipeline.Fetching
import Ingest.Proofs.Pipeline.Run

/-!
# What a success means

A run that returns no error has handled a result for every feed, and every payload that it handed over
was written once to every storage, but for those that are queued still. Some are only if the context
was cancelled (`success_delivers_what_was_taken`).

That can happen after the cursor has come to its end: the couriers leave with payloads in the queue,
nothing is recorded, and the run returns as if all was well (`success_after_late_cancellation`).
-/

namespace Ingest.Pipeline

variable {σ : Type}

namespace Run

variable {sv : Services σ} {feeds : List Feed} {handled : List Fetched} {base told : ℕ → List Error}
  {r : Run} {s : Shared σ}

theorem returned?_eq_some {e? : Option Error} :
    r.returned? = some e? ↔ r.phase = .returned e? := by
  unfold returned?
  cases r.phase <;> simp

namespace Fits

theorem ended (h : Fits sv feeds handled base told r s) {e? : Option Error}
    (hp : r.phase = .returned e?) :
    handled = r.cursor.delivered ∧ r.cursor.phase = .resting ∧ Ended handled r.cursor
      ∧ r.ended = r.cursor.error := by
  have hstage := h.stage
  have hdelivered := h.delivered
  simp only [Stage, hp] at hstage
  simp only [pending, hp, List.append_nil] at hdelivered
  exact ⟨hdelivered, hstage.1, hstage.2.2.1, hstage.2.2.2⟩

/-- A run that returns no error has found nothing in its register, and the cursor exhausted. -/
theorem of_success (h : Fits sv feeds handled base told r s) (hp : r.phase = .returned none) :
    s.registers.noted r.slot = [] ∧ r.cursor.state = .exhausted ∧ Clean r.cursor.delivered := by
  obtain ⟨hall, -, hended, herror⟩ := h.ended hp
  have hresult := h.result none hp
  unfold Run.result at hresult
  split at hresult
  · cases hresult
  rename_i hnone
  have hnoted := (Registers.error?_eq_none h.books.valid).mp hnone
  have hrefusals := (h.of_noted_eq_nil hp hnoted).2
  have hnone : r.cursor.error = none := by
    rw [← herror]
    exact Option.map_eq_none_iff.mp hresult.symm
  rcases hended with ⟨hclean, hterminal⟩ | ⟨e, hrefused⟩
  · exact ⟨hnoted, (h.cursor.error hterminal).mp hnone, hall ▸ hclean⟩
  · rw [hrefused.filterMap_eq] at hrefusals
    cases hrefusals

end Fits

/-- A run that returns no error, whatever the limiter, the client and the storages did and whenever
which context was cancelled: the cursor is exhausted and has delivered a result for every feed, all
payloads that these brought were handed over, and no write failed. Each payload was written once to
every storage, but for those that are queued still; so all were written if and only if the couriers
have left nothing in the queue. If they have, the context is cancelled. -/
theorem success_delivers_what_was_taken (sv : Services σ) (context : String) (feeds : List Feed)
    {cores : ℕ} (hcores : 0 < cores) (workers : ℕ) {s₀ : Shared σ} (hvalid : s₀.registers.Valid)
    (es : List Event)
    (h : follow? (act? sv) (start context feeds (Batch.workersOr cores workers) s₀) es
      = some (r, s)) (hsuccess : r.returned? = some none) :
    r.cursor.state = .exhausted
      ∧ (r.cursor.delivered.map Fetched.address).Perm (feeds.map addressOf)
      ∧ r.delivery.accepted = r.cursor.delivered.filterMap Fetched.payload?
      ∧ r.submitted = r.delivery.accepted.length
      ∧ (∀ w ∈ r.delivery.writes, w.failure = none)
      ∧ (∀ k < sv.writers.length,
        (r.delivery.writesTo k ++ r.delivery.queue.items).Perm r.delivery.accepted)
      ∧ (∀ k < sv.writers.length,
        (r.delivery.writesTo k).Perm r.delivery.accepted ↔ r.delivery.queue.items = [])
      ∧ (r.delivery.queue.items ≠ [] → s.isCancelled context = true) := by
  have hw : 0 < Batch.workersOr cores workers := by
    unfold Batch.workersOr
    split <;> omega
  obtain ⟨handled, base, told, hfits⟩ := fits_of_follow? hw hvalid h
  have hp := returned?_eq_some.mp hsuccess
  obtain ⟨hnoted, hexhausted, -⟩ := hfits.of_success hp
  obtain ⟨hall, hrest, -, -⟩ := hfits.ended hp
  obtain ⟨b, hb, hover, hdelivered⟩ := hfits.cursor.delivered_eq (.inl hexhausted) (.inl hrest)
  have hbatch := hfits.cursor.batch b hb
  rw [hfits.origin] at hbatch
  obtain ⟨hwritten, hleft⟩ := hfits.delivery.of_isOver (hfits.drained (by rw [hp]; rfl))
  have haccepted := hfits.accepted
  simp only [hp, Phase.offered, List.append_nil, hall] at haccepted
  have hfailures := (hfits.of_noted_eq_nil hp hnoted).1
  refine ⟨hexhausted, hdelivered ▸ hbatch.published_perm hover, haccepted.symm, hfits.submitted,
    List.filterMap_eq_nil_iff.mp hfailures, hwritten, fun k hk => ⟨fun hperm => ?_, fun hi => ?_⟩,
    fun hi => ?_⟩
  · have hlen := ((hwritten k hk).trans hperm.symm).length_eq
    rw [List.length_append] at hlen
    exact List.length_eq_zero_iff.mp (by omega)
  · simpa [hi] using hwritten k hk
  · rw [hfits.context, context_of_follow? h] at hleft
    exact hleft.resolve_left fun hq => hi hq.2

/-- A storage that takes every payload. -/
def sink : Writer Unit :=
  { type := "memory", upsert := fun _ _ w => (.ok 1, w) }

/-- One feed, one worker and one courier, who writes the payload before the loop looks for the next
result. -/
theorem success_delivers_what_was_taken_undisturbed :
    ∃ r s, follow? (act? (.constant (.ok ⟨200, "a", [], []⟩) [sink]))
        (start "ctx" [⟨{ url := "a" }, "", "t"⟩] (Batch.workersOr 4 1) { world := () })
        (List.flatten [List.replicate 3 .loop, List.replicate 8 (.fetch 0), List.replicate 5 .loop,
          List.replicate 5 (.deliver 0), List.replicate 6 .loop, List.replicate 4 (.deliver 0),
          List.replicate 5 .loop]) = some (r, s)
      ∧ r.delivery.accepted = [⟨"t", "", [], .json⟩]
      ∧ (r.delivery.writesTo 0).Perm r.delivery.accepted := by
  have hrun : ∃ r s, follow? (act? (.constant (.ok ⟨200, "a", [], []⟩) [sink]))
        (start "ctx" [⟨{ url := "a" }, "", "t"⟩] (Batch.workersOr 4 1) { world := () })
        (List.flatten [List.replicate 3 .loop, List.replicate 8 (.fetch 0), List.replicate 5 .loop,
          List.replicate 5 (.deliver 0), List.replicate 6 .loop, List.replicate 4 (.deliver 0),
          List.replicate 5 .loop]) = some (r, s)
      ∧ r.returned? = some none ∧ r.delivery.accepted = [⟨"t", "", [], .json⟩]
      ∧ r.delivery.queue.items = [] := ⟨_, _, rfl, rfl, rfl, rfl⟩
  obtain ⟨r, s, h, hsuccess, haccepted, hqueue⟩ := hrun
  have hwritten := (success_delivers_what_was_taken _ _ _ (by decide) _ Registers.valid_nil _ h
    hsuccess).2.2.2.2.2.2.1
  exact ⟨r, s, h, haccepted, (hwritten 0 (by decide)).mpr hqueue⟩

/-- The context is cancelled when the cursor is exhausted and the payload is queued still: the run
returns no error, and the payload is written nowhere. -/
theorem success_after_late_cancellation :
    ∃ r s, follow? (act? (.constant (.ok ⟨200, "a", [], []⟩) [sink]))
        (start "ctx" [⟨{ url := "a" }, "", "t"⟩] (Batch.workersOr 4 1) { world := () })
        (List.flatten [List.replicate 3 .loop, List.replicate 8 (.fetch 0), List.replicate 11 .loop,
          [.cancel "ctx"], List.replicate 4 (.deliver 0), List.replicate 5 .loop]) = some (r, s)
      ∧ r.returned? = some none
      ∧ r.delivery.accepted = [⟨"t", "", [], .json⟩]
      ∧ r.delivery.writes = [] :=
  ⟨_, _, rfl, rfl, rfl, rfl⟩

end Run

end Ingest.Pipeline

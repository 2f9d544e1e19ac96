import Ingest.Proofs.Pipeline.Faithful
import Ingest.Proofs.Pipeline.Success
import Ingest.Proofs.Pipeline.World

/-!
# A run is a sequential loop

While its context is not cancelled, a run of workers and couriers does what one loop would do that
sends the requests one after the other and writes what they bring (`refines_sequential_loop`). With
one worker and one courier the order is the same too. What is written is what the storages are
called for (`act?_calls`).
-/

namespace Ingest.Pipeline

variable {σ : Type}

namespace Run

/-- The requests that were sent, in the order in which they were answered. -/
def exchanges (r : Run) : List Exchange :=
  match r.cursor.batch with
  | some b => b.exchanged
  | none => []

namespace Faithful

variable {sv : Services σ} {feeds : List Feed} {handled : List Fetched} {base told : ℕ → List Error}
  {workers : ℕ} {r : Run} {s : Shared σ} {b : Batch} {e? : Option Error}

/-- Everything that was accepted was written, in order if there is one courier. -/
theorem written (h : Faithful feeds workers r s) (hfits : Fits sv feeds handled base told r s)
    (hp : r.phase = .returned e?) {k : ℕ} (hk : k < sv.writers.length) :
    (r.delivery.writesTo k).Perm r.delivery.accepted
      ∧ (workers = 1 → r.delivery.writesTo k = r.delivery.accepted) := by
  have hover : r.delivery.isOver = true := hfits.drained (by rw [hp]; rfl)
  obtain ⟨hwritten, hleft⟩ := hfits.delivery.of_isOver hover
  rw [hfits.context, h.quiet] at hleft
  obtain ⟨-, hqueue⟩ := hleft.resolve_right (by simp)
  constructor
  · simpa [hqueue] using hwritten k hk
  · intro hone
    exact hfits.delivery.eq_of_isOver hover (h.staff.2.trans hone) hqueue hk

/-- The payloads that were accepted are those of the results that were delivered. -/
theorem accepted_eq (hfits : Fits sv feeds handled base told r s) (hp : r.phase = .returned e?) :
    r.delivery.accepted = r.cursor.delivered.filterMap Fetched.payload? := by
  have haccepted := hfits.accepted
  rw [(hfits.ended hp).1] at haccepted
  simpa [hp] using haccepted.symm

/-- The run comes to its end with its batch, unless a result is refused. -/
theorem concluded (h : Faithful feeds workers r s) (hfits : Fits sv feeds handled base told r s)
    (hp : r.phase = .returned e?) :
    ∃ b, r.cursor.batch = some b
      ∧ ((Clean r.cursor.delivered ∧ (r.cursor.state = .exhausted ∨ r.cursor.state = .errored)
          ∧ b.isOver = true ∧ b.excused = [] ∧ b.Answers feeds ∧ r.cursor.delivered = b.published)
        ∨ ∃ e, Refused r.cursor.delivered e) := by
  obtain ⟨hall, hrest, hended, -⟩ := hfits.ended hp
  rw [hall] at hended
  rcases hended with ⟨hclean, hterminal⟩ | ⟨e, hrefused⟩
  · have hend := Cursor.State.ended_of_isTerminal hterminal h.uncancelled
    obtain ⟨b, hb, hover, hexcused, hanswers⟩ := h.finished (by rw [hp]; rfl) hterminal
    obtain ⟨b₁, hb₁, -, hdelivered⟩ := hfits.cursor.delivered_eq hend (.inl hrest)
    obtain rfl := Option.some.inj (hb.symm.trans hb₁)
    exact ⟨b, hb, .inl ⟨hclean, hend, hover, hexcused, hanswers, hdelivered⟩⟩
  · obtain ⟨gs, f, hdelivered, -⟩ := id hrefused
    cases hb : r.cursor.batch with
    | none =>
      have hcons := hfits.cursor.conserved
      rw [hb, hdelivered] at hcons
      simp at hcons
    | some b => exact ⟨b, rfl, .inr ⟨e, hrefused⟩⟩

theorem exchanges_eq (hb : r.cursor.batch = some b) : r.exchanges = b.exchanged := by
  rw [exchanges, hb]

/-- If no response was refused, no result was. -/
theorem clean_of_open (h : Faithful feeds workers r s)
    (hfits : Fits sv feeds handled base told r s) (hp : r.phase = .returned e?)
    (hopen : ∀ x ∈ r.exchanges, x.isRefused = false) : Clean r.cursor.delivered := by
  obtain ⟨b, hb, -⟩ := h.concluded hfits hp
  rw [exchanges_eq hb] at hopen
  intro f hf
  obtain ⟨x, hx, rfl⟩ := (h.backed b hb).exchanged f hf
  rw [← Option.isNone_iff_eq_none, ← Option.not_isSome, Exchange.isSome_refusal?_fetched,
    hopen x hx, Bool.not_false]

/-- If no result was refused, the batch has come to its end. -/
theorem complete (h : Faithful feeds workers r s) (hfits : Fits sv feeds handled base told r s)
    (hp : r.phase = .returned e?) (hclean : Clean r.cursor.delivered) :
    (r.cursor.state = .exhausted ∨ r.cursor.state = .errored)
      ∧ (s.registers.noted r.slot).Perm (r.delivery.failures
        ++ r.cursor.delivered.flatMap Fetched.errors)
      ∧ (r.exchanges.map Exchange.fetched).Perm r.cursor.delivered
      ∧ (r.exchanges.map Prod.fst).Perm (Batch.jobsOf feeds) := by
  obtain ⟨b, hb, hconcluded⟩ := h.concluded hfits hp
  rcases hconcluded with ⟨-, hend, hover, hexcused, hanswers, hdelivered⟩ | ⟨e, hrefused⟩
  · have hsound := hfits.cursor.batch b hb
    rw [hfits.origin] at hsound
    obtain ⟨hpublished, hjobs⟩ := hanswers.of_isOver hsound hover
    rw [exchanges_eq hb, hdelivered]
    refine ⟨hend, ?_, hpublished, hjobs⟩
    obtain ⟨hslot, hledger⟩ := hfits.books.ledger b hb
    have hnoted := hledger.of_isOver hover (i := r.slot)
      (by rw [hslot, hfits.slots.2.2]; simp)
    have hbase := hfits.base_perm hp
    rw [(hfits.ended hp).1, hclean.filterMap_eq, List.append_nil] at hbase
    rw [hexcused, List.append_nil] at hnoted
    exact hnoted.trans (hbase.append_right _)
  · have hnone := hrefused.filterMap_eq
    rw [hclean.filterMap_eq] at hnone
    cases hnone

/-- With one worker the loop hears the exchanges in order, up to the first that is refused. -/
theorem delivered_eq_heard (h : Faithful feeds workers r s)
    (hfits : Fits sv feeds handled base told r s) (hp : r.phase = .returned e?)
    (hone : workers = 1) :
    r.cursor.delivered = (Exchange.heard r.exchanges).map Exchange.fetched
      ∧ (Exchange.heard r.exchanges).map Prod.fst <+: Batch.jobsOf feeds
      ∧ ((∃ x ∈ r.exchanges, x.isRefused = true)
        ∨ (Exchange.heard r.exchanges).map Prod.fst = Batch.jobsOf feeds) := by
  obtain ⟨b, hb, hconcluded⟩ := h.concluded hfits hp
  have hlen : b.workers.length = 1 := by
    rw [(h.batch b hb).2, hone]
    unfold Batch.workerCount
    omega
  rw [exchanges_eq hb]
  rcases hconcluded with ⟨hclean, -, hover, -, hanswers, hdelivered⟩ | ⟨e, gs, f, hfs, hgs, hf⟩
  · have hsound := hfits.cursor.batch b hb
    rw [hfits.origin] at hsound
    obtain ⟨hfetched, hjobs⟩ := hanswers.eq_of_isOver hsound hover hlen
    rw [← hdelivered] at hfetched
    rw [Exchange.heard_of_clean fun x hx => ?_]
    · exact ⟨hfetched.symm, hjobs ▸ List.prefix_rfl, .inr hjobs⟩
    · rw [← Exchange.isSome_refusal?_fetched,
        hclean _ (hfetched ▸ List.mem_map_of_mem hx), Option.isSome_none]
  · obtain ⟨xs, ys, hxs, hfetched, hjobs⟩ := (h.backed b hb).inOrder hlen
    rw [hfs] at hfetched
    obtain ⟨zs, ws, rfl, rfl, hws⟩ := List.map_eq_append_iff.mp hfetched
    obtain ⟨x, rfl, rfl⟩ := List.map_eq_singleton_iff.mp hws
    have hx : Exchange.isRefused x = true := by
      rw [← Exchange.isSome_refusal?_fetched, hf, Option.isSome_some]
    have hzs : ∀ z ∈ zs, Exchange.isRefused z = false := fun z hz => by
      rw [← Exchange.isSome_refusal?_fetched, hgs _ (List.mem_map_of_mem hz), Option.isSome_none]
    have hheard : Exchange.heard b.exchanged = zs ++ [x] := by
      rw [hxs, List.append_assoc, List.singleton_append, Exchange.heard_of_refused hzs hx]
    rw [hheard]
    refine ⟨by rw [hfs, List.map_append]; rfl, hjobs, .inl ⟨x, ?_, hx⟩⟩
    rw [hxs]
    simp

/-- A run succeeds if and only if all requests, responses and writes are well. -/
theorem succeeds_iff (h : Faithful feeds workers r s) (hfits : Fits sv feeds handled base told r s)
    (hp : r.phase = .returned e?) :
    e? = none ↔ (∀ x ∈ r.exchanges, x.isTaken = true)
      ∧ ∀ w ∈ r.delivery.writes, w.failure = none := by
  constructor
  · rintro rfl
    obtain ⟨hempty, -, hclean⟩ := hfits.of_success hp
    obtain ⟨-, hnoted, hfetched, -⟩ := h.complete hfits hp hclean
    rw [hempty, List.nil_perm, List.append_eq_nil_iff] at hnoted
    refine ⟨fun x hx => ?_, List.filterMap_eq_nil_iff.mp hnoted.1⟩
    have hmem : x.fetched ∈ r.cursor.delivered := hfetched.mem_iff.mp (List.mem_map_of_mem hx)
    rw [Exchange.isTaken_iff, ← Exchange.isSome_refusal?_fetched, hclean _ hmem]
    exact ⟨rfl, List.flatMap_eq_nil_iff.mp hnoted.2 _ hmem⟩
  · rintro ⟨htaken, hwrites⟩
    have hopen : ∀ x ∈ r.exchanges, x.isRefused = false := fun x hx =>
      ((Exchange.isTaken_iff x).mp (htaken x hx)).1
    obtain ⟨hend, hnoted, hfetched, -⟩ :=
      h.complete hfits hp (h.clean_of_open hfits hp hopen)
    have herrors : ∀ f ∈ r.cursor.delivered, f.errors = [] := fun f hf => by
      obtain ⟨x, hx, rfl⟩ := List.mem_map.mp (hfetched.mem_iff.mpr hf)
      exact ((Exchange.isTaken_iff x).mp (htaken x hx)).2
    have hexhausted : r.cursor.state = .exhausted := by
      refine hend.resolve_right fun herrored => ?_
      obtain ⟨f, hf, hne⟩ := h.errored herrored
      exact hne (herrors f hf)
    have hfailures : r.delivery.failures = [] := List.filterMap_eq_nil_iff.mpr hwrites
    rw [hfailures, List.flatMap_eq_nil_iff.mpr herrors, List.append_nil, List.perm_nil,
      ← Registers.error?_eq_none hfits.books.valid] at hnoted
    have hended : r.ended = none := by
      rw [(hfits.ended hp).2.2.2]
      exact (hfits.cursor.error (by rw [hexhausted]; rfl)).mpr hexhausted
    rw [hfits.result e? hp, result, hnoted, hended]
    rfl

end Faithful

/-- The runs of feeds under a context that is not cancelled, with a limiter that admits every request
and a client that reports no cancellation, are sequential loops.

With one worker and one courier, the exchanges up to the first response that cannot be decoded are
made in the order of the feeds, for all of them if there is no such response, and every storage is
given their payloads in this order. With more of them the same is true up to the order, if every
response can be decoded. The run returns no error if and only if every exchange brought a response
that can be decoded and no write failed.

What is written is what the storages are asked. In each event of the history a courier calls a
storage with the payload in hand, and then this is the next write, with how the call ended, and the
world is as the call leaves it; or else nothing is written, and the event is the same whatever the
storages do. -/
theorem refines_sequential_loop (sv : Services σ) (hadmits : sv.Admits)
    (hclient : ∀ {j w e lines w'}, sv.send j w = (.error e, lines, w') → e.code ≠ .cancelled)
    (context : String) (feeds : List Feed) {cores : ℕ} (hcores : 0 < cores) (workers : ℕ)
    {s₀ : Shared σ} (hvalid : s₀.registers.Valid) (hquiet : s₀.isCancelled context = false)
    {es : List Event} (hes : .cancel context ∉ es) {r : Run} {s : Shared σ}
    (h : follow? (act? sv) (start context feeds (Batch.workersOr cores workers) s₀) es
      = some (r, s)) {e? : Option Error} (hreturned : r.returned? = some e?) :
    (Batch.workersOr cores workers = 1 →
        (Exchange.heard r.exchanges).map Prod.fst <+: Batch.jobsOf feeds
        ∧ ((∃ x ∈ r.exchanges, x.isRefused = true)
          ∨ (Exchange.heard r.exchanges).map Prod.fst = Batch.jobsOf feeds)
        ∧ (∀ k < sv.writers.length, r.delivery.writesTo k = Exchange.uploads r.exchanges)
        ∧ r.submitted = (Exchange.uploads r.exchanges).length)
      ∧ ((∀ x ∈ r.exchanges, x.isRefused = false) →
        (r.exchanges.map Prod.fst).Perm (Batch.jobsOf feeds)
        ∧ (∀ k < sv.writers.length,
          (r.delivery.writesTo k).Perm (Exchange.uploads r.exchanges))
        ∧ r.submitted = (Exchange.uploads r.exchanges).length)
      ∧ (e? = none ↔ (∀ x ∈ r.exchanges, x.isTaken = true)
        ∧ ∀ w ∈ r.delivery.writes, w.failure = none)
      ∧ ∀ es₁ e es₂, es = es₁ ++ e :: es₂ → ∃ r₁ s₁ r₂ s₂,
        follow? (act? sv) (start context feeds (Batch.workersOr cores workers) s₀) es₁
          = some (r₁, s₁)
        ∧ act? sv (r₁, s₁) e = some (r₂, s₂)
        ∧ ((∃ c k u storage answer failure, e = .deliver c
            ∧ r₁.delivery.couriers[c]? = some (.writing u k) ∧ sv.writers[k]? = some storage
            ∧ storage.upsert false u s₁.world = (answer, s₂.world)
            ∧ r₂.delivery.writes = r₁.delivery.writes ++ [⟨k, u, failure⟩]
            ∧ (failure = none ↔ answer.isOk = true))
          ∨ r₂.delivery.writes = r₁.delivery.writes ∧ ∀ writers : List (Writer σ),
            writers.length = sv.writers.length →
              act? { sv with writers := writers } (r₁, s₁) e = some (r₂, s₂)) := by
  have hw : 0 < Batch.workersOr cores workers := by
    unfold Batch.workersOr
    split <;> omega
  have hcandid : sv.Candid := ⟨hclient, fun ha => absurd ha (hadmits _ _ _)⟩
  obtain ⟨handled, base, told, hfits, hfaithful⟩ :=
    faithful_of_follow? hw hadmits hcandid hvalid hquiet hes h
  have hp := returned?_eq_some.mp hreturned
  have haccepted := Faithful.accepted_eq hfits hp
  refine ⟨fun hone => ?_, fun hopen => ?_, hfaithful.succeeds_iff hfits hp, ?_⟩
  · obtain ⟨hheard, hbegin, hall⟩ := hfaithful.delivered_eq_heard hfits hp hone
    rw [hheard, ← Exchange.uploads_eq] at haccepted
    refine ⟨hbegin, hall, fun k hk => ?_, haccepted ▸ hfits.submitted⟩
    rw [(hfaithful.written hfits hp hk).2 hone, haccepted]
  · have hclean := hfaithful.clean_of_open hfits hp hopen
    obtain ⟨-, -, hfetched, hjobs⟩ := hfaithful.complete hfits hp hclean
    have huploads : r.delivery.accepted.Perm (Exchange.uploads r.exchanges) := by
      rw [haccepted, Exchange.uploads_eq, Exchange.heard_of_clean hopen]
      exact (hfetched.filterMap _).symm
    exact ⟨hjobs, fun k hk => (hfaithful.written hfits hp hk).1.trans huploads,
      hfits.submitted.trans huploads.length_eq⟩
  · rintro es₁ e es₂ rfl
    obtain ⟨⟨r₁, s₁⟩, h₁, h₂⟩ := follow?_append_eq_some.mp h
    obtain ⟨⟨r₂, s₂⟩, hact, -⟩ := follow?_cons_eq_some.mp h₂
    have hnever : .cancel context ∉ es₁ := fun hmem => hes (List.mem_append_left _ hmem)
    obtain ⟨_, _, _, hfits₁, hfaithful₁⟩ :=
      faithful_of_follow? hw hadmits hcandid hvalid hquiet hnever h₁
    have hcalls := act?_calls hact
    rw [hfits₁.context, hfaithful₁.quiet] at hcalls
    exact ⟨r₁, s₁, r₂, s₂, h₁, hact, hcalls⟩

/-- One feed, one worker and one courier: its payload is the only one. -/
theorem refines_sequential_loop_undisturbed :
    ∃ r s, follow? (act? (.constant (.ok ⟨200, "a", [], []⟩) [sink]))
        (start "ctx" [⟨{ url := "a" }, "", "t"⟩] (Batch.workersOr 4 1) { world := () })
        (List.flatten [List.replicate 3 .loop, List.replicate 8 (.fetch 0), List.replicate 5 .loop,
          List.replicate 5 (.deliver 0), List.replicate 6 .loop, List.replicate 4 (.deliver 0),
          List.replicate 5 .loop]) = some (r, s)
      ∧ r.delivery.writesTo 0 = [⟨"t", "", [], .json⟩]
      ∧ r.submitted = 1
      ∧ ∀ x ∈ r.exchanges, x.isTaken = true := by
  have hrun : ∃ r s, follow? (act? (.constant (.ok ⟨200, "a", [], []⟩) [sink]))
        (start "ctx" [⟨{ url := "a" }, "", "t"⟩] (Batch.workersOr 4 1) { world := () })
        (List.flatten [List.replicate 3 .loop, List.replicate 8 (.fetch 0), List.replicate 5 .loop,
          List.replicate 5 (.deliver 0), List.replicate 6 .loop, List.replicate 4 (.deliver 0),
          List.replicate 5 .loop]) = some (r, s)
      ∧ r.returned? = some none
      ∧ Exchange.uploads r.exchanges = [⟨"t", "", [], .json⟩] := ⟨_, _, rfl, rfl, rfl⟩
  obtain ⟨r, s, h, hsuccess, huploads⟩ := hrun
  obtain ⟨hone, -, hiff, -⟩ := refines_sequential_loop (.constant (.ok ⟨200, "a", [], []⟩) [sink])
    (by simp [Services.Admits, Services.constant, Limiter.absent])
    (by simp [Services.constant]) "ctx" _ (by decide) 1 Registers.valid_nil (by rfl) (by decide) h
    hsuccess
  obtain ⟨-, -, hwrites, hsubmitted⟩ := hone rfl
  rw [huploads] at hwrites hsubmitted
  exact ⟨r, s, h, hwrites 0 (by decide), hsubmitted, (hiff.mp rfl).1⟩

end Run

end Ingest.Pipeline

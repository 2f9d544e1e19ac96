import Ingest.Proofs.Pipeline.Barred
import Ingest.Proofs.Pipeline.Progress
import Ingest.Proofs.Pipeline.Stopping

/-!
# Cancellation stops new requests

A batch that is cancelled sends no more requests than workers were about to, and a run under a
context that is cancelled already sends none (`cancellation_stops_requests`).
-/

namespace Ingest.Pipeline

variable {σ : Type}

open Batch (Scene)

/-- What holds from the moment `t₁` on, at which the batch is cancelled, since it was stopped or has
heeded its caller, as it has when a cancellation of the caller returns. Each worker sends at most one
request, and only if it was past the limiter or had looked at the context already. No worker ever
waits, and they make boundedly many steps. Once they are gone every job for which no request was
sent is published without a response and with an error of code `cancelled`, and every other one with
what came of its exchange.

A run whose context is cancelled before it starts no batch and passes no payload to a storage; the
world stays as it was. It can always go on until it has returned an error of code `cancelled`, and
makes boundedly many steps.

All this whatever the client and the storages do, in whatever order things happen. -/
theorem cancellation_stops_requests (sv : Services σ) (hlimiter : sv.limiter.IsBuiltIn) :
    (∀ (caller : String) (feeds : List Feed) (workers slot : ℕ) (s₀ : Shared σ)
        (es₁ es₂ : List (Scene.Event σ)) (t₁ t₂ : Scene σ),
      follow? (Scene.act? sv) (.start caller feeds workers slot s₀) es₁ = some t₁ →
      t₁.batch.cancelled = true →
      follow? (Scene.act? sv) t₁ es₂ = some t₂ →
      ((along (Scene.act? sv) Scene.sends t₁ es₂).map Prod.fst).Nodup
        ∧ (∀ k j, (k, j) ∈ along (Scene.act? sv) Scene.sends t₁ es₂ →
          t₁.batch.workers[k]? = some (.cleared j)
            ∨ k ∈ t₁.looked ∧ t₁.batch.workers[k]? = some (.asking j))
        ∧ t₂.batch.begun = t₁.batch.begun
          ++ (along (Scene.act? sv) Scene.sends t₁ es₂).map (fun p => p.2.number)
        ∧ (t₂.batch.isOver = true → ∃ given : List (Job × Error),
          (∀ p ∈ given, p.2.code = .cancelled)
            ∧ t₂.batch.published.Perm
              (t₂.batch.exchanged.map Exchange.fetched ++ given.map Fetched.givenUp)
            ∧ (t₂.batch.exchanged.map Prod.fst ++ given.map Prod.fst).Perm (Batch.jobsOf feeds)
            ∧ (t₂.batch.exchanged.map Exchange.number).Perm t₂.batch.begun)
        ∧ (∀ k w, t₂.batch.workers[k]? = some w → w.isGone = false →
          (Scene.act? sv t₂ (.happen (.work k))).isSome)
        ∧ (es₁ ++ es₂).countP Scene.Event.isWork ≤ 3 * Batch.workerCount workers feeds.length
          + feeds.length * ((s₀.registers.path slot).length + 8))
    ∧ ∀ (context : String) (feed : Feed) (feeds : List Feed) (cores workers : ℕ) (s₀ : Shared σ)
        (es : List Run.Event) (r : Run) (s : Shared σ),
      0 < cores → s₀.registers.Valid → s₀.isCancelled context = true →
      follow? (Run.act? sv) (Run.start context (feed :: feeds) (Batch.workersOr cores workers) s₀) es
        = some (r, s) →
      r.cursor.batch = none ∧ r.delivery.accepted = [] ∧ r.delivery.writes = []
        ∧ s.world = s₀.world
        ∧ (∀ result, r.returned? = some result → ∃ e, result = some e ∧ e.code = .cancelled)
        ∧ (r.returned? = none →
          ∃ e : Run.Event, e.isThread = true ∧ (Run.act? sv (r, s) e).isSome)
        ∧ es.countP Run.Event.isThread ≤ (feeds.length + 1) * (3 * sv.writers.length + 22)
          + 3 * Batch.workerCount (Batch.workersOr cores workers) (feeds.length + 1)
          + 4 * Batch.workersOr cores workers + 12 := by
  constructor
  · intro caller feeds workers slot s₀ es₁ es₂ t₁ t₂ h₁ hc h₂
    have hfits₁ := Scene.fits_of_follow? hlimiter (.start caller feeds workers slot s₀) h₁
    have hfits₂ := Scene.fits_of_follow? hlimiter hfits₁ h₂
    have htold := Scene.told_of_follow? hlimiter hfits₁ hc h₂
    have hrun : follow? (Scene.act? sv) (.start caller feeds workers slot s₀) (es₁ ++ es₂)
        = some t₂ := by
      rw [follow?_append, h₁]
      exact h₂
    obtain ⟨given, haccounts⟩ := hfits₂.accounts
    exact ⟨htold.once, fun k j hkj => htold.poised (k, j) hkj, htold.begun,
      fun hover => ⟨given, haccounts.cancelled, haccounts.of_isOver hfits₂.sound hover⟩,
      fun k w hw hgone => hfits₂.act?_isSome sv hw hgone, Scene.countP_isWork_le hrun⟩
  · intro context feed feeds cores workers s₀ es r s hcores hvalid hc hes
    have hw := Batch.workersOr_pos hcores workers
    have hbarred := Run.barred_of_follow? hc hes
    obtain ⟨handled, base, told, hfits⟩ := Run.fits_of_follow? hw hvalid hes
    exact ⟨hbarred.batch, hbarred.unused.accepted, hbarred.unused.unwritten, hbarred.world,
      fun result hr => ⟨_, hbarred.returned hr, rfl⟩,
      hfits.exists_step (Run.ready_of_follow? hes), Run.countP_isThread_le hw hvalid hes⟩

/-- Services with a bucket that gains a token each second. -/
def Services.metered : Services (Rate.Meter ℚ) :=
  { limiter := .ofMeter id fun m _ => m
    send := fun _ m => (.ok ⟨200, "a", [], []⟩, [], m) }

/-- Three jobs for two workers, and a full bucket of one token. -/
def threeJobs : Scene (Rate.Meter ℚ) :=
  .start "ctx" [⟨{ url := "a" }, "", "t"⟩, ⟨{ url := "b" }, "", "t"⟩, ⟨{ url := "c" }, "", "t"⟩] 2 0
    { world := .ofLimit ⟨1, 1000, 1⟩ }

/-- The batch is stopped when one worker is past the limiter and the other one is asleep in it: the
third job is never asked for. And a run comes to nothing whose context was cancelled before. -/
theorem cancellation_stops_requests_asleep :
    (∃ t₁ t₂, follow? (Scene.act? .metered) threeJobs
          [.happen (.work 0), .happen (.work 0), .happen (.work 1), .happen (.work 1),
            .happen .stop] = some t₁
        ∧ follow? (Scene.act? .metered) t₁
          ((List.replicate 9 0 ++ List.replicate 6 1).map fun k => .happen (.work k)) = some t₂
        ∧ t₁.batch.cancelled = true ∧ t₂.batch.isOver = true ∧ t₂.batch.begun = [0]
        ∧ ∃ given : List (Job × Error), (∀ p ∈ given, p.2.code = .cancelled)
          ∧ t₂.batch.published.Perm
            (t₂.batch.exchanged.map Exchange.fetched ++ given.map Fetched.givenUp))
    ∧ ∃ r s, follow? (Run.act? .metered)
          (Run.start "ctx" [⟨{ url := "a" }, "", "t"⟩] (Batch.workersOr 1 1)
            (Shared.cancel { world := .ofLimit ⟨1, 1000, 1⟩ } "ctx"))
          (List.replicate 3 .loop ++ List.replicate 4 (.deliver 0) ++ List.replicate 4 .loop)
            = some (r, s)
        ∧ ∃ e, r.returned? = some (some e) ∧ e.code = .cancelled := by
  obtain ⟨hbatch, hrun⟩ := cancellation_stops_requests .metered (.ofMeter _ _)
  constructor
  · have hstop : (follow? (Scene.act? .metered) threeJobs
        [.happen (.work 0), .happen (.work 0), .happen (.work 1), .happen (.work 1),
          .happen .stop]).map (·.batch.cancelled) = some true := by decide +kernel
    have hover : (follow? (Scene.act? .metered) threeJobs
        ([.happen (.work 0), .happen (.work 0), .happen (.work 1), .happen (.work 1),
          .happen .stop] ++ (List.replicate 9 0 ++ List.replicate 6 1).map
            fun k => .happen (.work k))).map (fun t => (t.batch.isOver, t.batch.begun))
          = some (true, [0]) := by decide +kernel
    obtain ⟨t₁, h₁, hc⟩ := Option.map_eq_some_iff.mp hstop
    rw [follow?_append, h₁] at hover
    obtain ⟨t₂, h₂, hend⟩ := Option.map_eq_some_iff.mp hover
    obtain ⟨hover, hbegun⟩ := Prod.mk.inj hend
    obtain ⟨given, hgiven, hpublished, -⟩ :=
      (hbatch _ _ _ _ _ _ _ t₁ t₂ h₁ hc h₂).2.2.2.1 hover
    exact ⟨t₁, t₂, h₁, h₂, hc, hover, hbegun, given, hgiven, hpublished⟩
  · have hreturned : ∃ r s, follow? (Run.act? .metered)
          (Run.start "ctx" [⟨{ url := "a" }, "", "t"⟩] (Batch.workersOr 1 1)
            (Shared.cancel { world := .ofLimit ⟨1, 1000, 1⟩ } "ctx"))
          (List.replicate 3 .loop ++ List.replicate 4 (.deliver 0) ++ List.replicate 4 .loop)
            = some (r, s)
        ∧ ∃ result, r.returned? = some result := ⟨_, _, rfl, _, rfl⟩
    obtain ⟨r, s, hes, result, hresult⟩ := hreturned
    obtain ⟨e, rfl, he⟩ := (hrun _ _ _ _ _ _ _ r s (by decide) Registers.valid_nil rfl hes).2.2.2.2.1
      result hresult
    exact ⟨r, s, hes, e, hresult, he⟩

end Ingest.Pipeline

import Ingest.Proofs.Pipeline.Exchanges

/-!
# Exchanges and jobs that are given up

Without a limiter, or with a token bucket, a job is given up only because its batch is cancelled, with
an error of code `cancelled`. Every other job leads to an exchange (`Batch.Accounts`), and in the end
each is published with what came of the one or the other.
-/

namespace Ingest.Pipeline

variable {σ : Type}

/-- There is no limiter, or it is a token bucket. -/
inductive Limiter.IsBuiltIn : Limiter σ → Prop
  | absent : IsBuiltIn .absent
  | ofMeter {α : Type} [Quantity α] (get : σ → Rate.Meter α) (set : Rate.Meter α → σ → σ) :
    IsBuiltIn (.ofMeter get set)

namespace Limiter.IsBuiltIn

variable {l : Limiter σ}

theorem ask_cancelled (h : l.IsBuiltIn) (w : σ) :
    l.ask true w = (.refuse .contextCancelled, w) := by
  cases h <;> rfl

theorem code_of_refuse (h : l.IsBuiltIn) {cancelled : Bool} {e : Error} {w w' : σ}
    (ha : l.ask cancelled w = (.refuse e, w')) : e.code = .cancelled := by
  cases cancelled with
  | true =>
    rw [h.ask_cancelled] at ha
    obtain ⟨he, -⟩ := Prod.mk.inj ha
    exact Pass.refuse.inj he ▸ rfl
  | false =>
    cases h with
    | absent => cases ha
    | ofMeter get set =>
      simp only [Limiter.ofMeter, Bool.false_eq_true, if_false] at ha
      split at ha <;> cases ha

theorem code_giveUp (h : l.IsBuiltIn) (w : σ) : (l.giveUp w).1.code = .cancelled := by
  cases h <;> rfl

end Limiter.IsBuiltIn

namespace Fetcher

/-- The job that a worker is about to send a request for, as a list. -/
@[simp] def ready : Fetcher → List Job
  | cleared j => [j]
  | _ => []

/-- The number of the job that a worker has sent a request for and has no answer to, as a list. -/
@[simp] def underway : Fetcher → List ℕ
  | sending j => [j.number]
  | _ => []

theorem ready_cases (w : Fetcher) : w.ready = [] ∨ ∃ j, w = .cleared j := by
  cases w <;> simp

end Fetcher

def Exchange.number (x : Exchange) : ℕ :=
  x.1.number

/-- What a job leads to that is given up with an error. -/
def Fetched.givenUp (p : Job × Error) : Fetched :=
  .ofJob p.1 (.error p.2)

namespace Batch

/-- Where the jobs of a batch are: each has led to an exchange, was given up, is in a worker's hands
or is queued. -/
structure Accounts (feeds : List Feed) (given : List (Job × Error)) (b : Batch) : Prop where
  cancelled : ∀ p ∈ given, p.2.code = .cancelled
  results : (b.exchanged.map Exchange.fetched ++ given.map Fetched.givenUp).Perm
    (b.published ++ b.workers.flatMap Fetcher.answered)
  jobs : (b.exchanged.map Prod.fst ++ given.map Prod.fst
    ++ (b.workers.flatMap Fetcher.todo ++ b.jobs.items)).Perm (jobsOf feeds)
  begun : (b.exchanged.map Exchange.number ++ b.workers.flatMap Fetcher.underway).Perm b.begun

variable {sv : Services σ} {feeds : List Feed} {given : List (Job × Error)} {b c : Batch}
  {s s' : Shared σ} {w w' : Fetcher}

/-- What is begun is the exchange that the worker was ready for. -/
theorem Works.begun (h : Works sv b s w w' c s') :
    c.begun = b.begun ++ w.ready.map Job.number := by
  cases h <;> simp

/-- A worker ends exchanges and gives jobs up, one of these at a time if any. -/
theorem Works.accounts (h : Works sv b s w w' c s') (hlimiter : sv.limiter.IsBuiltIn)
    (hopen : w.isGone = false → b.results.closed = false) :
    ∃ (xs : List Exchange) (ps : List (Job × Error)), c.exchanged = b.exchanged ++ xs
      ∧ (∀ p ∈ ps, p.2.code = .cancelled)
      ∧ c.published ++ w'.answered
        = b.published ++ (w.answered ++ (xs.map Exchange.fetched ++ ps.map Fetched.givenUp))
      ∧ xs.map Prod.fst ++ ps.map Prod.fst ++ (w'.todo ++ c.jobs.items) = w.todo ++ b.jobs.items
      ∧ xs.map Exchange.number ++ w'.underway = w.underway ++ w.ready.map Job.number := by
  have hnone : ∀ p ∈ ([] : List (Job × Error)), p.2.code = .cancelled := by simp
  have hone : ∀ (j : Job) (e : Error) (occasion : String), e.code = .cancelled →
      ∀ p ∈ [(j, e.wrap occasion)], p.2.code = .cancelled := by
    rintro j e occasion he p hp
    exact List.mem_singleton.mp hp ▸ he
  cases h with
  | take h => exact ⟨[], [], by simp, hnone, by simp, by simp [h], by simp⟩
  | refuse ha =>
    exact ⟨[], [_], by simp, hone _ _ _ (hlimiter.code_of_refuse ha), rfl, rfl, rfl⟩
  | giveUp hc ha =>
    refine ⟨[], [_], by simp, hone _ _ _ ?_, rfl, rfl, rfl⟩
    have := hlimiter.code_giveUp s.world
    rwa [ha] at this
  | @answer j r _ _ _ => exact ⟨[(j, .ok r)], [], rfl, hnone, rfl, rfl, rfl⟩
  | @fail j e _ _ _ => exact ⟨[(j, .error e)], [], rfl, hnone, rfl, rfl, rfl⟩
  | publish => exact ⟨[], [], by simp, hnone, by simp, by simp, by simp⟩
  | lose hc =>
    rw [hopen rfl] at hc
    cases hc
  | arrive =>
    refine ⟨[], [], by simp, hnone, ?_, ?_, ?_⟩ <;> split <;> simp
  | _ => exact ⟨[], [], by simp, hnone, by simp, by simp, by simp⟩

namespace Accounts

theorem start (caller : String) (feeds : List Feed) (workers slot : ℕ) (s : Shared σ) :
    Accounts feeds [] (start caller feeds workers slot s).1 := by
  refine ⟨by simp, ?_, ?_, ?_⟩ <;> simp [Batch.start, List.flatMap_replicate]

/-- The batch differs in nothing that matters to its accounts. -/
theorem congr {b' : Batch} (h : Accounts feeds given b) (hx : b'.exchanged = b.exchanged)
    (hp : b'.published = b.published) (hw : b'.workers = b.workers) (hj : b'.jobs = b.jobs)
    (hb : b'.begun = b.begun) : Accounts feeds given b' := by
  refine ⟨h.cancelled, ?_, ?_, ?_⟩
  · rw [hx, hp, hw]
    exact h.results
  · rw [hx, hw, hj]
    exact h.jobs
  · rw [hx, hw, hb]
    exact h.begun

theorem step {b' : Batch} {k : ℕ} (h : Accounts feeds given b) (hlimiter : sv.limiter.IsBuiltIn)
    (hsound : Sound feeds b) (hs : b.step? sv k s = some (b', s')) :
    ∃ given', Accounts feeds given' b' := by
  classical
  obtain ⟨w, w', c, hw, hworks, rfl, -⟩ := step?_cases hs
  have hmem : w ∈ b.workers := List.mem_of_getElem? hw
  have hbegun := hworks.begun
  obtain ⟨xs, ps, hx, hps, hpublished, htodo, hunderway⟩ :=
    hworks.accounts hlimiter (hsound.open_of_mem hmem)
  refine ⟨given ++ ps, ?_, ?_, ?_, ?_⟩
  · intro p hp
    exact (List.mem_append.mp hp).elim (h.cancelled p) (hps p)
  · show (c.exchanged.map Exchange.fetched ++ (given ++ ps).map Fetched.givenUp).Perm
      (c.published ++ (b.workers.set k w').flatMap Fetcher.answered)
    rw [List.perm_iff_count]
    intro f
    have h1 := h.results.count_eq f
    have h2 := count_flatMap_set (b := w') Fetcher.answered f hw
    have h3 := congrArg (List.count f) hpublished
    rw [hx]
    simp only [List.map_append, List.count_append] at h1 h3 ⊢
    omega
  · show (c.exchanged.map Prod.fst ++ (given ++ ps).map Prod.fst
      ++ ((b.workers.set k w').flatMap Fetcher.todo ++ c.jobs.items)).Perm (jobsOf feeds)
    rw [List.perm_iff_count]
    intro j
    have h1 := h.jobs.count_eq j
    have h2 := count_flatMap_set (b := w') Fetcher.todo j hw
    have h3 := congrArg (List.count j) htodo
    rw [hx]
    simp only [List.map_append, List.count_append] at h1 h3 ⊢
    omega
  · show (c.exchanged.map Exchange.number
      ++ (b.workers.set k w').flatMap Fetcher.underway).Perm c.begun
    rw [List.perm_iff_count]
    intro n
    have h1 := h.begun.count_eq n
    have h2 := count_flatMap_set (b := w') Fetcher.underway n hw
    have h3 := congrArg (List.count n) hunderway
    rw [hx, hbegun]
    simp only [List.map_append, List.count_append] at h1 h3 ⊢
    omega

/-- Once every worker is gone each job has led to an exchange or was given up, and is published with
what came of that. -/
theorem of_isOver (h : Accounts feeds given b) (hsound : Sound feeds b) (hover : b.isOver = true) :
    b.published.Perm (b.exchanged.map Exchange.fetched ++ given.map Fetched.givenUp)
      ∧ (b.exchanged.map Prod.fst ++ given.map Prod.fst).Perm (jobsOf feeds)
      ∧ (b.exchanged.map Exchange.number).Perm b.begun := by
  have h1 := h.results
  have h2 := h.jobs
  have h3 := h.begun
  rw [flatMap_of_isOver hover rfl, List.append_nil] at h1 h3
  rw [flatMap_of_isOver hover rfl, hsound.jobs_of_isOver hover, List.append_nil,
    List.append_nil] at h2
  exact ⟨h1.symm, h2, h3⟩

end Accounts

end Batch

end Ingest.Pipeline

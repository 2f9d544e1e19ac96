import Ingest.Pipeline.Run
import Ingest.Proofs.Pipeline.Failures
import Ingest.Proofs.Pipeline.Loop

/-!
# Exchanges and results

As long as a batch is not cancelled and its limiter admits every request, each result comes from an
exchange: the exchanges that have ended are what was published and what the workers have in hand, and
the jobs of all exchanges, those in hand and those queued are the jobs of the batch (`Answers`). With
one worker this is so in order (`Answers.inOrder`).

`uploads` is the sequential loop: the payloads that the exchanges bring, one after the other, up to
the first response that cannot be decoded.
-/

namespace Ingest.Pipeline

variable {σ : Type}

/-- A request that was sent, and what came of it. -/
abbrev Exchange := Job × Except Error Http.Response

namespace Exchange

/-- The result that an exchange leads to. -/
def fetched : Exchange → Fetched
  | (j, .ok r) => .ofJob j (.ok r)
  | (j, .error e) => .ofJob j (.error (e.wrap ("fetch" ++ " " ++ j.feed.request.url)))

/-- The response cannot be decoded. -/
def isRefused : Exchange → Bool
  | (_, .ok r) => Format.ofHeader (r.header "Content-Type") == .unknown
  | (_, .error _) => false

/-- There is a response, and it can be decoded. -/
def isTaken : Exchange → Bool
  | (_, .ok r) => Format.ofHeader (r.header "Content-Type") == .json
  | (_, .error _) => false

/-- The payloads of exchanges in order, up to the first response that cannot be decoded. -/
def uploads : List Exchange → List Upsert
  | [] => []
  | (_, .error _) :: xs => uploads xs
  | (j, .ok r) :: xs =>
    match Format.ofHeader (r.header "Content-Type") with
    | .unknown => []
    | .json =>
      ⟨j.feed.destination.table, j.feed.destination.database, r.body, .json⟩ :: uploads xs

/-- The exchanges up to the first response that cannot be decoded, with that one. -/
def heard : List Exchange → List Exchange
  | [] => []
  | x :: xs => x :: if x.isRefused then [] else heard xs

theorem payload?_fetched_ok (j : Job) (r : Http.Response) :
    (fetched (j, .ok r)).payload? = match Format.ofHeader (r.header "Content-Type") with
      | .unknown => none
      | .json => some ⟨j.feed.destination.table, j.feed.destination.database, r.body, .json⟩ := by
  simp only [fetched, Fetched.payload?, Fetched.ofJob, Run.payloadOf]
  cases Format.ofHeader (r.header "Content-Type") <;> rfl

theorem isSome_refusal?_fetched (x : Exchange) : x.fetched.refusal?.isSome = x.isRefused := by
  obtain ⟨j, e | r⟩ := x
  · rfl
  · simp only [fetched, Fetched.refusal?, Fetched.ofJob, Run.payloadOf, isRefused]
    cases Format.ofHeader (r.header "Content-Type") <;> rfl

theorem isTaken_iff (x : Exchange) :
    x.isTaken = true ↔ x.isRefused = false ∧ x.fetched.errors = [] := by
  obtain ⟨j, e | r⟩ := x
  · simp [isTaken, fetched]
  · simp only [isTaken, isRefused]
    cases Format.ofHeader (r.header "Content-Type") <;> simp [fetched]

theorem uploads_eq (xs : List Exchange) :
    uploads xs = ((heard xs).map fetched).filterMap Fetched.payload? := by
  induction xs with
  | nil => rfl
  | cons x xs ih =>
    obtain ⟨j, e | r⟩ := x
    · rw [uploads, heard, ih]
      rfl
    · rw [uploads, heard, isRefused, List.map_cons, List.filterMap_cons, payload?_fetched_ok]
      cases Format.ofHeader (r.header "Content-Type") with
      | unknown => rfl
      | json => exact congrArg (_ :: ·) ih

theorem heard_of_clean {xs : List Exchange} (h : ∀ x ∈ xs, x.isRefused = false) : heard xs = xs := by
  induction xs with
  | nil => rfl
  | cons x xs ih =>
    rw [heard, h x List.mem_cons_self, ih fun y hy => h y (List.mem_cons_of_mem _ hy)]
    rfl

theorem heard_of_refused {xs ys : List Exchange} {x : Exchange}
    (h : ∀ x ∈ xs, x.isRefused = false) (hx : x.isRefused = true) :
    heard (xs ++ x :: ys) = xs ++ [x] := by
  induction xs with
  | nil => simp [heard, hx]
  | cons y xs ih =>
    rw [List.cons_append, heard, h y List.mem_cons_self,
      ih fun z hz => h z (List.mem_cons_of_mem _ hz)]
    rfl

end Exchange

/-- The limiter admits every request whose context is not cancelled. -/
def Services.Admits (sv : Services σ) : Prop :=
  ∀ w e w', sv.limiter.ask false w ≠ (.refuse e, w')

namespace Fetcher

/-- The result of the exchange that a worker has behind it, as a list. -/
@[simp] def answered : Fetcher → List Fetched
  | failing j e | noting j e _ => [.ofJob j (.error e)]
  | publishing f => [f]
  | _ => []

/-- The job that a worker has an exchange to make for, as a list. -/
@[simp] def todo : Fetcher → List Job
  | asking j | asleep j _ _ | cleared j | sending j => [j]
  | _ => []

end Fetcher

namespace Batch

/-- What holds of a batch that is not cancelled, if its limiter admits every request. -/
structure Answers (feeds : List Feed) (b : Batch) : Prop where
  answered : (b.exchanged.map Exchange.fetched).Perm
    (b.published ++ b.workers.flatMap Fetcher.answered)
  jobs : (b.exchanged.map Prod.fst ++ (b.workers.flatMap Fetcher.todo ++ b.jobs.items)).Perm
    (jobsOf feeds)
  inOrder : ∀ w, b.workers = [w] →
    b.exchanged.map Exchange.fetched = b.published ++ w.answered
      ∧ b.exchanged.map Prod.fst ++ (w.todo ++ b.jobs.items) = jobsOf feeds

variable {sv : Services σ} {feeds : List Feed} {b c : Batch} {s s' : Shared σ} {w w' : Fetcher}

/-- A worker either ends an exchange or carries a job or a result on. -/
theorem Works.exchange (h : Works sv b s w w' c s') (hadmits : sv.Admits)
    (hcancelled : b.cancelled = false) (hopen : w.isGone = false → b.results.closed = false) :
    (∃ x : Exchange, c.exchanged = b.exchanged ++ [x] ∧ c.published = b.published
        ∧ w.answered = [] ∧ w'.answered = [x.fetched]
        ∧ c.jobs.items = b.jobs.items ∧ w.todo = [x.1] ∧ w'.todo = [])
      ∨ (c.exchanged = b.exchanged ∧ c.published ++ w'.answered = b.published ++ w.answered
        ∧ w'.todo ++ c.jobs.items = w.todo ++ b.jobs.items) := by
  cases h with
  | take h => exact .inr ⟨rfl, rfl, h.symm⟩
  | refuse ha =>
    rw [hcancelled] at ha
    exact absurd ha (hadmits _ _ _)
  | giveUp hc =>
    rw [hcancelled] at hc
    cases hc
  | @answer j r lines w₁ hs => exact .inl ⟨(j, .ok r), rfl, rfl, rfl, rfl, rfl, rfl, rfl⟩
  | @fail j e lines w₁ hs => exact .inl ⟨(j, .error e), rfl, rfl, rfl, rfl, rfl, rfl, rfl⟩
  | publish => exact .inr ⟨rfl, by simp, rfl⟩
  | lose hc =>
    rw [hopen rfl] at hc
    cases hc
  | arrive =>
    refine .inr ⟨rfl, ?_, ?_⟩ <;> split <;> rfl
  | _ => exact .inr ⟨rfl, rfl, rfl⟩

/-- Exchanges are never forgotten. -/
theorem Works.exchanged (h : Works sv b s w w' c s') : b.exchanged <+: c.exchanged := by
  cases h with
  | answer => exact List.prefix_append _ _
  | fail => exact List.prefix_append _ _
  | _ => exact List.prefix_rfl

namespace Answers

theorem start (caller : String) (feeds : List Feed) (workers slot : ℕ) (s : Shared σ) :
    Answers feeds (start caller feeds workers slot s).1 := by
  refine ⟨?_, ?_, fun w hw => ?_⟩
  · simp [Batch.start, List.flatMap_replicate]
  · simp [Batch.start, List.flatMap_replicate]
  · have hmem : w ∈ List.replicate (workerCount workers feeds.length) Fetcher.idle := by
      rw [show List.replicate (workerCount workers feeds.length) Fetcher.idle = [w] from hw]
      exact List.mem_singleton_self w
    rw [(List.mem_replicate.mp hmem).2]
    exact ⟨rfl, rfl⟩

theorem step {b' : Batch} {k : ℕ} (h : Answers feeds b) (hadmits : sv.Admits)
    (hcancelled : b.cancelled = false) (hsound : Sound feeds b)
    (hs : b.step? sv k s = some (b', s')) : Answers feeds b' := by
  obtain ⟨w, w', c, hw, hworks, rfl, -⟩ := step?_cases hs
  have hmem : w ∈ b.workers := List.mem_of_getElem? hw
  have hexchange := hworks.exchange hadmits hcancelled (hsound.open_of_mem hmem)
  refine ⟨?_, ?_, fun w₁ hw₁ => ?_⟩
  · classical
    show (c.exchanged.map Exchange.fetched).Perm
      (c.published ++ (b.workers.set k w').flatMap Fetcher.answered)
    rw [List.perm_iff_count]
    intro f
    have h1 := h.answered.count_eq f
    have h2 := count_flatMap_set (b := w') Fetcher.answered f hw
    rcases hexchange with ⟨x, hx, hpub, ha, ha', -⟩ | ⟨hx, hpub, -⟩
    · rw [ha, ha'] at h2
      rw [hx, hpub]
      simp only [List.map_append, List.map_cons, List.map_nil, List.count_append,
        List.count_nil] at h1 h2 ⊢
      omega
    · have h3 := congrArg (List.count f) hpub
      rw [hx]
      simp only [List.count_append] at h1 h3 ⊢
      omega
  · show (c.exchanged.map Prod.fst ++ ((b.workers.set k w').flatMap Fetcher.todo
      ++ c.jobs.items)).Perm (jobsOf feeds)
    rw [List.perm_iff_count]
    intro j
    have h1 := h.jobs.count_eq j
    have h2 := count_flatMap_set (b := w') Fetcher.todo j hw
    rcases hexchange with ⟨x, hx, -, -, -, hj, ht, ht'⟩ | ⟨hx, -, hj⟩
    · rw [ht, ht'] at h2
      rw [hx, hj]
      simp only [List.map_append, List.map_cons, List.map_nil, List.count_append,
        List.count_nil] at h1 h2 ⊢
      omega
    · have h3 := congrArg (List.count j) hj
      rw [hx]
      simp only [List.count_append] at h1 h3 ⊢
      omega
  · obtain ⟨honly, rfl⟩ := set_eq_singleton hw hw₁
    obtain ⟨horder, hjobs⟩ := h.inOrder w honly
    show c.exchanged.map Exchange.fetched = c.published ++ w'.answered
      ∧ c.exchanged.map Prod.fst ++ (w'.todo ++ c.jobs.items) = jobsOf feeds
    rcases hexchange with ⟨x, hx, hpub, ha, ha', hj, ht, ht'⟩ | ⟨hx, hpub, hj⟩
    · rw [ha, List.append_nil] at horder
      rw [ht] at hjobs
      rw [hx, hpub, ha', hj, ht', List.map_append, List.map_append, horder, ← hjobs]
      simp
    · rw [hx, hpub, hj]
      exact ⟨horder, hjobs⟩

/-- The batch differs in nothing that matters to its exchanges. -/
theorem congr {b' : Batch} (h : Answers feeds b) (hx : b'.exchanged = b.exchanged)
    (hp : b'.published = b.published) (hw : b'.workers = b.workers) (hj : b'.jobs = b.jobs) :
    Answers feeds b' := by
  refine ⟨?_, ?_, ?_⟩
  · rw [hx, hp, hw]
    exact h.answered
  · rw [hx, hw, hj]
    exact h.jobs
  · rw [hx, hp, hw, hj]
    exact h.inOrder

/-- Once every worker is gone there was an exchange for every job, and each has led to a result. -/
theorem of_isOver (h : Answers feeds b) (hsound : Sound feeds b) (hover : b.isOver = true) :
    (b.exchanged.map Exchange.fetched).Perm b.published
      ∧ (b.exchanged.map Prod.fst).Perm (jobsOf feeds) := by
  have h1 := h.answered
  have h2 := h.jobs
  rw [flatMap_of_isOver hover rfl, List.append_nil] at h1
  rw [flatMap_of_isOver hover rfl, hsound.jobs_of_isOver hover, List.append_nil,
    List.append_nil] at h2
  exact ⟨h1, h2⟩

/-- A single worker has made the exchanges in the order of the jobs. -/
theorem eq_of_isOver (h : Answers feeds b) (hsound : Sound feeds b) (hover : b.isOver = true)
    (hone : b.workers.length = 1) :
    b.exchanged.map Exchange.fetched = b.published ∧ b.exchanged.map Prod.fst = jobsOf feeds := by
  obtain ⟨w, hw⟩ := List.length_eq_one_iff.mp hone
  obtain rfl := eq_gone_of_isOver hover (hw ▸ List.mem_singleton_self w)
  obtain ⟨horder, hjobs⟩ := h.inOrder _ hw
  rw [hsound.jobs_of_isOver hover] at hjobs
  exact ⟨by simpa using horder, by simpa using hjobs⟩

end Answers

end Batch

end Ingest.Pipeline

import Ingest.Proofs.Pipeline.Fetcher

/-!
# What a batch keeps

At every moment the results that were published, what the workers have in hand and the jobs that
are queued are together the feeds of the batch (`Sound.conserved`), and the barrier knows how many
workers are still at work (`Sound.barrier`). Every worker's step keeps this, and so do a consumer and
a cancellation (`Sound.moves`).

From it follows that no worker ever waits (`Sound.step?_isSome`): the job queue is closed, and a
worker who has a result in hand leaves room for it. A worker's step makes `load` smaller, so all
workers are gone in the end, and then all results are there (`Sound.published_perm`).
-/

namespace Ingest.Pipeline

variable {σ : Type}

/-- Where the data of a feed comes from and goes. -/
def addressOf (f : Feed) : Address :=
  (f.request.url, f.destination)

namespace Batch

theorem workersOr_pos {cores : ℕ} (hc : 0 < cores) (workers : ℕ) : 0 < workersOr cores workers := by
  unfold workersOr
  split <;> omega

inductive Moves (sv : Services σ) (b : Batch) : Batch → Prop
  | work {b' : Batch} {k : ℕ} {s s' : Shared σ} (h : b.step? sv k s = some (b', s')) :
    Moves sv b b'
  | cancel : Moves sv b { b with cancelled := true }
  | receive {f : Fetched} {rest : List Fetched} (h : b.results.items = f :: rest) :
    Moves sv b { b with results := { b.results with items := rest } }

/-- What holds of a batch of feeds at every moment. -/
structure Sound (feeds : List Feed) (b : Batch) : Prop where
  conserved : (b.published.map Fetched.address ++ b.workers.flatMap Fetcher.addresses
    ++ b.jobs.items.map Job.address).Perm (feeds.map addressOf)
  jobsClosed : b.jobs.closed = true
  room : feeds.length ≤ b.results.capacity
  buffered : b.results.items <:+ b.published
  barrier : b.arrivals.remaining = b.workers.countP Fetcher.isWorking
  /-- Once all have arrived, either one worker is about to close the results or they are closed. -/
  last : b.workers.countP Fetcher.isClosing + (if b.results.closed then 1 else 0)
    = if b.arrivals.remaining = 0 then 1 else 0
  completed : b.arrivals.completed = b.results.closed
  done : ∀ w ∈ b.workers, w.isDone = true → b.jobs.items = []
  staffed : b.workers ≠ []

theorem jobsOf_address (feeds : List Feed) :
    (jobsOf feeds).map Job.address = feeds.map addressOf := by
  have h : Job.address ∘ (fun p : Feed × ℕ => (⟨p.2, p.1⟩ : Job)) = addressOf ∘ Prod.fst := rfl
  rw [jobsOf, List.map_map, h, ← List.map_map, List.zipIdx_map_fst]

theorem sound_start (caller : String) (feeds : List Feed) (workers slot : ℕ) (s : Shared σ) :
    Sound feeds (start caller feeds workers slot s).1 := by
  have hpos : 0 < workerCount workers feeds.length := by
    unfold workerCount
    omega
  constructor
  · simp [start, jobsOf_address, List.flatMap_replicate]
  · rfl
  · simp [start, Queue.ofCapacity]
  · simp [start, Queue.ofCapacity]
  · simp [start, Countdown.ofParties, List.countP_replicate]
  · simp [start, Countdown.ofParties, Queue.ofCapacity, Fetcher.isClosing, hpos.ne']
  · simp [start, Countdown.ofParties, Queue.ofCapacity, hpos.ne']
  · intro w hw hd
    obtain ⟨-, rfl⟩ := List.mem_replicate.mp hw
    simp [Fetcher.isDone] at hd
  · simp [start, hpos.ne']

section Step

variable {sv : Services σ} {b c : Batch} {s s' : Shared σ} {w w' : Fetcher}

theorem Works.conserved (h : Works sv b s w w' c s') (hopen : w.isGone = false →
    b.results.closed = false) (x : Address) :
    (c.published.map Fetched.address).count x + w'.addresses.count x
        + (c.jobs.items.map Job.address).count x
      = (b.published.map Fetched.address).count x + w.addresses.count x
        + (b.jobs.items.map Job.address).count x := by
  cases h with
  | take h =>
    simp only [Fetcher.addresses, h, List.map_cons, List.count_cons, List.count_nil]
    omega
  | publish => simp
  | lose hc =>
    rw [hopen rfl] at hc
    cases hc
  | arrive => split <;> simp
  | _ => simp

theorem Works.frame (h : Works sv b s w w' c s') :
    c.jobs.closed = b.jobs.closed ∧ c.results.capacity = b.results.capacity
      ∧ c.caller = b.caller ∧ c.slot = b.slot ∧ c.link = b.link ∧ c.cancelled = b.cancelled := by
  cases h <;> exact ⟨rfl, rfl, rfl, rfl, rfl, rfl⟩

theorem Works.path (h : Works sv b s w w' c s') (i : ℕ) :
    s'.registers.path i = s.registers.path i := by
  cases h <;> simp

/-- What is published is put into the results as well. -/
theorem Works.published (h : Works sv b s w w' c s') :
    ∃ fs, c.results.items = b.results.items ++ fs ∧ c.published = b.published ++ fs := by
  cases h with
  | publish => exact ⟨[_], rfl, rfl⟩
  | _ => exact ⟨[], by simp⟩

theorem Works.closed (h : Works sv b s w w' c s') :
    c.results.closed = (w.isClosing || b.results.closed) := by
  cases h <;> rfl

theorem Works.jobs_suffix (h : Works sv b s w w' c s') : c.jobs.items <:+ b.jobs.items := by
  cases h with
  | take h =>
    rw [h]
    exact List.suffix_cons _ _
  | _ => exact List.suffix_rfl

/-- A worker's step keeps what the barrier and the closed queue say about the worker. -/
theorem Works.barrier (h : Works sv b s w w' c s')
    (hpos : w.isWorking = true → 0 < b.arrivals.remaining)
    (hlast : w.isClosing = true → b.results.closed = false)
    (hcompleted : b.arrivals.completed = b.results.closed) :
    c.arrivals.remaining + (if w.isWorking then 1 else 0)
        = b.arrivals.remaining + (if w'.isWorking then 1 else 0)
      ∧ (if w'.isClosing then 1 else 0) + (if c.results.closed then 1 else 0)
          + (if b.arrivals.remaining = 0 then 1 else 0)
        = (if w.isClosing then 1 else 0) + (if b.results.closed then 1 else 0)
          + (if c.arrivals.remaining = 0 then 1 else 0)
      ∧ c.arrivals.completed = c.results.closed := by
  cases h with
  | arrive =>
    have := hpos rfl
    rw [Countdown.arrive_of_pos this]
    by_cases h1 : b.arrivals.remaining = 1
    · simp [h1, hcompleted, Nat.add_comm]
    · have h2 : b.arrivals.remaining - 1 ≠ 0 := by omega
      have h3 : b.arrivals.remaining ≠ 0 := by omega
      simp only [Fetcher.isWorking, Fetcher.isClosing, ↓reduceIte, h1, h2, h3, hcompleted, decide_false,
        Bool.false_eq_true, add_zero, zero_add, and_self, and_true]
      omega
  | close =>
    have := hlast rfl
    refine ⟨rfl, ?_, rfl⟩
    show 0 + 1 + (if b.arrivals.remaining = 0 then 1 else 0)
      = 1 + (if b.results.closed then 1 else 0) + (if b.arrivals.remaining = 0 then 1 else 0)
    simp [this]
  | _ => simp [hcompleted]

theorem Works.done (h : Works sv b s w w' c s') (hw : w.isDone = true → b.jobs.items = []) :
    w'.isDone = true → c.jobs.items = [] := by
  cases h with
  | finish h => exact fun _ => h
  | arrive => exact fun _ => hw rfl
  | close => exact fun _ => hw rfl
  | _ => simp

theorem Works.load_lt (h : Works sv b s w w' c s') {n : ℕ}
    (hn : (s.registers.path b.slot).length ≤ n) :
    w'.load n + c.jobs.items.length * (n + 8) + 1 ≤ w.load n + b.jobs.items.length * (n + 8) := by
  cases h with
  | take h =>
    rw [h, List.length_cons, Nat.succ_mul]
    simp only [Fetcher.load]
    omega
  | arrive => split <;> simp
  | blame =>
    simp only [Fetcher.load]
    omega
  | note =>
    simp only [Fetcher.load, List.length_cons]
    omega
  | _ => simp

end Step

/-- How many steps the workers of a batch can make at most, if a record goes through `n` registers. -/
def load (n : ℕ) (b : Batch) : ℕ :=
  (b.workers.map (Fetcher.load n)).sum + b.jobs.items.length * (n + 8)

theorem load_start (n : ℕ) (caller : String) (feeds : List Feed) (workers slot : ℕ)
    (s : Shared σ) : (start caller feeds workers slot s).1.load n
      = 3 * workerCount workers feeds.length + feeds.length * (n + 8) := by
  simp [load, start, jobsOf, Nat.mul_comm]

theorem step?_load {sv : Services σ} {b b' : Batch} {s s' : Shared σ} {k n : ℕ}
    (h : b.step? sv k s = some (b', s')) (hn : (s.registers.path b.slot).length ≤ n) :
    b'.load n + 1 ≤ b.load n := by
  obtain ⟨w, w', c, hw, hworks, rfl, -⟩ := step?_cases h
  have h1 := hworks.load_lt hn
  have h2 := sum_map_set (b := w') (Fetcher.load n) hw
  unfold load
  show ((b.workers.set k w').map (Fetcher.load n)).sum + c.jobs.items.length * (n + 8) + 1 ≤ _
  omega

/-! ### When every worker is gone -/

section Over

variable {b : Batch}

theorem eq_gone_of_isOver (h : b.isOver = true) {w : Fetcher} (hw : w ∈ b.workers) :
    w = .gone := by
  have hgone := List.all_eq_true.mp h w hw
  cases w <;> first | rfl | cases hgone

theorem flatMap_of_isOver {α : Type*} (h : b.isOver = true) {hand : Fetcher → List α}
    (hhand : hand .gone = []) : b.workers.flatMap hand = [] := by
  refine List.flatMap_eq_nil_iff.mpr fun w hw => ?_
  rw [eq_gone_of_isOver h hw, hhand]

theorem countP_of_isOver (h : b.isOver = true) {p : Fetcher → Bool} (hp : p .gone = false) :
    b.workers.countP p = 0 := by
  refine List.countP_eq_zero.mpr fun w hw => ?_
  rw [eq_gone_of_isOver h hw, hp]
  exact Bool.false_ne_true

theorem step?_of_isOver (h : b.isOver = true) (sv : Services σ) (k : ℕ) (s : Shared σ) :
    b.step? sv k s = none := by
  unfold step?
  cases hw : b.workers[k]? with
  | none => rfl
  | some w =>
    obtain rfl := eq_gone_of_isOver h (List.mem_of_getElem? hw)
    rfl

end Over

namespace Sound

variable {sv : Services σ} {feeds : List Feed} {b b' : Batch} {s s' : Shared σ} {k : ℕ}

theorem working_pos (h : Sound feeds b) {w : Fetcher} (hw : w ∈ b.workers)
    (hworking : w.isWorking = true) : 0 < b.arrivals.remaining := by
  rw [h.barrier]
  exact List.countP_pos_iff.mpr ⟨w, hw, hworking⟩

/-- The results are closed only when every worker is gone. -/
theorem open_of_mem (h : Sound feeds b) {w : Fetcher} (hw : w ∈ b.workers)
    (hgone : w.isGone = false) : b.results.closed = false := by
  by_contra hc
  have hlast := h.last
  simp only [Bool.not_eq_false] at hc
  rw [if_pos hc] at hlast
  by_cases hworking : w.isWorking = true
  · have := h.working_pos hw hworking
    rw [if_neg (by omega)] at hlast
    omega
  · have hclosing : w.isClosing = true := by
      cases w <;> simp_all
    have : 0 < b.workers.countP Fetcher.isClosing :=
      List.countP_pos_iff.mpr ⟨w, hw, hclosing⟩
    have hle : (if b.arrivals.remaining = 0 then 1 else 0) ≤ 1 := by split <;> omega
    omega

theorem step (h : Sound feeds b) (hs : b.step? sv k s = some (b', s')) : Sound feeds b' := by
  obtain ⟨w, w', c, hw, hworks, rfl, -⟩ := step?_cases hs
  have hmem : w ∈ b.workers := List.mem_of_getElem? hw
  obtain ⟨hclosed, hcap, -⟩ := hworks.frame
  obtain ⟨hr, hl, hcompleted⟩ := hworks.barrier (h.working_pos hmem)
    (fun hc => h.open_of_mem hmem (by cases w <;> simp_all)) h.completed
  have hworking := countP_set_add (b := w') Fetcher.isWorking hw
  have hclosing := countP_set_add (b := w') Fetcher.isClosing hw
  have hdone := hworks.done (h.done w hmem)
  have hroom := h.room
  constructor
  · rw [List.perm_iff_count]
    intro x
    have h1 := h.conserved.count_eq x
    have h2 := hworks.conserved (h.open_of_mem hmem) x
    have h3 := count_flatMap_set (b := w') Fetcher.addresses x hw
    simp only [List.count_append] at h1 ⊢
    omega
  · rw [← h.jobsClosed, ← hclosed]
  · rw [← hcap] at hroom
    exact hroom
  · obtain ⟨fs, hitems, hpub⟩ := hworks.published
    obtain ⟨ys, hys⟩ := h.buffered
    exact ⟨ys, by simp [hitems, hpub, ← hys]⟩
  · have := h.barrier
    show c.arrivals.remaining = (b.workers.set k w').countP Fetcher.isWorking
    omega
  · have := h.last
    show (b.workers.set k w').countP Fetcher.isClosing + (if c.results.closed then 1 else 0)
      = if c.arrivals.remaining = 0 then 1 else 0
    omega
  · exact hcompleted
  · refine forall_mem_set (fun v hv hd => ?_) hdone
    have := h.done v hv hd
    exact List.suffix_nil.mp (this ▸ hworks.jobs_suffix)
  · simpa using h.staffed

theorem cancel (h : Sound feeds b) : Sound feeds { b with cancelled := true } :=
  ⟨h.1, h.2, h.3, h.4, h.5, h.6, h.7, h.8, h.9⟩

theorem receive (h : Sound feeds b) {f : Fetched} {rest : List Fetched}
    (hr : b.results.items = f :: rest) :
    Sound feeds { b with results := { b.results with items := rest } } := by
  refine ⟨h.1, h.2, h.3, ?_, h.5, h.6, h.7, h.8, h.9⟩
  exact (List.suffix_cons _ _).trans (hr ▸ h.buffered)

theorem moves (h : Sound feeds b) (hm : Moves sv b b') : Sound feeds b' := by
  cases hm with
  | work hs => exact h.step hs
  | cancel => exact h.cancel
  | receive hr => exact h.receive hr

/-- There are never more results than feeds, and room for every result that is in hand. -/
theorem length_eq (h : Sound feeds b) :
    b.published.length + (b.workers.flatMap Fetcher.addresses).length + b.jobs.items.length
      = feeds.length := by
  simpa only [List.length_append, List.length_map] using h.conserved.length_eq

theorem room_of_publishing (h : Sound feeds b) {f : Fetched} (hw : .publishing f ∈ b.workers) :
    b.results.items.length < b.results.capacity := by
  have h1 := h.length_eq
  have h2 := h.room
  have h3 := h.buffered.length_le
  have h4 : 0 < (b.workers.flatMap Fetcher.addresses).length :=
    List.length_pos_of_mem (List.mem_flatMap.mpr ⟨_, hw, List.mem_singleton_self _⟩)
  omega

theorem step?_isSome (h : Sound feeds b) (sv : Services σ) (s : Shared σ) {w : Fetcher}
    (hw : b.workers[k]? = some w) (hgone : w.isGone = false) : (b.step? sv k s).isSome := by
  have hmem : w ∈ b.workers := List.mem_of_getElem? hw
  have hwork : (b.work? sv s w).isSome := by
    cases w with
    | idle =>
      obtain ⟨⟨r, q⟩, hq⟩ := Option.isSome_iff_exists.mp
        (Queue.receive?_isSome_of_closed h.jobsClosed)
      simp only [work?, hq]
      cases r <;> rfl
    | asking j =>
      simp only [work?]
      split <;> rfl
    | asleep j since ready =>
      simp only [work?]
      split <;> rfl
    | sending j =>
      simp only [work?]
      split <;> rfl
    | failing j e =>
      simp only [work?]
      split <;> rfl
    | noting j e slots => cases slots <;> rfl
    | publishing f =>
      simp only [work?]
      rw [Queue.send?_of_room (h.open_of_mem hmem hgone) (h.room_of_publishing hmem)]
      rfl
    | gone => simp at hgone
    | _ => rfl
  obtain ⟨⟨w', c, s'⟩, hc⟩ := Option.isSome_iff_exists.mp hwork
  simp [step?, hw, hc]

theorem isOver_iff_closed (h : Sound feeds b) : b.isOver = true ↔ b.results.closed = true := by
  constructor
  · intro hover
    have hworking : b.workers.countP Fetcher.isWorking = 0 := countP_of_isOver hover rfl
    have hclosing : b.workers.countP Fetcher.isClosing = 0 := countP_of_isOver hover rfl
    have hlast := h.last
    rw [hclosing, if_pos (h.barrier.trans hworking)] at hlast
    by_contra hc
    rw [if_neg hc] at hlast
    omega
  · intro hc
    refine List.all_eq_true.mpr fun w hw => ?_
    by_contra hgone
    have := h.open_of_mem hw (by simpa using hgone)
    rw [this] at hc
    cases hc

/-- A worker leaves only when no job is queued. -/
theorem jobs_of_isOver (h : Sound feeds b) (hover : b.isOver = true) : b.jobs.items = [] := by
  obtain ⟨w, hw⟩ := List.exists_mem_of_ne_nil _ h.staffed
  obtain rfl := eq_gone_of_isOver hover hw
  exact h.done _ hw rfl

/-- Once every worker is gone there is a result for every feed. -/
theorem published_perm (h : Sound feeds b) (hover : b.isOver = true) :
    (b.published.map Fetched.address).Perm (feeds.map addressOf) := by
  have hhand : b.workers.flatMap Fetcher.addresses = [] := flatMap_of_isOver hover rfl
  simpa [h.jobs_of_isOver hover, hhand] using h.conserved

end Sound

end Batch

end Ingest.Pipeline

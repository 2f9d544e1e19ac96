import Ingest.Pipeline.Batch
import Ingest.Proofs.History
import Ingest.Proofs.Pipeline.Shared
import Ingest.Proofs.Queue
import Ingest.Proofs.Registers

/-!
# The steps of a worker

Everything a worker of a batch can do (`Works`), with the reason for it: `works_of_work?` is the only
place that looks into `Batch.work?`. What a worker has in hand is its job's address until the
result is published, and from the end of the fetch on the result itself.
-/

namespace Ingest.Pipeline

variable {σ : Type}

/-- Whose data a result is, and where it goes. -/
abbrev Address := String × Destination

def Job.address (j : Job) : Address :=
  (j.feed.request.url, j.feed.destination)

namespace Fetched

def address (f : Fetched) : Address :=
  (f.url, f.destination)

def response? (f : Fetched) : Option Http.Response :=
  match f.outcome with
  | .ok r => some r
  | .error _ => none

/-- The error of a result, as a list. -/
def errors (f : Fetched) : List Error :=
  f.error?.toList

@[simp] theorem ofJob_address (j : Job) (o : Except Error Http.Response) :
    (ofJob j o).address = j.address := rfl

@[simp] theorem ofJob_error_errors (j : Job) (e : Error) : (ofJob j (.error e)).errors = [e] := rfl

@[simp] theorem ofJob_ok_errors (j : Job) (r : Http.Response) : (ofJob j (.ok r)).errors = [] := rfl

end Fetched

namespace Fetcher

/-- The address of what a worker has in hand, as a list. -/
@[simp] def addresses : Fetcher → List Address
  | asking j | asleep j _ _ | cleared j | sending j | failing j _ | noting j _ _ => [j.address]
  | publishing f => [f.address]
  | idle | leaving | closing | gone => []

/-- The worker has not arrived at the barrier yet. -/
@[simp] def isWorking : Fetcher → Bool
  | closing | gone => false
  | _ => true

@[simp] def isClosing : Fetcher → Bool
  | closing => true
  | _ => false

/-- The worker has found no more jobs. -/
@[simp] def isDone : Fetcher → Bool
  | leaving | closing | gone => true
  | _ => false

/-- How many steps a worker with a job is from having published its result, and one without from
being gone, if a record goes through `n` registers. -/
@[simp] def load (n : ℕ) : Fetcher → ℕ
  | idle => 3
  | asking _ => n + 10
  | asleep _ _ _ => n + 9
  | cleared _ => n + 8
  | sending _ => n + 7
  | failing _ _ => n + 6
  | noting _ _ slots => slots.length + 5
  | publishing _ => 4
  | leaving => 2
  | closing => 1
  | gone => 0

attribute [simp] isGone fail

end Fetcher

namespace Batch

/-- What a worker of a batch can do. -/
inductive Works (sv : Services σ) (b : Batch) (s : Shared σ) :
    Fetcher → Fetcher → Batch → Shared σ → Prop
  | take {j : Job} {rest : List Job} (h : b.jobs.items = j :: rest) :
    Works sv b s .idle (.asking j) { b with jobs := { b.jobs with items := rest } } s
  | finish (h : b.jobs.items = []) : Works sv b s .idle .leaving b s
  | pass {j : Job} {w : σ} (h : sv.limiter.ask b.cancelled s.world = (.go, w)) :
    Works sv b s (.asking j) (.cleared j) b { s with world := w }
  | refuse {j : Job} {e : Error} {w : σ}
    (h : sv.limiter.ask b.cancelled s.world = (.refuse e, w)) :
    Works sv b s (.asking j) (.fail sv.limiter.occasion j e) b { s with world := w }
  | sleep {j : Job} {since ready : Int} {w : σ}
    (h : sv.limiter.ask b.cancelled s.world = (.sleep since ready, w)) :
    Works sv b s (.asking j) (.asleep j since ready) b { s with world := w }
  | giveUp {j : Job} {since ready : Int} {e : Error} {w : σ} (hc : b.cancelled = true)
    (h : sv.limiter.giveUp s.world = (e, w)) :
    Works sv b s (.asleep j since ready) (.fail sv.limiter.occasion j e) b { s with world := w }
  | wake {j : Job} {since ready : Int} (hc : b.cancelled = false) :
    Works sv b s (.asleep j since ready) (.cleared j) b
      { s with world := sv.limiter.wake ready s.world }
  | begin {j : Job} :
    Works sv b s (.cleared j) (.sending j) { b with begun := b.begun ++ [j.number] } s
  | answer {j : Job} {r : Http.Response} {lines : List LogLine} {w : σ}
    (h : sv.send j s.world = (.ok r, lines, w)) :
    Works sv b s (.sending j) (.publishing (.ofJob j (.ok r)))
      { b with exchanged := b.exchanged ++ [(j, .ok r)] } ({ s with world := w }.say lines)
  | fail {j : Job} {e : Error} {lines : List LogLine} {w : σ}
    (h : sv.send j s.world = (.error e, lines, w)) :
    Works sv b s (.sending j) (.fail "fetch" j e)
      { b with exchanged := b.exchanged ++ [(j, .error e)] } ({ s with world := w }.say lines)
  | excuse {j : Job} {e : Error} (h : b.isOwnDoing s e = true) :
    Works sv b s (.failing j e) (.publishing (.ofJob j (.error e)))
      { b with excused := b.excused ++ [e] } s
  | blame {j : Job} {e : Error} (h : b.isOwnDoing s e = false) :
    Works sv b s (.failing j e) (.noting j e (s.registers.path b.slot)) b s
  | note {j : Job} {e : Error} {i : ℕ} {is : List ℕ} :
    Works sv b s (.noting j e (i :: is)) (.noting j e is) b (s.note i e)
  | noted {j : Job} {e : Error} :
    Works sv b s (.noting j e []) (.publishing (.ofJob j (.error e))) b s
  | publish {f : Fetched} (hc : b.results.closed = false)
    (hroom : b.results.items.length < b.results.capacity) :
    Works sv b s (.publishing f) .idle
      { b with
        results := { b.results with items := b.results.items ++ [f] }
        published := b.published ++ [f] } s
  | lose {f : Fetched} (hc : b.results.closed = true) : Works sv b s (.publishing f) .idle b s
  | arrive : Works sv b s .leaving (if b.arrivals.arrive.1 then .closing else .gone)
      { b with arrivals := b.arrivals.arrive.2 } s
  | close : Works sv b s .closing .gone
      { b with results := b.results.close.2, arrivals := b.arrivals.complete } s

theorem works_of_work? {sv : Services σ} {b b' : Batch} {s s' : Shared σ} {w w' : Fetcher}
    (h : b.work? sv s w = some (w', b', s')) : Works sv b s w w' b' s' := by
  cases w with
  | idle =>
    simp only [work?] at h
    rcases hq : b.jobs.receive? with _ | ⟨r, q⟩
    · simp [hq] at h
    rcases Queue.receive?_cases hq with ⟨j, rest, hi, rfl, rfl⟩ | ⟨hi, hc, rfl, rfl⟩
    · simp only [hq, Option.some.injEq, Prod.mk.injEq] at h
      obtain ⟨rfl, rfl, rfl⟩ := h
      exact .take hi
    · simp only [hq, Option.some.injEq, Prod.mk.injEq] at h
      obtain ⟨rfl, rfl, rfl⟩ := h
      exact .finish hi
  | asking j =>
    simp only [work?] at h
    split at h <;> rename_i ha <;>
      · simp only [Option.some.injEq, Prod.mk.injEq] at h
        obtain ⟨rfl, rfl, rfl⟩ := h
        first | exact .pass ha | exact .refuse ha | exact .sleep ha
  | asleep j since ready =>
    simp only [work?] at h
    split_ifs at h with hc <;> simp only [Option.some.injEq, Prod.mk.injEq] at h <;>
      obtain ⟨rfl, rfl, rfl⟩ := h
    · exact .giveUp hc rfl
    · exact .wake (by simpa using hc)
  | cleared j =>
    simp only [work?, Option.some.injEq, Prod.mk.injEq] at h
    obtain ⟨rfl, rfl, rfl⟩ := h
    exact .begin
  | sending j =>
    simp only [work?] at h
    split at h <;> rename_i hs <;> simp only [Option.some.injEq, Prod.mk.injEq] at h <;>
      obtain ⟨rfl, rfl, rfl⟩ := h
    · exact .answer hs
    · exact .fail hs
  | failing j e =>
    simp only [work?] at h
    split_ifs at h with ho <;> simp only [Option.some.injEq, Prod.mk.injEq] at h <;>
      obtain ⟨rfl, rfl, rfl⟩ := h
    · exact .excuse ho
    · exact .blame (by simpa using ho)
  | noting j e slots =>
    cases slots <;> simp only [work?, Option.some.injEq, Prod.mk.injEq] at h <;>
      obtain ⟨rfl, rfl, rfl⟩ := h
    · exact .noted
    · exact .note
  | publishing f =>
    simp only [work?] at h
    rcases hq : b.results.send? f with _ | ⟨accepted, q⟩
    · simp [hq] at h
    simp only [hq, Option.some.injEq, Prod.mk.injEq] at h
    obtain ⟨rfl, rfl, rfl⟩ := h
    rcases Queue.send?_cases hq with ⟨hc, rfl, rfl⟩ | ⟨hc, hroom, rfl, rfl⟩
    · simpa using Works.lose hc
    · exact .publish hc hroom
  | leaving =>
    simp only [work?, Option.some.injEq, Prod.mk.injEq] at h
    obtain ⟨rfl, rfl, rfl⟩ := h
    exact .arrive
  | closing =>
    simp only [work?, Option.some.injEq, Prod.mk.injEq] at h
    obtain ⟨rfl, rfl, rfl⟩ := h
    exact .close
  | gone => simp [work?] at h

/-- A step of a batch is a step of one of its workers. -/
theorem step?_cases {sv : Services σ} {b b' : Batch} {s s' : Shared σ} {k : ℕ}
    (h : b.step? sv k s = some (b', s')) :
    ∃ w w' c, b.workers[k]? = some w ∧ Works sv b s w w' c s'
      ∧ b' = { c with workers := b.workers.set k w' } ∧ c.workers = b.workers := by
  unfold step? at h
  split at h
  · simp at h
  rename_i w hw
  split at h
  · simp at h
  rename_i w' c s'' hwork
  simp only [Option.some.injEq, Prod.mk.injEq] at h
  obtain ⟨rfl, rfl⟩ := h
  have hworks := works_of_work? hwork
  have hc : c.workers = b.workers := by cases hworks <;> rfl
  exact ⟨w, w', c, hw, hworks, by rw [hc], hc⟩

end Batch

end Ingest.Pipeline

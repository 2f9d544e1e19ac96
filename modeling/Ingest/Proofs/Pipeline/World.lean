import Ingest.Pipeline.Pace
import Ingest.Proofs.Pipeline.Run

/-!
# What a run does to the world

Only the workers of the batch and the couriers act on the world. What a courier writes was brought by
the response to a feed and goes to the feed's destination (`Run.Fits.destination_mem`), so what the
services keep under such writes holds of the world at every moment of a run (`Run.keeps_of_follow?`).

The run that is carried out is one of its histories (`Run.carryOut_follows`).
-/

namespace Ingest.Pipeline

variable {σ : Type}

/-- What services keep, whatever they are asked: `I` of the writes so far and the world, as long as
payloads are written to destinations with `D` only. -/
structure Services.Keeps (sv : Services σ) (D : Destination → Prop) (I : List Write → σ → Prop) :
    Prop where
  ask : ∀ {ws w}, I ws w → ∀ cancelled, I ws (sv.limiter.ask cancelled w).2
  wake : ∀ {ws w}, I ws w → ∀ ready, I ws (sv.limiter.wake ready w)
  giveUp : ∀ {ws w}, I ws w → I ws (sv.limiter.giveUp w).2
  send : ∀ {ws w}, I ws w → ∀ j, I ws (sv.send j w).2.2
  write : ∀ {ws w k storage cancelled u n w'}, sv.writers[k]? = some storage → D u.destination →
    storage.upsert cancelled u w = (.ok n, w') → I ws w → I (ws ++ [⟨k, u, none⟩]) w'
  fail : ∀ {ws w k storage cancelled u e w'}, sv.writers[k]? = some storage → D u.destination →
    storage.upsert cancelled u w = (.error e, w') → I ws w →
      I (ws ++ [⟨k, u, some (Delivery.failure u storage.type e)⟩]) w'

variable {sv : Services σ} {D : Destination → Prop} {I : List Write → σ → Prop}

theorem Batch.Works.keeps {b b' : Batch} {s s' : Shared σ} {w w' : Fetcher}
    (h : Works sv b s w w' b' s') (hkeeps : sv.Keeps D I) {ws : List Write} (hI : I ws s.world) :
    I ws s'.world := by
  cases h with
  | pass h | refuse h | sleep h =>
    have := hkeeps.ask hI b.cancelled
    rwa [h] at this
  | giveUp _ h =>
    have := hkeeps.giveUp hI
    rwa [h] at this
  | wake => exact hkeeps.wake hI _
  | @answer j _ _ _ h | @fail j _ _ _ h =>
    have := hkeeps.send hI j
    rwa [h] at this
  | _ => exact hI

theorem Delivery.Serves.keeps {d d' : Delivery} {s s' : Shared σ} {c c' : Courier}
    (h : Serves sv d s c c' d' s') (hkeeps : sv.Keeps D I)
    (hD : ∀ k < sv.writers.length, ∀ u ∈ c.unwritten k, D u.destination)
    (hI : I d.writes s.world) : I d'.writes s'.world := by
  have hwriting : ∀ {u : Upsert} {k : ℕ} {storage : Writer σ}, c = .writing u k →
      sv.writers[k]? = some storage → D u.destination := by
    rintro u k storage rfl hk
    exact hD k (List.getElem?_eq_some_iff.mp hk).1 u (by simp)
  cases h with
  | write hk hu => exact hkeeps.write hk (hwriting rfl hk) hu hI
  | fail hk hu => exact hkeeps.fail hk (hwriting rfl hk) hu hI
  | _ => exact hI

theorem Cursor.Calls.world {c c' : Cursor} {s s' : Shared σ} (h : Calls c s c' s') :
    s'.world = s.world := by
  cases h <;> rfl

theorem Fetched.destination_of_payload? {f : Fetched} {u : Upsert} (h : f.payload? = some u) :
    u.destination = f.destination := by
  unfold payload? at h
  split at h
  · unfold Run.payloadOf at h
    simp only at h
    split at h
    · cases h
    · obtain rfl := Option.some.inj h
      rfl
  · cases h

namespace Run

variable {feeds : List Feed} {handled : List Fetched} {base told : ℕ → List Error}
  {r r' : Run} {s s' : Shared σ}

theorem Loops.world (h : Loops r s r' s') :
    s'.world = s.world ∧ r'.delivery.writes = r.delivery.writes := by
  cases h with
  | await _ hc => exact ⟨hc.world, rfl⟩
  | stop =>
    rcases r.cursor.close_cases s with ⟨-, heq⟩ | ⟨-, heq⟩ | ⟨b, -, heq⟩ <;> rw [heq] <;>
      exact ⟨rfl, rfl⟩
  | _ => exact ⟨rfl, rfl⟩

/-- A step of a run is the call of a storage by a courier: it is noted as a write, with how the call
ended, and the world is as the call leaves it. Or else nothing is written, and the step is the same
whatever the storages do. -/
theorem act?_calls {e : Event} (h : act? sv (r, s) e = some (r', s')) :
    (∃ c k u storage answer failure, e = .deliver c
        ∧ r.delivery.couriers[c]? = some (.writing u k) ∧ sv.writers[k]? = some storage
        ∧ storage.upsert (s.isCancelled r.delivery.context) u s.world = (answer, s'.world)
        ∧ r'.delivery.writes = r.delivery.writes ++ [⟨k, u, failure⟩]
        ∧ (failure = none ↔ answer.isOk = true))
      ∨ r'.delivery.writes = r.delivery.writes ∧ ∀ writers : List (Writer σ),
        writers.length = sv.writers.length →
          act? { sv with writers := writers } (r, s) e = some (r', s') := by
  cases e with
  | loop => exact .inr ⟨(loops_of_stepLoop? h).world.2, fun _ _ => h⟩
  | deliver c =>
    obtain ⟨⟨d, s₁⟩, hd, heq⟩ := Option.map_eq_some_iff.mp h
    obtain ⟨rfl, rfl⟩ := Prod.mk.inj heq
    rcases Delivery.step?_calls hd with ⟨k, u, storage, answer, failure, hcall⟩ | ⟨hwrites, hsame⟩
    · exact .inl ⟨c, k, u, storage, answer, failure, rfl, hcall⟩
    · refine .inr ⟨hwrites, fun writers hlength => ?_⟩
      exact congrArg (Option.map fun p => ({ r with delivery := p.1 }, p.2)) (hsame writers hlength)
  | fetch | heed =>
    obtain ⟨c, -, heq⟩ := Option.map_eq_some_iff.mp h
    obtain ⟨rfl, -⟩ := Prod.mk.inj heq
    exact .inr ⟨rfl, fun _ _ => h⟩
  | cancel =>
    obtain ⟨rfl, -⟩ := Prod.mk.inj (Option.some.inj h)
    exact .inr ⟨rfl, fun _ _ => h⟩

namespace Fits

/-- What was accepted goes where one of the feeds says. -/
theorem destination_mem (h : Fits sv feeds handled base told r s) {u : Upsert}
    (hu : u ∈ r.delivery.accepted) : u.destination ∈ feeds.map Feed.destination := by
  have hhandled : u ∈ handled.filterMap Fetched.payload? := by
    rw [h.accepted]
    exact List.mem_append_left _ hu
  obtain ⟨f, hf, hpayload⟩ := List.mem_filterMap.mp hhandled
  have hpublished : f ∈ Cursor.published r.cursor.batch := by
    rw [← h.cursor.conserved, ← h.delivered]
    simp [hf]
  cases hb : r.cursor.batch with
  | none => simp [hb] at hpublished
  | some b =>
    rw [hb] at hpublished
    have haddress : f.address ∈ r.cursor.feeds.map addressOf :=
      (h.cursor.batch b hb).conserved.subset
        (List.mem_append_left _ (List.mem_append_left _ (List.mem_map_of_mem hpublished)))
    rw [h.origin] at haddress
    obtain ⟨g, hg, hgf⟩ := List.mem_map.mp haddress
    rw [Fetched.destination_of_payload? hpayload, ← show g.destination = f.destination from
      congrArg Prod.snd hgf]
    exact List.mem_map_of_mem hg

/-- So does what a courier has yet to write. -/
theorem destination_mem_of_unwritten (h : Fits sv feeds handled base told r s) {c : Courier}
    (hc : c ∈ r.delivery.couriers) {k : ℕ} (hk : k < sv.writers.length) {u : Upsert}
    (hu : u ∈ c.unwritten k) : u.destination ∈ feeds.map Feed.destination := by
  have htaken : u ∈ r.delivery.taken :=
    (h.delivery.written k hk).subset
      (List.mem_append_right _ (List.mem_flatMap.mpr ⟨c, hc, hu⟩))
  exact h.destination_mem (h.delivery.conserved ▸ List.mem_append_left _ htaken)

theorem keeps_step (h : Fits sv feeds handled base told r s)
    (hkeeps : sv.Keeps (· ∈ feeds.map Feed.destination) I) {e : Event}
    (hs : r.step? sv s e = some (r', s')) (hI : I r.delivery.writes s.world) :
    I r'.delivery.writes s'.world := by
  cases steps_of_step? hs with
  | loop hl =>
    obtain ⟨hworld, hwrites⟩ := hl.world
    rwa [hworld, hwrites]
  | fetch hc =>
    obtain ⟨b, b', -, hb', -⟩ := Cursor.stepWorker?_cases hc
    obtain ⟨w, w', b₁, -, hworks, -⟩ := Batch.step?_cases hb'
    exact hworks.keeps hkeeps hI
  | deliver hd =>
    obtain ⟨c, c', d₁, hc, hserves, rfl⟩ := Delivery.step?_cases hd
    exact hserves.keeps hkeeps
      (fun k hk u hu => h.destination_mem_of_unwritten (List.mem_of_getElem? hc) hk hu) hI
  | heed | cancel => exact hI

end Fits

/-- What services keep under writes to the feeds' destinations holds of the world and the writes at
every moment of a run. -/
theorem keeps_of_follow? (hkeeps : sv.Keeps (· ∈ feeds.map Feed.destination) I) {context : String}
    {workers : ℕ} (hw : 0 < workers) {s₀ : Shared σ} (hv : s₀.registers.Valid)
    (hI : I [] s₀.world) {es : List Event}
    (hes : follow? (act? sv) (start context feeds workers s₀) es = some (r, s)) :
    I r.delivery.writes s.world := by
  have hinv := follow?_invariant (P := fun t : Run × Shared σ =>
    (∃ handled base told, Fits sv feeds handled base told t.1 t.2)
      ∧ I t.1.delivery.writes t.2.world) ?_ ⟨⟨_, _, _, fits_start sv context feeds hw hv⟩, hI⟩ hes
  · exact hinv.2
  · rintro e - t t' ⟨⟨handled, base, told, hfits⟩, hI⟩ ht
    exact ⟨hfits.step ht, hfits.keeps_step hkeeps ht hI⟩

/-! ### The run that is carried out -/

theorem settle_follows {τ ε : Type} {step? : τ → ε → Option τ} {next? : τ → Option τ}
    (hnext : ∀ t t', next? t = some t' → ∃ e, step? t e = some t') (n : ℕ) (t : τ) :
    ∃ es, follow? step? t es = some (settle next? n t) := by
  induction n generalizing t with
  | zero => exact ⟨[], rfl⟩
  | succ n ih =>
    unfold settle
    cases ht : next? t with
    | none => exact ⟨[], rfl⟩
    | some t' =>
      obtain ⟨e, he⟩ := hnext t t' ht
      obtain ⟨es, hes⟩ := ih t'
      exact ⟨e :: es, by simpa only [follow?, he] using hes⟩

/-- At every pace, a run that is carried out has gone through events that could happen in turn. -/
theorem carryOut_follows (sv : Services σ) (p : Pace) (context : String) (feeds : List Feed)
    (workers : ℕ) (s : Shared σ) : ∃ es, follow? (act? sv) (start context feeds workers s) es
      = some (carryOut sv p context feeds workers s) := by
  refine settle_follows (fun t t' ht => ?_) _ _
  obtain ⟨e, -, he⟩ := List.exists_of_findSome?_eq_some ht
  exact ⟨e, he⟩

end Run

end Ingest.Pipeline

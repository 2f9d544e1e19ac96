import Ingest.Proofs.Pipeline.Accounts
import Ingest.Proofs.Pipeline.Fetching

/-!
# Batches that are cancelled

A worker looks at the batch's context before it asks the limiter, and the context may be cancelled in
between (`Scene.Event.look`). After that only those workers send a request that are past the limiter
or have looked before (`Scene.Poised`), and each of them one at most (`Scene.Told`).
-/

namespace Ingest.Pipeline.Batch

variable {σ : Type}

/-- A batch with what is around it, and the workers that are about to ask the limiter and have seen
that the batch's context is not cancelled. -/
structure Scene (σ : Type) where
  batch : Batch
  shared : Shared σ
  looked : List ℕ := []

theorem Sound.withCancelled {feeds : List Feed} {b : Batch} (h : Sound feeds b) (cancelled : Bool) :
    Sound feeds { b with cancelled := cancelled } :=
  ⟨h.1, h.2, h.3, h.4, h.5, h.6, h.7, h.8, h.9⟩

/-- What only a worker's step changes. -/
theorem act?_quiet {sv : Services σ} {t t' : Batch × Shared σ} {e : Event σ}
    (h : act? sv t e = some t') (he : e.isWork = false) :
    t'.1.workers = t.1.workers ∧ t'.1.jobs = t.1.jobs ∧ t'.1.exchanged = t.1.exchanged
      ∧ t'.1.published = t.1.published ∧ t'.1.begun = t.1.begun
      ∧ (t.1.cancelled = true → t'.1.cancelled = true) := by
  cases e with
  | work k => cases he
  | heed =>
    obtain ⟨b, hb, rfl⟩ := Option.map_eq_some_iff.mp h
    unfold heed? at hb
    split_ifs at hb
    obtain rfl := Option.some.inj hb
    exact ⟨rfl, rfl, rfl, rfl, rfl, fun _ => rfl⟩
  | stop =>
    obtain rfl := Option.some.inj h
    exact ⟨rfl, rfl, rfl, rfl, rfl, fun _ => rfl⟩
  | receive =>
    obtain ⟨⟨r, q⟩, -, rfl⟩ := Option.map_eq_some_iff.mp h
    exact ⟨rfl, rfl, rfl, rfl, rfl, id⟩
  | _ =>
    obtain rfl := Option.some.inj h
    exact ⟨rfl, rfl, rfl, rfl, rfl, id⟩

namespace Scene

inductive Event (σ : Type) where
  /-- A worker looks at the batch's context. -/
  | look (k : ℕ)
  | happen (e : Batch.Event σ)

def Event.isWork : Event σ → Bool
  | look _ => false
  | happen e => e.isWork

/-- The batch as a worker knows it. -/
def seenBy (t : Scene σ) (k : ℕ) : Batch :=
  if k ∈ t.looked then { t.batch with cancelled := false } else t.batch

/-- The worker with number `k` makes a step. -/
def work? (sv : Services σ) (t : Scene σ) (k : ℕ) : Option (Scene σ) :=
  ((t.seenBy k).step? sv k t.shared).map fun p =>
    { batch := { p.1 with cancelled := t.batch.cancelled }
      shared := p.2
      looked := t.looked.filter (· ≠ k) }

/-- Something else happens to the batch or around it. -/
def around? (sv : Services σ) (t : Scene σ) (e : Batch.Event σ) : Option (Scene σ) :=
  (Batch.act? sv (t.batch, t.shared) e).map fun p => { t with batch := p.1, shared := p.2 }

/-- A scene after an event. None if the event cannot happen now. -/
def act? (sv : Services σ) (t : Scene σ) : Event σ → Option (Scene σ)
  | .look k =>
    match t.batch.workers[k]? with
    | some (.asking _) =>
      if t.batch.cancelled then none else some { t with looked := k :: t.looked }
    | _ => none
  | .happen (.work k) => t.work? sv k
  | .happen e => t.around? sv e

/-- The request that is sent, if any, with the number of the worker. -/
def sends (t : Scene σ) : Event σ → List (ℕ × Job)
  | .happen (.work k) =>
    match t.batch.workers[k]? with
    | some w => w.ready.map fun j => (k, j)
    | none => []
  | _ => []

/-- A worker can send a request for a job whether the batch is cancelled or not: it is past the limiter,
or asks it and has seen that the batch is not cancelled. -/
def Poised (t : Scene σ) (k : ℕ) (j : Job) : Prop :=
  t.batch.workers[k]? = some (.cleared j)
    ∨ k ∈ t.looked ∧ t.batch.workers[k]? = some (.asking j)

variable {sv : Services σ} {feeds : List Feed} {t t' t₁ : Scene σ} {e : Event σ} {w : Fetcher} {k : ℕ}
  {j : Job}

@[simp] theorem seenBy_workers (t : Scene σ) (k : ℕ) : (t.seenBy k).workers = t.batch.workers := by
  unfold seenBy
  split <;> rfl

@[simp] theorem seenBy_begun (t : Scene σ) (k : ℕ) : (t.seenBy k).begun = t.batch.begun := by
  unfold seenBy
  split <;> rfl

@[simp] theorem seenBy_slot (t : Scene σ) (k : ℕ) : (t.seenBy k).slot = t.batch.slot := by
  unfold seenBy
  split <;> rfl

@[simp] theorem load_seenBy (n : ℕ) (t : Scene σ) (k : ℕ) :
    (t.seenBy k).load n = t.batch.load n := by
  unfold seenBy
  split <;> rfl

theorem sends_work (hw : t.batch.workers[k]? = some w) :
    t.sends (.happen (.work k)) = w.ready.map fun j => (k, j) := by
  simp only [sends, hw]

/-- A worker's step is one of the batch as the worker knows it. -/
theorem work?_cases (h : t.work? sv k = some t') :
    ∃ w w' c, t.batch.workers[k]? = some w ∧ Works sv (t.seenBy k) t.shared w w' c t'.shared
      ∧ t'.batch = { c with workers := t.batch.workers.set k w', cancelled := t.batch.cancelled }
      ∧ t'.looked = t.looked.filter (· ≠ k) := by
  obtain ⟨⟨b, s⟩, hs, rfl⟩ := Option.map_eq_some_iff.mp h
  obtain ⟨w, w', c, hw, hworks, rfl, -⟩ := step?_cases hs
  rw [seenBy_workers] at hw
  exact ⟨w, w', c, hw, hworks, by simp, rfl⟩

/-- Everything that can happen in a scene. -/
theorem act?_cases (h : act? sv t e = some t') :
    (∃ k, e = .happen (.work k) ∧ t.work? sv k = some t')
      ∨ (∃ k j, e = .look k ∧ t.batch.workers[k]? = some (.asking j) ∧ t.batch.cancelled = false
        ∧ t' = { t with looked := k :: t.looked })
      ∨ ∃ e', e = .happen e' ∧ e'.isWork = false
        ∧ Batch.act? sv (t.batch, t.shared) e' = some (t'.batch, t'.shared)
        ∧ t'.looked = t.looked := by
  cases e with
  | look k =>
    simp only [act?] at h
    split at h
    · rename_i j hj
      split_ifs at h with hc
      exact .inr (.inl ⟨k, j, rfl, hj, by simpa using hc, (Option.some.inj h).symm⟩)
    · cases h
  | happen e =>
    have haround : ∀ e : Batch.Event σ, t.around? sv e = some t' →
        Batch.act? sv (t.batch, t.shared) e = some (t'.batch, t'.shared)
          ∧ t'.looked = t.looked := by
      intro e he
      obtain ⟨p, hp, rfl⟩ := Option.map_eq_some_iff.mp he
      exact ⟨hp, rfl⟩
    cases e with
    | work k => exact .inl ⟨k, rfl, h⟩
    | _ => exact .inr (.inr ⟨_, rfl, rfl, haround _ h⟩)

/-! ### What a scene keeps -/

/-- What holds of a scene at every moment. -/
structure Fits (feeds : List Feed) (t : Scene σ) : Prop where
  sound : Sound feeds t.batch
  accounts : ∃ given, Accounts feeds given t.batch
  asking : ∀ k ∈ t.looked, ∃ j, t.batch.workers[k]? = some (.asking j)

/-- Nobody has moved yet in the batch. -/
def start (caller : String) (feeds : List Feed) (workers slot : ℕ) (s : Shared σ) : Scene σ :=
  { batch := (Batch.start caller feeds workers slot s).1
    shared := (Batch.start caller feeds workers slot s).2 }

theorem sound_seenBy (h : Sound feeds t.batch) (k : ℕ) : Sound feeds (t.seenBy k) := by
  unfold seenBy
  split
  · exact h.withCancelled false
  · exact h

theorem accounts_seenBy {given : List (Job × Error)} (h : Accounts feeds given t.batch) (k : ℕ) :
    Accounts feeds given (t.seenBy k) := by
  unfold seenBy
  split
  · exact h.congr rfl rfl rfl rfl rfl
  · exact h

namespace Fits

theorem start (caller : String) (feeds : List Feed) (workers slot : ℕ) (s : Shared σ) :
    Fits feeds (start caller feeds workers slot s) :=
  ⟨sound_start _ _ _ _ _, ⟨_, .start _ _ _ _ _⟩, by simp [Scene.start]⟩

theorem work (h : Fits feeds t) (hlimiter : sv.limiter.IsBuiltIn) (hw : t.work? sv k = some t') :
    Fits feeds t' := by
  obtain ⟨given, haccounts⟩ := h.accounts
  obtain ⟨⟨b, s⟩, hs, rfl⟩ := Option.map_eq_some_iff.mp hw
  obtain ⟨given', haccounts'⟩ :=
    (accounts_seenBy haccounts k).step hlimiter (sound_seenBy h.sound k) hs
  refine ⟨((sound_seenBy h.sound k).step hs).withCancelled _,
    ⟨given', haccounts'.congr rfl rfl rfl rfl rfl⟩, fun i hi => ?_⟩
  obtain ⟨hi, hne⟩ := List.mem_filter.mp hi
  obtain ⟨j, hj⟩ := h.asking i hi
  obtain ⟨w, w', c, -, -, rfl, -⟩ := step?_cases hs
  refine ⟨j, ?_⟩
  show ((t.seenBy k).workers.set k w')[i]? = _
  rw [List.getElem?_set_ne (by simpa using Ne.symm (by simpa using hne)), seenBy_workers, hj]

theorem act (h : Fits feeds t) (hlimiter : sv.limiter.IsBuiltIn) (ht : act? sv t e = some t') :
    Fits feeds t' := by
  rcases act?_cases ht with ⟨k, -, hw⟩ | ⟨k, j, -, hj, -, rfl⟩ | ⟨e', -, he, hact, hlooked⟩
  · exact h.work hlimiter hw
  · refine ⟨h.sound, h.accounts, fun i hi => ?_⟩
    rcases List.mem_cons.mp hi with rfl | hi
    · exact ⟨j, hj⟩
    · exact h.asking i hi
  · obtain ⟨hworkers, hjobs, hexchanged, hpublished, hbegun, -⟩ := act?_quiet hact he
    obtain ⟨given, haccounts⟩ := h.accounts
    refine ⟨Sound.act h.sound hact,
      ⟨given, haccounts.congr hexchanged hpublished hworkers hjobs hbegun⟩, ?_⟩
    rw [hlooked]
    intro i hi
    obtain ⟨j, hj⟩ := h.asking i hi
    exact ⟨j, (congrArg (·[i]?) hworkers).trans hj⟩

/-- No worker ever waits. -/
theorem act?_isSome (h : Fits feeds t) (sv : Services σ) (hw : t.batch.workers[k]? = some w)
    (hgone : w.isGone = false) : (act? sv t (.happen (.work k))).isSome := by
  rw [← seenBy_workers t k] at hw
  have := (sound_seenBy h.sound k).step?_isSome sv t.shared hw hgone
  simpa [act?, work?] using this

end Fits

theorem fits_of_follow? (hlimiter : sv.limiter.IsBuiltIn) {es : List (Event σ)}
    (h₀ : Fits feeds t) (h : follow? (act? sv) t es = some t') : Fits feeds t' :=
  follow?_invariant (fun _ _ _ _ hfits ht => hfits.act hlimiter ht) h₀ h

/-- No event changes where the batch records, nor the registers that a record goes through. -/
theorem act?_path (h : act? sv t e = some t') :
    t'.shared.registers.path t'.batch.slot = t.shared.registers.path t.batch.slot := by
  rcases act?_cases h with ⟨k, -, hw⟩ | ⟨k, j, -, -, -, rfl⟩ | ⟨e', -, -, hact, -⟩
  · obtain ⟨w, w', c, -, hworks, hbatch, -⟩ := work?_cases hw
    rw [hworks.path, hbatch, ← seenBy_slot t k]
    exact congrArg _ hworks.frame.2.2.2.1
  · rfl
  · exact Batch.act?_path hact

theorem act?_load {n : ℕ} (h : act? sv t e = some t')
    (hn : (t.shared.registers.path t.batch.slot).length ≤ n) :
    t'.batch.load n + (if e.isWork then 1 else 0) ≤ t.batch.load n := by
  rcases act?_cases h with ⟨k, rfl, hw⟩ | ⟨k, j, rfl, -, -, rfl⟩ | ⟨e', rfl, -, hact, -⟩
  · obtain ⟨⟨b, s⟩, hs, rfl⟩ := Option.map_eq_some_iff.mp hw
    rw [← load_seenBy n t k]
    show b.load n + 1 ≤ (t.seenBy k).load n
    exact step?_load hs (by rwa [seenBy_slot])
  · exact le_rfl
  · exact Batch.act?_load hact hn

theorem countP_isWork_le {caller : String} {workers slot : ℕ} {s : Shared σ} {es : List (Event σ)}
    (h : follow? (act? sv) (start caller feeds workers slot s) es = some t) :
    es.countP Event.isWork ≤ 3 * workerCount workers feeds.length
      + feeds.length * ((s.registers.path slot).length + 8) := by
  have hmoves : es.countP Event.isWork + t.batch.load (s.registers.path slot).length
      ≤ (start caller feeds workers slot s).batch.load (s.registers.path slot).length := by
    refine countP_add_load_le (fun t => t.batch.load (s.registers.path slot).length)
      (P := fun t => t.shared.registers.path t.batch.slot = s.registers.path slot) ?_ rfl h
    intro e _ t t' hP ht
    exact ⟨(act?_path ht).trans hP, act?_load ht (by rw [hP])⟩
  rw [Scene.start, load_start] at hmoves
  omega

/-! ### After the cancellation -/

/-- If the batch is cancelled nobody comes to send a request who could not before, and whoever has sent
one is not about to send another. -/
theorem Poised.of_work (hfits : Fits feeds t) (hlimiter : sv.limiter.IsBuiltIn)
    (hc : t.batch.cancelled = true) (h : t.work? sv k = some t') {i : ℕ} (hp : t'.Poised i j) :
    t.Poised i j ∧ (i = k → ∀ w, t.batch.workers[k]? = some w → w.ready = []) := by
  obtain ⟨w, w', c, hw, hworks, hbatch, hlooked⟩ := work?_cases h
  unfold Poised at hp
  rw [hbatch, hlooked] at hp
  simp only at hp
  by_cases hik : i = k
  · subst hik
    rcases hp with hclear | ⟨hmem, -⟩
    · rw [List.getElem?_set_self (List.getElem?_eq_some_iff.mp hw).1] at hclear
      have hnow := Option.some.inj hclear
      have hunaware : i ∉ t.looked → (t.seenBy i).cancelled = true := fun hi => by
        rw [seenBy, if_neg hi, hc]
      have hready : w.ready = [] → ∀ u, t.batch.workers[i]? = some u → u.ready = [] :=
        fun hnone u hu => Option.some.inj (hw.symm.trans hu) ▸ hnone
      generalize t'.shared = s' at hworks
      cases hworks with
      | pass ha =>
        obtain rfl := Fetcher.cleared.inj hnow
        refine ⟨.inr ⟨?_, hw⟩, fun _ => hready rfl⟩
        by_contra hi
        rw [hunaware hi, hlimiter.ask_cancelled] at ha
        cases ha
      | wake hawake =>
        by_cases hi : i ∈ t.looked
        · obtain ⟨j', hj'⟩ := hfits.asking i hi
          cases hw.symm.trans hj'
        · rw [hunaware hi] at hawake
          cases hawake
      | arrive => split at hnow <;> cases hnow
      | _ => cases hnow
    · simp at hmem
  · rw [List.getElem?_set_ne (Ne.symm hik)] at hp
    exact ⟨hp.imp_right fun hp => ⟨(List.mem_filter.mp hp.1).1, hp.2⟩, fun h => absurd h hik⟩

/-- What has come of a scene `t₁` in which the batch was cancelled, and which requests were sent. -/
structure Told (t₁ : Scene σ) (sent : List (ℕ × Job)) (t : Scene σ) : Prop where
  cancelled : t.batch.cancelled = true
  begun : t.batch.begun = t₁.batch.begun ++ sent.map fun p => p.2.number
  once : (sent.map Prod.fst).Nodup
  poised : ∀ p ∈ sent, t₁.Poised p.1 p.2
  remaining : ∀ k j, t.Poised k j → t₁.Poised k j ∧ k ∉ sent.map Prod.fst

namespace Told

variable {sent : List (ℕ × Job)}

theorem start (hc : t.batch.cancelled = true) : Told t [] t :=
  ⟨hc, by simp, by simp, by simp, by simp⟩

/-- Nobody sends a request. -/
theorem idle (h : Told t₁ sent t) (hc : t'.batch.cancelled = true)
    (hbegun : t'.batch.begun = t.batch.begun) (hpoised : ∀ k j, t'.Poised k j → t.Poised k j) :
    Told t₁ sent t' :=
  ⟨hc, hbegun.trans h.begun, h.once, h.poised, fun k j hp => h.remaining k j (hpoised k j hp)⟩

theorem work (h : Told t₁ sent t) (hfits : Fits feeds t) (hlimiter : sv.limiter.IsBuiltIn)
    (hw : t.work? sv k = some t') :
    Told t₁ (sent ++ t.sends (.happen (.work k))) t' := by
  have hback : ∀ {i j}, t'.Poised i j →
      t.Poised i j ∧ (i = k → ∀ w, t.batch.workers[k]? = some w → w.ready = []) :=
    fun hp => hp.of_work hfits hlimiter h.cancelled hw
  obtain ⟨w, w', c, hk, hworks, hbatch, -⟩ := work?_cases hw
  have hcancelled : t'.batch.cancelled = true := by
    rw [hbatch]
    exact h.cancelled
  have hbegun : t'.batch.begun = t.batch.begun ++ w.ready.map Job.number := by
    rw [hbatch, ← seenBy_begun t k]
    exact hworks.begun
  rw [sends_work hk]
  rcases w.ready_cases with hnone | ⟨j, rfl⟩
  · rw [hnone, List.map_nil, List.append_nil] at hbegun ⊢
    exact h.idle hcancelled hbegun fun i j hp => (hback hp).1
  · obtain ⟨hpoised, hnew⟩ := h.remaining k j (.inl hk)
    refine ⟨hcancelled, ?_, ?_, ?_, fun i j' hp => ?_⟩
    · rw [hbegun, h.begun]
      simp
    · rw [List.map_append]
      exact h.once.append (List.nodup_singleton k) (by simpa using hnew)
    · intro p hp
      rcases List.mem_append.mp hp with hp | hp
      · exact h.poised p hp
      · exact List.mem_singleton.mp hp ▸ hpoised
    · obtain ⟨hp, hready⟩ := hback hp
      obtain ⟨hp₁, hold⟩ := h.remaining i j' hp
      have hik : i ≠ k := fun hik => by
        have := hready hik _ hk
        cases this
      refine ⟨hp₁, ?_⟩
      rw [List.map_append, List.mem_append]
      simp [hold, hik]

theorem act (h : Told t₁ sent t) (hfits : Fits feeds t) (hlimiter : sv.limiter.IsBuiltIn)
    (ht : act? sv t e = some t') : Told t₁ (sent ++ t.sends e) t' := by
  rcases act?_cases ht with ⟨k, rfl, hw⟩ | ⟨k, j, -, -, hlive, -⟩ | ⟨e', rfl, he, hact, hlooked⟩
  · exact h.work hfits hlimiter hw
  · rw [h.cancelled] at hlive
    cases hlive
  · obtain ⟨hworkers, -, -, -, hbegun, hcancelled⟩ := act?_quiet hact he
    have hnone : t.sends (.happen e') = [] := by
      cases e' with
      | work k => cases he
      | _ => rfl
    rw [hnone, List.append_nil]
    refine h.idle (hcancelled h.cancelled) hbegun fun k j hp => ?_
    unfold Poised at hp ⊢
    rwa [← hworkers, ← hlooked]

end Told

theorem told_of_follow? (hlimiter : sv.limiter.IsBuiltIn) (hfits : Fits feeds t₁)
    (hc : t₁.batch.cancelled = true) {es : List (Event σ)}
    (h : follow? (act? sv) t₁ es = some t) : Told t₁ (along (act? sv) sends t₁ es) t := by
  refine follow?_induction (fun es t => Told t₁ (along (act? sv) sends t₁ es) t) (.start hc) ?_ es h
  intro es e t t' hrun htold ht
  rw [along_append sends [e] hrun, along_singleton sends ht]
  exact htold.act (fits_of_follow? hlimiter hfits hrun) hlimiter ht

end Scene

end Ingest.Pipeline.Batch

import Ingest.Proofs.Pipeline.Consumer
import Ingest.Proofs.Pipeline.Fetching

/-!
# What is noted elsewhere

A cursor and its batch look at the paths of the registers and at what the cursor's own register holds.
So whatever others note in other registers, be it above the cursor's own, the same happens without it
(`follow?_without`), and with that everything that a consumer can see of a run of the cursor is said
(`answers_of_any_run`).
-/

namespace Ingest.Pipeline

variable {σ : Type}

/-- The same with other registers. -/
def Shared.on (s : Shared σ) (rs : Registers) : Shared σ :=
  { s with registers := rs }

/-- Both have the same slot `own`, and the same paths. -/
structure Agree (own : ℕ) (rs rs' : Registers) : Prop where
  slot : rs[own]? = rs'[own]?
  path : ∀ i, rs.path i = rs'.path i

namespace Agree

variable {own i : ℕ} {rs rs' : Registers}

theorem refl (own : ℕ) (rs : Registers) : Agree own rs rs :=
  ⟨rfl, fun _ => rfl⟩

theorem error? (h : Agree own rs rs') : rs.error? own = rs'.error? own := by
  rw [Registers.error?, Registers.error?, h.slot]

theorem note (h : Agree own rs rs') (i : ℕ) (e : Error) : Agree own (rs.note i e) (rs'.note i e) where
  slot := by rw [Registers.getElem?_note, Registers.getElem?_note, h.slot]
  path j := by rw [Registers.path_note, Registers.path_note, h.path]

theorem note_elsewhere (h : Agree own rs rs') (hi : i ≠ own) (e : Error) :
    Agree own (rs.note i e) rs' where
  slot := by rw [Registers.getElem?_note, if_neg hi, h.slot]
  path j := by rw [Registers.path_note, h.path]

end Agree

namespace Fetcher

/-- What a step of the worker makes of the registers. -/
def noted (rs : Registers) : Fetcher → Registers
  | noting _ e (slot :: _) => rs.note slot e
  | _ => rs

end Fetcher

namespace Batch

variable {sv : Services σ} {b : Batch} {s : Shared σ} {rs : Registers}

theorem work?_on (hpath : s.registers.path b.slot = rs.path b.slot) (w : Fetcher) :
    b.work? sv (s.on rs) w
      = (b.work? sv s w).map fun p => (p.1, p.2.1, p.2.2.on (w.noted rs)) := by
  cases w with
  | idle =>
    unfold work?
    rcases b.jobs.receive? with _ | ⟨r, q⟩
    · rfl
    · cases r <;> rfl
  | asking j =>
    simp only [work?, Shared.on]
    rcases sv.limiter.ask b.cancelled s.world with ⟨verdict, w⟩
    cases verdict <;> rfl
  | asleep j since ready =>
    simp only [work?]
    cases b.cancelled <;> rfl
  | sending j =>
    simp only [work?, Shared.on]
    rcases sv.send j s.world with ⟨outcome, lines, w⟩
    cases outcome <;> rfl
  | failing j e =>
    have hdoing : b.isOwnDoing (s.on rs) e = b.isOwnDoing s e := rfl
    simp only [work?, hdoing]
    cases b.isOwnDoing s e with
    | true => rfl
    | false =>
      show some (Fetcher.noting j e (rs.path b.slot), b, s.on rs) = _
      rw [← hpath]
      rfl
  | noting j e slots => cases slots <;> rfl
  | publishing f =>
    simp only [work?]
    rcases b.results.send? f with _ | ⟨accepted, q⟩ <;> rfl
  | _ => rfl

theorem registers_of_work? {b' : Batch} {s' : Shared σ} {w w' : Fetcher}
    (h : b.work? sv s w = some (w', b', s')) : s'.registers = w.noted s.registers := by
  have hon : b.work? sv (s.on s.registers) w = _ := work?_on rfl w
  have hself : s.on s.registers = s := rfl
  rw [hself, h] at hon
  exact congrArg (fun p => p.2.2.registers) (Option.some.inj hon)

theorem step?_on {own k : ℕ} {b' : Batch} {s' : Shared σ} (h : b.step? sv k s = some (b', s'))
    (hagree : Agree own s.registers rs) :
    ∃ rs', b.step? sv k (s.on rs) = some (b', s'.on rs') ∧ Agree own s'.registers rs' := by
  unfold step? at h ⊢
  rcases hw : b.workers[k]? with _ | w
  · simp [hw] at h
  simp only [hw] at h ⊢
  rcases hwork : b.work? sv s w with _ | ⟨w', b₁, s₁⟩
  · simp [hwork] at h
  simp only [hwork, Option.some.injEq, Prod.mk.injEq] at h
  obtain ⟨rfl, rfl⟩ := h
  rw [work?_on (hagree.path _), hwork]
  refine ⟨_, rfl, ?_⟩
  rw [registers_of_work? hwork]
  cases w with
  | noting j e slots =>
    cases slots with
    | nil => exact hagree
    | cons slot slots => exact hagree.note slot e
  | _ => exact hagree

end Batch

namespace Cursor

variable {sv : Services σ} {c c' : Cursor} {s s' : Shared σ} {rs : Registers} {own : ℕ}
  {feeds : List Feed}

theorem calls_on (h : Standing feeds own c) (hagree : Agree own s.registers rs)
    (hs : c.step? s = some (c', s')) :
    c.step? (s.on rs) = some (c', s'.on rs) ∧ s'.registers = s.registers := by
  unfold step? at hs ⊢
  cases hp : c.phase with
  | resting => simp [hp] at hs
  | starting context =>
    simp only [hp, Option.some.injEq, Prod.mk.injEq] at hs ⊢
    obtain ⟨rfl, rfl⟩ := hs
    exact ⟨⟨rfl, rfl⟩, rfl⟩
  | entering context =>
    simp only [hp, Option.some.injEq, Prod.mk.injEq] at hs ⊢
    obtain ⟨rfl, rfl⟩ := hs
    exact ⟨⟨rfl, rfl⟩, rfl⟩
  | waiting context listener =>
    have hcancelled : (s.on rs).isCancelled context = s.isCancelled context := rfl
    simp only [hp, hcancelled] at hs ⊢
    rcases hb : c.batch with _ | b
    · simp [hb] at hs
    rcases hr : b.results.receiveUnless? (s.isCancelled context) with _ | ⟨r, q⟩
    · simp [hb, hr] at hs
    simp only [hb, hr, Option.some.injEq, Prod.mk.injEq] at hs ⊢
    obtain ⟨rfl, rfl⟩ := hs
    exact ⟨⟨rfl, rfl⟩, rfl⟩
  | leaving context listener r =>
    have hsame : ∀ c : Cursor, c.slot = own → c.conclude rs r = c.conclude s.registers r := by
      intro c hslot
      unfold conclude
      rw [hslot, hagree.error?]
    simp only [hp, Option.some.injEq, Prod.mk.injEq] at hs ⊢
    obtain ⟨rfl, rfl⟩ := hs
    exact ⟨⟨hsame { c with phase := .resting } h.origin.2, rfl⟩, rfl⟩
  | joining =>
    simp only [hp] at hs ⊢
    rcases hb : c.batch with _ | b
    · simp [hb] at hs
    simp only [hb] at hs ⊢
    split_ifs at hs ⊢
    simp only [Option.some.injEq, Prod.mk.injEq] at hs ⊢
    obtain ⟨rfl, rfl⟩ := hs
    exact ⟨⟨rfl, rfl⟩, rfl⟩

theorem halt?_on (c : Cursor) (s : Shared σ) (rs : Registers) :
    c.halt? (s.on rs) = (c.halt? s).map fun p => (p.1, p.2.on rs) := by
  unfold halt?
  cases c.batch <;> rfl

theorem registers_of_halt? (h : c.halt? s = some (c', s')) : s'.registers = s.registers := by
  have hon := halt?_on c s s.registers
  have hself : s.on s.registers = s := rfl
  rw [hself, h] at hon
  exact congrArg (fun p => p.2.registers) (Option.some.inj hon)

theorem close_on (c : Cursor) (s : Shared σ) (rs : Registers) :
    c.close (s.on rs) = ((c.close s).1, (c.close s).2.on rs)
      ∧ (c.close s).2.registers = s.registers := by
  unfold close
  split_ifs
  · exact ⟨rfl, rfl⟩
  rw [halt?_on]
  rcases hh : c.shut.halt? s with _ | ⟨c', s'⟩
  · exact ⟨rfl, rfl⟩
  · exact ⟨rfl, registers_of_halt? hh⟩

/-- What happens next to registers with the same slot `own` is the same. -/
theorem happen?_on {e : Happening σ} (h : Standing feeds own c) (hagree : Agree own s.registers rs)
    (ht : happen? sv (c, s) e = some (c', s')) :
    ∃ rs', happen? sv (c, s.on rs) e = some (c', s'.on rs') ∧ Agree own s'.registers rs' := by
  cases e with
  | event e =>
    cases e with
    | advance context =>
      simp only [happen?, act?] at ht ⊢
      split_ifs at ht ⊢
      obtain ⟨rfl, rfl⟩ := Prod.mk.inj (Option.some.inj ht)
      exact ⟨rs, rfl, hagree⟩
    | call =>
      obtain ⟨hcall, hsame⟩ := calls_on h hagree ht
      exact ⟨rs, hcall, hsame ▸ hagree⟩
    | close =>
      simp only [happen?, act?] at ht ⊢
      split_ifs at ht ⊢
      obtain ⟨hclose, hsame⟩ := close_on c s rs
      have heq := Option.some.inj ht
      rw [heq] at hclose hsame
      exact ⟨rs, congrArg some hclose, hsame ▸ hagree⟩
    | work k =>
      obtain ⟨b, b', hb, hs, rfl⟩ := stepWorker?_cases ht
      obtain ⟨rs', hs', hagree'⟩ := Batch.step?_on hs hagree
      have hb : c.batch = some b := hb
      refine ⟨rs', ?_, hagree'⟩
      show c.stepWorker? sv k (s.on rs) = _
      simp only [stepWorker?, hb, hs', Option.map_some]
    | heed =>
      obtain ⟨c₁, hc, heq⟩ := Option.map_eq_some_iff.mp ht
      obtain ⟨rfl, rfl⟩ := Prod.mk.inj heq
      have hc' : c.heed? (s.on rs) = some c₁ := hc
      exact ⟨rs, by simp [happen?, act?, hc'], hagree⟩
    | note slot e =>
      obtain ⟨rfl, rfl⟩ := Prod.mk.inj (Option.some.inj ht)
      exact ⟨rs.note slot e, rfl, hagree.note slot e⟩
    | _ =>
      obtain ⟨rfl, rfl⟩ := Prod.mk.inj (Option.some.inj ht)
      exact ⟨rs, rfl, hagree⟩
  | shut =>
    simp only [happen?] at ht ⊢
    split_ifs at ht ⊢
    obtain ⟨rfl, rfl⟩ := Prod.mk.inj (Option.some.inj ht)
    exact ⟨rs, rfl, hagree⟩
  | halt =>
    simp only [happen?] at ht ⊢
    split_ifs at ht ⊢
    rw [halt?_on, ht]
    exact ⟨rs, rfl, registers_of_halt? ht ▸ hagree⟩

/-- Somebody else notes an error in another register than `own`. -/
def Happening.isElsewhere (own : ℕ) : Happening σ → Bool
  | .event (.note slot _) => slot != own
  | _ => false

theorem Happening.note_of_isElsewhere {e : Happening σ} (h : e.isElsewhere own = true) :
    ∃ slot error, slot ≠ own ∧ e = .event (.note slot error) := by
  cases e with
  | event e =>
    cases e with
    | note slot error => exact ⟨slot, error, by simpa [isElsewhere] using h, rfl⟩
    | _ => simp [isElsewhere] at h
  | _ => simp [isElsewhere] at h

theorem readings_on {e : Happening σ} {rs' : Registers} (ht : happen? sv (c, s) e = some (c', s'))
    (ht' : happen? sv (c, s.on rs) e = some (c', s'.on rs')) :
    readings sv (c, s.on rs) e = readings sv (c, s) e := by
  rw [readings, readings, ht, ht']

/-- Without what others note elsewhere the cursor becomes the same and the consumer reads the same. -/
theorem follow?_without {t t' : Cursor × Shared σ} {es : List (Happening σ)}
    (h : Standing feeds own t.1) (hes : follow? (happen? sv) t es = some t') {rs : Registers}
    (hagree : Agree own t.2.registers rs) : ∃ rs',
      follow? (happen? sv) (t.1, t.2.on rs) (es.filter fun e => !e.isElsewhere own)
          = some (t'.1, t'.2.on rs')
        ∧ along (happen? sv) (readings sv) (t.1, t.2.on rs)
            (es.filter fun e => !e.isElsewhere own)
          = along (happen? sv) (readings sv) t es := by
  induction es generalizing t rs with
  | nil =>
    obtain rfl := Option.some.inj hes
    exact ⟨rs, rfl, rfl⟩
  | cons e es ih =>
    rcases ht : happen? sv t e with _ | t₁
    · simp [follow?, ht] at hes
    simp only [follow?, along, ht] at hes ⊢
    have hstanding := h.happen ht
    cases helse : e.isElsewhere own with
    | true =>
      obtain ⟨slot, error, hslot, rfl⟩ := Happening.note_of_isElsewhere helse
      obtain rfl := Option.some.inj ht
      have hagree₁ := hagree.note_elsewhere hslot error
      obtain ⟨rs', hfollow, halong⟩ := ih hstanding hes hagree₁
      refine ⟨rs', ?_, ?_⟩
      · simp only [helse, List.filter_cons, Bool.not_true, Bool.false_eq_true, if_false]
        exact hfollow
      · simp only [helse, List.filter_cons, Bool.not_true, Bool.false_eq_true, if_false]
        exact halong
    | false =>
      obtain ⟨rs₁, ht₁, hagree₁⟩ := happen?_on h hagree ht
      obtain ⟨rs', hfollow, halong⟩ := ih hstanding hes hagree₁
      refine ⟨rs', ?_, ?_⟩
      · simp only [helse, List.filter_cons, Bool.not_false, if_true, follow?, ht₁]
        exact hfollow
      · simp only [helse, List.filter_cons, Bool.not_false, if_true, along, ht₁]
        rw [readings_on ht ht₁, halong]

/-! ### Any run -/

/-- What a consumer reads of a cursor over feeds, whatever happens and in whatever order. First come the
published results, each once. With the first refusal everything stays as it is. A cursor is exhausted or
errored after all feeds only, and its own register decides which. What others note elsewhere changes
nothing. -/
theorem answers_of_any_run (sv : Services σ) (s₀ : Shared σ) (feeds : List Feed) (workers : ℕ)
    (above : Option ℕ) {es : List (Happening σ)} {c : Cursor} {s : Shared σ}
    (h : follow? (happen? sv) (ofFeeds feeds workers above s₀) es = some (c, s)) :
    (∃ taken refused,
      along (happen? sv) (readings sv) (ofFeeds feeds workers above s₀) es = taken ++ refused
      ∧ (∀ r ∈ taken, r.more = true)
      ∧ taken.map Reading.current = ((published c.batch).take taken.length).map some
      ∧ taken.length ≤ feeds.length
      ∧ (∀ r ∈ refused, r.more = false)
      ∧ (refused ≠ [] → ∀ es' c' s', follow? (happen? sv) (c, s) es' = some (c', s') →
          c'.refusal = c.refusal ∧
          ∀ r ∈ refused ++ along (happen? sv) (readings sv) (c, s) es', r = c.refusal)
      ∧ (c.state = .exhausted ∨ c.state = .errored → taken.length = feeds.length))
    ∧ (∀ e c' s', happen? sv (c, s) e = some (c', s') →
        c.state ≠ .exhausted ∧ c.state ≠ .errored → c'.state = .exhausted ∨ c'.state = .errored →
        c'.error = s.registers.error? s₀.registers.length
        ∧ (c'.state = .errored ↔ (s.registers.error? s₀.registers.length).isSome = true)
        ∧ (c'.state = .exhausted → c'.error = none))
    ∧ ∃ rs, follow? (happen? sv) (ofFeeds feeds workers above s₀)
          (es.filter fun e => !e.isElsewhere s₀.registers.length) = some (c, s.on rs)
        ∧ along (happen? sv) (readings sv) (ofFeeds feeds workers above s₀)
            (es.filter fun e => !e.isElsewhere s₀.registers.length)
          = along (happen? sv) (readings sv) (ofFeeds feeds workers above s₀) es := by
  have hstart := Standing.ofFeeds feeds workers above s₀
  obtain ⟨hstanding, taken, refused, halong, htold⟩ := told_of_follow? hstart rfl h
  have hlength : taken.length = c.delivered.length := by
    simpa using congrArg List.length htold.delivered
  have hprefix := hstanding.delivered_prefix
  refine ⟨⟨taken, refused, halong, htold.more, ?_, ?_, fun r hr => ?_, ?_, fun hend => ?_⟩, ?_,
    follow?_without hstart h (Agree.refl _ _)⟩
  · rw [htold.delivered, hlength, ← List.prefix_iff_eq_take.mp hprefix]
  · exact hlength ▸ hprefix.length_le.trans hstanding.length_published_le
  · rw [htold.same r hr]
    rfl
  · intro hne es' c' s' hes'
    obtain ⟨hlast, hread⟩ := still_of_follow? hstanding (htold.finished hne) hes'
    exact ⟨hlast, fun r hr => (List.mem_append.mp hr).elim (htold.same r) (hread r)⟩
  · exact hlength ▸ hstanding.full hend
  · intro e c' s' ht hbefore hafter
    obtain ⟨herror, hiff⟩ := ended_of_happen hstanding ht hbefore hafter
    refine ⟨herror, hiff, fun hx => ?_⟩
    have hnone : ¬ (s.registers.error? s₀.registers.length).isSome = true := by
      rw [← hiff, hx]
      decide
    rw [herror]
    simpa using hnone

/-- One feed is read, while another stage notes an error above. Somebody calls for the end, and from the
next answer on everything stays as it is. -/
theorem answers_of_any_run_shut : ∃ c s rs,
    follow? (happen? (.constant (.ok ⟨200, "a", [], []⟩) []))
        (ofFeeds [⟨{ url := "a" }, "", "t"⟩] 1 (some 0) { registers := [{ path := [0] }], world := () })
        [.event (.advance "ctx"), .event .call, .event .call, .event (.note 0 ⟨.requestFailed, "x"⟩),
          .event (.work 0), .event (.work 0), .event (.work 0), .event (.work 0), .event (.work 0),
          .event .call, .event .call, .shut, .halt, .event (.advance "other")] = some (c, s)
      ∧ follow? (happen? (.constant (.ok ⟨200, "a", [], []⟩) []))
        (ofFeeds [⟨{ url := "a" }, "", "t"⟩] 1 (some 0) { registers := [{ path := [0] }], world := () })
        [.event (.advance "ctx"), .event .call, .event .call,
          .event (.work 0), .event (.work 0), .event (.work 0), .event (.work 0), .event (.work 0),
          .event .call, .event .call, .shut, .halt, .event (.advance "other")] = some (c, s.on rs)
      ∧ ∀ es' c' s', follow? (happen? (.constant (.ok ⟨200, "a", [], []⟩) [])) (c, s) es'
          = some (c', s') → c'.refusal = c.refusal := by
  have hrun : ∃ c s, follow? (happen? (.constant (.ok ⟨200, "a", [], []⟩) []))
        (ofFeeds [⟨{ url := "a" }, "", "t"⟩] 1 (some 0) { registers := [{ path := [0] }], world := () })
        [.event (.advance "ctx"), .event .call, .event .call, .event (.note 0 ⟨.requestFailed, "x"⟩),
          .event (.work 0), .event (.work 0), .event (.work 0), .event (.work 0), .event (.work 0),
          .event .call, .event .call, .shut, .halt, .event (.advance "other")] = some (c, s) :=
    ⟨_, _, rfl⟩
  obtain ⟨c, s, h⟩ := hrun
  obtain ⟨⟨taken, refused, halong, htaken, -, -, -, hsame, -⟩, -, rs, hwithout, -⟩ :=
    answers_of_any_run _ _ _ _ _ h
  refine ⟨c, s, rs, h, hwithout, fun es' c' s' hes' => (hsame ?_ es' c' s' hes').1⟩
  rintro rfl
  have hanswers : [true, false] = taken.map Reading.more := by
    rw [← List.append_nil taken, ← halong]
    rfl
  obtain ⟨r, hr, hmore⟩ := List.mem_map.mp (hanswers ▸ List.mem_cons_of_mem true List.mem_cons_self)
  rw [htaken r hr] at hmore
  cases hmore

end Cursor

end Ingest.Pipeline

import Ingest.Proofs.History
import Ingest.Proofs.Rate.Bucket
import Ingest.Rate.Line

/-!
# The waits in a line

A wait's token is there at a moment of its own, `Visit.due`: a period after the one before, if not
later, and a period earlier for each token that was handed back in between (`Fits.order`). The wait may
go on when the clock shows this moment, or at once if it has passed (`Timely`), unless the clock
cannot show it.

All this holds at every moment (`fits_of_follow?`): each event (`acts_of_act?`) keeps it, because the
bucket is never empty earlier than the waits that have come make it (`Fits.lead`).
-/

namespace Ingest.Rate

/-- A token was handed back after wait `i` came and before wait `j` did. -/
def Fate.isBetween (i j : ℕ) : Fate → Bool
  | left after => i < after && after ≤ j
  | _ => false

theorem Fate.isBetween_iff {i j : ℕ} {fate : Fate} :
    fate.isBetween i j ↔ ∃ n, fate = .left n ∧ i < n ∧ n ≤ j := by
  cases fate <;> simp [isBetween]

/-- When a wait's token is there. -/
def Visit.due (r : RateLimit) (v : Visit ℚ) : ℚ :=
  v.called - v.balance * r.period

namespace Line

/-- How many tokens were handed back after wait `i` came and before wait `j` did. -/
def handedBack (l : Line ℚ) (i j : ℕ) : ℕ :=
  l.visits.countP fun v => v.fate.isBetween i j

/-- A wait is ready when its token is there, or comes out as ready before it came. -/
structure Timely (r : RateLimit) (now : ℤ) (v : Visit ℚ) : Prop where
  past : v.called ≤ now
  burst : Bucket.fullAt r v.called + r.period ≤ v.due r
  ready : v.due r ≤ v.called ∧ v.ready = v.called
    ∨ v.called < v.due r ∧ (v.ready = ⌈v.due r⌉ ∨ v.ready < v.called)

/-- What holds of a line at every moment. -/
structure Fits (r : RateLimit) (l : Line ℚ) : Prop where
  bucket : l.bucket.Keeps r
  last : l.bucket.last ≤ l.now
  clock : 0 ≤ l.now
  timely : ∀ v ∈ l.visits, Timely r l.now v
  inOrder : ∀ (i j : ℕ) (v w : Visit ℚ), i < j → l.visits[i]? = some v → l.visits[j]? = some w →
    v.called ≤ w.called
  left : ∀ i v n, l.visits[i]? = some v → v.fate = .left n → i < n ∧ n ≤ l.visits.length
  /-- The bucket is empty no earlier than a period after the moment of the latest wait, and so on. -/
  lead : ∀ (i : ℕ) (v : Visit ℚ), l.visits[i]? = some v →
    v.due r + (l.visits.length - i) * r.period
      ≤ l.bucket.dryAt r + r.period + l.handedBack i l.visits.length * r.period
  order : ∀ (i j : ℕ) (v w : Visit ℚ), i < j → l.visits[i]? = some v → l.visits[j]? = some w →
    v.due r + (j - i) * r.period ≤ w.due r + l.handedBack i j * r.period

variable {r : RateLimit} {l l' : Line ℚ} {now : ℤ} {k : ℕ}

namespace Timely

variable {v : Visit ℚ}

theorem mono (h : Timely r l.now v) (hnow : l.now ≤ now) : Timely r now v :=
  { h with past := h.past.trans hnow }

theorem due_le (h : Timely r now v) (hfits : v.called ≤ v.ready) : v.due r ≤ v.ready := by
  rcases h.ready with ⟨hdue, heq⟩ | ⟨-, heq | hlt⟩
  · rwa [heq]
  · rw [heq]
    exact Int.le_ceil _
  · exact absurd hlt hfits.not_gt

/-- A wait goes on less than a tick after its token is there, or comes when it is among the first of
a full bucket. -/
theorem ready_lt (h : Timely r now v) (hr : r.problem? = none) (hfits : v.called ≤ v.ready) :
    v.ready < v.due r + (r.effectiveBurst - 1) * r.period + 1 := by
  rcases h.ready with ⟨-, heq⟩ | ⟨-, heq | hlt⟩
  · have := h.burst
    unfold Bucket.fullAt at this
    rw [heq]
    linarith
  · have hburst : (1 : ℚ) ≤ r.effectiveBurst := mod_cast r.one_le_effectiveBurst
    have := mul_nonneg (sub_nonneg.mpr hburst) (RateLimit.period_pos hr).le
    rw [heq]
    linarith [Int.ceil_lt_add_one (v.due r)]
  · exact absurd hlt hfits.not_gt

end Timely

theorem sleeper?_eq_some {v : Visit ℚ} (h : l.sleeper? k = some v) :
    l.visits[k]? = some v ∧ v.fate = .asleep := by
  unfold sleeper? at h
  split at h
  · cases h
  rename_i u hu
  split_ifs at h with hf
  exact Option.some.inj h ▸ ⟨hu, hf⟩

/-- What an event makes of a line. -/
inductive Acts (l : Line ℚ) : Event → Line ℚ → Prop where
  | come (now : ℤ) : Acts l (.come now) (l.come now)
  | wake (k : ℕ) (now : ℤ) (v : Visit ℚ) (hk : l.visits[k]? = some v) (hasleep : v.fate = .asleep)
      (hready : v.ready ≤ now) :
    Acts l (.wake k now)
      { l with now := now, visits := l.visits.set k { v with fate := .admitted } }
  | leave (k : ℕ) (now : ℤ) (v : Visit ℚ) (hk : l.visits[k]? = some v) (hasleep : v.fate = .asleep) :
    Acts l (.leave k now)
      { bucket := l.bucket.handBack now, now := now,
        visits := l.visits.set k { v with fate := .left l.visits.length } }

theorem acts_of_act? {e : Event} (h : l.act? e = some l') :
    l.now ≤ e.now ∧ e.now < clockEnd ∧ l.Acts e l' := by
  unfold act? at h
  split_ifs at h with hclock
  refine ⟨hclock.1, hclock.2, ?_⟩
  cases e with
  | come now => exact Option.some.inj h ▸ .come now
  | wake k now =>
    simp only [wake?] at h
    split at h
    · cases h
    · rename_i v hv
      obtain ⟨hk, hasleep⟩ := sleeper?_eq_some hv
      split_ifs at h with hready
      exact Option.some.inj h ▸ .wake k now v hk hasleep hready
  | leave k now =>
    simp only [leave?] at h
    split at h
    · cases h
    · rename_i v hv
      obtain ⟨hk, hasleep⟩ := sleeper?_eq_some hv
      exact Option.some.inj h ▸ .leave k now v hk hasleep

/-- The wait that has come is due when the bucket is empty then. -/
theorem come_spec (h : Fits r l) (hr : r.problem? = none) (hnow : l.now ≤ now)
    (hend : now < clockEnd) :
    ∃ v, l.come now = { bucket := (l.bucket.reserve now).2, now := now, visits := l.visits ++ [v] }
      ∧ v.called = now ∧ v.due r = (l.bucket.reserve now).2.dryAt r ∧ Timely r now v
      ∧ ∀ n, v.fate ≠ .left n := by
  obtain ⟨-, hlast, hdry, hadmission⟩ := h.bucket.reserve hr (h.last.trans hnow)
  have hdue : ∀ (ready : ℤ) (fate : Fate),
      Visit.due r ⟨now, ready, fate, (l.bucket.reserve now).2.tokens⟩
        = (l.bucket.reserve now).2.dryAt r := by
    intro ready fate
    unfold Visit.due Bucket.dryAt
    rw [hlast]
  have hburst : Bucket.fullAt r now + r.period ≤ (l.bucket.reserve now).2.dryAt r := by
    rw [hdry]
    gcongr
    exact le_max_right _ _
  rcases hadmission with ⟨hthere, heq⟩ | ⟨howed, heq⟩
  · refine ⟨⟨now, now, .admitted, (l.bucket.reserve now).2.tokens⟩, ?_, rfl, hdue _ _,
      ⟨le_rfl, ?_, .inl ⟨?_, rfl⟩⟩, by simp⟩
    · simp only [Line.come, heq]
    · rw [hdue]
      exact hburst
    · rw [hdue]
      exact hthere
  · have hdelay : 0 < ⌈(l.bucket.reserve now).2.dryAt r - now⌉ :=
      Int.ceil_pos.mpr (sub_pos.mpr howed)
    refine ⟨⟨now, deadline now ⌈(l.bucket.reserve now).2.dryAt r - now⌉, .asleep,
      (l.bucket.reserve now).2.tokens⟩, ?_, rfl, hdue _ _, ⟨le_rfl, ?_, .inr ⟨?_, ?_⟩⟩, by simp⟩
    · simp only [Line.come, heq]
    · rw [hdue]
      exact hburst
    · rw [hdue]
      exact howed
    · rw [hdue]
      refine (deadline_cases (h.clock.trans hnow) hend hdelay).imp (fun hready => ?_) And.right
      refine hready.2.trans ?_
      rw [Int.ceil_sub_intCast]
      ring

namespace Fits

theorem ofLimit (r : RateLimit) (hclock : 0 ≤ now) : Fits r (ofLimit r now) :=
  ⟨Bucket.keeps_ofLimit r now, le_rfl, hclock, by simp [Line.ofLimit], by simp [Line.ofLimit],
    by simp [Line.ofLimit], by simp [Line.ofLimit], by simp [Line.ofLimit]⟩

/-- All tokens that were handed back have been so by now. -/
theorem handedBack_length_succ (h : Fits r l) (i : ℕ) :
    l.handedBack i (l.visits.length + 1) = l.handedBack i l.visits.length := by
  refine List.countP_congr fun u hu => ?_
  obtain ⟨j, hj⟩ := List.getElem?_of_mem hu
  simp only [Fate.isBetween_iff]
  refine exists_congr fun n => and_congr_right fun hf => ?_
  have := (h.left j u n hj hf).2
  omega

theorem come (h : Fits r l) (hr : r.problem? = none) (hnow : l.now ≤ now) (hend : now < clockEnd) :
    Fits r (l.come now) := by
  obtain ⟨v, heq, hcalled, hdue, htimely, hfate⟩ := come_spec h hr hnow hend
  obtain ⟨hkeeps, hlast, hdry, -⟩ := h.bucket.reserve hr (h.last.trans hnow)
  have hp := RateLimit.period_pos hr
  have hback : ∀ i j, handedBack { l.come now with visits := l.visits ++ [v] } i j
      = l.handedBack i j := by
    intro i j
    unfold handedBack
    rw [List.countP_append, List.countP_singleton]
    cases hv : v.fate with
    | left n => exact (hfate n hv).elim
    | _ => simp [Fate.isBetween]
  have hstep : l.bucket.dryAt r + r.period ≤ v.due r := by
    rw [hdue, hdry]
    gcongr
    exact le_max_left _ _
  rw [heq] at hback ⊢
  refine ⟨hkeeps, hlast.le, h.clock.trans hnow, ?_, ?_, ?_, ?_, ?_⟩
  · intro u hu
    rcases List.mem_append.mp hu with hu | hu
    · exact (h.timely u hu).mono hnow
    · exact List.mem_singleton.mp hu ▸ htimely
  · intro i j u w hij hu hw
    rcases getElem?_concat_cases hu with hu' | ⟨rfl, -⟩
    · rcases getElem?_concat_cases hw with hw' | ⟨-, rfl⟩
      · exact h.inOrder i j u w hij hu' hw'
      · rw [hcalled]
        exact (h.timely u (List.mem_of_getElem? hu')).past.trans hnow
    · have := (List.getElem?_eq_some_iff.mp hw).1
      rw [List.length_append, List.length_singleton] at this
      omega
  · intro i u n hu hn
    rw [List.length_append, List.length_singleton]
    rcases getElem?_concat_cases hu with hu | ⟨-, rfl⟩
    · exact (h.left i u n hu hn).imp id Nat.le_succ_of_le
    · exact (hfate n hn).elim
  · intro i u hu
    rw [hback, List.length_append, List.length_singleton, h.handedBack_length_succ, ← hdue]
    push_cast
    rcases getElem?_concat_cases hu with hu | ⟨rfl, rfl⟩
    · have := h.lead i u hu
      linarith
    · have : (0 : ℚ) ≤ l.handedBack l.visits.length l.visits.length * r.period := by positivity
      linarith
  · intro i j u w hij hu hw
    rw [hback]
    rcases getElem?_concat_cases hw with hw' | ⟨rfl, rfl⟩
    · have hj := (List.getElem?_eq_some_iff.mp hw').1
      rcases getElem?_concat_cases hu with hu | ⟨rfl, -⟩
      · exact h.order i j u w hij hu hw'
      · omega
    · rcases getElem?_concat_cases hu with hu | ⟨rfl, -⟩
      · have := h.lead i u hu
        linarith
      · exact (lt_irrefl _ hij).elim

/-- A sleeper that does not sleep any longer is due when it was. If it left, then the bucket is empty
earlier by a period at most. -/
theorem settle (h : Fits r l) {v : Visit ℚ} {fate : Fate} (hk : l.visits[k]? = some v)
    (hasleep : v.fate = .asleep) (hvisits : l'.visits = l.visits.set k { v with fate := fate })
    (hkeeps : l'.bucket.Keeps r) (hlast : l'.bucket.last ≤ l'.now) (hnow : l.now ≤ l'.now)
    (hcost : fate = .admitted ∧ l.bucket.dryAt r ≤ l'.bucket.dryAt r
      ∨ fate = .left l.visits.length ∧ l.bucket.dryAt r - r.period ≤ l'.bucket.dryAt r) :
    Fits r l' := by
  have hget : ∀ {i : ℕ} {u : Visit ℚ}, l'.visits[i]? = some u →
      ∃ u', l.visits[i]? = some u' ∧ u.called = u'.called ∧ u.due r = u'.due r
        ∧ (u.fate = u'.fate ∨ u.fate = fate) := by
    intro i u hu
    rw [hvisits, List.getElem?_set] at hu
    split_ifs at hu with hi hlt
    · obtain rfl := Option.some.inj hu
      exact ⟨v, hi ▸ hk, rfl, rfl, .inr rfl⟩
    · exact ⟨u, hu, rfl, rfl, .inl rfl⟩
  have hback : ∀ i j, l'.handedBack i j = l.handedBack i j + if fate.isBetween i j then 1 else 0 := by
    intro i j
    have : l'.visits.countP (fun u => u.fate.isBetween i j) + (if v.fate.isBetween i j then 1 else 0)
        = l.handedBack i j + if fate.isBetween i j then 1 else 0 := hvisits ▸ countP_set_add _ hk
    rwa [hasleep] at this
  have hlength : l'.visits.length = l.visits.length := by rw [hvisits, List.length_set]
  have hnew : ∀ n, fate = .left n → n = l.visits.length := by
    rintro n rfl
    rcases hcost with ⟨hf, -⟩ | ⟨hf, -⟩
    · cases hf
    · exact Fate.left.inj hf
  refine ⟨hkeeps, hlast, h.clock.trans hnow, ?_, ?_, ?_, ?_, ?_⟩
  · rw [hvisits]
    refine forall_mem_set (fun u hu => (h.timely u hu).mono hnow) ?_
    have := (h.timely v (List.mem_of_getElem? hk)).mono hnow
    exact ⟨this.past, this.burst, this.ready⟩
  · intro i j u w hij hu hw
    obtain ⟨u', hu', hcalled, -⟩ := hget hu
    obtain ⟨w', hw', hcalled', -⟩ := hget hw
    rw [hcalled, hcalled']
    exact h.inOrder i j u' w' hij hu' hw'
  · intro i u n hu hn
    rw [hlength]
    obtain ⟨u', hu', -, -, hf | hf⟩ := hget hu
    · exact h.left i u' n hu' (hf ▸ hn)
    · rw [hnew n (hf ▸ hn)]
      exact ⟨(List.getElem?_eq_some_iff.mp hu').1, le_rfl⟩
  · intro i u hu
    obtain ⟨u', hu', -, hdue, -⟩ := hget hu
    have hlead := h.lead i u' hu'
    have hi := (List.getElem?_eq_some_iff.mp hu').1
    rw [hback, hlength, hdue]
    rcases hcost with ⟨rfl, hdry⟩ | ⟨rfl, hdry⟩
    · simp only [Fate.isBetween, Bool.false_eq_true, if_false, add_zero]
      linarith
    · simp only [Fate.isBetween, hi, le_refl, decide_true, Bool.and_self, if_true]
      push_cast
      linarith
  · intro i j u w hij hu hw
    obtain ⟨u', hu', -, hdue, -⟩ := hget hu
    obtain ⟨w', hw', -, hdue', -⟩ := hget hw
    have hout : ¬fate.isBetween i j := by
      intro hin
      obtain ⟨n, hf, -, hn⟩ := Fate.isBetween_iff.mp hin
      have hj := (List.getElem?_eq_some_iff.mp hw').1
      have := hnew n hf
      omega
    rw [hback, if_neg hout, hdue, hdue']
    exact h.order i j u' w' hij hu' hw'

theorem act (h : Fits r l) (hr : r.problem? = none) {e : Event} (hact : l.act? e = some l') :
    Fits r l' := by
  obtain ⟨hnow, hend, hacts⟩ := acts_of_act? hact
  cases hacts with
  | come now => exact h.come hr hnow hend
  | wake k now v hk hasleep =>
    exact h.settle hk hasleep rfl h.bucket (h.last.trans hnow) hnow (.inl ⟨rfl, le_rfl⟩)
  | leave k now v hk hasleep =>
    obtain ⟨hkeeps, hlast, hdry⟩ := h.bucket.handBack hr (h.last.trans hnow)
    exact h.settle hk hasleep rfl hkeeps hlast.le hnow (.inr ⟨rfl, hdry ▸ le_max_left _ _⟩)

end Fits

theorem fits_of_follow? (hr : r.problem? = none) {es : List Event} (hclock : 0 ≤ now)
    (h : follow? act? (ofLimit r now) es = some l) : Fits r l :=
  follow?_invariant (fun _ _ _ _ hfits hact => hfits.act hr hact) (Fits.ofLimit r hclock) h

end Line

end Ingest.Rate

import Mathlib
import Ingest.Rate.Bucket

/-!
# Exact buckets

A bucket that counts in rationals is known by the moment at which it is empty, `Bucket.dryAt`: each
token in it moves this moment back by a period, and each token that it owes moves it on. As time goes
by the moment stays, but for a bucket that is full (`Keeps.refill`). A wait moves it on by a period,
and may go on when it has come (`Keeps.reserve`); whoever hands a token back moves it back by a
period, but for a bucket that is full then (`Keeps.handBack`).
-/

namespace Ingest

namespace RateLimit

/-- The nanoseconds from one token to the next. -/
def period (r : RateLimit) : ℚ :=
  r.intervalMs * 1000000 / r.requests

theorem positive_of_problem? {r : RateLimit} (h : r.problem? = none) :
    0 < r.requests ∧ 0 < r.intervalMs := by
  unfold problem? at h
  split_ifs at h with hr hi
  omega

theorem period_pos {r : RateLimit} (h : r.problem? = none) : 0 < r.period := by
  obtain ⟨hr, hi⟩ := positive_of_problem? h
  have hr' : (0 : ℚ) < r.requests := Int.cast_pos.mpr hr
  have hi' : (0 : ℚ) < r.intervalMs := Int.cast_pos.mpr hi
  unfold period
  positivity

theorem one_le_effectiveBurst (r : RateLimit) : 1 ≤ r.effectiveBurst :=
  le_max_right _ _

end RateLimit

namespace Rate

theorem deadline_eq {now delay : ℤ} (hstart : 0 ≤ now) (hdelay : 0 < delay)
    (hfits : now + delay < clockEnd) : deadline now delay = now + delay := by
  unfold deadline
  unfold clockEnd at *
  rw [Int.bmod_def]
  push_cast
  split_ifs <;> omega

theorem deadline_lt {now delay : ℤ} (hstart : 0 ≤ now) (hend : now < clockEnd) (hdelay : 0 < delay)
    (hlong : clockEnd ≤ now + delay) : deadline now delay < now := by
  unfold deadline
  unfold clockEnd at *
  rw [Int.bmod_def]
  push_cast
  split_ifs <;> omega

/-- A delay ends when it should if the clock can show that, and else has ended before it began. -/
theorem deadline_cases {now delay : ℤ} (hstart : 0 ≤ now) (hend : now < clockEnd)
    (hdelay : 0 < delay) :
    now + delay < clockEnd ∧ deadline now delay = now + delay
      ∨ clockEnd ≤ now + delay ∧ deadline now delay < now := by
  rcases lt_or_ge (now + delay) clockEnd with hfits | hlong
  · exact .inl ⟨hfits, deadline_eq hstart hdelay hfits⟩
  · exact .inr ⟨hlong, deadline_lt hstart hend hdelay hlong⟩

namespace Bucket

/-- A bucket of a limit that holds no more than it may. -/
structure Keeps (r : RateLimit) (b : Bucket ℚ) : Prop where
  rate : b.rate = r.requests * 1000 / r.intervalMs
  burst : b.burst = r.effectiveBurst
  full : b.tokens ≤ r.effectiveBurst

/-- When the bucket is empty if nobody takes a token and none is handed back. -/
def dryAt (r : RateLimit) (b : Bucket ℚ) : ℚ :=
  b.last - b.tokens * r.period

/-- When a bucket would be empty that is full now. -/
def fullAt (r : RateLimit) (now : ℤ) : ℚ :=
  now - r.effectiveBurst * r.period

theorem least_eq_min (x y : ℚ) : least x y = min x y := by
  unfold least
  rw [min_def]
  simp only [Quantity.lt, decide_eq_true_eq]
  split_ifs <;> linarith

theorem ceil_eq (x : ℚ) : Quantity.ceil x = ⌈x⌉ :=
  Rat.ceil_eq_neg_floor_neg x

theorem keeps_ofLimit (r : RateLimit) (now : ℤ) : Keeps r (ofLimit r now) :=
  ⟨rfl, rfl, le_rfl⟩

namespace Keeps

variable {r : RateLimit} {b : Bucket ℚ} {now : ℤ}

/-- What a bucket gains in a time, times the period, is the time. -/
theorem gain_mul_period (h : Keeps r b) (hr : r.problem? = none) (x : ℚ) :
    x / 1000000000 * b.rate * r.period = x := by
  obtain ⟨hpos, hint⟩ := RateLimit.positive_of_problem? hr
  have hpos' : (r.requests : ℚ) ≠ 0 := Int.cast_ne_zero.mpr hpos.ne'
  have hint' : (r.intervalMs : ℚ) ≠ 0 := Int.cast_ne_zero.mpr hint.ne'
  rw [h.rate, RateLimit.period]
  field_simp
  ring

/-- What a bucket gains a number of tokens in. -/
theorem div_rate (h : Keeps r b) (hr : r.problem? = none) (x : ℚ) :
    x / b.rate * 1000000000 = x * r.period := by
  obtain ⟨hpos, hint⟩ := RateLimit.positive_of_problem? hr
  have hpos' : (r.requests : ℚ) ≠ 0 := Int.cast_ne_zero.mpr hpos.ne'
  have hint' : (r.intervalMs : ℚ) ≠ 0 := Int.cast_ne_zero.mpr hint.ne'
  rw [h.rate, RateLimit.period]
  field_simp
  ring

/-- As time goes by a bucket that is not full will be empty at the same moment as before. -/
theorem refill (h : Keeps r b) (hr : r.problem? = none) (hnow : b.last ≤ now) :
    Keeps r (b.refill now) ∧ (b.refill now).last = now
      ∧ dryAt r (b.refill now) = max (dryAt r b) (fullAt r now) := by
  have hp := RateLimit.period_pos hr
  unfold Bucket.refill
  split_ifs with hle
  · obtain rfl : b.last = now := le_antisymm hnow hle
    refine ⟨h, rfl, (max_eq_left ?_).symm⟩
    have := mul_le_mul_of_nonneg_right h.full hp.le
    unfold dryAt fullAt
    linarith
  · have hgain := h.gain_mul_period hr ((now - b.last : ℤ) : ℚ)
    have htokens : least (Quantity.ofInt b.burst)
        (b.tokens + Quantity.ofInt (now - b.last) / Quantity.ofInt second * b.rate)
          = min (r.effectiveBurst : ℚ)
            (b.tokens + ((now - b.last : ℤ) : ℚ) / 1000000000 * b.rate) := by
      rw [least_eq_min, ← h.burst]
      rfl
    rw [htokens]
    refine ⟨⟨h.rate, h.burst, min_le_left _ _⟩, rfl, ?_⟩
    push_cast at hgain ⊢
    unfold dryAt fullAt
    rw [min_mul_of_nonneg _ _ hp.le, add_mul, hgain]
    rcases le_total ((r.effectiveBurst : ℚ) * r.period) (b.tokens * r.period + (now - b.last))
      with hfull | hfree
    · rw [min_eq_left hfull, max_eq_right]
      linarith
    · rw [min_eq_right hfree, max_eq_left] <;> linarith

/-- A wait puts the moment off by one period, and may go on when that has come. -/
theorem reserve (h : Keeps r b) (hr : r.problem? = none) (hnow : b.last ≤ now) :
    Keeps r (b.reserve now).2 ∧ (b.reserve now).2.last = now
      ∧ dryAt r (b.reserve now).2 = max (dryAt r b) (fullAt r now) + r.period
      ∧ (dryAt r (b.reserve now).2 ≤ now ∧ (b.reserve now).1 = .now
        ∨ now < dryAt r (b.reserve now).2
          ∧ (b.reserve now).1 = .later (deadline now ⌈dryAt r (b.reserve now).2 - now⌉)) := by
  have hp := RateLimit.period_pos hr
  obtain ⟨hkeeps, hlast, hdry⟩ := h.refill hr hnow
  have hbucket : (b.reserve now).2
      = { b.refill now with tokens := (b.refill now).tokens - 1 } := by
    unfold Bucket.reserve
    simp only
    split_ifs <;> rfl
  have hdry' : dryAt r (b.reserve now).2 = dryAt r (b.refill now) + r.period := by
    rw [hbucket]
    unfold dryAt
    ring
  have hfull : (b.refill now).tokens - 1 ≤ r.effectiveBurst := by
    have := hkeeps.full
    linarith
  have htokens : dryAt r (b.reserve now).2 - now = -((b.refill now).tokens - 1) * r.period := by
    rw [hbucket]
    unfold dryAt
    rw [hlast]
    ring
  refine ⟨?_, ?_, hdry ▸ hdry', ?_⟩
  · rw [hbucket]
    exact ⟨hkeeps.rate, hkeeps.burst, hfull⟩
  · rw [hbucket]
    exact hlast
  have hadmission : (b.reserve now).1 = if (b.refill now).tokens - 1 < 0 then
      .later (deadline now ⌈-((b.refill now).tokens - 1) / (b.refill now).rate * 1000000000⌉)
        else .now := by
    unfold Bucket.reserve
    simp only [Quantity.lt, decide_eq_true_eq, ceil_eq]
    rw [apply_ite Prod.fst]
    rfl
  rcases le_or_gt 0 ((b.refill now).tokens - 1) with hthere | howed
  · refine .inl ⟨?_, ?_⟩
    · have := mul_nonneg hthere hp.le
      linarith
    · rw [hadmission, if_neg hthere.not_gt]
  · refine .inr ⟨?_, ?_⟩
    · have := mul_pos (neg_pos.mpr howed) hp
      linarith
    · rw [hadmission, if_pos howed, hkeeps.div_rate hr, htokens]

/-- A token that is handed back puts the moment back by a period, unless the bucket is full then. -/
theorem handBack (h : Keeps r b) (hr : r.problem? = none) (hnow : b.last ≤ now) :
    Keeps r (b.handBack now) ∧ (b.handBack now).last = now
      ∧ dryAt r (b.handBack now) = max (dryAt r b - r.period) (fullAt r now) := by
  have hp := RateLimit.period_pos hr
  obtain ⟨hkeeps, hlast, hdry⟩ := h.refill hr hnow
  have htokens : (b.handBack now).tokens
      = min (r.effectiveBurst : ℚ) ((b.refill now).tokens + 1) := by
    unfold Bucket.handBack
    simp only [least_eq_min]
    rw [← hkeeps.burst]
    rfl
  have hlast' : (b.handBack now).last = now := hlast
  have hspare : fullAt r now - r.period ≤ fullAt r now := by linarith
  refine ⟨⟨hkeeps.rate, hkeeps.burst, htokens.trans_le (min_le_left _ _)⟩, hlast', ?_⟩
  calc dryAt r (b.handBack now)
      = max (fullAt r now) (now - ((b.refill now).tokens + 1) * r.period) := by
        unfold dryAt fullAt
        rw [htokens, hlast', min_mul_of_nonneg _ _ hp.le, sub_inf]
    _ = max (fullAt r now) (dryAt r (b.refill now) - r.period) := by
        unfold dryAt
        rw [hlast]
        congr 1
        ring
    _ = max (dryAt r b - r.period) (fullAt r now) := by
        rw [hdry, sup_sub, max_comm, max_assoc, max_eq_right hspare]

end Keeps

end Bucket

end Rate

end Ingest

import Ingest.Proofs.Rate.Line

/-!
# When a sleeper is due on the clock

A wait that finds no token is to sleep until the tokens that the bucket owes are there (`delay`). The
clock has 64 bits, and the limits that are accepted know no bound. If the end of the sleep fits into
the clock it is the time at which the wait may go on, and else this time lies in the past
(`ready_cases`). However short the time from one token to the next is, so many waits may come that
it does (`exists_ready_lt`).
-/

namespace Ingest.Rate

/-- The time that it takes until a bucket with this balance owes nothing, in whole ticks. -/
def delay (r : RateLimit) (tokens : ℚ) : ℤ :=
  ⌈-tokens * r.period⌉

namespace Bucket.Keeps

variable {r : RateLimit} {b : Bucket ℚ} {now : ℤ}

/-- A wait that leaves a debt sleeps until this is paid. -/
theorem reserve_of_owed (h : Keeps r b) (hr : r.problem? = none) (hnow : b.last ≤ now)
    (howed : (b.reserve now).2.tokens < 0) :
    0 < delay r (b.reserve now).2.tokens
      ∧ (b.reserve now).1 = .later (deadline now (delay r (b.reserve now).2.tokens)) := by
  have hp := RateLimit.period_pos hr
  obtain ⟨-, hlast, -, hadmission⟩ := h.reserve hr hnow
  have htime : dryAt r (b.reserve now).2 - now = -(b.reserve now).2.tokens * r.period := by
    unfold dryAt
    rw [hlast]
    ring
  have hpos : 0 < -(b.reserve now).2.tokens * r.period := mul_pos (neg_pos.mpr howed) hp
  refine ⟨Int.ceil_pos.mpr hpos, ?_⟩
  rcases hadmission with ⟨hthere, -⟩ | ⟨-, heq⟩
  · linarith
  · rw [heq, htime, delay]

end Bucket.Keeps

namespace Line

variable {r : RateLimit} {l : Line ℚ} {start now : ℤ} {es : List Event}

/-- A wait that leaves a debt may go on when that is paid, or could have gone on before it came. -/
theorem Fits.ready_cases (h : Fits r l) (hr : r.problem? = none) (hnow : l.now ≤ now)
    (hend : now < clockEnd) (howed : (l.bucket.reserve now).2.tokens < 0) :
    ∃ ready, (l.bucket.reserve now).1 = .later ready
      ∧ (now + delay r (l.bucket.reserve now).2.tokens < clockEnd
          ∧ ready = now + delay r (l.bucket.reserve now).2.tokens ∧ now < ready
        ∨ clockEnd ≤ now + delay r (l.bucket.reserve now).2.tokens ∧ ready < now) := by
  obtain ⟨hdelay, heq⟩ := h.bucket.reserve_of_owed hr (h.last.trans hnow) howed
  refine ⟨_, heq, ?_⟩
  rcases deadline_cases (h.clock.trans hnow) hend hdelay with ⟨hfits, hready⟩ | hlong
  · refine .inl ⟨hfits, hready, ?_⟩
    omega
  · exact .inr hlong

theorem reserve_at_last (b : Bucket ℚ) :
    (b.reserve b.last).2 = { b with tokens := b.tokens - 1 } := by
  have hsame : b.refill b.last = b := if_pos le_rfl
  unfold Bucket.reserve
  rw [hsame]
  simp only
  split_ifs <;> rfl

/-- Waits that come at the start take one token after the other. -/
theorem tokens_of_crowd (r : RateLimit) (hend : start < clockEnd) (n : ℕ) :
    ∃ l : Line ℚ, follow? act? (ofLimit r start) (List.replicate n (.come start)) = some l
      ∧ l.bucket.tokens = r.effectiveBurst - n ∧ l.bucket.last = start ∧ l.now = start := by
  induction n with
  | zero => exact ⟨ofLimit r start, rfl, by simp [ofLimit, Bucket.ofLimit, Quantity.ofInt], rfl, rfl⟩
  | succ n ih =>
    obtain ⟨l, hrun, htokens, hlast, hnow⟩ := ih
    have hbucket : (l.come start).bucket = { l.bucket with tokens := l.bucket.tokens - 1 } :=
      hlast ▸ reserve_at_last l.bucket
    refine ⟨l.come start, ?_, ?_, ?_, rfl⟩
    · have hact : l.act? (.come start) = some (l.come start) := if_pos ⟨hnow.le, hend⟩
      rw [List.replicate_succ']
      exact follow?_append_eq_some.mpr ⟨l, hrun, follow?_singleton_eq_some.mpr hact⟩
    · rw [hbucket, htokens]
      push_cast
      ring
    · rw [hbucket, hlast]

/-- Under every limit that is accepted so many waits can come that one is ready before it comes. -/
theorem exists_ready_lt (hr : r.problem? = none) (hstart : 0 ≤ start) (hend : start < clockEnd) :
    ∃ (es : List Event) (l : Line ℚ) (ready : ℤ), follow? act? (ofLimit r start) es = some l
      ∧ (l.bucket.reserve start).1 = .later ready ∧ ready < start := by
  have hp := RateLimit.period_pos hr
  obtain ⟨n, hn⟩ := exists_nat_ge (clockEnd / r.period + r.effectiveBurst)
  obtain ⟨l, hrun, htokens, hlast, hnow⟩ := tokens_of_crowd r hend n
  have hleft : (l.bucket.reserve start).2.tokens = r.effectiveBurst - n - 1 := by
    rw [← hlast, reserve_at_last, htokens]
  have hdebt : clockEnd / r.period ≤ -(l.bucket.reserve start).2.tokens := by
    rw [hleft]
    linarith
  have howed : (l.bucket.reserve start).2.tokens < 0 := by
    have : (0 : ℚ) < clockEnd / r.period := div_pos (by norm_num [clockEnd]) hp
    linarith
  have hlong : clockEnd ≤ delay r (l.bucket.reserve start).2.tokens := by
    rw [← Int.cast_le (R := ℚ)]
    exact ((div_le_iff₀ hp).mp hdebt).trans (Int.le_ceil _)
  obtain ⟨ready, heq, ⟨hfits, -⟩ | ⟨-, hpast⟩⟩ :=
    (fits_of_follow? hr hstart hrun).ready_cases hr hnow.le hend howed
  · omega
  · exact ⟨_, l, ready, hrun, heq, hpast⟩

/-- A wait that leaves the balance below zero is told to go on once the debt is paid, if the clock
can show that time, and then this lies in the future. If the clock cannot, the time lies in the past.
Every limit that is accepted lets so many waits come that this happens. -/
theorem blocked_until_paid_or_past (r : RateLimit) (hr : r.problem? = none) (start : ℤ)
    (hstart : 0 ≤ start) (hend : start < clockEnd) :
    (∀ (es : List Event) (l : Line ℚ) (now : ℤ), follow? act? (ofLimit r start) es = some l →
        l.now ≤ now → now < clockEnd → (l.bucket.reserve now).2.tokens < 0 →
        ∃ ready, (l.bucket.reserve now).1 = .later ready
          ∧ (now + delay r (l.bucket.reserve now).2.tokens < clockEnd
              ∧ ready = now + delay r (l.bucket.reserve now).2.tokens ∧ now < ready
            ∨ clockEnd ≤ now + delay r (l.bucket.reserve now).2.tokens ∧ ready < now))
      ∧ ∃ (es : List Event) (l : Line ℚ) (ready : ℤ), follow? act? (ofLimit r start) es = some l
        ∧ (l.bucket.reserve start).1 = .later ready ∧ ready < start :=
  ⟨fun _ _ _ hrun => (fits_of_follow? hr hstart hrun).ready_cases hr,
    exists_ready_lt hr hstart hend⟩

theorem blocked_until_paid_or_past_second :
    ∃ (l : Line ℚ) (ready : ℤ), follow? act? (ofLimit ⟨1, 1000, 1⟩ 5) [.come 5] = some l
      ∧ (l.bucket.reserve 7).1 = .later ready ∧ ready = 1000000005 ∧ 7 < ready
      ∧ ∃ (es : List Event) (l : Line ℚ) (past : ℤ),
        follow? act? (ofLimit ⟨1, 1000, 1⟩ 5) es = some l
          ∧ (l.bucket.reserve 5).1 = .later past ∧ past < 5 := by
  obtain ⟨l, hrun, hstate⟩ := Option.map_eq_some_iff.mp
    (show (follow? act? (ofLimit ⟨1, 1000, 1⟩ 5 : Line ℚ) [.come 5]).map (fun l => (l.now,
      decide ((l.bucket.reserve 7).2.tokens < 0), delay ⟨1, 1000, 1⟩ (l.bucket.reserve 7).2.tokens))
        = some (5, true, 999999998) by decide +kernel)
  obtain ⟨hnow, hrest⟩ := Prod.mk.inj hstate
  obtain ⟨howed, hdelay⟩ := Prod.mk.inj hrest
  obtain ⟨hready, hcrowd⟩ :=
    blocked_until_paid_or_past ⟨1, 1000, 1⟩ (by decide) 5 (by decide) (by decide)
  obtain ⟨ready, heq, hcases⟩ :=
    hready _ l 7 hrun (by omega) (by decide) (of_decide_eq_true howed)
  rw [hdelay] at hcases
  unfold clockEnd at hcases
  exact ⟨l, ready, hrun, heq, by omega, by omega, hcrowd⟩

/-- The clock cannot show the end of a delay that is too long for it, nor that of a shorter one that
begins late. -/
theorem ready_before_now :
    RateLimit.problem? ⟨1, 10000000000000000, 1⟩ = none
      ∧ (follow? act? (ofLimit ⟨1, 10000000000000000, 1⟩ 0 : Line ℚ) [.come 0]).map
          (fun l => ((l.bucket.reserve 0).2.tokens, (l.bucket.reserve 0).1))
        = some (-1, .later (1 - clockEnd))
      ∧ clockEnd ≤ delay ⟨1, 10000000000000000, 1⟩ (-1)
      ∧ RateLimit.problem? ⟨1, 9000000000000, 1⟩ = none
      ∧ (follow? act? (ofLimit ⟨1, 9000000000000, 1⟩ 300000000000000000 : Line ℚ)
          [.come 300000000000000000]).map (fun l =>
            ((l.bucket.reserve 300000000000000000).2.tokens,
              (l.bucket.reserve 300000000000000000).1))
        = some (-1, .later (9300000000000000000 - 2 * clockEnd))
      ∧ delay ⟨1, 9000000000000, 1⟩ (-1) < clockEnd
      ∧ clockEnd ≤ 300000000000000000 + delay ⟨1, 9000000000000, 1⟩ (-1) := by
  decide +kernel

end Line

end Ingest.Rate

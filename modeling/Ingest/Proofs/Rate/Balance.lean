import Ingest.Proofs.Rate.Line

/-!
# What becomes of the tokens

A line's tokens are accounted for: what the bucket held at first and has gained since covers what is
in it now and one token for each wait that has kept its own (`Accounted`). A wait that takes no
token changes nothing, and one that hands its token back leaves the bucket as it would be without
the wait (`Keeps.handBack_reserve`), also when others go on meanwhile.
-/

namespace Ingest.Rate

/-- The wait took a token and has not handed it back. -/
def Fate.isKept (fate : Fate) : Bool :=
  fate = .admitted ∨ fate = .asleep

namespace Bucket.Keeps

variable {r : RateLimit} {b b' : Bucket ℚ} {now s t : ℤ}

/-- Buckets of a limit that are empty at the same moment hold the same. -/
theorem ext (h : Keeps r b) (h' : Keeps r b') (hr : r.problem? = none) (hlast : b.last = b'.last)
    (hdry : dryAt r b = dryAt r b') : b = b' := by
  have hp := (RateLimit.period_pos hr).ne'
  have htokens : b.tokens = b'.tokens := by
    unfold dryAt at hdry
    rw [hlast, sub_right_inj] at hdry
    exact mul_right_cancel₀ hp hdry
  have hrate := h.rate.trans h'.rate.symm
  have hburst := h.burst.trans h'.burst.symm
  cases b
  cases b'
  simp_all

theorem fullAt_mono (hst : s ≤ t) : fullAt r s ≤ fullAt r t :=
  sub_le_sub_right (Int.cast_le.mpr hst) _

/-- A token that is taken and handed back leaves the bucket as the time alone would have. -/
theorem handBack_reserve (h : Keeps r b) (hr : r.problem? = none) (hs : b.last ≤ s) (hst : s ≤ t) :
    (b.reserve s).2.handBack t = b.refill t := by
  obtain ⟨hreserved, hlast, hdry, -⟩ := h.reserve hr hs
  obtain ⟨hback, hlastBack, hdryBack⟩ := hreserved.handBack hr (hlast.trans_le hst)
  obtain ⟨hrefilled, hlastRefilled, hdryRefilled⟩ := h.refill hr (hs.trans hst)
  refine hback.ext hrefilled hr (hlastBack.trans hlastRefilled.symm) ?_
  rw [hdryBack, hdry, hdryRefilled, add_sub_cancel_right, max_assoc,
    max_eq_right (fullAt_mono hst)]

end Bucket.Keeps

namespace Line

variable {r : RateLimit} {l l' : Line ℚ} {start now : ℤ} {es : List Event}

/-- How many waits have kept their token. -/
def kept (l : Line ℚ) : ℕ :=
  l.visits.countP fun v => v.fate.isKept

def Event.isWake : Event → Bool
  | wake .. => true
  | _ => false

/-- What the full bucket of the start has given away since is no more than what was taken of it. -/
structure Accounted (r : RateLimit) (start : ℤ) (l : Line ℚ) : Prop where
  bucket : l.bucket.Keeps r
  last : l.bucket.last ≤ l.now
  kept : Bucket.fullAt r start + l.kept * r.period ≤ l.bucket.dryAt r

theorem kept_come (l : Line ℚ) (now : ℤ) : (l.come now).kept = l.kept + 1 := by
  unfold kept come
  rcases l.bucket.reserve now with ⟨_ | ready, b⟩ <;>
    simp [List.countP_append, Fate.isKept]

/-- A wait that stops sleeping keeps its token or hands it back. -/
theorem kept_settle {k : ℕ} {v : Visit ℚ} {fate : Fate} (hk : l.visits[k]? = some v)
    (hasleep : v.fate = .asleep) (hvisits : l'.visits = l.visits.set k { v with fate := fate }) :
    l'.kept + 1 = l.kept + if fate.isKept then 1 else 0 := by
  have hcount : l'.kept + (if v.fate.isKept then 1 else 0)
      = l.kept + if fate.isKept then 1 else 0 := by
    unfold kept
    rw [hvisits]
    exact countP_set_add _ hk
  rwa [hasleep] at hcount

namespace Accounted

theorem ofLimit (r : RateLimit) (start : ℤ) : Accounted r start (ofLimit r start) := by
  refine ⟨Bucket.keeps_ofLimit r start, le_rfl, ?_⟩
  show Bucket.fullAt r start + (0 : ℕ) * r.period ≤ Bucket.fullAt r start
  simp

theorem come (h : Accounted r start l) (hr : r.problem? = none) (hnow : l.now ≤ now) :
    Accounted r start (l.come now) := by
  obtain ⟨hkeeps, hlast, hdry, -⟩ := h.bucket.reserve hr (h.last.trans hnow)
  refine ⟨hkeeps, hlast.le, ?_⟩
  rw [kept_come]
  calc Bucket.fullAt r start + (l.kept + 1 : ℕ) * r.period
      = Bucket.fullAt r start + l.kept * r.period + r.period := by
        push_cast
        ring
    _ ≤ max (l.bucket.dryAt r) (Bucket.fullAt r now) + r.period := by
        gcongr
        exact h.kept.trans (le_max_left _ _)
    _ = Bucket.dryAt r (l.bucket.reserve now).2 := hdry.symm

/-- Whoever leaves puts the moment at which the bucket is empty back by no more than the token that
is handed back. -/
theorem settle (h : Accounted r start l) {k : ℕ} {v : Visit ℚ} {fate : Fate}
    (hk : l.visits[k]? = some v) (hasleep : v.fate = .asleep)
    (hvisits : l'.visits = l.visits.set k { v with fate := fate }) (hkeeps : l'.bucket.Keeps r)
    (hlast : l'.bucket.last ≤ l'.now)
    (hcost : l.bucket.dryAt r - (if fate.isKept then 0 else r.period) ≤ l'.bucket.dryAt r) :
    Accounted r start l' := by
  have hcount := kept_settle hk hasleep hvisits
  have hkept := h.kept
  refine ⟨hkeeps, hlast, ?_⟩
  by_cases hfate : fate.isKept
  · rw [if_pos hfate] at hcount hcost
    rw [Nat.add_right_cancel hcount]
    linarith
  · rw [if_neg hfate] at hcount hcost
    have hless : (l.kept : ℚ) = l'.kept + 1 := mod_cast hcount.symm
    rw [hless] at hkept
    linarith

theorem act (h : Accounted r start l) (hr : r.problem? = none) {e : Event}
    (hact : l.act? e = some l') : Accounted r start l' := by
  obtain ⟨hnow, -, hacts⟩ := acts_of_act? hact
  rcases hacts with now | ⟨k, now, v, hk, hasleep, -⟩ | ⟨k, now, v, hk, hasleep⟩
  · exact h.come hr hnow
  · exact h.settle hk hasleep rfl h.bucket (h.last.trans hnow) (sub_zero _).le
  · obtain ⟨hkeeps, hlast, hdry⟩ := h.bucket.handBack hr (h.last.trans hnow)
    exact h.settle hk hasleep rfl hkeeps hlast.le (hdry ▸ le_max_left _ _)

/-- The tokens of a bucket at any later moment. -/
theorem tokens_refill_le (h : Accounted r start l) (hr : r.problem? = none)
    (hnow : l.bucket.last ≤ now) : (l.bucket.refill now).tokens ≤ r.effectiveBurst
      ∧ (l.bucket.refill now).tokens ≤ r.effectiveBurst + (now - start) / r.period - l.kept := by
  have hp := RateLimit.period_pos hr
  obtain ⟨hkeeps, hlast, hdry⟩ := h.bucket.refill hr hnow
  refine ⟨hkeeps.full, ?_⟩
  have hlate : Bucket.fullAt r start + l.kept * r.period ≤ Bucket.dryAt r (l.bucket.refill now) :=
    h.kept.trans (hdry ▸ le_max_left _ _)
  unfold Bucket.fullAt Bucket.dryAt at hlate
  rw [hlast] at hlate
  have hroom : ((l.bucket.refill now).tokens - r.effectiveBurst + l.kept) * r.period ≤ now - start := by
    linarith
  have := (le_div_iff₀ hp).mpr hroom
  linarith

end Accounted

theorem accounted_of_follow? (hr : r.problem? = none)
    (hrun : follow? act? (ofLimit r start) es = some l) : Accounted r start l :=
  follow?_invariant (fun _ _ _ _ h hact => h.act hr hact) (Accounted.ofLimit r start) hrun

/-- While sleepers go on the bucket stays as it is. -/
theorem bucket_of_wakes (hwakes : ∀ e ∈ es, e.isWake = true)
    (h : follow? act? l es = some l') : l'.bucket = l.bucket ∧ l.now ≤ l'.now := by
  refine follow?_invariant (P := fun m => m.bucket = l.bucket ∧ l.now ≤ m.now) ?_ ⟨rfl, le_rfl⟩ h
  rintro e he m m' ⟨hbucket, hnow⟩ hm
  have hwake := hwakes e he
  obtain ⟨hlater, -, hacts⟩ := acts_of_act? hm
  rcases hacts with now | ⟨k, now, v, hk, hasleep, -⟩ | ⟨k, now, v, hk, hasleep⟩
  · cases hwake
  · exact ⟨hbucket, hnow.trans hlater⟩
  · cases hwake

/-- A wait that comes and is cancelled in its sleep leaves the bucket as it would be without it. -/
theorem bucket_of_leave (hkeeps : l.bucket.Keeps r) (hr : r.problem? = none)
    (hlast : l.bucket.last ≤ l.now) {s t : ℤ} (hwakes : ∀ e ∈ es, e.isWake = true)
    (h : follow? act? l (.come s :: es ++ [.leave l.visits.length t]) = some l') :
    l'.bucket = l.bucket.refill t := by
  rw [List.cons_append] at h
  obtain ⟨m, hm, h⟩ := follow?_cons_eq_some.mp h
  obtain ⟨n, hn, h⟩ := follow?_append_eq_some.mp h
  obtain ⟨hs, -, hcome⟩ := acts_of_act? hm
  obtain ⟨ht, -, hleave⟩ := acts_of_act? (follow?_singleton_eq_some.mp h)
  obtain ⟨hbucket, hnow⟩ := bucket_of_wakes hwakes hn
  cases hcome
  cases hleave
  have hback : n.bucket.handBack t = (l.bucket.reserve s).2.handBack t := by
    rw [hbucket]
    rfl
  exact hback.trans (hkeeps.handBack_reserve hr (hlast.trans hs) (hnow.trans ht))

/-- The tokens of a bucket are accounted for in every run: they are never more than the burst, and
never more than the burst and what the bucket has gained since the start, less one for each wait that
has gone on or is asleep; so also once the bucket is brought up to date. A wait whose context is
cancelled when it comes changes nothing. One that comes next and is cancelled in its sleep, before
anything else is done to the bucket, leaves it as the time alone would have. -/
theorem tokens_accounted_for (r : RateLimit) (hr : r.problem? = none) (start : ℤ) (es : List Event)
    (l : Line ℚ) (hrun : follow? act? (ofLimit r start) es = some l) :
    (l.bucket.tokens ≤ r.effectiveBurst
        ∧ l.bucket.tokens ≤ r.effectiveBurst + (l.now - start) / r.period - l.kept)
      ∧ (∀ now, l.now ≤ now → (l.bucket.refill now).tokens ≤ r.effectiveBurst
        ∧ (l.bucket.refill now).tokens ≤ r.effectiveBurst + (now - start) / r.period - l.kept)
      ∧ (∀ now, (⟨l.bucket, now⟩ : Meter ℚ).wait true = (some .contextCancelled, ⟨l.bucket, now⟩))
      ∧ ∀ (s t : ℤ) (wakes : List Event) (l' : Line ℚ), (∀ e ∈ wakes, e.isWake = true) →
        follow? act? l (.come s :: wakes ++ [.leave l.visits.length t]) = some l' →
        l'.bucket = l.bucket.refill t := by
  have h := accounted_of_follow? hr hrun
  refine ⟨?_, fun now hnow => h.tokens_refill_le hr (h.last.trans hnow), fun _ => rfl,
    fun s t wakes l' => bucket_of_leave h.bucket hr h.last⟩
  have htokens := h.tokens_refill_le hr le_rfl
  have hsame : l.bucket.refill l.bucket.last = l.bucket := if_pos le_rfl
  rw [hsame] at htokens
  refine ⟨htokens.1, htokens.2.trans ?_⟩
  have hlast : (l.bucket.last : ℚ) ≤ l.now := Int.cast_le.mpr h.last
  have hp := RateLimit.period_pos hr
  gcongr

/-- Of two waits that find no token one leaves, and another one comes and leaves while the other of
the two goes on. -/
theorem tokens_accounted_for_leavers :
    ∃ l l' : Line ℚ, follow? act? (ofLimit ⟨1, 1000, 2⟩ 0)
        [.come 0, .come 0, .come 0, .come 0, .leave 2 500000000] = some l
      ∧ l.bucket.tokens ≤ RateLimit.effectiveBurst ⟨1, 1000, 2⟩
        + (l.now - (0 : ℤ)) / RateLimit.period ⟨1, 1000, 2⟩ - l.kept
      ∧ follow? act? l [.come 600000000, .wake 3 2000000000, .leave 4 2100000000] = some l'
      ∧ l'.bucket = l.bucket.refill 2100000000 := by
  obtain ⟨l, hrun, hmore⟩ := Option.map_eq_some_iff.mp
    (show (follow? act? (ofLimit ⟨1, 1000, 2⟩ 0 : Line ℚ)
        [.come 0, .come 0, .come 0, .come 0, .leave 2 500000000]).map
          (fun l => (l.visits.length, (follow? act? l
            [.come 600000000, .wake 3 2000000000, .leave 4 2100000000]).isSome)) = some (4, true) by
      decide +kernel)
  obtain ⟨hlength, hsome⟩ := Prod.mk.inj hmore
  obtain ⟨l', hrun'⟩ := Option.isSome_iff_exists.mp hsome
  obtain ⟨⟨-, htokens⟩, -, -, hleave⟩ := tokens_accounted_for _ (by decide) 0 _ l hrun
  refine ⟨l, l', hrun, htokens, hrun', hleave 600000000 2100000000 [.wake 3 2000000000] l' ?_ ?_⟩
  · simp [Event.isWake]
  · rw [hlength]
    exact hrun'

end Line

end Ingest.Rate

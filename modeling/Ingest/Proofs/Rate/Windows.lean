import Ingest.Proofs.Rate.Line

/-!
# How many waits go on in a time

Of the waits from one to a later one, those whose token was handed back in between do not go on, and
the others come due a period apart, but for the tokens that were handed back by waits in front of them
(`servedIn_add_handedBack_le`). So those that go on in a time are no more than fit into it.

A bucket knows two kinds of slack. A wait sleeps for whole ticks of the clock, so that the first of
them may have come due just before the time begins. And a token that is handed back goes to the waits
that come afterwards, at the times at which waits that are asleep still go on.
-/

namespace Ingest.Rate

/-- When a wait goes on, if it does. -/
def Visit.admission (v : Visit ℚ) : ℤ :=
  max v.called v.ready

/-- A wait goes on in a time. -/
def Visit.isAdmittedIn (s t : ℚ) (v : Visit ℚ) : Bool :=
  v.fate = .admitted ∧ s ≤ v.admission ∧ v.admission ≤ t

/-- A wait goes on in a time, and has not come out as ready before it came. -/
def Visit.isServedIn (s t : ℚ) (v : Visit ℚ) : Bool :=
  v.isAdmittedIn s t ∧ v.called ≤ v.ready

theorem Visit.isServedIn_iff {s t : ℚ} {v : Visit ℚ} :
    v.isServedIn s t
      ↔ v.fate = .admitted ∧ v.called ≤ v.ready ∧ s ≤ v.ready ∧ v.ready ≤ t := by
  have hserved : v.isServedIn s t
      ↔ (v.fate = .admitted ∧ s ≤ v.admission ∧ v.admission ≤ t) ∧ v.called ≤ v.ready := by
    unfold isServedIn isAdmittedIn
    rw [decide_eq_true_iff, decide_eq_true_iff]
  have hready : v.called ≤ v.ready → v.admission = v.ready := max_eq_right
  rw [hserved]
  constructor
  · rintro ⟨⟨hf, hs, ht⟩, hle⟩
    rw [hready hle] at hs ht
    exact ⟨hf, hle, hs, ht⟩
  · rintro ⟨hf, hle, hs, ht⟩
    rw [hready hle]
    exact ⟨⟨hf, hs, ht⟩, hle⟩

namespace Line

/-- How many waits go on in a time. -/
def admittedIn (l : Line ℚ) (s t : ℚ) : ℕ :=
  l.visits.countP (Visit.isAdmittedIn s t)

/-- How many of these have not come out as ready before they came. -/
def servedIn (l : Line ℚ) (s t : ℚ) : ℕ :=
  l.visits.countP (Visit.isServedIn s t)

/-- Wait `i` is the first to come of those that are served in a time, and wait `j` is the last. -/
structure Spans (l : Line ℚ) (s t : ℚ) (i j : ℕ) : Prop where
  first : ∃ v, l.visits[i]? = some v ∧ v.isServedIn s t
  last : ∃ w, l.visits[j]? = some w ∧ w.isServedIn s t
  within : ∀ k u, l.visits[k]? = some u → u.isServedIn s t → i ≤ k ∧ k ≤ j

/-- How many waits in front of wait `i` handed a token back after it came and before wait `j` did. -/
def passedOn (l : Line ℚ) (i j : ℕ) : ℕ :=
  (l.visits.take i).countP fun v => v.fate.isBetween i j

variable {r : RateLimit} {l : Line ℚ} {s t : ℚ} {i j : ℕ}

theorem exists_spans (h : l.servedIn s t ≠ 0) : ∃ i j, l.Spans s t i j := by
  classical
  let places := (Finset.range l.visits.length).filter
    fun k => ∃ u, l.visits[k]? = some u ∧ u.isServedIn s t
  have hmem : ∀ k u, l.visits[k]? = some u → u.isServedIn s t → k ∈ places := by
    intro k u hu hin
    exact Finset.mem_filter.mpr
      ⟨Finset.mem_range.mpr (List.getElem?_eq_some_iff.mp hu).1, u, hu, hin⟩
  have hsome : places.Nonempty := by
    obtain ⟨u, hu, hin⟩ := List.countP_pos_iff.mp (Nat.pos_of_ne_zero h)
    obtain ⟨k, hk⟩ := List.getElem?_of_mem hu
    exact ⟨k, hmem k u hk hin⟩
  refine ⟨places.min' hsome, places.max' hsome, ?_, ?_, fun k u hu hin => ⟨?_, ?_⟩⟩
  · exact (Finset.mem_filter.mp (places.min'_mem hsome)).2
  · exact (Finset.mem_filter.mp (places.max'_mem hsome)).2
  · exact places.min'_le k (hmem k u hu hin)
  · exact places.le_max' k (hmem k u hu hin)

section Parts

variable {α : Type*} {xs : List α} {p q : α → Bool}

theorem countP_add_countP_le_length (h : ∀ x ∈ xs, q x → ¬p x) :
    xs.countP p + xs.countP q ≤ xs.length := by
  have hle : xs.countP q ≤ xs.countP fun x => ¬p x :=
    List.countP_mono_left fun x hx hq => by simpa using h x hx hq
  rw [List.length_eq_countP_add_countP p]
  simpa using hle

/-- The elements of a list in front of place `i`, from there to place `j`, and behind that. -/
theorem countP_parts (xs : List α) (p : α → Bool) (hij : i ≤ j) :
    xs.countP p = (xs.take i).countP p + ((xs.drop i).take (j + 1 - i)).countP p
      + (xs.drop (j + 1)).countP p := by
  conv_lhs => rw [← List.take_append_drop i xs,
    ← List.take_append_drop (j + 1 - i) (xs.drop i), List.drop_drop]
  rw [List.countP_append, List.countP_append, Nat.add_sub_cancel' (hij.trans j.le_succ), add_assoc]

end Parts

namespace Spans

theorem le (h : l.Spans s t i j) : i ≤ j := by
  obtain ⟨v, hv, hin⟩ := h.first
  exact (h.within i v hv hin).2

theorem countP_take (h : l.Spans s t i j) :
    (l.visits.take i).countP (Visit.isServedIn s t) = 0 := by
  refine List.countP_eq_zero.mpr fun u hu hin => ?_
  obtain ⟨k, hk, rfl⟩ := List.mem_take_iff_getElem.mp hu
  have := (h.within k _ (List.getElem?_eq_getElem _) hin).1
  omega

theorem countP_drop (h : l.Spans s t i j) :
    (l.visits.drop (j + 1)).countP (Visit.isServedIn s t) = 0 := by
  refine List.countP_eq_zero.mpr fun u hu hin => ?_
  obtain ⟨k, hk, rfl⟩ := List.mem_drop_iff_getElem.mp hu
  have := (h.within _ _ (List.getElem?_eq_getElem _) hin).2
  omega

end Spans

/-- Whoever comes after wait `j` leaves after it. -/
theorem Fits.countP_drop_isBetween (h : Fits r l) (i j : ℕ) :
    (l.visits.drop (j + 1)).countP (fun v => v.fate.isBetween i j) = 0 := by
  refine List.countP_eq_zero.mpr fun u hu hin => ?_
  obtain ⟨k, hk, rfl⟩ := List.mem_drop_iff_getElem.mp hu
  obtain ⟨n, hf, -, hn⟩ := Fate.isBetween_iff.mp hin
  have := (h.left _ _ n (List.getElem?_eq_getElem _) hf).1
  omega

/-- Those that go on and those that hand their token back are different waits. -/
theorem servedIn_add_handedBack_le (h : Fits r l) (hspans : l.Spans s t i j) :
    l.servedIn s t + l.handedBack i j ≤ (j + 1 - i) + l.passedOn i j := by
  have hserved := countP_parts l.visits (Visit.isServedIn s t) hspans.le
  have hback := countP_parts l.visits (fun v => v.fate.isBetween i j) hspans.le
  rw [hspans.countP_take, hspans.countP_drop] at hserved
  rw [h.countP_drop_isBetween] at hback
  have hmiddle : ((l.visits.drop i).take (j + 1 - i)).countP (Visit.isServedIn s t)
      + ((l.visits.drop i).take (j + 1 - i)).countP (fun v => v.fate.isBetween i j)
        ≤ j + 1 - i := by
    refine (countP_add_countP_le_length fun u _ hleft hin => ?_).trans (List.length_take_le _ _)
    obtain ⟨n, hf, -⟩ := Fate.isBetween_iff.mp hleft
    have := (Visit.isServedIn_iff.mp hin).1
    rw [hf] at this
    cases this
  unfold servedIn handedBack passedOn
  omega

/-- Waits that follow each other come due a period apart, but for the tokens that are handed back. -/
theorem Fits.due_le (h : Fits r l) (hr : r.problem? = none) {v w : Visit ℚ} (hij : i ≤ j)
    (hv : l.visits[i]? = some v) (hw : l.visits[j]? = some w) :
    v.due r + (j - i) * r.period ≤ w.due r + l.handedBack i j * r.period := by
  rcases hij.eq_or_lt with rfl | hlt
  · obtain rfl := Option.some.inj (hv.symm.trans hw)
    have := mul_nonneg (Nat.cast_nonneg (l.handedBack i i)) (RateLimit.period_pos hr).le
    linarith
  · exact h.order i j v w hlt hv hw

/-- In no time do more waits go on than the bucket holds and gains in it and one tick of the clock,
together with those waits in front of them that hand a token back to one that is among them. -/
theorem servedIn_lt (r : RateLimit) (hr : r.problem? = none) (start : ℤ) (hstart : 0 ≤ start)
    (es : List Event) (l : Line ℚ) (hrun : follow? act? (ofLimit r start) es = some l) (s t : ℚ) :
    l.servedIn s t = 0
      ∨ ∃ i j, l.Spans s t i j
        ∧ l.servedIn s t < r.effectiveBurst + (t - s + 1) / r.period + l.passedOn i j := by
  have hfits := fits_of_follow? hr hstart hrun
  have hp := RateLimit.period_pos hr
  refine or_iff_not_imp_left.mpr fun hsome => ?_
  obtain ⟨i, j, hspans⟩ := exists_spans hsome
  obtain ⟨v, hv, hvin⟩ := hspans.first
  obtain ⟨w, hw, hwin⟩ := hspans.last
  obtain ⟨-, hvfits, hs, -⟩ := Visit.isServedIn_iff.mp hvin
  obtain ⟨-, hwfits, -, ht⟩ := Visit.isServedIn_iff.mp hwin
  have hij := hspans.le
  have hdue := hfits.due_le hr hij hv hw
  have hlow := (hfits.timely v (List.mem_of_getElem? hv)).ready_lt hr hvfits
  have hhigh := (hfits.timely w (List.mem_of_getElem? hw)).due_le hwfits
  have hcount : (l.servedIn s t : ℚ) + l.handedBack i j ≤ (j + 1 - i) + l.passedOn i j := by
    have := servedIn_add_handedBack_le hfits hspans
    rw [← Nat.cast_le (α := ℚ)] at this
    push_cast [Nat.cast_sub (hij.trans j.le_succ)] at this
    exact this
  refine ⟨i, j, hspans, ?_⟩
  have hroom : (j - i - l.handedBack i j - (r.effectiveBurst - 1)) * r.period < t - s + 1 := by
    linarith
  have := (lt_div_iff₀ hp).mpr hroom
  linarith

theorem servedIn_lt_behind_leaver :
    ∃ l, follow? act? (ofLimit ⟨1, 1000, 1⟩ 0)
        [.come 0, .come 0, .come 0, .leave 1 0, .come 0, .wake 2 2000000000, .wake 3 2000000000]
          = some l
      ∧ l.servedIn 2000000000 2000000000 = 2
      ∧ (l.servedIn 2000000000 2000000000 = 0
        ∨ ∃ i j, l.Spans 2000000000 2000000000 i j
          ∧ l.servedIn 2000000000 2000000000
            < RateLimit.effectiveBurst ⟨1, 1000, 1⟩
              + (2000000000 - 2000000000 + 1) / RateLimit.period ⟨1, 1000, 1⟩
              + l.passedOn i j) := by
  obtain ⟨l, hrun, hserved⟩ := Option.map_eq_some_iff.mp
    (show (follow? act? (ofLimit ⟨1, 1000, 1⟩ 0) [.come 0, .come 0, .come 0, .leave 1 0, .come 0,
      .wake 2 2000000000, .wake 3 2000000000]).map (servedIn · 2000000000 2000000000) = some 2 by
        decide +kernel)
  exact ⟨l, hrun, hserved, servedIn_lt _ (by decide) 0 le_rfl _ l hrun _ _⟩

/-- In a run from time 0 on more waits go on in a time than the bucket holds and gains in it. -/
def Exceeds (r : RateLimit) (es : List Event) (s t : ℚ) : Prop :=
  r.problem? = none ∧ ∃ l, follow? act? (ofLimit r 0) es = some l
    ∧ r.effectiveBurst + (t - s) / r.period < l.admittedIn s t

theorem exceeds_of_count {es : List Event} {n : ℕ} (hr : r.problem? = none)
    (hn : (follow? act? (ofLimit r 0) es).map (admittedIn · s t) = some n)
    (hlt : r.effectiveBurst + (t - s) / r.period < n) : Exceeds r es s t := by
  obtain ⟨l, hl, rfl⟩ := Option.map_eq_some_iff.mp hn
  exact ⟨hr, l, hl, hlt⟩

/-- It happens because waits last whole ticks, because a wait in front of others leaves, and because
a time does not fit the clock. -/
theorem admittedIn_exceeds_limit :
    Exceeds ⟨3, 1, 1⟩
      [.come 0, .come 0, .come 0, .come 0, .wake 1 333334, .wake 2 666667, .wake 3 1000000]
      666667 1000000
    ∧ Exceeds ⟨1, 1000, 1⟩
      [.come 0, .come 0, .come 0, .leave 1 0, .come 0, .wake 2 2000000000, .wake 3 2000000000]
      2000000000 2000000000
    ∧ Exceeds ⟨1, 10000000000000000, 1⟩ [.come 0, .come 0, .wake 1 0] 0 0 := by
  refine ⟨exceeds_of_count (n := 2) ?_ ?_ ?_, exceeds_of_count (n := 2) ?_ ?_ ?_,
    exceeds_of_count (n := 2) ?_ ?_ ?_⟩ <;> decide +kernel

end Line

end Ingest.Rate

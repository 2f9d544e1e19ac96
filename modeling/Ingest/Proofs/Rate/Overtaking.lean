import Ingest.Proofs.Rate.Line

/-!
# The order of the waits

Waits go on in the order in which they come, as long as no more tokens are handed back between two
of them than there are waits between them. A token that is handed back is given to whoever comes next
and to nobody who is asleep already, so that each token beyond that lets the later wait go on up to a
period before the earlier one.
-/

namespace Ingest.Rate.Line

variable {r : RateLimit} {l : Line ℚ} {i j k : ℕ}

/-- A wait is ready when a later one is, or so many periods later as tokens were handed back between
them beyond one for each step from the one to the other. -/
theorem Fits.ready_le (h : Fits r l) (hr : r.problem? = none) {v w : Visit ℚ} (hij : i < j)
    (hv : l.visits[i]? = some v) (hw : l.visits[j]? = some w) (hfits : w.called ≤ w.ready) :
    v.ready ≤ w.ready + ⌈((l.handedBack i j - (j - i) : ℕ) : ℚ) * r.period⌉ := by
  have hp := RateLimit.period_pos hr
  have hlate : 0 ≤ ((l.handedBack i j - (j - i) : ℕ) : ℚ) * r.period := by positivity
  have hcalled : v.called ≤ w.ready := (h.inOrder i j v w hij hv hw).trans hfits
  have hsoon : v.ready ≤ v.called →
      v.ready ≤ w.ready + ⌈((l.handedBack i j - (j - i) : ℕ) : ℚ) * r.period⌉ := by
    intro hle
    have := Int.ceil_nonneg hlate
    omega
  rcases (h.timely v (List.mem_of_getElem? hv)).ready with ⟨-, heq⟩ | ⟨-, heq | hlt⟩
  · exact hsoon heq.le
  · have hdue := h.order i j v w hij hv hw
    have hready := (h.timely w (List.mem_of_getElem? hw)).due_le hfits
    have hsteps : (l.handedBack i j : ℚ) - (j - i) ≤ (l.handedBack i j - (j - i) : ℕ) := by
      have : l.handedBack i j + i ≤ (l.handedBack i j - (j - i)) + j := by omega
      rw [← Nat.cast_le (α := ℚ)] at this
      push_cast at this ⊢
      linarith
    have := mul_le_mul_of_nonneg_right hsteps hp.le
    rw [heq, ← Int.ceil_intCast_add]
    refine Int.ceil_mono ?_
    linarith
  · exact hsoon hlt.le

/-- Of two waits the earlier one is ready first if no more tokens are handed back between them than
there are steps from the one to the other, and else as many periods after it as there are more. -/
theorem ready_in_order (r : RateLimit) (hr : r.problem? = none) (start : ℤ) (hstart : 0 ≤ start)
    (es : List Event) (l : Line ℚ) (hrun : follow? act? (ofLimit r start) es = some l) (i j : ℕ)
    (hij : i < j) (v w : Visit ℚ) (hv : l.visits[i]? = some v) (hw : l.visits[j]? = some w)
    (hfits : w.called ≤ w.ready) :
    (l.handedBack i j ≤ j - i → v.ready ≤ w.ready)
      ∧ v.ready ≤ w.ready + ⌈((l.handedBack i j - (j - i) : ℕ) : ℚ) * r.period⌉ := by
  have hle := (fits_of_follow? hr hstart hrun).ready_le hr hij hv hw hfits
  refine ⟨fun hfew => ?_, hle⟩
  rw [Nat.sub_eq_zero_of_le hfew] at hle
  simpa using hle

/-- When each wait came, and when it may go on. -/
def times (l : Line ℚ) : List (ℤ × ℤ) :=
  l.visits.map fun v => (v.called, v.ready)

theorem exists_visit {p : ℤ × ℤ} (h : l.times[k]? = some p) :
    ∃ v, l.visits[k]? = some v ∧ (v.called, v.ready) = p := by
  unfold times at h
  rw [List.getElem?_map] at h
  exact Option.map_eq_some_iff.mp h

theorem ready_in_order_behind_leaver :
    ∃ l v w, follow? act? (ofLimit ⟨1, 1000, 1⟩ 0)
        [.come 0, .come 0, .come 0, .leave 1 100000000, .come 100000000] = some l
      ∧ l.visits[2]? = some v ∧ l.visits[3]? = some w ∧ w.called ≤ w.ready
      ∧ (l.handedBack 2 3 ≤ 3 - 2 → v.ready ≤ w.ready)
      ∧ v.ready ≤ w.ready
        + ⌈((l.handedBack 2 3 - (3 - 2) : ℕ) : ℚ) * RateLimit.period ⟨1, 1000, 1⟩⌉ := by
  obtain ⟨l, hrun, htimes⟩ := Option.map_eq_some_iff.mp
    (show (follow? act? (ofLimit ⟨1, 1000, 1⟩ 0)
      [.come 0, .come 0, .come 0, .leave 1 100000000, .come 100000000]).map times
        = some [(0, 0), (0, 1000000000), (0, 2000000000), (100000000, 2000000000)] by
      decide +kernel)
  obtain ⟨v, hv, -⟩ := exists_visit (l := l) (k := 2) (by rw [htimes]; rfl)
  obtain ⟨w, hw, hwtimes⟩ := exists_visit (l := l) (k := 3) (by rw [htimes]; rfl)
  obtain ⟨hcalled, hready⟩ := Prod.mk.inj hwtimes
  have hfits : w.called ≤ w.ready := by omega
  exact ⟨l, v, w, hrun, hv, hw, hfits,
    ready_in_order _ (by decide) 0 le_rfl _ l hrun 2 3 (by decide) v w hv hw hfits⟩

/-- Two waits that leave let one that comes afterwards overtake one that has come already. -/
theorem overtaken_behind_leavers :
    (follow? act? (ofLimit ⟨1, 1000, 1⟩ 0 : Line ℚ)
      [.come 0, .come 0, .come 0, .come 0, .leave 1 100000000, .leave 2 100000000, .come 100000000,
        .wake 4 2000000000, .wake 3 3000000000]).map (·.visits.map fun v => (v.ready, v.fate))
      = some [(0, .admitted), (1000000000, .left 4), (2000000000, .left 4), (3000000000, .admitted),
          (2000000000, .admitted)] := by
  decide +kernel

end Ingest.Rate.Line

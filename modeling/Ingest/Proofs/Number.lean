import Mathlib
import Ingest.Number.Reading

/-!
# What a number of 64 bits says

A finite magnitude is a whole number of the least positive one, `2 ^ (-1074)` (`units`), so that
`Binary64.value?` is the number that is meant. The tests of signs and bounds say of that number what
their names say; `nan` passes all of them.
-/

namespace Ingest.Binary64

/-- How many times the least positive magnitude a finite one is. The first `2 ^ 52` magnitudes have
no leading one. -/
def units (m : ℕ) : ℕ :=
  if m < 2 ^ 52 then m else (2 ^ 52 + m % 2 ^ 52) * 2 ^ (m / 2 ^ 52 - 1)

/-- The digits go up by one, or they start again at the next exponent. -/
theorem units_lt_succ (m : ℕ) : units m < units (m + 1) := by
  have hm : 2 ^ 52 * (m / 2 ^ 52) + m % 2 ^ 52 = m := Nat.div_add_mod m _
  have hr : m % 2 ^ 52 < 2 ^ 52 := Nat.mod_lt _ (by norm_num)
  generalize hq : m / 2 ^ 52 = q at hm
  generalize hf : m % 2 ^ 52 = f at hm hr
  rcases Nat.lt_or_ge (m + 1) (2 ^ 52) with hlow | hhigh
  · rw [units, units, if_pos (by omega), if_pos hlow]
    exact Nat.lt_succ_self m
  · rw [units, units, if_neg (Nat.not_lt.mpr hhigh)]
    rcases Nat.lt_or_ge (f + 1) (2 ^ 52) with hsame | hnext
    · have hq' : (m + 1) / 2 ^ 52 = q := by omega
      have hf' : (m + 1) % 2 ^ 52 = f + 1 := by omega
      rw [if_neg (by omega), hq, hf, hq', hf']
      exact Nat.mul_lt_mul_of_pos_right (by omega) (by positivity)
    · have hq' : (m + 1) / 2 ^ 52 = q + 1 := by omega
      have hf' : (m + 1) % 2 ^ 52 = 0 := by omega
      rw [hq', hf', Nat.add_sub_cancel]
      split_ifs with hlow
      · have hzero : q = 0 := by omega
        subst hzero
        omega
      · obtain ⟨e, rfl⟩ : ∃ e, q = e + 1 := ⟨q - 1, by omega⟩
        rw [hq, hf, Nat.add_sub_cancel, pow_succ 2 e, Nat.add_zero, ← mul_assoc, mul_right_comm]
        exact Nat.mul_lt_mul_of_pos_right (by omega) (by positivity)

theorem units_strictMono : StrictMono units :=
  strictMono_nat_of_lt_succ units_lt_succ

@[simp] theorem units_zero : units 0 = 0 :=
  rfl

theorem units_one : units oneMagnitude = 2 ^ 1074 := by
  have hlow : ¬ oneMagnitude < 2 ^ 52 := by decide
  have hexp : oneMagnitude / 2 ^ 52 - 1 = 1022 := by decide
  have hdigits : oneMagnitude % 2 ^ 52 = 0 := by decide
  rw [units, if_neg hlow, hexp, hdigits, Nat.add_zero, ← pow_add]

theorem one_lt_infinite : oneMagnitude < infiniteMagnitude := by
  decide

/-- A magnitude as a number. -/
def ratio (m : ℕ) : ℚ :=
  units m / 2 ^ 1074

theorem ratio_strictMono : StrictMono ratio := by
  intro m n h
  have hunits : (units m : ℚ) < units n := by exact_mod_cast units_strictMono h
  exact div_lt_div_of_pos_right hunits (by positivity)

@[simp] theorem ratio_zero : ratio 0 = 0 := by
  simp [ratio]

@[simp] theorem ratio_one : ratio oneMagnitude = 1 := by
  rw [ratio, units_one, Nat.cast_pow, Nat.cast_ofNat]
  exact div_self (by positivity)

theorem ratio_nonneg (m : ℕ) : 0 ≤ ratio m := by
  unfold ratio
  positivity

theorem ratio_le_one_iff {m : ℕ} : ratio m ≤ 1 ↔ m ≤ oneMagnitude := by
  rw [← ratio_one]
  exact ratio_strictMono.le_iff_le

theorem ratio_pos_iff {m : ℕ} : 0 < ratio m ↔ 0 < m := by
  rw [← ratio_zero]
  exact ratio_strictMono.lt_iff_lt

/-- The number that is meant; none for `nan` and the infinite ones. -/
def value? : Binary64 → Option ℚ
  | nan => none
  | number negative m =>
    if m < infiniteMagnitude then some (if negative then -ratio m else ratio m) else none

/-- A number from 0 to 1. -/
def InUnit (q : Binary64) : Prop :=
  ∃ x, q.value? = some x ∧ 0 ≤ x ∧ x ≤ 1

/-- A number above 0 and at most 1. -/
def IsUsable (q : Binary64) : Prop :=
  ∃ x, q.value? = some x ∧ 0 < x ∧ x ≤ 1

theorem not_inUnit_nan : ¬ InUnit nan := by
  rintro ⟨x, h, -⟩
  simp [value?] at h

theorem inUnit_iff {q : Binary64} :
    q.InUnit ↔ q ≠ nan ∧ q.isNegative = false ∧ q.exceedsOne = false := by
  cases q with
  | nan => simp [not_inUnit_nan]
  | number negative m =>
    have hone := one_lt_infinite
    cases negative with
    | false =>
      suffices h : (number false m).InUnit ↔ m ≤ oneMagnitude by simpa [isNegative, exceedsOne]
      constructor
      · rintro ⟨x, hx, -, hle⟩
        rw [value?, Option.ite_none_right_eq_some] at hx
        obtain ⟨-, rfl⟩ := hx.imp_right Option.some.inj
        exact ratio_le_one_iff.mp hle
      · intro h
        refine ⟨ratio m, ?_, ratio_nonneg m, ratio_le_one_iff.mpr h⟩
        rw [value?, if_pos (by omega)]
        rfl
    | true =>
      suffices h : (number true m).InUnit ↔ m = 0 by simpa [isNegative, exceedsOne]
      constructor
      · rintro ⟨x, hx, hle, -⟩
        rw [value?, Option.ite_none_right_eq_some] at hx
        obtain ⟨-, rfl⟩ := hx.imp_right Option.some.inj
        by_contra hm
        have := ratio_pos_iff.mpr (Nat.pos_of_ne_zero hm)
        simp only [if_true] at hle
        linarith
      · rintro rfl
        exact ⟨0, by simp [value?, infiniteMagnitude], le_rfl, zero_le_one⟩

/-- Both zeros are zero, and nothing else is. -/
theorem value?_eq_zero_iff {q : Binary64} : q.value? = some 0 ↔ ∃ negative, q = number negative 0 := by
  constructor
  · intro h
    cases q with
    | nan => simp [value?] at h
    | number negative m =>
      rw [value?, Option.ite_none_right_eq_some] at h
      have hm : ratio m = 0 := by
        cases negative <;> simpa using h.2
      refine ⟨negative, ?_⟩
      rw [ratio_strictMono.injective (hm.trans ratio_zero.symm)]
  · rintro ⟨negative, rfl⟩
    cases negative <;> simp [value?, infiniteMagnitude]

theorem isUsable_iff {q : Binary64} : q.IsUsable ↔ q.InUnit ∧ q.value? ≠ some 0 := by
  constructor
  · rintro ⟨x, hx, hpos, hle⟩
    refine ⟨⟨x, hx, hpos.le, hle⟩, ?_⟩
    rw [hx]
    simpa using hpos.ne'
  · rintro ⟨⟨x, hx, hnonneg, hle⟩, hzero⟩
    refine ⟨x, hx, lt_of_le_of_ne hnonneg ?_, hle⟩
    rintro rfl
    exact hzero hx

/-- Among the numbers from 0 to 1, the test for at most zero finds the zeros. -/
theorem isAtMostZero_iff {q : Binary64} (h : q.InUnit) : q.isAtMostZero = true ↔ q.value? = some 0 := by
  obtain ⟨hnan, hneg, -⟩ := inUnit_iff.mp h
  rw [value?_eq_zero_iff]
  cases q with
  | nan => exact absurd rfl hnan
  | number negative m =>
    cases negative
    · simp [isAtMostZero]
    · have hm : m = 0 := by simpa [isNegative] using hneg
      simp [isAtMostZero, hm]

/-- The number that is meant, and 0 where there is none. -/
def toRat (q : Binary64) : ℚ :=
  q.value?.getD 0

theorem IsUsable.exists_magnitude {q : Binary64} (h : q.IsUsable) :
    ∃ m, q = number false m ∧ m ≠ 0 ∧ q.toRat = ratio m := by
  obtain ⟨⟨hnan, hneg, -⟩, hzero⟩ := (isUsable_iff.mp h).imp_left inUnit_iff.mp
  obtain ⟨x, hx, -⟩ := h
  cases q with
  | nan => exact absurd rfl hnan
  | number negative m =>
    have hm : m ≠ 0 := fun hm => hzero (value?_eq_zero_iff.mpr ⟨negative, by rw [hm]⟩)
    obtain rfl : negative = false := by simpa [isNegative, hm] using hneg
    rw [value?, Option.ite_none_right_eq_some] at hx
    exact ⟨m, rfl, hm, by simp [toRat, value?, hx.1]⟩

/-- Above zero, the order of numbers is that of what they mean. -/
theorem lt_iff {a b : Binary64} (ha : a.IsUsable) (hb : b.IsUsable) :
    a.lt b = true ↔ a.toRat < b.toRat := by
  obtain ⟨m, rfl, -, hm⟩ := ha.exists_magnitude
  obtain ⟨n, rfl, -, hn⟩ := hb.exists_magnitude
  rw [hm, hn, ratio_strictMono.lt_iff_lt]
  simp [lt]

theorem eq_iff {a b : Binary64} (ha : a.IsUsable) (hb : b.IsUsable) :
    a.eq b = true ↔ a.toRat = b.toRat := by
  obtain ⟨m, rfl, hm, hmval⟩ := ha.exists_magnitude
  obtain ⟨n, rfl, -, hnval⟩ := hb.exists_magnitude
  rw [hmval, hnval, ratio_strictMono.injective.eq_iff]
  simp [eq, hm]

/-- A text that spells no number but the word for it: blanks, a sign, `nan` in any case, and then
nothing or letters, digits and underscores in brackets. -/
def SpellsNan (s : List Char) : Prop :=
  let word := (Digits.sign (Text.trimStart s)).2
  (word.map Char.toLower).take 3 = ['n', 'a', 'n'] ∧ isNanTail (word.drop 3) = true

theorem readUnsigned?_eq_nan_iff {negative : Bool} {s : List Char} :
    readUnsigned? negative s = some nan
      ↔ (s.map Char.toLower).take 3 = ['n', 'a', 'n'] ∧ isNanTail (s.drop 3) = true := by
  have hpre : "nan".toList.isPrefixOf (s.map Char.toLower) = true
      ↔ (s.map Char.toLower).take 3 = ['n', 'a', 'n'] := by
    rw [List.isPrefixOf_iff_prefix, List.prefix_iff_eq_take]
    exact eq_comm
  simp only [readUnsigned?]
  split_ifs with hinf hnan htail
  · have hword : (s.map Char.toLower).take 3 = ['i', 'n', 'f'] := by
      rcases hinf with h | h <;> rw [h] <;> rfl
    simp [hword]
  · exact iff_of_true rfl ⟨hpre.mp hnan, htail⟩
  · exact iff_of_false (by simp) (fun h => htail h.2)
  · refine iff_of_false ?_ (fun h => hnan (hpre.mpr h.1))
    split <;> simp

theorem read?_eq_nan_iff {s : List Char} : read? s = some nan ↔ SpellsNan s := by
  unfold read?
  split_ifs with hempty
  · rw [List.isEmpty_iff.mp hempty]
    exact iff_of_false (by decide) (by simp [SpellsNan, Text.trimStart, Digits.sign])
  · exact readUnsigned?_eq_nan_iff

end Ingest.Binary64

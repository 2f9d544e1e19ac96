import Mathlib
import Ingest.Proofs.Numerals

/-!
# Whole numbers in writing

The bounds of 64 bits make no difference to what is read as an integer of 32 bits: it is the integer
that the whole text spells, of whatever size (`Whole.parse?`), if that fits (`Whole.read?_eq`).

The decimal digits of a number are read as that number, with a sign in front of them as well, so
that an integer of 32 bits is read as it is written (`Whole.read?_toString`).
-/

namespace Ingest

namespace Digits

variable {c : Char} {d n : ℕ} {s : List Char} {ds : List ℕ}

theorem decimal?_digitChar (hd : d < 10) : decimal? d.digitChar = some d := by
  have hall : ∀ d : Fin 10, decimal? (Nat.digitChar d) = some (d : ℕ) := by decide
  exact hall ⟨d, hd⟩

theorem value_concat (base : ℕ) (ds : List ℕ) (d : ℕ) :
    value base (ds ++ [d]) = value base ds * base + d := by
  simp [value]

/-- A further digit after others. -/
theorem span_concat (h : span decimal? s = (ds, [])) (hc : decimal? c = some d) :
    span decimal? (s ++ [c]) = (ds ++ [d], []) := by
  induction s generalizing ds with
  | nil =>
    obtain rfl : [] = ds := congrArg Prod.fst h
    simp [span, hc]
  | cons x s ih =>
    rw [span] at h
    rw [List.cons_append, span]
    rcases hx : decimal? x with _ | y
    · simp [hx] at h
    · simp only [hx, Prod.mk.injEq] at h
      obtain ⟨rfl, hrest⟩ := h
      simp [ih (Prod.ext rfl hrest)]

/-- The decimal digits of a number spell it. -/
theorem span_toDigits (n : ℕ) :
    ∃ d ds, span decimal? (Nat.toDigits 10 n) = (d :: ds, []) ∧ value 10 (d :: ds) = n := by
  induction n using Nat.strong_induction_on with
  | _ n ih =>
    rcases Nat.lt_or_ge n 10 with hn | hn
    · exact ⟨n, [], by simp [Nat.toDigits_of_lt_base hn, span, decimal?_digitChar hn],
        by simp [value]⟩
    · obtain ⟨d, ds, hspan, hvalue⟩ := ih (n / 10) (by omega)
      have hlast : n % 10 < 10 := Nat.mod_lt n (by omega)
      have hdigits : Nat.toDigits 10 n = Nat.toDigits 10 (n / 10) ++ [(n % 10).digitChar] := by
        rw [← Nat.toDigits_of_lt_base hlast,
          Nat.toDigits_append_toDigits (by omega) (by omega) hlast, Nat.div_add_mod]
      refine ⟨d, ds ++ [n % 10], ?_, ?_⟩
      · rw [hdigits, span_concat hspan (decimal?_digitChar hlast), List.cons_append]
      · rw [← List.cons_append, value_concat, hvalue, mul_comm, Nat.div_add_mod]

/-- A text that begins with a digit begins with no sign and no blank. -/
theorem sign_of_decimal? (hc : (decimal? c).isSome) :
    sign (Text.trimStart (c :: s)) = (false, c :: s) := by
  have hblank := (isNumeral_of_decimal? hc).isBlank
  have hminus : c ≠ '-' := by
    rintro rfl
    exact absurd hc (by decide)
  have hplus : c ≠ '+' := by
    rintro rfl
    exact absurd hc (by decide)
  rw [Text.trimStart, List.dropWhile_cons_of_neg (by simp [hblank])]
  unfold sign
  split <;> simp_all

end Digits

namespace Whole

open Digits

variable {d : ℕ} {ds : List ℕ} {s rest : List Char} {n : ℤ}

/-- What may stand in front of digits. -/
inductive Sign where
  | none | plus | minus
  deriving DecidableEq

namespace Sign

@[simp] def text : Sign → List Char
  | none => []
  | plus => ['+']
  | minus => ['-']

@[simp] def factor : Sign → ℤ
  | none | plus => 1
  | minus => -1

end Sign

/-- The integer that a whole text spells, of whatever size. -/
def parse? (s : List Char) : Option ℤ :=
  match leading? s with
  | some (n, []) => some n
  | _ => none

theorem bounds_of_fits32 (h : fits32 n = true) : least64 ≤ n ∧ n ≤ greatest64 := by
  simp only [fits32, Bool.and_eq_true, decide_eq_true_eq] at h
  simp only [least64, greatest64]
  omega

theorem convert_of_none (h : leading? s = none) : convert s = ⟨0, s, false⟩ := by
  rw [convert, h]

/-- What fits 64 bits is converted as it is. -/
theorem convert_of_bounds (h : leading? s = some (n, rest)) (hn : least64 ≤ n ∧ n ≤ greatest64) :
    convert s = ⟨n, rest, false⟩ := by
  simp only [convert, h]
  rw [if_neg (by omega), if_neg (by omega)]

/-- What does not fit 64 bits is out of range. -/
theorem outOfRange_convert (h : leading? s = some (n, rest))
    (hn : ¬(least64 ≤ n ∧ n ≤ greatest64)) : (convert s).outOfRange = true := by
  simp only [convert, h]
  split_ifs
  · rfl
  · rfl
  · omega

theorem read?_eq (s : List Char) : read? s = (parse? s).filter fits32 := by
  rcases hs : leading? s with _ | ⟨n, rest⟩
  · simp [read?, parse?, convert_of_none hs, hs]
  by_cases hn : least64 ≤ n ∧ n ≤ greatest64
  · cases rest with
    | nil =>
      have hne : [] ≠ s := by
        rintro rfl
        cases hs
      have hleft : ([] == s) = false := beq_eq_false_iff_ne.mpr hne
      cases hfits : fits32 n <;>
        simp [read?, parse?, convert_of_bounds hs hn, hs, hleft, hfits, Option.filter_some]
    | cons c rest => simp [read?, parse?, convert_of_bounds hs hn, hs]
  · have hfits : ¬fits32 n = true := fun h => hn (bounds_of_fits32 h)
    cases rest <;> simp [read?, parse?, outOfRange_convert hs hn, hs, hfits, Option.filter_some]

theorem sign_text (g : Sign) (h : span decimal? s = (d :: ds, [])) :
    sign (Text.trimStart (g.text ++ s)) = (decide (g = .minus), s) := by
  have hblank : Text.isBlank '+' = false ∧ Text.isBlank '-' = false := by decide
  cases g with
  | none =>
    cases s with
    | nil => cases h
    | cons c s =>
      refine sign_of_decimal? ?_
      rw [span] at h
      rcases hd : decimal? c with _ | x
      · simp [hd] at h
      · rfl
  | plus | minus => simp [Text.trimStart, hblank, sign]

theorem parse?_of_span (g : Sign) (h : span decimal? s = (d :: ds, [])) :
    parse? (g.text ++ s) = some (g.factor * value 10 (d :: ds) : ℤ) := by
  simp only [parse?, leading?, sign_text g h, h]
  cases g <;> simp

theorem toList_toString (n : ℕ) : (toString n).toList = Nat.toDigits 10 n := by
  simp [toString, Nat.repr]

theorem toList_toString_negSucc (n : ℕ) :
    (toString (Int.negSucc n)).toList = '-' :: Nat.toDigits 10 (n + 1) := by
  change ("-" ++ toString (n + 1)).toList = _
  rw [String.toList_append, toList_toString]
  rfl

theorem isNumeral_toString (n : ℤ) : ∀ c ∈ (toString n).toList, IsNumeral c := by
  have hdigits : ∀ n, ∀ c ∈ Nat.toDigits 10 n, IsNumeral c := by
    intro n c hc
    obtain ⟨d, ds, hspan, -⟩ := span_toDigits n
    have hmem := span_spec (fun _ => isNumeral_of_decimal?) _ c hc
    rw [hspan] at hmem
    exact hmem.resolve_right List.not_mem_nil
  cases n with
  | ofNat n => exact toList_toString n ▸ hdigits n
  | negSucc n =>
    rw [toList_toString_negSucc]
    exact List.forall_mem_cons.mpr ⟨by decide, hdigits (n + 1)⟩

theorem parse?_toString (n : ℤ) : parse? (toString n).toList = some n := by
  cases n with
  | ofNat n =>
    obtain ⟨d, ds, hspan, hvalue⟩ := span_toDigits n
    have hparse := parse?_of_span .none hspan
    rw [hvalue, Sign.factor, one_mul] at hparse
    rwa [show (toString (Int.ofNat n)).toList = Nat.toDigits 10 n from toList_toString n]
  | negSucc n =>
    obtain ⟨d, ds, hspan, hvalue⟩ := span_toDigits (n + 1)
    have hparse := parse?_of_span .minus hspan
    rw [hvalue, Sign.factor, neg_one_mul] at hparse
    rwa [toList_toString_negSucc]

/-- An integer of 32 bits is read as it is written. -/
theorem read?_toString {n : ℤ} (h : fits32 n = true) : read? (toString n).toList = some n := by
  rw [read?_eq, parse?_toString, Option.filter_some, if_pos h]

end Whole

end Ingest

import Mathlib
import Ingest.Proofs.Whole
import Ingest.Settings.Arguments

/-!
# Integers on the command line

An integer is spelled by blanks, at most one sign and one or more digits (`Whole.Spelling`), and the
digits say which one it is, however many there are. A text is read as an integer if it is a spelling
of it (`Whole.parse?_eq_some_iff`), and as the value of an option if the integer is one of 32 bits as
well (`Settings.Draft.integers_read_exactly`): one that does not fit is refused, and not brought into
the bounds.
-/

namespace Ingest

namespace Digits

variable {c : Char} {d : ℕ} {s : List Char} {ds : List ℕ}

/-- Digits in writing. -/
def text (ds : List (Fin 10)) : List Char :=
  ds.map fun d => d.val.digitChar

theorem span_text (ds : List (Fin 10)) : span decimal? (text ds) = (ds.map Fin.val, []) := by
  induction ds with
  | nil => rfl
  | cons d ds ih =>
    rw [text] at ih
    simp [text, span, decimal?_digitChar d.isLt, ih]

theorem exists_of_decimal? (h : decimal? c = some d) :
    ∃ e : Fin 10, c = e.val.digitChar ∧ d = e := by
  have hzero : '0'.toNat = 48 := rfl
  have hcode : ∀ e : Fin 10, e.val.digitChar.toNat = 48 + e := by decide
  rw [decimal?, Option.ite_none_right_eq_some] at h
  obtain ⟨⟨hlow, hhigh⟩, hd⟩ := h
  replace hlow : 48 ≤ c.toNat := hlow
  replace hhigh : c.toNat ≤ 57 := hhigh
  obtain rfl := Option.some.inj hd
  refine ⟨⟨c.toNat - '0'.toNat, by omega⟩, ?_, rfl⟩
  rw [← Char.toNat_inj, hcode]
  simp only
  omega

/-- Digits up to the end of a text are digits in writing. -/
theorem exists_text_of_span (h : span decimal? s = (ds, [])) :
    ∃ es : List (Fin 10), s = text es ∧ ds = es.map Fin.val := by
  induction s generalizing ds with
  | nil =>
    obtain rfl : [] = ds := congrArg Prod.fst h
    exact ⟨[], rfl, rfl⟩
  | cons c s ih =>
    rw [span] at h
    rcases hc : decimal? c with _ | d
    · simp [hc] at h
    · simp only [hc, Prod.mk.injEq] at h
      obtain ⟨rfl, hrest⟩ := h
      obtain ⟨e, rfl, rfl⟩ := exists_of_decimal? hc
      obtain ⟨es, rfl, hes⟩ := ih (Prod.ext rfl hrest)
      exact ⟨e :: es, rfl, congrArg (e.val :: ·) hes⟩

theorem value_eq_ofDigits (ds : List ℕ) : value 10 ds = Nat.ofDigits 10 ds.reverse := by
  induction ds using List.reverseRecOn with
  | nil => rfl
  | append_singleton ds d ih =>
    rw [value_concat, ih, List.reverse_append, List.reverse_singleton, List.singleton_append,
      Nat.ofDigits_cons]
    ring

theorem exists_sign (s : List Char) : ∃ g : Whole.Sign, s = g.text ++ (sign s).2 := by
  unfold sign
  split
  · exact ⟨.minus, rfl⟩
  · exact ⟨.plus, rfl⟩
  · exact ⟨.none, rfl⟩

end Digits

theorem Text.isBlank_iff {c : Char} :
    isBlank c = true ↔ c ∈ [' ', '\t', '\n', '\x0b', '\x0c', '\r'] := by
  constructor
  · intro h
    simp only [isBlank, Bool.or_eq_true, beq_iff_eq, Bool.and_eq_true, decide_eq_true_eq] at h
    rcases h with rfl | ⟨hlow, hhigh⟩
    · decide
    · rw [← Char.ofNat_toNat c]
      generalize c.toNat = n at hlow hhigh
      interval_cases n <;> decide
  · revert c
    simp [isBlank]

namespace Whole

open Digits

/-- An integer in writing: blanks, at most one sign, and one or more digits. -/
structure Spelling where
  blanks : List Char
  sign : Sign
  digits : List (Fin 10)
  isBlank : ∀ c ∈ blanks, c ∈ [' ', '\t', '\n', '\x0b', '\x0c', '\r']
  ne_nil : digits ≠ []

namespace Spelling

def text (w : Spelling) : List Char :=
  w.blanks ++ (w.sign.text ++ Digits.text w.digits)

/-- The integer that is spelled: its digits count from the last one upwards. -/
def value (w : Spelling) : ℤ :=
  w.sign.factor * (Nat.ofDigits 10 (w.digits.map Fin.val).reverse : ℕ)

end Spelling

variable {s : List Char} {n : ℤ}

theorem parse?_trimStart (s : List Char) : parse? (Text.trimStart s) = parse? s := by
  simp only [parse?, leading?, Text.trimStart_eq_self (Text.trimStart_head s)]

theorem parse?_text (w : Spelling) : parse? w.text = some w.value := by
  obtain ⟨blanks, g, digits, hblank, hne⟩ := w
  obtain ⟨d, ds, rfl⟩ := List.exists_cons_of_ne_nil hne
  have htrim : Text.trimStart (blanks ++ (g.text ++ Digits.text (d :: ds)))
      = Text.trimStart (g.text ++ Digits.text (d :: ds)) :=
    List.dropWhile_append_of_pos fun c hc => Text.isBlank_iff.mpr (hblank c hc)
  calc parse? (blanks ++ (g.text ++ Digits.text (d :: ds)))
    _ = parse? (g.text ++ Digits.text (d :: ds)) := by
      rw [← parse?_trimStart, htrim, parse?_trimStart]
    _ = some (g.factor * value 10 ((d :: ds).map Fin.val)) :=
      parse?_of_span g (span_text (d :: ds))
    _ = some (g.factor * (Nat.ofDigits 10 ((d :: ds).map Fin.val).reverse : ℕ)) := by
      rw [value_eq_ofDigits]

theorem span_of_parse? (h : parse? s = some n) :
    ∃ d ds, span decimal? (Digits.sign (Text.trimStart s)).2 = (d :: ds, []) := by
  rcases hspan : span decimal? (Digits.sign (Text.trimStart s)).2 with ⟨_ | ⟨d, ds⟩, _ | ⟨c, rest⟩⟩
  case cons.nil => exact ⟨d, ds, rfl⟩
  all_goals simp [parse?, leading?, hspan] at h

/-- A text is read as the integer that it spells, if it spells one. -/
theorem parse?_eq_some_iff : parse? s = some n ↔ ∃ w : Spelling, w.text = s ∧ w.value = n := by
  constructor
  · intro h
    obtain ⟨d, ds, hspan⟩ := span_of_parse? h
    obtain ⟨es, htext, hes⟩ := exists_text_of_span hspan
    obtain ⟨g, hg⟩ := exists_sign (Text.trimStart s)
    let w : Spelling :=
      { blanks := s.takeWhile Text.isBlank
        sign := g
        digits := es
        isBlank := fun c hc => Text.isBlank_iff.mp (List.mem_takeWhile_imp hc)
        ne_nil := by
          rintro rfl
          cases hes }
    have hw : w.text = s := by
      rw [htext] at hg
      rw [Spelling.text, ← hg]
      exact List.takeWhile_append_dropWhile
    refine ⟨w, hw, Option.some.inj ?_⟩
    rw [← parse?_text, hw, h]
  · rintro ⟨w, rfl, rfl⟩
    exact parse?_text w

theorem fits32_iff : fits32 n = true ↔ -2 ^ 31 ≤ n ∧ n ≤ 2 ^ 31 - 1 := by
  simp only [fits32, Bool.and_eq_true, decide_eq_true_eq]
  omega

theorem read?_eq_some_iff : read? s = some n ↔
    ∃ w : Spelling, w.text = s ∧ w.value = n ∧ -2 ^ 31 ≤ n ∧ n ≤ 2 ^ 31 - 1 := by
  rw [read?_eq, Option.filter_eq_some_iff, parse?_eq_some_iff, fits32_iff]
  simp only [← and_assoc, exists_and_right]

/-- No spelling of an integer that does not fit is read. -/
theorem read?_text_of_not_fits {w : Spelling}
    (h : w.value < -2 ^ 31 ∨ 2 ^ 31 - 1 < w.value) : read? w.text = none := by
  have hfits : ¬fits32 w.value = true := by
    rw [fits32_iff]
    omega
  rw [read?_eq, parse?_text, Option.filter_some, if_neg hfits]

end Whole

namespace Settings.Draft

open Whole

variable {flag text : String} {n : ℤ}

theorem integer_eq_ok_iff : integer flag text = .ok n ↔ read? text.toList = some n := by
  unfold integer
  split <;> rename_i h <;> simp [h]

theorem integer_of_none (h : read? text.toList = none) :
    integer flag text = .error (.unreadable flag) := by
  rw [integer, h]

/-- The value of an option is read as an integer if and only if all of it spells one, and one of
32 bits, and then it is read as that one. Any other is refused in the option's name, one that spells
an integer beyond 32 bits too, whatever its length. -/
theorem integers_read_exactly (flag text : String) :
    (∀ n, integer flag text = .ok n ↔
      ∃ w : Spelling, w.text = text.toList ∧ w.value = n ∧ -2 ^ 31 ≤ n ∧ n ≤ 2 ^ 31 - 1)
    ∧ (∀ w : Spelling, w.text = text.toList → (w.value < -2 ^ 31 ∨ 2 ^ 31 - 1 < w.value) →
      integer flag text = .error (.unreadable flag))
    ∧ ((∀ w : Spelling, w.text ≠ text.toList) →
      integer flag text = .error (.unreadable flag)) := by
  refine ⟨fun n => integer_eq_ok_iff.trans read?_eq_some_iff, fun w hw hvalue => ?_, fun hnone => ?_⟩
  · exact integer_of_none (hw ▸ read?_text_of_not_fits hvalue)
  · refine integer_of_none (Option.eq_none_iff_forall_not_mem.mpr fun n hn => ?_)
    obtain ⟨w, hw, -⟩ := read?_eq_some_iff.mp hn
    exact hnone w hw

/-- The last integer of 32 bits, and two that would be 1 and 0 in 64 bits. -/
example : integer "--rate" "\t +0002147483647" = .ok 2147483647
    ∧ integer "--rate" "18446744073709551617" = .error (.unreadable "--rate")
    ∧ integer "--rate" "-18446744073709551616" = .error (.unreadable "--rate") := by
  decide +kernel

/-! ### Options that want an integer -/

/-- The integer that an option wants, in a draft. -/
def number? (d : Draft) (flag : String) : Option ℤ :=
  if flag = "--rate" then d.rate
  else if flag = "--interval-ms" then d.intervalMs
  else if flag = "--burst" then some d.burst
  else if flag = "--workers" then some d.settings.workers
  else if flag = "--timeout" then some d.settings.timeoutSeconds
  else none

theorem exists_map_eq_ok_iff {x : Except Error ℤ} {g : ℤ → Draft} {p : Draft → Option ℤ}
    (hg : ∀ m, p (g m) = some m) :
    (∃ d', x.map g = .ok d' ∧ p d' = some n) ↔ x = .ok n := by
  rcases x with e | m <;> simp [Except.map, hg]

/-- An option that wants an integer takes the one that its value spells, and the number of workers is
none below zero. -/
theorem take_number?_iff {d : Draft}
    (hflag : flag ∈ ["--rate", "--interval-ms", "--burst", "--workers", "--timeout"]) :
    (∃ d', d.take flag text = .ok d' ∧ d'.number? flag = some n) ↔
      (∃ w : Spelling, w.text = text.toList ∧ w.value = n ∧ -2 ^ 31 ≤ n ∧ n ≤ 2 ^ 31 - 1)
      ∧ (flag = "--workers" → 0 ≤ n) := by
  have hread : integer flag text = .ok n ↔ read? text.toList = some n := integer_eq_ok_iff
  rw [← read?_eq_some_iff, ← hread]
  simp only [List.mem_cons, List.not_mem_nil, or_false] at hflag
  rcases hflag with rfl | rfl | rfl | rfl | rfl <;>
    simp only [take, String.reduceEq, if_true, if_false, false_implies, and_true, true_implies]
  case inr.inr.inr.inl =>
    rcases integer "--workers" text with e | m
    · simp [Except.bind]
    · by_cases hneg : m < 0
      · simp only [Except.bind, hneg, ↓reduceIte, reduceCtorEq, false_and, exists_false,
          Except.ok.injEq, false_iff, not_and, not_le]
        omega
      · simp only [Except.bind, hneg, ↓reduceIte, modify, number?, String.reduceEq, Except.ok.injEq,
          Option.some.injEq, exists_eq_left', Int.ofNat_toNat]
        omega
  all_goals exact exists_map_eq_ok_iff fun m => rfl

end Settings.Draft

end Ingest

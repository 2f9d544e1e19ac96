import Mathlib
import Ingest.Number.Reading
import Ingest.Proofs.Text

/-!
# What numbers are spelled with

A text that is read as a number has, behind the blanks at its start, only letters, digits, points,
signs, underscores and brackets (`Binary64.isNumeral_of_read?`), so that no separator stands in it
and it ends in no blank.
-/

namespace Ingest

/-- A letter, a digit, or one of the other signs that numbers are spelled with. -/
def IsNumeral (c : Char) : Prop :=
  c.isAlphanum = true ∨ c ∈ ['.', '+', '-', '_', '(', ')']

instance : DecidablePred IsNumeral :=
  fun c => inferInstanceAs (Decidable (c.isAlphanum = true ∨ c ∈ ['.', '+', '-', '_', '(', ')']))

theorem isNumeral_of_isAlpha {c : Char} (h : c.isAlpha = true) : IsNumeral c :=
  .inl (by rw [Char.isAlphanum, h, Bool.true_or])

theorem isNumeral_of_isAlpha_toLower {c : Char} (h : c.toLower.isAlpha = true) : IsNumeral c :=
  isNumeral_of_isAlpha ((Char.isAlpha_toLower_eq_isAlpha c).symm.trans h)

theorem IsNumeral.isBlank {c : Char} (h : IsNumeral c) : Text.isBlank c = false := by
  rcases h with h | h
  · exact Text.isBlank_of_isAlphanum h
  · have hsigns : ∀ d ∈ ['.', '+', '-', '_', '(', ')'], Text.isBlank d = false := by
      simp [Text.isBlank]
    exact hsigns c h

namespace Digits

theorem isNumeral_of_decimal? {c : Char} (h : (decimal? c).isSome) : IsNumeral c := by
  rw [decimal?, Option.isSome_ite] at h
  have hdigit : c.isDigit = true := by simpa [Char.isDigit, Char.le_def] using h
  exact .inl (by rw [Char.isAlphanum, hdigit, Bool.or_true])

theorem isNumeral_of_hex? {c : Char} (h : (hex? c).isSome) : IsNumeral c := by
  rw [hex?] at h
  split_ifs at h with hdigit hlower hupper
  · exact isNumeral_of_decimal? (by rw [decimal?, if_pos hdigit, Option.isSome_some])
  · have hc : 'a' ≤ c ∧ c ≤ 'z' := ⟨hlower.1, hlower.2.trans (by decide)⟩
    have hcase : c.isLower = true := by simpa [Char.isLower, Char.le_def] using hc
    exact isNumeral_of_isAlpha (by rw [Char.isAlpha, hcase, Bool.or_true])
  · have hc : 'A' ≤ c ∧ c ≤ 'Z' := ⟨hupper.1, hupper.2.trans (by decide)⟩
    have hcase : c.isUpper = true := by simpa [Char.isUpper, Char.le_def] using hc
    exact isNumeral_of_isAlpha (by rw [Char.isAlpha, hcase, Bool.true_or])
  · cases h

theorem sign_spec (s : List Char) : ∀ c ∈ s, IsNumeral c ∨ c ∈ (sign s).2 := by
  unfold sign
  split <;> simp +contextual [IsNumeral]

/-- The digits stand in front of what follows them. -/
theorem span_spec {digit? : Char → Option ℕ} (hdigit : ∀ c, (digit? c).isSome → IsNumeral c)
    (s : List Char) : ∀ c ∈ s, IsNumeral c ∨ c ∈ (span digit? s).2 := by
  induction s with
  | nil => simp
  | cons x s ih =>
    rw [span]
    split
    · rename_i d hd
      simp only [List.forall_mem_cons]
      exact ⟨.inl (hdigit x (by simp [hd])), ih⟩
    · exact fun c hc => .inr hc

end Digits

namespace Binary64

theorem significand?_spec {digit? : Char → Option ℕ}
    (hdigit : ∀ c, (digit? c).isSome → IsNumeral c) {s rest : List Char} {ds : List ℕ} {places : ℕ}
    (h : significand? digit? s = some (ds, places, rest)) : ∀ c ∈ s, IsNumeral c ∨ c ∈ rest := by
  have hwhole := Digits.span_spec hdigit s
  simp only [significand?] at h
  split_ifs at h
  obtain ⟨-, -, rfl⟩ := Prod.mk.inj (Option.some.inj h) |>.imp_right Prod.mk.inj
  intro c hc
  refine (hwhole c hc).elim .inl fun hrest => ?_
  split
  · rename_i after hafter
    rw [hafter] at hrest
    rcases List.mem_cons.mp hrest with rfl | hrest
    · exact .inl (.inr (by simp))
    · exact Digits.span_spec hdigit after c hrest
  · exact .inr hrest

theorem isNumeral_of_exponent? {marks s : List Char} {e : ℤ} (hmarks : ∀ c ∈ marks, IsNumeral c)
    (h : exponent? marks s = some e) : ∀ c ∈ s, IsNumeral c := by
  cases s with
  | nil => simp
  | cons x s =>
    rw [exponent?, Option.ite_none_right_eq_some] at h
    obtain ⟨hx, h⟩ := h
    refine List.forall_mem_cons.mpr ⟨hmarks x (by simpa using hx), fun c hc => ?_⟩
    refine (Digits.sign_spec s c hc).elim id fun hc => ?_
    have hspan := Digits.span_spec (fun c => Digits.isNumeral_of_decimal?) (Digits.sign s).2 c hc
    simp only at h
    split at h
    · rename_i hdigits
      simpa [hdigits] using hspan
    · cases h

/-- A significand and an exponent after it. -/
theorem isNumeral_of_magnitude {digit? : Char → Option ℕ} {marks s rest : List Char} {ds : List ℕ}
    {places : ℕ} {e : ℤ} (hdigit : ∀ c, (digit? c).isSome → IsNumeral c)
    (hmarks : ∀ c ∈ marks, c.isAlpha = true) (h : significand? digit? s = some (ds, places, rest))
    (he : exponent? marks rest = some e) : ∀ c ∈ s, IsNumeral c := by
  have hrest := isNumeral_of_exponent? (fun c hc => isNumeral_of_isAlpha (hmarks c hc)) he
  exact fun c hc => (significand?_spec hdigit h c hc).elim id (hrest c)

theorem isNumeral_of_decimalMagnitude? {s : List Char} {m : ℕ} (h : decimalMagnitude? s = some m) :
    ∀ c ∈ s, IsNumeral c := by
  obtain ⟨⟨ds, places, rest⟩, hsignificand, h⟩ := Option.bind_eq_some_iff.mp h
  obtain ⟨e, hexponent, -⟩ := Option.bind_eq_some_iff.mp h
  exact isNumeral_of_magnitude (fun c => Digits.isNumeral_of_decimal?) (by simp) hsignificand
    hexponent

theorem isNumeral_of_hexMagnitude? {s : List Char} {m : ℕ} (h : hexMagnitude? s = some m) :
    ∀ c ∈ s, IsNumeral c := by
  obtain ⟨⟨ds, places, rest⟩, hsignificand, h⟩ := Option.bind_eq_some_iff.mp h
  obtain ⟨e, hexponent, -⟩ := Option.bind_eq_some_iff.mp h
  exact isNumeral_of_magnitude (fun c => Digits.isNumeral_of_hex?) (by simp) hsignificand hexponent

theorem isNumeral_of_isNanTail {s : List Char} (h : isNanTail s = true) : ∀ c ∈ s, IsNumeral c := by
  unfold isNanTail at h
  split at h
  · simp
  · split at h
    · rename_i inner hinner
      rw [List.reverse_eq_iff, List.reverse_cons] at hinner
      subst hinner
      simp only [List.all_eq_true, Bool.or_eq_true, beq_iff_eq] at h
      simp only [List.forall_mem_cons, List.forall_mem_append, List.mem_reverse]
      refine ⟨.inr (by simp), fun c hc => ?_, .inr (by simp), by simp⟩
      exact (h c hc).imp_right fun h => by simp [h]
    · cases h
  · cases h

theorem isNumeral_of_readUnsigned? {negative : Bool} {s : List Char} {q : Binary64}
    (h : readUnsigned? negative s = some q) : ∀ c ∈ s, IsNumeral c := by
  simp only [readUnsigned?] at h
  split_ifs at h with hinf hnan htail
  · intro c hc
    have hword : ∀ d ∈ s.map Char.toLower, d.isAlpha = true := by
      rcases hinf with h | h <;> simp [h]
    exact isNumeral_of_isAlpha_toLower (hword c.toLower (List.mem_map_of_mem hc))
  · have hword : ∀ d ∈ (s.take 3).map Char.toLower, d.isAlpha = true := by
      have hnan := List.prefix_iff_eq_take.mp (List.isPrefixOf_iff_prefix.mp hnan)
      rw [List.map_take, show 3 = "nan".toList.length from rfl, ← hnan]
      simp
    rw [← List.take_append_drop 3 s]
    refine List.forall_mem_append.mpr ⟨fun c hc => ?_, isNumeral_of_isNanTail htail⟩
    exact isNumeral_of_isAlpha_toLower (hword c.toLower (List.mem_map_of_mem hc))
  · split at h
    · rename_i low rest hlow
      obtain ⟨m, hm, -⟩ := Option.map_eq_some_iff.mp h
      obtain ⟨a, t, rfl, ha, ht⟩ := List.map_eq_cons_iff.mp hlow
      obtain ⟨b, t, rfl, hb, -⟩ := List.map_eq_cons_iff.mp ht
      refine List.forall_mem_cons.mpr ⟨?_, List.forall_mem_cons.mpr ⟨?_, ?_⟩⟩
      · rw [(Text.toLower_eq_iff (by decide)).mp ha]
        exact .inl (by decide)
      · exact isNumeral_of_isAlpha_toLower (by rw [hb]; decide)
      · exact isNumeral_of_hexMagnitude? hm
    · obtain ⟨m, hm, -⟩ := Option.map_eq_some_iff.mp h
      exact isNumeral_of_decimalMagnitude? hm

theorem isNumeral_of_read? {s : List Char} {q : Binary64} (h : read? s = some q) :
    ∀ c ∈ Text.trimStart s, IsNumeral c := by
  rw [read?] at h
  split_ifs at h with hempty
  · simp [List.isEmpty_iff.mp hempty, Text.trimStart]
  · exact fun c hc => (Digits.sign_spec _ c hc).elim id (isNumeral_of_readUnsigned? h c)

/-- Nothing else stands in front but blanks. -/
theorem not_mem_of_read? {s : List Char} {q : Binary64} (h : read? s = some q) {d : Char}
    (hblank : Text.isBlank d = false) (hd : ¬ IsNumeral d) : d ∉ s := by
  intro hmem
  rw [← List.takeWhile_append_dropWhile (p := Text.isBlank) (l := s), List.mem_append] at hmem
  rcases hmem with hmem | hmem
  · exact absurd (List.mem_takeWhile_imp hmem) (by simp [hblank])
  · exact hd (isNumeral_of_read? h d hmem)

/-- A number other than zero is read from the text without the blanks around it, too. -/
theorem read?_trim {s : List Char} {q : Binary64} (h : read? s = some q) (hzero : q ≠ zero) :
    read? (Text.trim s) = some q ∧ Text.trim s ≠ [] ∧ ∀ c ∈ Text.trim s, IsNumeral c := by
  have hnumeral := isNumeral_of_read? h
  have htrim : Text.trim s = Text.trimStart s := by
    refine Text.trimEnd_eq_self fun c hc => IsNumeral.isBlank (hnumeral c ?_)
    exact List.mem_of_mem_getLast? hc
  have hstart : Text.trimStart (Text.trimStart s) = Text.trimStart s :=
    Text.trimStart_eq_self (Text.trimStart_head s)
  have hs : s ≠ [] := by
    rintro rfl
    exact hzero (Option.some.inj h).symm
  have hne : Text.trimStart s ≠ [] := by
    intro hnil
    rw [read?, if_neg (by simpa using hs), hnil] at h
    cases h
  rw [htrim]
  refine ⟨?_, hne, hnumeral⟩
  rw [read?, if_neg (by simpa using hs)] at h
  rw [read?, if_neg (by simpa using hne), hstart]
  exact h

end Binary64

end Ingest

import Mathlib
import Ingest.Proofs.Accept.Fields
import Ingest.Proofs.Accept.Quality
import Ingest.Proofs.Numerals

/-!
# Blanks around separators

A text is `Spaced` from another by one more blank, beside a separator or at an end. Between
separators this changes one piece and leaves the others (`Spaced.splitOn`); what is left of that
piece without the blanks around it is the same, or a separator of a finer kind stands in it
(`Spaced.name_iff`). So the names around the slash and what the values of `q` say stay as they are
(`Spaced.quality`).
-/

namespace Ingest.Text

variable {c : Char} {seps s s' t u v p q name : List Char}

/-- Between the two texts is a place beside a separator or at an end. -/
def Beside (seps u v : List Char) : Prop :=
  (∀ c ∈ u.getLast?, c ∈ seps) ∨ ∀ c ∈ v.head?, c ∈ seps

/-- The second text has one blank more, beside a separator or at an end. -/
def Spaced (seps s s' : List Char) : Prop :=
  ∃ u v b, s = u ++ v ∧ s' = u ++ b :: v ∧ isBlank b = true ∧ Beside seps u v

/-- A place stays what it is if less of the text is seen on either side. -/
theorem Beside.inner (h : Beside seps u v) (hp : p <:+ u) (hq : q <+: v) : Beside seps p q := by
  refine h.imp (fun h d hd => ?_) fun h d hd => ?_
  · obtain ⟨a, rfl⟩ := hp
    refine h d ?_
    rw [List.getLast?_append, hd]
    rfl
  · obtain ⟨a, rfl⟩ := hq
    refine h d ?_
    rw [List.head?_append, hd]
    rfl

theorem Beside.of_cons (h : Beside (c :: seps) u v) (hu : c ∉ u) (hv : c ∉ v) :
    Beside seps u v := by
  refine h.imp (fun h d hd => ?_) fun h d hd => ?_
  · refine (List.mem_cons.mp (h d hd)).resolve_left ?_
    rintro rfl
    exact hu (List.mem_of_mem_getLast? hd)
  · refine (List.mem_cons.mp (h d hd)).resolve_left ?_
    rintro rfl
    exact hv (List.mem_of_mem_head? hd)

/-! ### Pieces -/

theorem exists_last_of_mem (h : c ∈ s) : ∃ t u, s = t ++ c :: u ∧ c ∉ u := by
  obtain ⟨a, b, hs, ha⟩ := List.eq_append_cons_of_mem (List.mem_reverse.mpr h)
  refine ⟨b.reverse, a.reverse, ?_, by simpa using ha⟩
  simpa using congrArg List.reverse hs

/-- What follows a text joins its last piece. -/
theorem splitOn_append_left (c : Char) (u : List Char) : ∃ front p, p <:+ u ∧ c ∉ p ∧
    ∀ w, (u ++ w).splitOn c = front ++ (p ++ w).splitOn c := by
  by_cases hu : c ∈ u
  · obtain ⟨a, p, rfl, hp⟩ := exists_last_of_mem hu
    refine ⟨a.splitOn c, p, ⟨a ++ [c], by simp⟩, hp, fun w => ?_⟩
    rw [List.append_assoc, List.cons_append, List.splitOn_append_cons_self]
  · exact ⟨[], u, List.suffix_rfl, hu, fun w => rfl⟩

/-- What stands before a text joins its first piece. -/
theorem splitOn_append_right (c : Char) (v : List Char) : ∃ q rest, q <+: v ∧ c ∉ q ∧
    ∀ w, c ∉ w → (w ++ v).splitOn c = (w ++ q) :: rest := by
  by_cases hv : c ∈ v
  · obtain ⟨q, b, rfl, hq⟩ := List.eq_append_cons_of_mem hv
    refine ⟨q, b.splitOn c, List.prefix_append _ _, hq, fun w hw => ?_⟩
    rw [← List.append_assoc, List.splitOn_append_cons_self_of_not_mem]
    exact List.not_mem_append hw hq
  · refine ⟨v, [], List.prefix_rfl, hv, fun w hw => ?_⟩
    exact List.splitOn_eq_singleton (List.not_mem_append hw hv)

theorem ne_of_isBlank {b : Char} (hb : isBlank b = true) (hc : isBlank c = false) : c ≠ b := by
  rintro rfl
  exact absurd hb (by simp [hc])

/-- The blank stands in one piece, which goes from the last separator before it to the next one. -/
theorem Spaced.splitOn (hc : isBlank c = false) (h : Spaced (c :: seps) s s') :
    ∃ front t t' rest, s.splitOn c = front ++ t :: rest ∧ s'.splitOn c = front ++ t' :: rest
      ∧ Spaced seps t t' := by
  obtain ⟨u, v, b, rfl, rfl, hb, hbeside⟩ := h
  obtain ⟨front, p, hp, hcp, hfront⟩ := splitOn_append_left c u
  obtain ⟨q, rest, hq, hcq, hrest⟩ := splitOn_append_right c v
  have hcb : c ∉ p ++ [b] := List.not_mem_append hcp (by simpa using ne_of_isBlank hb hc)
  refine ⟨front, p ++ q, p ++ b :: q, rest, ?_, ?_, p, q, b, rfl, rfl, hb,
    (hbeside.inner hp hq).of_cons hcp hcq⟩
  · rw [hfront, hrest p hcp]
  · rw [hfront, List.append_cons p b v, hrest _ hcb, ← List.append_cons]

/-- The blank stands before or behind the first place of a separator, if there is one. -/
theorem Spaced.cut (hc : isBlank c = false) (h : Spaced seps s s') : (c ∉ s ∧ c ∉ s')
    ∨ ∃ t t' w w', s = t ++ c :: w ∧ s' = t' ++ c :: w' ∧ c ∉ t ∧ c ∉ t'
      ∧ (Spaced seps t t' ∧ w = w' ∨ t = t' ∧ Spaced seps w w') := by
  obtain ⟨u, v, b, rfl, rfl, hb, hbeside⟩ := h
  have hcb : c ≠ b := ne_of_isBlank hb hc
  by_cases hu : c ∈ u
  · obtain ⟨t, a, rfl, ht⟩ := List.eq_append_cons_of_mem hu
    refine .inr ⟨t, t, a ++ v, a ++ b :: v, by simp, by simp, ht, ht, .inr ⟨rfl, ?_⟩⟩
    exact ⟨a, v, b, rfl, rfl, hb, hbeside.inner ⟨t ++ [c], by simp⟩ List.prefix_rfl⟩
  · by_cases hv : c ∈ v
    · obtain ⟨a, w, rfl, ha⟩ := List.eq_append_cons_of_mem hv
      refine .inr ⟨u ++ a, u ++ b :: a, w, w, by simp, by simp, by simp [hu, ha],
        by simp [hu, ha, hcb], .inl ⟨?_, rfl⟩⟩
      exact ⟨u, a, b, rfl, rfl, hb, hbeside.inner List.suffix_rfl (List.prefix_append _ _)⟩
    · exact .inl ⟨by simp [hu, hv], by simp [hu, hv, hcb]⟩

/-! ### What stands between the blanks -/

theorem trim_cons_of_isBlank {b : Char} (hb : isBlank b = true) : trim (b :: s) = trim s := by
  simp [trim, trimStart, hb]

theorem trim_append_of_isBlank {b : Char} (hb : isBlank b = true) :
    trim (s ++ [b]) = trim s := by
  rw [← trim_trimEnd, ← trim_trimEnd s]
  simp [trimEnd, dropEndWhile, hb]

/-- The blank is one of those around the text, or it stands beside a separator. -/
theorem Spaced.trim_eq_or (h : Spaced seps s s') :
    trim s = trim s' ∨ ∃ c ∈ seps, c ∈ s ∧ c ∈ s' := by
  obtain ⟨u, v, b, rfl, rfl, hb, hbeside | hbeside⟩ := h
  · rcases List.eq_nil_or_concat' u with rfl | ⟨u, c, rfl⟩
    · exact .inl (trim_cons_of_isBlank hb).symm
    · exact .inr ⟨c, hbeside c (by simp), by simp, by simp⟩
  · cases v with
    | nil => exact .inl (by rw [List.append_nil, trim_append_of_isBlank hb])
    | cons c v => exact .inr ⟨c, hbeside c (by simp), by simp, by simp⟩

theorem mem_trim_iff (hc : isBlank c = false) : c ∈ trim s ↔ c ∈ s := by
  refine ⟨fun h => trim_subset s h, fun h => ?_⟩
  obtain ⟨a, b, rfl⟩ := List.append_of_mem h
  simp [trim_append_cons hc]

/-- A name in which no separator stands is named in both texts or in none. -/
theorem Spaced.name_iff (h : Spaced seps s s')
    (hname : ∀ c ∈ seps, isBlank c = false ∧ c.isAlpha = false ∧ c ∉ name) :
    lower (trim s) = name ↔ lower (trim s') = name := by
  rcases h.trim_eq_or with htrim | ⟨c, hc, hs, hs'⟩
  · rw [htrim]
  · obtain ⟨hblank, halpha, hname⟩ := hname c hc
    refine iff_of_false ?_ ?_
    · rintro rfl
      exact hname ((mem_lower_iff halpha).mpr ((mem_trim_iff hblank).mpr hs))
    · rintro rfl
      exact hname ((mem_lower_iff halpha).mpr ((mem_trim_iff hblank).mpr hs'))

end Ingest.Text

namespace Ingest.Accept.MediaRange

open Text (Spaced)

variable {field field' value value' before after : List Char}

/-- Behind the character with code 0 nothing is read. -/
theorem quality?_of_nul (after' : List Char) : quality? (Text.trim (before ++ '\x00' :: after))
    = quality? (Text.trim (before ++ '\x00' :: after')) := by
  have hblank : Text.isBlank '\x00' = false := by decide
  rw [Text.trim_append_cons hblank, Text.trim_append_cons hblank, quality?, quality?,
    Text.beforeNul, Text.beforeNul, List.takeWhile_append, List.takeWhile_append]
  simp

/-- A value with a separator in it is none. -/
theorem quality?_of_separator {c : Char} (hblank : Text.isBlank c = false) (hc : ¬ IsNumeral c)
    (hne : c ≠ '\x00') (hnul : '\x00' ∉ before) :
    quality? (Text.trim (before ++ c :: after)) = none := by
  have hstart : ∀ d ∈ Text.trimStart before, (d != '\x00') = true := fun d hd =>
    bne_iff_ne.mpr fun heq => hnul (heq ▸ (List.dropWhile_suffix _).subset hd)
  rw [Text.trim_append_cons hblank, quality?, if_neg (by simp), Text.beforeNul,
    List.takeWhile_append_of_pos hstart, List.takeWhile_cons, if_pos (bne_iff_ne.mpr hne),
    Option.filter_eq_none_iff]
  exact fun q hq => absurd (by simp) (Binary64.not_mem_of_read? hq hblank hc)

/-- Blanks beside slashes and equals signs do not change what a value says: before the character
with code 0 such a sign spoils it, and behind it nothing is read. -/
theorem quality?_of_spaced (h : Spaced ['/', '='] value value') :
    quality? (Text.trim value) = quality? (Text.trim value') := by
  have hseps : ∀ c ∈ ['/', '='], Text.isBlank c = false ∧ ¬ IsNumeral c ∧ c ≠ '\x00' := by
    simp [Text.isBlank, IsNumeral]
  obtain ⟨u, v, b, rfl, rfl, hb, hbeside⟩ := h
  have hnulb : '\x00' ≠ b := Text.ne_of_isBlank hb (by decide)
  by_cases hu : '\x00' ∈ u
  · obtain ⟨before, after, rfl⟩ := List.append_of_mem hu
    simp only [List.append_assoc, List.cons_append]
    exact quality?_of_nul _
  · rcases hbeside with hbeside | hbeside
    · rcases List.eq_nil_or_concat' u with rfl | ⟨before, c, rfl⟩
      · exact congrArg _ (Text.trim_cons_of_isBlank hb).symm
      · obtain ⟨hblank, hc, hne⟩ := hseps c (hbeside c (by simp))
        have hnul : '\x00' ∉ before := fun hmem => hu (by simp [hmem])
        simp only [List.append_assoc, List.singleton_append]
        rw [quality?_of_separator hblank hc hne hnul, quality?_of_separator hblank hc hne hnul]
    · cases v with
      | nil => rw [List.append_nil, Text.trim_append_of_isBlank hb]
      | cons c after =>
        obtain ⟨hblank, hc, hne⟩ := hseps c (hbeside c (by simp))
        rw [quality?_of_separator hblank hc hne hu, List.append_cons,
          quality?_of_separator hblank hc hne (List.not_mem_append hu (by simpa using hnulb))]

/-- A field is a good parameter `q`, a bad one or none with blanks beside its separators or without.
-/
theorem quality_of_spaced (h : Spaced ['/', '='] field field') :
    (qualityText? field).map quality? = (qualityText? field').map quality? := by
  have hkey : ∀ {key key'}, Spaced ['/', '='] key key' →
      (Text.lower (Text.trim key) = ['q'] ↔ Text.lower (Text.trim key') = ['q']) :=
    fun h => h.name_iff (by simp [Text.isBlank])
  rcases h.cut (c := '=') (by decide) with ⟨hfield, hfield'⟩
    | ⟨key, key', value, value', rfl, rfl, hcut, hcut', ⟨hspaced, rfl⟩ | ⟨rfl, hspaced⟩⟩
  · simp only [qualityText?, keyValue_of_not_mem hfield, keyValue_of_not_mem hfield', hkey h]
  · simp only [qualityText?, keyValue_append hcut, keyValue_append hcut', hkey hspaced]
  · simp only [qualityText?, keyValue_append hcut, apply_ite (Option.map quality?),
      Option.map_some, quality?_of_spaced hspaced]

end Ingest.Accept.MediaRange

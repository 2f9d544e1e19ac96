import Mathlib
import Ingest.Text.Ascii

/-!
# What is said of texts

A text without blanks at its ends (`Trimmed`) is what trimming leaves, and trimming leaves it as it
is. Only letters have another case, so that blanks and separators stay where they are in lower case.
`cut` finds the first place of a separator (`cut_eq_some_iff`, `cut_append`), and the pieces between
separators have none (`subset_of_mem_splitOn`).
-/

namespace Ingest.Text

variable {c d : Char} {s t u : List Char}

/-! ### Case -/

theorem toLower_eq_iff (hd : d.isAlpha = false) : c.toLower = d ↔ c = d := by
  by_cases hc : c.isUpper
  · have halpha : c.isAlpha = true := by simp [Char.isAlpha, hc]
    refine iff_of_false ?_ ?_ <;> (rintro rfl; simp [halpha] at hd)
  · rw [Char.toLower_eq_of_not_isUpper hc]

theorem mem_lower_iff (hd : d.isAlpha = false) : d ∈ lower s ↔ d ∈ s := by
  simp [lower, toLower_eq_iff hd]

@[simp] theorem lower_lower (s : List Char) : lower (lower s) = lower s := by
  simp [lower]

@[simp] theorem lower_eq_nil_iff : lower s = [] ↔ s = [] :=
  List.map_eq_nil_iff

theorem lower_eq_singleton_iff (hd : d.isAlpha = false) : lower s = [d] ↔ s = [d] := by
  simp [lower, List.map_eq_cons_iff, toLower_eq_iff hd]

theorem isBlank_eq_false_of_lt (h : 32 < c.toNat) : isBlank c = false := by
  have hspace : c ≠ ' ' := by
    rintro rfl
    exact absurd h (by decide)
  have hcontrol : ¬ c.toNat ≤ 13 := by omega
  simp [isBlank, hspace, hcontrol]

theorem isBlank_of_isAlphanum (h : c.isAlphanum = true) : isBlank c = false := by
  refine isBlank_eq_false_of_lt ?_
  simp only [Char.isAlphanum, Char.isAlpha, Char.isUpper, Char.isLower, Char.isDigit,
    Bool.or_eq_true, Bool.and_eq_true, decide_eq_true_eq, UInt32.le_iff_toNat_le, ge_iff_le,
    Char.toNat_val] at h
  have hA : 'A'.toNat = 65 := rfl
  have ha : 'a'.toNat = 97 := rfl
  have h0 : '0'.toNat = 48 := rfl
  omega

@[simp] theorem isBlank_toLower (c : Char) : isBlank c.toLower = isBlank c := by
  by_cases hc : c.isUpper
  · have hupper : c.isAlpha = true := by simp [Char.isAlpha, hc]
    have hlower : c.toLower.isAlpha = true := (Char.isAlpha_toLower_eq_isAlpha c).trans hupper
    rw [isBlank_of_isAlphanum (c := c) (by rw [Char.isAlphanum, hupper, Bool.true_or]),
      isBlank_of_isAlphanum (by rw [Char.isAlphanum, hlower, Bool.true_or])]
  · rw [Char.toLower_eq_of_not_isUpper hc]

/-! ### Blanks at the ends -/

/-- No blank stands at either end. -/
structure Trimmed (s : List Char) : Prop where
  head : ∀ c ∈ s.head?, isBlank c = false
  last : ∀ c ∈ s.getLast?, isBlank c = false

/-- The text without the blanks at its end. -/
def trimEnd (s : List Char) : List Char :=
  dropEndWhile isBlank s

theorem trim_eq (s : List Char) : trim s = trimEnd (trimStart s) :=
  rfl

theorem trimStart_eq_self (h : ∀ c ∈ s.head?, isBlank c = false) : trimStart s = s := by
  cases s with
  | nil => rfl
  | cons c s => simp [trimStart, h c (by simp)]

theorem trimEnd_eq_self (h : ∀ c ∈ s.getLast?, isBlank c = false) : trimEnd s = s := by
  refine List.rdropWhile_eq_self_iff.mpr fun hs => ?_
  simp [h _ (List.getLast?_eq_getLast_of_ne_nil hs)]

theorem Trimmed.trim_eq (h : Trimmed s) : trim s = s := by
  rw [Text.trim_eq, trimStart_eq_self h.head, trimEnd_eq_self h.last]

theorem trimStart_head (s : List Char) : ∀ c ∈ (trimStart s).head?, isBlank c = false := by
  intro c hc
  have hstop := List.head?_dropWhile_not isBlank s
  rw [show s.dropWhile isBlank = trimStart s from rfl, hc] at hstop
  simpa using hstop

theorem trimEnd_last (s : List Char) : ∀ c ∈ (trimEnd s).getLast?, isBlank c = false := by
  intro c hc
  obtain ⟨hs, rfl⟩ := List.mem_getLast?_eq_getLast hc
  exact Bool.eq_false_iff.mpr (List.rdropWhile_last_not isBlank s hs)

theorem trimEnd_prefix_self (s : List Char) : trimEnd s <+: s :=
  List.rdropWhile_prefix isBlank s

theorem trimmed_trim (s : List Char) : Trimmed (trim s) where
  head c hc := by
    obtain ⟨rest, hrest⟩ := trimEnd_prefix_self (trimStart s)
    refine trimStart_head s c ?_
    rw [← hrest, List.head?_append, ← trim_eq, hc]
    rfl
  last := trimEnd_last _

@[simp] theorem trim_trim (s : List Char) : trim (trim s) = trim s :=
  (trimmed_trim s).trim_eq

theorem Trimmed.lower (h : Trimmed s) : Trimmed (lower s) where
  head c hc := by
    obtain ⟨d, hd, rfl⟩ : ∃ d ∈ s.head?, d.toLower = c := by simpa [Text.lower] using hc
    simpa using h.head d hd
  last c hc := by
    obtain ⟨d, hd, rfl⟩ : ∃ d ∈ s.getLast?, d.toLower = c := by simpa [Text.lower] using hc
    simpa using h.last d hd

theorem Trimmed.nil : Trimmed [] where
  head := by simp
  last := by simp

/-- Two texts around something that is no blank. -/
theorem Trimmed.around (hs : ∀ c ∈ s.head?, isBlank c = false)
    (ht : ∀ c ∈ t.getLast?, isBlank c = false) (hc : isBlank c = false) : Trimmed (s ++ c :: t) where
  head d hd := by
    cases s with
    | nil => simpa using (by simpa using hd : c = d) ▸ hc
    | cons x s => exact hs d (by simpa using hd)
  last d hd := by
    cases t with
    | nil => simpa using (by simpa using hd : c = d) ▸ hc
    | cons x t => exact ht d (by simpa using hd)

theorem dropWhile_append_cons {p : Char → Bool} (hc : p c = false) (s t : List Char) :
    (s ++ c :: t).dropWhile p = s.dropWhile p ++ c :: t := by
  induction s with
  | nil => simp [hc]
  | cons x s ih => cases hx : p x <;> simp [hx, ih]

theorem trimEnd_append_cons (hc : isBlank c = false) (s t : List Char) :
    trimEnd (s ++ c :: t) = s ++ c :: trimEnd t := by
  rw [trimEnd, dropEndWhile, List.reverse_append, List.reverse_cons, List.append_assoc,
    List.singleton_append, dropWhile_append_cons hc]
  simp [trimEnd, dropEndWhile]

/-- Blanks are dropped on both sides of what is none. -/
theorem trim_append_cons (hc : isBlank c = false) (s t : List Char) :
    trim (s ++ c :: t) = trimStart s ++ c :: trimEnd t := by
  rw [trim_eq, trimStart, dropWhile_append_cons hc, trimEnd_append_cons hc]
  rfl

theorem trim_eq_nil_iff : trim s = [] ↔ ∀ c ∈ s, isBlank c = true := by
  constructor
  · intro h c hc
    by_contra hblank
    obtain ⟨a, b, rfl⟩ := List.append_of_mem hc
    simp [trim_append_cons (Bool.not_eq_true _ ▸ hblank)] at h
  · intro h
    have hstart : trimStart s = [] := List.dropWhile_eq_nil_iff.mpr h
    rw [trim_eq, hstart]
    rfl

@[simp] theorem trim_trimStart (s : List Char) : trim (trimStart s) = trim s := by
  rw [trim_eq, trimStart_eq_self (trimStart_head s)]
  rfl

@[simp] theorem trim_trimEnd (s : List Char) : trim (trimEnd s) = trim s := by
  by_cases hs : ∀ c ∈ s, isBlank c = true
  · rw [trim_eq_nil_iff.mpr hs, trim_eq_nil_iff]
    exact fun c hc => hs c ((trimEnd_prefix_self s).subset hc)
  · push Not at hs
    obtain ⟨c, hc, hblank⟩ := hs
    obtain ⟨a, b, rfl⟩ := List.append_of_mem hc
    replace hblank : isBlank c = false := by simpa using hblank
    rw [trimEnd_append_cons hblank, trim_append_cons hblank, trim_append_cons hblank,
      trimEnd_eq_self (trimEnd_last b)]

theorem trim_subset (s : List Char) : trim s ⊆ s :=
  List.Subset.trans (trimEnd_prefix_self _).subset (List.dropWhile_suffix _).subset

/-! ### Pieces -/

theorem cut_eq_some_iff : cut [c] s = some (t, u) ↔ s = t ++ c :: u ∧ c ∉ t := by
  induction s generalizing t with
  | nil => simp [cut]
  | cons x s ih =>
    by_cases hx : c = x
    · subst hx
      have hcut : cut [c] (c :: s) = some ([], s) := by simp [cut]
      rw [hcut]
      cases t with
      | nil => simp [eq_comm]
      | cons y t =>
        refine iff_of_false (by simp) ?_
        rintro ⟨heq, hmem⟩
        exact hmem ((List.cons.inj heq).1 ▸ List.mem_cons_self)
    · have hcut : cut [c] (x :: s) = (cut [c] s).map fun p => (x :: p.1, p.2) := by simp [cut, hx]
      rw [hcut]
      cases t with
      | nil => simp [Ne.symm hx]
      | cons y t =>
        simp only [Option.map_eq_some_iff, Prod.exists, Prod.mk.injEq, List.cons.injEq,
          List.cons_append, List.mem_cons, not_or]
        grind

theorem cut_eq_none_iff : cut [c] s = none ↔ c ∉ s := by
  induction s with
  | nil => simp [cut]
  | cons x s ih => by_cases hx : c = x <;> simp [cut, hx, ih]

/-- A text is parted where a stretch of characters with `p` ends. -/
theorem takeWhile_dropWhile_append {p : Char → Bool} (hs : ∀ c ∈ s, p c = true)
    (ht : ∀ c ∈ t.head?, p c = false) : (s ++ t).takeWhile p = s ∧ (s ++ t).dropWhile p = t := by
  rw [List.takeWhile_append_of_pos hs, List.dropWhile_append_of_pos hs]
  cases t with
  | nil => simp
  | cons c t => simp [ht c rfl]

/-- The separator is found where it stands, if its first character is not in front of it. -/
theorem cut_append (h : c ∉ s) (sep t : List Char) :
    cut (c :: sep) (s ++ c :: (sep ++ t)) = some (s, t) := by
  induction s with
  | nil => simp [cut]
  | cons x s ih =>
    obtain ⟨hx, hs⟩ := not_or.mp (mt List.mem_cons.mpr h)
    simp [cut, hx, ih hs]

theorem subset_of_mem_splitOn (h : t ∈ s.splitOn c) : t ⊆ s ∧ c ∉ t := by
  induction s generalizing t with
  | nil => simp_all
  | cons x s ih =>
    obtain ⟨first, rest, hsplit⟩ := List.exists_cons_of_ne_nil (List.splitOn_ne_nil c s)
    rw [List.splitOn_cons_eq_if_modifyHead] at h
    rw [hsplit] at h ih
    split_ifs at h with hx
    · rcases List.mem_cons.mp h with rfl | h
      · simp
      · exact (ih h).imp_left (List.subset_cons_of_subset x)
    · rcases List.mem_cons.mp h with rfl | h
      · obtain ⟨hsub, hmem⟩ := ih List.mem_cons_self
        refine ⟨List.cons_subset_cons x hsub, List.not_mem_cons_of_ne_of_not_mem ?_ hmem⟩
        rintro rfl
        exact hx (beq_self_eq_true c)
      · exact (ih (List.mem_cons_of_mem _ h)).imp_left (List.subset_cons_of_subset x)

theorem mem_of_mem_intercalate {pieces : List (List Char)} (h : c ∈ [d].intercalate pieces) :
    c = d ∨ ∃ piece ∈ pieces, c ∈ piece := by
  induction pieces with
  | nil => cases h
  | cons piece pieces ih =>
    cases pieces with
    | nil => exact .inr ⟨piece, List.mem_singleton_self _, by simpa using h⟩
    | cons next rest =>
      rw [List.intercalate_cons_cons, List.append_assoc, List.mem_append, List.singleton_append,
        List.mem_cons] at h
      rcases h with h | h | h
      · exact .inr ⟨piece, List.mem_cons_self, h⟩
      · exact .inl h
      · exact (ih h).imp_right fun ⟨other, hother, hc⟩ => ⟨other, List.mem_cons_of_mem _ hother, hc⟩

end Ingest.Text

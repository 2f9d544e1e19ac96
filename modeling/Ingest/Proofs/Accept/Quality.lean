import Mathlib
import Ingest.Accept.Range
import Ingest.Proofs.Number

/-!
# The qualities of candidates

A part of a header contributes a candidate exactly if its type and subtype are good, each value of a
parameter `q` is acceptable and the last one is not zero; the candidate then has the last one as its
quality (`MediaRange.ofPart?_eq_some_iff`). An acceptable value is a number from 0 to 1 or spells
`nan`, which the bounds let through. So the quality of a candidate is above 0 and at most 1 unless
the last `q` of its part spells `nan` (`candidate_quality`).
-/

namespace Ingest.Accept

namespace MediaRange

/-- What stands before the first semicolon of a part. -/
def mediaOf (part : List Char) : List Char :=
  (part.splitOn ';').headD []

/-- The parameters of a part. -/
def fieldsOf (part : List Char) : List (List Char) :=
  (part.splitOn ';').tail

/-- The value of a parameter `q`. -/
def qualityText? (field : List Char) : Option (List Char) :=
  let (key, value) := keyValue (Text.trim field)
  if key = ['q'] then some value else none

/-- The values of a part's parameters `q`, in the order of the header. -/
def qualityTexts (fields : List (List Char)) : List (List Char) :=
  fields.filterMap qualityText?

/-- A parameter that is neither blank nor `q`. -/
def otherParam? (field : List Char) : Option (String × String) :=
  let (key, value) := keyValue (Text.trim field)
  if (Text.trim field).isEmpty || key == ['q'] then none
  else some (String.ofList key, String.ofList value)

/-- What the value of a parameter `q` says if it is acceptable: it is not empty, it is read to its
end or to a character with code 0, and what it says is `nan` or from 0 to 1. -/
structure Accepts (value : List Char) (q : Binary64) : Prop where
  nonempty : value ≠ []
  reads : Binary64.read? (Text.beforeNul value) = some q
  bounded : q = .nan ∨ q.InUnit

theorem quality?_eq_some_iff {value : List Char} {q : Binary64} :
    quality? value = some q ↔ Accepts value q := by
  have hbounds : (!q.isNegative && !q.exceedsOne) = true ↔ q = .nan ∨ q.InUnit := by
    rw [Binary64.inUnit_iff]
    cases q with
    | nan => simp [Binary64.isNegative, Binary64.exceedsOne]
    | number negative m => simp
  rw [quality?]
  split_ifs with hempty
  · refine iff_of_false (by simp) fun h => h.nonempty (List.isEmpty_iff.mp hempty)
  · rw [Option.filter_eq_some_iff, hbounds]
    constructor
    · rintro ⟨hreads, hq⟩
      exact ⟨fun h => hempty (List.isEmpty_iff.mpr h), hreads, hq⟩
    · exact fun h => ⟨h.reads, h.bounded⟩

/-- One parameter either replaces the quality by what an acceptable value says, or it is kept with
the others; a blank one does nothing. -/
theorem readParam_eq (r : MediaRange) (field : List Char) :
    readParam r field = match qualityText? field with
      | some value => (quality? value).map fun q => { r with quality := q }
      | none => some { r with params := r.params ++ (otherParam? field).toList } := by
  unfold readParam qualityText? otherParam?
  generalize Text.trim field = param
  cases param with
  | nil => simp [keyValue, Text.cut, Text.trim, Text.trimStart, Text.dropEndWhile, Text.lower]
  | cons c s =>
    by_cases hkey : (keyValue (c :: s)).1 = ['q'] <;> simp [hkey]

theorem otherParam?_of_quality {field value : List Char} (h : qualityText? field = some value) :
    otherParam? field = none := by
  rw [qualityText?, Option.ite_none_right_eq_some] at h
  simp [otherParam?, h.1]

theorem foldlM_readParam_eq_some_iff {fields : List (List Char)} {r r' : MediaRange} :
    fields.foldlM readParam r = some r' ↔ ∃ qs, List.Forall₂ Accepts (qualityTexts fields) qs ∧
      r' = { r with
        quality := qs.getLastD r.quality, params := r.params ++ fields.filterMap otherParam? } := by
  induction fields generalizing r with
  | nil => simp [qualityTexts, eq_comm]
  | cons field fields ih =>
    rw [List.foldlM_cons, readParam_eq, qualityTexts, List.filterMap_cons]
    cases hfield : qualityText? field with
    | none =>
      simp only [Option.bind_eq_bind, Option.bind_some, ih]
      cases hother : otherParam? field <;> simp [hother, qualityTexts]
    | some value =>
      simp only [otherParam?_of_quality hfield, List.filterMap_cons_none]
      cases hread : quality? value with
      | none =>
        refine iff_of_false (by simp) ?_
        rintro ⟨qs, hqs, -⟩
        obtain ⟨q, qs, hq, -, rfl⟩ := List.forall₂_cons_left_iff.mp hqs
        rw [quality?_eq_some_iff.mpr hq] at hread
        cases hread
      | some q =>
        simp only [Option.map_some, Option.bind_eq_bind, Option.bind_some, ih]
        constructor
        · rintro ⟨qs, hqs, rfl⟩
          exact ⟨q :: qs, .cons (quality?_eq_some_iff.mp hread) hqs, by rw [List.getLastD_cons]⟩
        · rintro ⟨qs, hqs, rfl⟩
          obtain ⟨q', qs, hq, hrest, rfl⟩ := List.forall₂_cons_left_iff.mp hqs
          obtain rfl : q = q' := Option.some.inj (hread.symm.trans (quality?_eq_some_iff.mpr hq))
          exact ⟨qs, hrest, by rw [List.getLastD_cons]⟩

theorem ofMedia?_fresh {field : List Char} {m : MediaRange} (h : ofMedia? field = some m) :
    m.quality = .one ∧ m.params = [] := by
  obtain ⟨p, -, hp⟩ := Option.bind_eq_some_iff.mp h
  simp only at hp
  split_ifs at hp
  obtain rfl := Option.some.inj hp
  exact ⟨rfl, rfl⟩

/-- What the bounds let through is above zero, unless it is zero or `nan`. -/
theorem isAtMostZero_eq_false_iff {q : Binary64} (h : q = .nan ∨ q.InUnit) :
    (!q.isAtMostZero) = true ↔ q.value? ≠ some 0 := by
  rcases h with rfl | h
  · simp [Binary64.isAtMostZero, Binary64.value?]
  · simpa using (Binary64.isAtMostZero_iff h).not

theorem rel_getLast? {α β : Type} {R : α → β → Prop} {xs : List α} {ys : List β}
    (h : List.Forall₂ R xs ys) : Option.Rel R xs.getLast? ys.getLast? := by
  induction h with
  | nil => exact .none
  | cons hxy hrest ih =>
    cases hrest with
    | nil => exact .some hxy
    | cons => simpa only [List.getLast?_cons_cons] using ih

theorem getLastD_bounded {texts : List (List Char)} {qs : List Binary64}
    (h : List.Forall₂ Accepts texts qs) : qs.getLastD .one = .nan ∨ (qs.getLastD .one).InUnit := by
  have hlast := rel_getLast? h
  rw [List.getLastD_eq_getLast?]
  generalize texts.getLast? = text, qs.getLast? = q at hlast ⊢
  cases hlast with
  | none => exact .inr (Binary64.inUnit_iff.mpr (by decide))
  | some hq => exact hq.bounded

/-- A quality is `nan` exactly if the last value spells it. -/
theorem getLastD_eq_nan_iff {texts : List (List Char)} {qs : List Binary64}
    (h : List.Forall₂ Accepts texts qs) : qs.getLastD .one = .nan
      ↔ ∃ value ∈ texts.getLast?, Binary64.SpellsNan (Text.beforeNul value) := by
  have hlast := rel_getLast? h
  rw [List.getLastD_eq_getLast?]
  generalize texts.getLast? = text, qs.getLast? = q at hlast ⊢
  cases hlast with
  | none => exact iff_of_false (by decide) (by simp)
  | some hq => simp [← Binary64.read?_eq_nan_iff, hq.reads]

/-- A part contributes a candidate exactly if its type and subtype are good, each value of a
parameter `q` is acceptable and the last one is not zero. -/
theorem ofPart?_eq_some_iff {part : List Char} {r : MediaRange} :
    ofPart? part = some r ↔ ∃ m qs, ofMedia? (mediaOf part) = some m
      ∧ List.Forall₂ Accepts (qualityTexts (fieldsOf part)) qs
      ∧ (qs.getLastD .one).value? ≠ some 0
      ∧ r = { m with
          quality := qs.getLastD .one, params := (fieldsOf part).filterMap otherParam? } := by
  obtain ⟨media, fields, hsplit⟩ : ∃ media fields, part.splitOn ';' = media :: fields :=
    List.exists_cons_of_ne_nil (List.splitOn_ne_nil _ _)
  rw [ofPart?, mediaOf, fieldsOf, hsplit]
  simp only [Option.bind_eq_some_iff, Option.filter_eq_some_iff, foldlM_readParam_eq_some_iff,
    List.headD_cons, List.tail_cons]
  constructor
  · rintro ⟨m, hm, ⟨qs, hqs, rfl⟩, hpos⟩
    obtain ⟨hone, hparams⟩ := ofMedia?_fresh hm
    rw [hone] at hpos ⊢
    exact ⟨m, qs, hm, hqs, (isAtMostZero_eq_false_iff (getLastD_bounded hqs)).mp hpos, by
      rw [hparams, List.nil_append]⟩
  · rintro ⟨m, qs, hm, hqs, hpos, rfl⟩
    obtain ⟨hone, hparams⟩ := ofMedia?_fresh hm
    refine ⟨m, hm, ⟨qs, hqs, ?_⟩, (isAtMostZero_eq_false_iff (getLastD_bounded hqs)).mpr hpos⟩
    rw [hone, hparams, List.nil_append]

end MediaRange

open MediaRange in
/-- Whatever the header, the candidates are what its parts contribute, in another order. A part
contributes one exactly if its type and subtype are good, each value of a parameter `q` is
acceptable and the last one is not zero, and its quality is then the last one. So a quality is above
0 and at most 1, unless the last `q` of the part spells `nan`: then it is `nan`. -/
theorem candidate_quality (header : String) :
    (candidates header).Perm ((header.toList.splitOn ',').filterMap ofPart?)
    ∧ (∀ part ∈ header.toList.splitOn ',', ∀ r, ofPart? part = some r
        ↔ ∃ m qs, ofMedia? (mediaOf part) = some m
          ∧ List.Forall₂ Accepts (qualityTexts (fieldsOf part)) qs
          ∧ (qs.getLastD .one).value? ≠ some 0
          ∧ r = { m with
              quality := qs.getLastD .one, params := (fieldsOf part).filterMap otherParam? })
    ∧ ∀ r ∈ candidates header, ∃ part ∈ header.toList.splitOn ',', ofPart? part = some r
        ∧ (r.quality.IsUsable ∨ r.quality = .nan)
        ∧ (r.quality = .nan ↔ ∃ value ∈ (qualityTexts (fieldsOf part)).getLast?,
            Binary64.SpellsNan (Text.beforeNul value)) := by
  have hperm : (candidates header).Perm ((header.toList.splitOn ',').filterMap ofPart?) :=
    Ranking.sort_perm _ _
  refine ⟨hperm, fun part _ r => ofPart?_eq_some_iff, fun r hr => ?_⟩
  obtain ⟨part, hpart, hcontributes⟩ := List.mem_filterMap.mp (hperm.mem_iff.mp hr)
  obtain ⟨m, qs, -, hqs, hzero, rfl⟩ := ofPart?_eq_some_iff.mp hcontributes
  refine ⟨part, hpart, hcontributes, ?_, getLastD_eq_nan_iff hqs⟩
  exact (getLastD_bounded hqs).symm.imp_left fun h => Binary64.isUsable_iff.mpr ⟨h, hzero⟩

/-- The bounds let `nan` through: this header has a candidate whose quality is no number. -/
theorem nan_is_accepted : ¬ ∀ header, ∀ r ∈ candidates header, r.quality.IsUsable := by
  intro h
  have hparts : contributions "a/b;q=nan".toList = [⟨"a", "b", .nan, []⟩] := by decide +kernel
  have hmem : ⟨"a", "b", .nan, []⟩ ∈ candidates "a/b;q=nan" :=
    (Ranking.sort_perm _ _).mem_iff.mpr (hparts ▸ List.mem_singleton_self _)
  obtain ⟨x, hx, -⟩ := h _ _ hmem
  cases hx

end Ingest.Accept

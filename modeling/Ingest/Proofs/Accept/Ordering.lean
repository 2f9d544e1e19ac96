import Mathlib
import Ingest.Proofs.Accept.Quality
import Ingest.Proofs.Accept.Ranking
import Ingest.Proofs.Number
import Ingest.Proofs.Text

/-!
# The order of candidates

The candidates of a header are what its parts contribute, each by itself, the higher ranks first and
equals in the order of the header (`candidates_ordered`). The test that orders them compares ranks
as long as the qualities are numbers (`compares_precedes`).
-/

namespace Ingest.Accept

open Ranking (Ranks)

namespace MediaRange

/-- What decides about the order: the quality, then whether the type and the subtype are concrete,
then how many parameters there are. -/
def rank (r : MediaRange) : ℚ ×ₗ Bool ×ₗ Bool ×ₗ ℕ :=
  toLex (r.quality.toRat,
    toLex (r.hasConcreteType, toLex (r.hasConcreteSubtype, r.params.length)))

theorem specificity_lt_iff {a b : MediaRange} : b.specificity < a.specificity
    ↔ b.hasConcreteType < a.hasConcreteType ∨ b.hasConcreteType = a.hasConcreteType
      ∧ b.hasConcreteSubtype < a.hasConcreteSubtype := by
  unfold specificity
  cases a.hasConcreteType <;> cases b.hasConcreteType <;> cases a.hasConcreteSubtype <;>
    cases b.hasConcreteSubtype <;> decide

theorem specificity_eq_iff {a b : MediaRange} : a.specificity = b.specificity
    ↔ a.hasConcreteType = b.hasConcreteType ∧ a.hasConcreteSubtype = b.hasConcreteSubtype := by
  unfold specificity
  cases a.hasConcreteType <;> cases b.hasConcreteType <;> cases a.hasConcreteSubtype <;>
    cases b.hasConcreteSubtype <;> decide

theorem compares_precedes : Ranking.Compares precedes rank (·.quality.IsUsable) := by
  intro a b ha hb
  have heq := Binary64.eq_iff ha hb
  rw [rank, rank, Prod.Lex.toLex_lt_toLex, Prod.Lex.toLex_lt_toLex, Prod.Lex.toLex_lt_toLex,
    precedes]
  by_cases hquality : a.quality.toRat = b.quality.toRat
  · rw [if_neg (by simp [heq.mpr hquality])]
    by_cases hspecific : a.specificity = b.specificity
    · obtain ⟨htype, hsubtype⟩ := specificity_eq_iff.mp hspecific
      simp [hquality, hspecific, htype, hsubtype]
    · rw [if_pos hspecific, decide_eq_true_iff, specificity_lt_iff]
      have hne := specificity_eq_iff.not.mp hspecific
      grind
  · rw [if_pos (by simpa using heq.not.mpr hquality), Binary64.lt_iff hb ha]
    simp [Ne.symm hquality]

/-- A quality is usable unless it is `nan`. -/
theorem isUsable_of_ofPart? {part : List Char} {r : MediaRange} (h : ofPart? part = some r)
    (hnan : r.quality ≠ .nan) : r.quality.IsUsable := by
  obtain ⟨m, qs, -, hqs, hzero, rfl⟩ := ofPart?_eq_some_iff.mp h
  exact Binary64.isUsable_iff.mpr ⟨(getLastD_bounded hqs).resolve_left hnan, hzero⟩

end MediaRange

open MediaRange

/-- No candidate of the header has the quality `nan`. -/
def Numeric (header : String) : Prop :=
  ∀ r ∈ contributions header.toList, r.quality ≠ .nan

instance : DecidablePred Numeric :=
  fun header => inferInstanceAs (Decidable (∀ r ∈ contributions header.toList, r.quality ≠ .nan))

/-- The parts of a header. -/
def partsOf (header : String) : List (List Char) :=
  header.toList.splitOn ','

/-- The candidates of a part that is a header by itself. -/
def own (part : List Char) : List MediaRange :=
  candidates (String.ofList part)

theorem contributions_eq (header : String) :
    contributions header.toList = (partsOf header).filterMap ofPart? :=
  rfl

theorem partsOf_ofList {part : List Char} (h : ',' ∉ part) :
    partsOf (String.ofList part) = [part] := by
  rw [partsOf, String.toList_ofList, List.splitOn_eq_singleton h]

theorem partsOf_append (front back : String) :
    partsOf (front ++ "," ++ back) = partsOf front ++ partsOf back := by
  have hjoined : (front ++ "," ++ back).toList = front.toList ++ ',' :: back.toList := by simp
  rw [partsOf, hjoined, List.splitOn_append_cons_self]
  rfl

theorem own_eq {part : List Char} (h : ',' ∉ part) : own part = (ofPart? part).toList := by
  have hparts : contributions (String.ofList part).toList = (ofPart? part).toList := by
    rw [contributions_eq, partsOf_ofList h]
    cases hpart : ofPart? part <;> simp [hpart]
  rw [own, candidates, hparts]
  cases ofPart? part with
  | none => exact List.perm_nil.mp (Ranking.sort_perm precedes [])
  | some r => exact List.perm_singleton.mp (Ranking.sort_perm precedes [r])

theorem not_mem_of_mem_partsOf {header : String} {part : List Char} (h : part ∈ partsOf header) :
    ',' ∉ part :=
  (Text.subset_of_mem_splitOn h).2

theorem flatMap_own (header : String) :
    (partsOf header).flatMap own = contributions header.toList := by
  rw [contributions_eq, List.filterMap_eq_flatMap_toList]
  exact List.flatMap_congr fun part hpart => own_eq (not_mem_of_mem_partsOf hpart)

theorem isUsable_of_mem_contributions {header : String} (h : Numeric header) :
    ∀ r ∈ contributions header.toList, r.quality.IsUsable := by
  intro r hr
  obtain ⟨part, -, hpart⟩ := List.mem_filterMap.mp hr
  exact isUsable_of_ofPart? hpart (h r hr)

/-- If no value of a parameter `q` spells `nan`, no candidate has the quality `nan`. -/
theorem numeric_of_spells {header : String} (h : ∀ part ∈ partsOf header,
    ∀ value ∈ qualityTexts (fieldsOf part), ¬ Binary64.SpellsNan (Text.beforeNul value)) :
    Numeric header := by
  intro r hr hnan
  obtain ⟨part, hpart, hcontributes⟩ := List.mem_filterMap.mp hr
  obtain ⟨m, qs, -, hqs, -, rfl⟩ := ofPart?_eq_some_iff.mp hcontributes
  obtain ⟨value, hvalue, hspells⟩ := (getLastD_eq_nan_iff hqs).mp hnan
  exact h part hpart value (List.mem_of_mem_getLast? hvalue) hspells

theorem ranks_candidates {header : String} (h : Numeric header) :
    Ranks rank (contributions header.toList) (candidates header) :=
  Ranking.ranks_sort compares_precedes (isUsable_of_mem_contributions h)

/-- Two pieces of a header, each in order, are merged. -/
theorem candidates_append {front back : String} (h : Numeric (front ++ "," ++ back)) :
    candidates (front ++ "," ++ back)
      = (candidates front).merge (candidates back) fun a b => rank b ≤ rank a := by
  have hboth : contributions (front ++ "," ++ back).toList
      = contributions front.toList ++ contributions back.toList := by
    rw [contributions_eq, partsOf_append, List.filterMap_append]
    rfl
  obtain ⟨hfront, hback⟩ : Numeric front ∧ Numeric back := by
    rw [Numeric, hboth, List.forall_mem_append] at h
    exact h
  have hcompares : Ranking.Compares (fun a b => decide (rank b < rank a)) rank fun _ => True :=
    fun _ _ _ _ => decide_eq_true_iff
  have hmerge := Ranking.ranks_merge hcompares (fun _ _ => trivial) (fun _ _ => trivial)
    (ranks_candidates hfront).falls (ranks_candidates hback).falls
  have hkeeps := (ranks_candidates hfront).keeps.append (ranks_candidates hback).keeps
  rw [← hboth] at hkeeps
  rw [(ranks_candidates h).unique (hmerge.of_keeps hkeeps), Ranking.merge]
  simp only [← decide_not, not_lt]

/-- Without the parts that contribute nothing, the contributions are the same. -/
theorem flatMap_filter_own (parts : List (List Char)) :
    (parts.filter (own · ≠ [])).flatMap own = parts.flatMap own := by
  induction parts with
  | nil => rfl
  | cons part parts ih => by_cases hpart : own part = [] <;> simpa [hpart] using ih

/-- The candidates of a header are what its parts contribute, none or one each and each by itself,
ordered by falling rank and among equals as they stand in the header. So the candidates of a header
in two pieces are merged from those of the pieces, and a part that contributes nothing has no effect
on the others. -/
theorem candidates_ordered {header : String} (h : Numeric header) :
    (∀ part ∈ partsOf header, own part = (ofPart? part).toList)
    ∧ Ranks rank ((partsOf header).flatMap own) (candidates header)
    ∧ (∀ front back, header = front ++ "," ++ back → candidates header
        = (candidates front).merge (candidates back) fun a b => rank b ≤ rank a)
    ∧ ∀ other, (partsOf other).filter (own · ≠ []) = (partsOf header).filter (own · ≠ []) →
        candidates other = candidates header := by
  refine ⟨fun part hpart => own_eq (not_mem_of_mem_partsOf hpart), ?_, ?_, fun other hother => ?_⟩
  · rw [flatMap_own]
    exact ranks_candidates h
  · rintro front back rfl
    exact candidates_append h
  · have hsame : contributions other.toList = contributions header.toList := by
      rw [← flatMap_own, ← flatMap_own, ← flatMap_filter_own, hother, flatMap_filter_own]
    rw [candidates, candidates, hsame]

/-- Three candidates of one quality and one of a lower, with a part between that has a bad quality.
The two concrete ones come first, in the order of the header, then the one of any type, for all its
parameters, and the one of lower quality last. -/
theorem candidates_ordered_mixed :
    let front := "text/*;q=0.5, a/b ;q=2, text/html"
    let back := " */*;x=1;y=2, text/xml"
    let html : MediaRange := ⟨"text", "html", .number false 0x3ff0000000000000, []⟩
    let xml : MediaRange := ⟨"text", "xml", .number false 0x3ff0000000000000, []⟩
    let any : MediaRange :=
      ⟨"*", "*", .number false 0x3ff0000000000000, [("x", "1"), ("y", "2")]⟩
    let text : MediaRange := ⟨"text", "*", .number false 0x3fe0000000000000, []⟩
    Numeric (front ++ "," ++ back)
    ∧ candidates (front ++ "," ++ back) = [html, xml, any, text]
    ∧ Ranks rank ((partsOf (front ++ "," ++ back)).flatMap own) (candidates (front ++ "," ++ back))
    ∧ candidates (front ++ "," ++ back)
      = (candidates front).merge (candidates back) fun a b => rank b ≤ rank a := by
  intro front back html xml any text
  have h : Numeric (front ++ "," ++ back) := by decide +kernel
  have hcontributed : contributions (front ++ "," ++ back).toList = [text, html, any, xml] := by
    decide +kernel
  have hhtml : precedes html text = true := by decide +kernel
  have hxml : precedes xml html = false := by decide +kernel
  have hany : precedes any text = true := by decide +kernel
  have hconcrete : precedes xml any = true := by decide +kernel
  have hquality : precedes xml text = true := by decide +kernel
  have hcandidates : candidates (front ++ "," ++ back) = [html, xml, any, text] := by
    rw [candidates, hcontributed]
    simp [Ranking.sort, Ranking.sortHalf, Ranking.runs, Ranking.place, Ranking.merge, Nat.repeat,
      Ranking.mergePairs, hhtml, hxml, hany, hconcrete, hquality]
  obtain ⟨-, hranks, hmerge, -⟩ := candidates_ordered h
  exact ⟨h, hcandidates, hranks, hmerge front back rfl⟩

end Ingest.Accept

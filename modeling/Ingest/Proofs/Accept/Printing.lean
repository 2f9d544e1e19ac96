import Mathlib
import Ingest.Proofs.Accept.Fields
import Ingest.Proofs.Accept.Ordering
import Ingest.Proofs.Numerals

/-!
# Candidates in writing

A candidate keeps its names in lower case, without blanks at their ends and without the separators
that would cut them (`Canonical`). So what is written of it is a part that contributes this
candidate again (`ofPart?_written`), and the candidates of a header, written one after the other,
are the candidates of what is written (`candidates_written`).
-/

namespace Ingest.Accept

/-- A text in which no separator of parts or fields stands, without blanks at its ends. -/
structure IsPiece (s : List Char) : Prop where
  trimmed : Text.Trimmed s
  comma : ',' ∉ s
  semicolon : ';' ∉ s

/-- Such a text in lower case. -/
structure IsName (s : List Char) : Prop extends IsPiece s where
  lower : Text.lower s = s

theorem isPiece_trim {s : List Char} (hcomma : ',' ∉ s) (hsemicolon : ';' ∉ s) :
    IsPiece (Text.trim s) where
  trimmed := Text.trimmed_trim s
  comma hmem := hcomma (Text.trim_subset s hmem)
  semicolon hmem := hsemicolon (Text.trim_subset s hmem)

theorem IsPiece.isName_lower {s : List Char} (h : IsPiece s) : IsName (Text.lower s) where
  trimmed := h.trimmed.lower
  comma := (Text.mem_lower_iff (by decide)).not.mpr h.comma
  semicolon := (Text.mem_lower_iff (by decide)).not.mpr h.semicolon
  lower := Text.lower_lower s

/-- A parameter other than `q` as a candidate keeps it. -/
structure IsParam (p : String × String) : Prop where
  key : IsName p.1.toList
  value : IsPiece p.2.toList
  equals : '=' ∉ p.1.toList
  ne_quality : p.1 ≠ "q"

namespace MediaRange

/-- A candidate as it comes from a part: its type and subtype are not empty, in lower case and
without blanks at their ends, and a wildcard type has the wildcard subtype. -/
structure Canonical (r : MediaRange) : Prop where
  type_ne : r.type ≠ ""
  subtype_ne : r.subtype ≠ ""
  type : IsName r.type.toList
  subtype : IsName r.subtype.toList
  wildcard : r.type = "*" → r.subtype = "*"
  slash : '/' ∉ r.type.toList
  params : ∀ p ∈ r.params, IsParam p

variable {field part : List Char} {r : MediaRange} {p : String × String}

theorem isParam_of_otherParam? (hcomma : ',' ∉ field) (hsemicolon : ';' ∉ field)
    (h : otherParam? field = some p) : IsParam p := by
  simp only [otherParam?, Option.ite_none_left_eq_some, Bool.or_eq_true, not_or, beq_iff_eq,
    Option.some.injEq] at h
  obtain ⟨⟨-, hquality⟩, rfl⟩ := h
  have hne : String.ofList (keyValue (Text.trim field)).1 ≠ "q" :=
    fun heq => hquality (by simpa using congrArg String.toList heq)
  by_cases hequals : '=' ∈ field
  · obtain ⟨key, value, rfl, hkey⟩ := List.eq_append_cons_of_mem hequals
    rw [keyValue_append hkey] at hne ⊢
    simp only [List.mem_append, List.mem_cons, not_or] at hcomma hsemicolon
    refine ⟨?_, ?_, ?_, hne⟩ <;> simp only [String.toList_ofList]
    · exact (isPiece_trim hcomma.1 hsemicolon.1).isName_lower
    · exact isPiece_trim hcomma.2.2 hsemicolon.2.2
    · exact fun hmem => hkey (Text.trim_subset _ ((Text.mem_lower_iff (by decide)).mp hmem))
  · rw [keyValue_of_not_mem hequals] at hne ⊢
    refine ⟨?_, ?_, ?_, hne⟩ <;> simp only [String.toList_ofList]
    · exact (isPiece_trim hcomma hsemicolon).isName_lower
    · exact ⟨.nil, by simp, by simp⟩
    · exact fun hmem => hequals (Text.trim_subset _ ((Text.mem_lower_iff (by decide)).mp hmem))

theorem canonical_of_ofMedia? (hcomma : ',' ∉ field) (hsemicolon : ';' ∉ field)
    (h : ofMedia? field = some r) : r.Canonical := by
  by_cases hslash : '/' ∈ field
  · obtain ⟨type, subtype, rfl, htype⟩ := List.eq_append_cons_of_mem hslash
    rw [ofMedia?_append htype, Option.ite_none_left_eq_some, not_or, not_or, not_and] at h
    obtain ⟨⟨htypene, hsubtypene, hwildcard⟩, hr⟩ := h
    obtain rfl := Option.some.inj hr
    simp only [List.mem_append, List.mem_cons, not_or] at hcomma hsemicolon
    refine ⟨?_, ?_, ?_, ?_, fun htypestar => ?_, ?_, by simp⟩
    · simpa [String.ofList_eq_empty_iff] using htypene
    · simpa [String.ofList_eq_empty_iff] using hsubtypene
    · simpa using (isPiece_trim hcomma.1 hsemicolon.1).isName_lower
    · simpa using (isPiece_trim hcomma.2.2 hsemicolon.2.2).isName_lower
    · have hstar : Text.lower (Text.trim type) = ['*'] := by
        simpa using congrArg String.toList htypestar
      rw [not_not.mp (hwildcard ((Text.lower_eq_singleton_iff (by decide)).mp hstar))]
      rfl
    · rw [String.toList_ofList, Text.mem_lower_iff (by decide)]
      exact fun hmem => htype (Text.trim_subset _ hmem)
  · rw [ofMedia?_of_not_mem hslash] at h
    cases h

theorem canonical_of_ofPart? (hcomma : ',' ∉ part) (h : ofPart? part = some r) : r.Canonical := by
  have hplain : ∀ field ∈ part.splitOn ';', ',' ∉ field ∧ ';' ∉ field := fun field hfield =>
    (Text.subset_of_mem_splitOn hfield).imp_left fun hsub hmem => hcomma (hsub hmem)
  obtain ⟨m, qs, hm, -, -, rfl⟩ := ofPart?_eq_some_iff.mp h
  obtain ⟨hmcomma, hmsemicolon⟩ := hplain _ (mediaOf_mem part)
  refine { canonical_of_ofMedia? hmcomma hmsemicolon hm with params := fun p hp => ?_ }
  obtain ⟨field, hfield, hparam⟩ := List.mem_filterMap.mp hp
  obtain ⟨hfcomma, hfsemicolon⟩ := hplain field (fieldsOf_subset part hfield)
  exact isParam_of_otherParam? hfcomma hfsemicolon hparam

/-! ### To write a candidate and to read it -/

/-- A parameter in writing. -/
def writtenParam (p : String × String) : List Char :=
  p.1.toList ++ '=' :: p.2.toList

/-- A candidate in writing: type and subtype, a text for the quality, and the parameters. -/
def written (r : MediaRange) (text : List Char) : List Char :=
  [';'].intercalate ((r.type.toList ++ '/' :: r.subtype.toList) :: ('q' :: '=' :: text)
    :: r.params.map writtenParam)

/-- The part says the candidate, with any text for its quality that is read as this quality. -/
def Says (r : MediaRange) (part : List Char) : Prop :=
  ∃ text, Binary64.read? text = some r.quality ∧ part = r.written text

theorem otherParam?_writtenParam (h : IsParam p) : otherParam? (writtenParam p) = some p := by
  have htrim : Text.trim (writtenParam p) = writtenParam p :=
    (Text.Trimmed.around h.key.trimmed.head h.value.trimmed.last (by decide)).trim_eq
  have hread : keyValue (Text.trim (writtenParam p)) = (p.1.toList, p.2.toList) := by
    rw [writtenParam, keyValue_append h.equals, h.key.trimmed.trim_eq, h.key.lower,
      h.value.trimmed.trim_eq]
  have hkey : p.1.toList ≠ ['q'] := fun heq => h.ne_quality (String.toList_inj.mp heq)
  have hne : Text.trim (writtenParam p) ≠ [] := by
    rw [htrim]
    simp [writtenParam]
  simp only [otherParam?, hread]
  simp [hkey, hne]

theorem qualityText?_writtenParam (h : IsParam p) : qualityText? (writtenParam p) = none := by
  have hkey : p.1.toList ≠ ['q'] := fun heq => h.ne_quality (String.toList_inj.mp heq)
  rw [qualityText?, writtenParam, keyValue_append h.equals, h.key.trimmed.trim_eq, h.key.lower]
  exact if_neg hkey

theorem qualityText?_written (text : List Char) :
    qualityText? ('q' :: '=' :: text) = some (Text.trim text) := by
  rw [qualityText?, ← List.singleton_append, keyValue_append (by decide)]
  rfl

theorem ofMedia?_written (h : r.Canonical) : ofMedia? (r.type.toList ++ '/' :: r.subtype.toList)
    = some ⟨r.type, r.subtype, .one, []⟩ := by
  rw [ofMedia?_append h.slash, h.type.trimmed.trim_eq, h.subtype.trimmed.trim_eq, h.type.lower,
    h.subtype.lower, if_neg]
  · simp
  · have hstar : ∀ s : String, s.toList = ['*'] ↔ s = "*" := fun s => by
      rw [← String.toList_inj]
      rfl
    simpa [h.type_ne, h.subtype_ne, hstar] using h.wildcard

/-- A text for a usable quality is acceptable where it stands between separators. -/
theorem accepts_trim {text : List Char} {q : Binary64} (h : Binary64.read? text = some q)
    (hq : q.IsUsable) : Accepts (Text.trim text) q := by
  obtain ⟨m, rfl, hm, -⟩ := hq.exists_magnitude
  have hzero : Binary64.number false m ≠ .zero := fun heq => hm (Binary64.number.inj heq).2
  obtain ⟨hread, hne, hnumeral⟩ := Binary64.read?_trim h hzero
  have hnul : Text.beforeNul (Text.trim text) = Text.trim text := by
    refine List.takeWhile_eq_self_iff.mpr fun c hc => bne_iff_ne.mpr ?_
    rintro rfl
    exact absurd (hnumeral _ hc) (by decide)
  exact ⟨hne, hnul.symm ▸ hread, .inr (Binary64.isUsable_iff.mp hq).1⟩

section Said

variable {text : List Char} (h : r.Canonical) (htext : Binary64.read? text = some r.quality)
include h htext

/-- No separator stands in the pieces that are joined. -/
theorem not_mem_pieces {d : Char} (hd : d = ',' ∨ d = ';') :
    ∀ piece ∈ (r.type.toList ++ '/' :: r.subtype.toList) :: ('q' :: '=' :: text)
      :: r.params.map writtenParam, d ∉ piece := by
  have hpiece : ∀ {s}, IsPiece s → d ∉ s := fun hs => by
    rcases hd with rfl | rfl
    · exact hs.comma
    · exact hs.semicolon
  have hnot : d ∉ text := Binary64.not_mem_of_read? htext
    (by rcases hd with rfl | rfl <;> decide) (by rcases hd with rfl | rfl <;> decide)
  have hother : d ≠ '/' ∧ d ≠ '=' ∧ d ≠ 'q' := by rcases hd with rfl | rfl <;> decide
  have hjoin : ∀ {s t c}, IsPiece s → IsPiece t → d ≠ c → d ∉ s ++ c :: t := fun hs ht hc => by
    simp [hpiece hs, hpiece ht, hc]
  refine List.forall_mem_cons.mpr ⟨hjoin h.type.toIsPiece h.subtype.toIsPiece hother.1,
    List.forall_mem_cons.mpr ⟨by simp [hother, hnot], List.forall_mem_map.mpr fun p hp => ?_⟩⟩
  exact hjoin (h.params p hp).key.toIsPiece (h.params p hp).value hother.2.1

/-- What is written of a candidate is a part that contributes it. -/
theorem ofPart?_written (hq : r.quality.IsUsable) : ofPart? (r.written text) = some r := by
  have hsplit := List.splitOn_intercalate ';' (not_mem_pieces h htext (.inr rfl))
    (List.cons_ne_nil _ _)
  have hmedia : mediaOf (r.written text) = r.type.toList ++ '/' :: r.subtype.toList := by
    rw [mediaOf, written, hsplit]
    rfl
  have hfields : fieldsOf (r.written text) = ('q' :: '=' :: text) :: r.params.map writtenParam := by
    rw [fieldsOf, written, hsplit]
    rfl
  have hqualities : qualityTexts (fieldsOf (r.written text)) = [Text.trim text] := by
    rw [hfields, qualityTexts, List.filterMap_cons_some (qualityText?_written text),
      List.filterMap_map, List.filterMap_eq_nil_iff.mpr]
    exact fun p hp => qualityText?_writtenParam (h.params p hp)
  have hparams : (fieldsOf (r.written text)).filterMap otherParam? = r.params := by
    rw [hfields, List.filterMap_cons_none (otherParam?_of_quality (qualityText?_written text)),
      List.filterMap_map]
    exact (List.filterMap_congr fun p hp => otherParam?_writtenParam (h.params p hp)).trans
      List.filterMap_some
  refine ofPart?_eq_some_iff.mpr ⟨⟨r.type, r.subtype, .one, []⟩, [r.quality], ?_, ?_, ?_, ?_⟩
  · rw [hmedia, ofMedia?_written h]
  · rw [hqualities]
    exact .cons (accepts_trim htext hq) .nil
  · exact (Binary64.isUsable_iff.mp hq).2
  · rw [hparams]
    rfl

theorem comma_not_mem_written : ',' ∉ r.written text := by
  intro hmem
  rcases Text.mem_of_mem_intercalate hmem with hseparator | ⟨piece, hpiece, hmem⟩
  · exact absurd hseparator (by decide)
  · exact not_mem_pieces h htext (.inl rfl) piece hpiece hmem

end Said

/-- The header has a text for the quality of a candidate, unless the quality goes without saying. -/
theorem exists_text (h : ofPart? part = some r) : ∃ text, Binary64.read? text = some r.quality := by
  obtain ⟨m, qs, -, hqs, -, rfl⟩ := ofPart?_eq_some_iff.mp h
  have hlast := rel_getLast? hqs
  rw [List.getLastD_eq_getLast?]
  generalize (qualityTexts (fieldsOf part)).getLast? = value, qs.getLast? = q at hlast
  have hone : Binary64.read? ['1'] = some .one := by decide +kernel
  cases hlast with
  | none => exact ⟨['1'], hone⟩
  | some hq => exact ⟨_, hq.reads⟩

end MediaRange

open MediaRange

/-- The parts one after the other, with commas between. -/
def joined (parts : List (List Char)) : String :=
  String.ofList ([','].intercalate parts)

theorem partsOf_joined {parts : List (List Char)} (h : ∀ part ∈ parts, ',' ∉ part)
    (hne : parts ≠ []) : partsOf (joined parts) = parts := by
  rw [partsOf, joined, String.toList_ofList, List.splitOn_intercalate ',' h hne]

/-- What is written of candidates contributes them in their order. -/
theorem contributions_joined {rs : List MediaRange} {parts : List (List Char)}
    (hrs : ∀ r ∈ rs, r.Canonical ∧ r.quality.IsUsable) (h : List.Forall₂ Says rs parts) :
    contributions (joined parts).toList = rs := by
  have hread : parts.filterMap ofPart? = rs ∧ ∀ part ∈ parts, ',' ∉ part := by
    induction h with
    | nil => simp
    | cons hsays _ ih =>
      obtain ⟨⟨hcanonical, hq⟩, hrest⟩ := List.forall_mem_cons.mp hrs
      obtain ⟨text, htext, rfl⟩ := hsays
      obtain ⟨hall, hcomma⟩ := ih hrest
      rw [List.filterMap_cons_some (ofPart?_written hcanonical htext hq), hall]
      exact ⟨rfl, List.forall_mem_cons.mpr ⟨comma_not_mem_written hcanonical htext, hcomma⟩⟩
  cases parts with
  | nil =>
    rw [← hread.1]
    rfl
  | cons part parts =>
    rw [contributions_eq, partsOf_joined hread.2 (List.cons_ne_nil _ _), hread.1]

/-- The candidates of a header have non-empty types and subtypes in lower case and without blanks at
their ends, and the type `*` with the subtype `*` only. They can be put in writing, and whatever
texts stand for the qualities, the candidates of what is written are the same in the same order. -/
theorem candidates_written {header : String} (h : Numeric header) :
    (∀ r ∈ candidates header, r.Canonical)
    ∧ (∃ parts, List.Forall₂ Says (candidates header) parts)
    ∧ ∀ parts, List.Forall₂ Says (candidates header) parts →
      candidates (joined parts) = candidates header := by
  have hmem : ∀ r ∈ candidates header, r ∈ contributions header.toList :=
    fun r => (Ranking.sort_perm _ _).mem_iff.mp
  have husable := fun r hr => isUsable_of_mem_contributions h r (hmem r hr)
  have hcontributed : ∀ r ∈ candidates header, ∃ part, ',' ∉ part ∧ ofPart? part = some r := by
    intro r hr
    obtain ⟨part, hpart, hr⟩ := List.mem_filterMap.mp (hmem r hr)
    exact ⟨part, not_mem_of_mem_partsOf hpart, hr⟩
  have hcanonical : ∀ r ∈ candidates header, r.Canonical := by
    intro r hr
    obtain ⟨part, hcomma, hpart⟩ := hcontributed r hr
    exact canonical_of_ofPart? hcomma hpart
  refine ⟨hcanonical, ?_, fun parts hparts => ?_⟩
  · have hsays : ∀ r ∈ candidates header, ∃ part, r.Says part := by
      intro r hr
      obtain ⟨part, -, hpart⟩ := hcontributed r hr
      obtain ⟨text, htext⟩ := exists_text hpart
      exact ⟨r.written text, text, htext, rfl⟩
    choose! part hpart using hsays
    exact ⟨_, List.forall₂_map_right_iff.mpr (List.forall₂_same.mpr hpart)⟩
  · rw [candidates, contributions_joined (fun r hr => ⟨hcanonical r hr, husable r hr⟩) hparts]
    exact Ranking.sort_of_falls compares_precedes husable (ranks_candidates h).falls

/-- A subtype with a slash, a value with an equals sign, a parameter without key or value, and a
quality that is written in another way. -/
theorem candidates_written_odd :
    let header := "A/b/c ; x = y=z ;=; q=.5,*/*;Q= 0x1p-2"
    let parts := ["a/b/c;q=50e-2;x=y=z;=".toList, "*/*;q=+0.25".toList]
    Numeric header ∧ List.Forall₂ Says (candidates header) parts
      ∧ candidates (joined parts) = candidates header := by
  intro header parts
  have h : Numeric header := by decide +kernel
  let first : MediaRange := ⟨"a", "b/c", .number false 0x3fe0000000000000, [("x", "y=z"), ("", "")]⟩
  let second : MediaRange := ⟨"*", "*", .number false 0x3fd0000000000000, []⟩
  have hcandidates : candidates header = [first, second] := by
    have hcontributed : contributions header.toList = [first, second] := by decide +kernel
    have hfirst : precedes second first = false := by decide +kernel
    rw [candidates, hcontributed]
    simp [Ranking.sort, Ranking.sortHalf, Ranking.runs, Ranking.place, Ranking.merge, Nat.repeat,
      Ranking.mergePairs, hfirst]
  have hhalf : Binary64.read? "50e-2".toList = some (.number false 0x3fe0000000000000) := by
    decide +kernel
  have hquarter : Binary64.read? "+0.25".toList = some (.number false 0x3fd0000000000000) := by
    decide +kernel
  have hsays : List.Forall₂ Says (candidates header) parts := by
    rw [hcandidates]
    exact .cons ⟨_, hhalf, by decide +kernel⟩ (.cons ⟨_, hquarter, by decide +kernel⟩ .nil)
  exact ⟨h, hsays, (candidates_written h).2.2 parts hsays⟩

end Ingest.Accept

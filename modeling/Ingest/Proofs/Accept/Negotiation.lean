import Mathlib
import Ingest.Accept.Format
import Ingest.Proofs.Accept.Ordering
import Ingest.Proofs.Accept.Spacing

/-!
# Whether JSON is asked for

A header that is not blank asks for JSON exactly if one of its parts admits it by itself
(`ofHeader_eq_json_iff`). So neither the order of the parts counts nor how often one stands there,
and more parts never take JSON away; nor do blanks beside the separators count
(`ofHeader_of_spaced`).
-/

namespace Ingest.Accept

open Text (Spaced)

namespace MediaRange

/-- The types and subtypes that JSON falls under. -/
def jsonNames : List (List (List Char)) :=
  [["application".toList, "json".toList], ["application".toList, "*".toList],
    ["*".toList, "*".toList]]

/-- A part names such a type and subtype, in any case and with any blanks around them. -/
def NamesJson (part : List Char) : Prop :=
  ∃ type subtype, mediaOf part = type ++ '/' :: subtype
    ∧ [Text.lower (Text.trim type), Text.lower (Text.trim subtype)] ∈ jsonNames

variable {part part' type subtype : List Char}

/-- No slash stands in these names. -/
theorem slash_not_mem
    (h : [Text.lower (Text.trim type), Text.lower (Text.trim subtype)] ∈ jsonNames) :
    '/' ∉ type ∧ '/' ∉ subtype := by
  have hnames : ∀ names ∈ jsonNames, ∀ name ∈ names, '/' ∉ name := by simp [jsonNames]
  have hmem : ∀ {s}, '/' ∈ s → '/' ∈ Text.lower (Text.trim s) := fun hs =>
    (Text.mem_lower_iff (by decide)).mpr ((Text.mem_trim_iff (by decide)).mpr hs)
  exact ⟨fun htype => hnames _ h _ (by simp) (hmem htype),
    fun hsubtype => hnames _ h _ (by simp) (hmem hsubtype)⟩

theorem isJson_iff {a b : List Char} {q : Binary64} {params : List (String × String)} :
    isJson ⟨String.ofList a, String.ofList b, q, params⟩ = true ↔ [a, b] ∈ jsonNames := by
  have hname : ∀ (s : List Char) (name : String), String.ofList s = name ↔ s = name.toList :=
    fun s name => by rw [← String.toList_inj, String.toList_ofList]
  simp only [isJson, hname, jsonNames]
  split_ifs with h <;> simp_all

theorem isJson_ofMedia?_iff :
    (∃ m, ofMedia? (mediaOf part) = some m ∧ m.isJson = true) ↔ NamesJson part := by
  constructor
  · rintro ⟨m, hm, hjson⟩
    by_cases hslash : '/' ∈ mediaOf part
    · obtain ⟨type, subtype, hmedia, htype⟩ := List.eq_append_cons_of_mem hslash
      rw [hmedia, ofMedia?_append htype, Option.ite_none_left_eq_some] at hm
      obtain rfl := Option.some.inj hm.2
      exact ⟨type, subtype, hmedia, isJson_iff.mp hjson⟩
    · rw [ofMedia?_of_not_mem hslash] at hm
      cases hm
  · rintro ⟨type, subtype, hmedia, hnames⟩
    have hwildcard : ∀ {s}, Text.lower s = "*".toList ↔ s = ['*'] :=
      Text.lower_eq_singleton_iff (by decide)
    rw [hmedia, ofMedia?_append (slash_not_mem hnames).1, if_neg]
    · exact ⟨_, rfl, isJson_iff.mpr hnames⟩
    · rintro (h | h | ⟨h, hne⟩) <;> simp_all [jsonNames, Text.lower]

/-- The part contributes a candidate that JSON falls under. -/
def Admits (part : List Char) : Prop :=
  ∃ r, ofPart? part = some r ∧ r.isJson = true

theorem forall₂_accepts_iff {texts : List (List Char)} {qs : List Binary64} :
    List.Forall₂ Accepts texts qs ↔ texts.map quality? = qs.map some := by
  rw [← List.forall₂_eq_eq_eq, List.forall₂_map_left_iff, List.forall₂_map_right_iff]
  simp only [quality?_eq_some_iff]

theorem admits_iff : Admits part ↔ NamesJson part ∧ ∃ qs : List Binary64,
    (fieldsOf part).filterMap (fun field => (qualityText? field).map quality?) = qs.map some
      ∧ (qs.getLastD .one).value? ≠ some 0 := by
  have hqualities : (fieldsOf part).filterMap (fun field => (qualityText? field).map quality?)
      = (qualityTexts (fieldsOf part)).map quality? := List.map_filterMap.symm
  simp only [← isJson_ofMedia?_iff, hqualities, ← forall₂_accepts_iff]
  constructor
  · rintro ⟨r, hr, hjson⟩
    obtain ⟨m, qs, hm, hqs, hzero, rfl⟩ := ofPart?_eq_some_iff.mp hr
    exact ⟨⟨m, hm, hjson⟩, qs, hqs, hzero⟩
  · rintro ⟨⟨m, hm, hjson⟩, qs, hqs, hzero⟩
    exact ⟨_, ofPart?_eq_some_iff.mpr ⟨m, qs, hm, hqs, hzero, rfl⟩, hjson⟩

/-! ### Blanks beside separators -/

/-- The names before, between and behind the slashes. -/
def namesOf (media : List Char) : List (List Char) :=
  (media.splitOn '/').map fun name => Text.lower (Text.trim name)

theorem namesJson_iff_namesOf : NamesJson part ↔ namesOf (mediaOf part) ∈ jsonNames := by
  constructor
  · rintro ⟨type, subtype, hmedia, hnames⟩
    obtain ⟨htype, hsubtype⟩ := slash_not_mem hnames
    rw [namesOf, hmedia, List.splitOn_append_cons_self_of_not_mem htype,
      List.splitOn_eq_singleton hsubtype]
    exact hnames
  · intro h
    have hlength : (namesOf (mediaOf part)).length = 2 :=
      (by simp [jsonNames] : ∀ names ∈ jsonNames, names.length = 2) _ h
    rw [namesOf, List.length_map] at hlength
    obtain ⟨type, subtype, hsplit⟩ := List.length_eq_two.mp hlength
    have hjoin : ['/'].intercalate ((mediaOf part).splitOn '/') = mediaOf part :=
      List.intercalate_splitOn '/'
    rw [hsplit] at hjoin
    rw [namesOf, hsplit] at h
    exact ⟨type, subtype, by simpa using hjoin.symm, h⟩

/-- A blank is added to one name, or beside an equals sign, and then it is no such name before and
after. -/
theorem namesOf_mem_iff_of_spaced {media media' : List Char} (h : Spaced ['/', '='] media media') :
    namesOf media ∈ jsonNames ↔ namesOf media' ∈ jsonNames := by
  obtain ⟨front, name, name', rest, hsplit, hsplit', hspaced⟩ := h.splitOn (by decide)
  have hname : ∀ names ∈ jsonNames, ∀ n ∈ names,
      (Text.lower (Text.trim name) = n ↔ Text.lower (Text.trim name') = n) := by
    refine fun names hnames n hn => hspaced.name_iff ?_
    have hequals : ∀ names ∈ jsonNames, ∀ n ∈ names, '=' ∉ n := by simp [jsonNames]
    simpa [Text.isBlank] using hequals names hnames n hn
  rw [namesOf, namesOf, hsplit, hsplit']
  simp only [List.map_append, List.map_cons]
  constructor
  · intro hnames
    rwa [(hname _ hnames _ (by simp)).mp rfl]
  · intro hnames
    rwa [(hname _ hnames _ (by simp)).mpr rfl]

theorem admits_iff_of_spaced (h : Spaced [';', '/', '='] part part') :
    Admits part ↔ Admits part' := by
  obtain ⟨front, field, field', rest, hsplit, hsplit', hspaced⟩ := h.splitOn (by decide)
  rw [admits_iff, admits_iff, namesJson_iff_namesOf, namesJson_iff_namesOf]
  unfold mediaOf fieldsOf
  rw [hsplit, hsplit']
  cases front with
  | nil =>
    simp only [List.nil_append, List.headD_cons, List.tail_cons, namesOf_mem_iff_of_spaced hspaced]
  | cons media front =>
    simp only [List.cons_append, List.headD_cons, List.tail_cons, List.filterMap_append,
      List.filterMap_cons, quality_of_spaced hspaced]

end MediaRange

open MediaRange

/-- Nothing but blanks. -/
def Blank (header : String) : Prop :=
  ∀ c ∈ header.toList, Text.isBlank c = true

/-- The second header is the first with other blanks at its ends and beside separators. -/
def Respaced : String → String → Prop :=
  Relation.EqvGen fun header other => Spaced [',', ';', '/', '='] header.toList other.toList

variable {header other : String} {part : List Char}

theorem ofHeader_eq_json_iff :
    Format.ofHeader header = .json ↔ Blank header ∨ ∃ part ∈ partsOf header, Admits part := by
  have hany : (candidates header).any isJson = true ↔ ∃ part ∈ partsOf header, Admits part := by
    simp only [List.any_eq_true, candidates, (Ranking.sort_perm _ _).mem_iff, contributions_eq,
      List.mem_filterMap, Admits]
    grind
  have hblank : (Text.trim header.toList).isEmpty = true ↔ Blank header := by
    rw [List.isEmpty_iff, Text.trim_eq_nil_iff, Blank]
  simp only [Format.ofHeader, hblank, hany]
  split_ifs <;> simp_all

theorem blank_iff_of_spaced {seps : List Char} (h : Spaced seps header.toList other.toList) :
    Blank header ↔ Blank other := by
  obtain ⟨u, v, b, hheader, hother, hb, -⟩ := h
  rw [Blank, Blank, hheader, hother]
  simp [or_imp, forall_and, hb]

/-- One blank more does not change the answer. -/
theorem ofHeader_of_spaced (h : Spaced [',', ';', '/', '='] header.toList other.toList) :
    Format.ofHeader other = Format.ofHeader header := by
  obtain ⟨front, part, part', rest, hsplit, hsplit', hspaced⟩ := h.splitOn (by decide)
  have hjson : Format.ofHeader other = .json ↔ Format.ofHeader header = .json := by
    rw [ofHeader_eq_json_iff, ofHeader_eq_json_iff, blank_iff_of_spaced h, partsOf, partsOf, hsplit,
      hsplit']
    simp only [List.mem_append, List.mem_cons, or_and_right, exists_or, exists_eq_left,
      admits_iff_of_spaced hspaced]
  cases hother : Format.ofHeader other <;> cases hheader : Format.ofHeader header <;> simp_all

/-- Any change of blanks is made one blank at a time. -/
theorem ofHeader_of_respaced (h : Respaced header other) :
    Format.ofHeader other = Format.ofHeader header := by
  induction h with
  | rel _ _ hspaced => exact ofHeader_of_spaced hspaced
  | refl _ => rfl
  | symm _ _ _ ih => exact ih.symm
  | trans _ _ _ _ _ ih ih' => exact ih'.trans ih

/-! ### The parts -/

theorem partsOf_injective : Function.Injective partsOf := by
  intro header other h
  have hjoin := congrArg (List.intercalate [',']) h
  rwa [partsOf, partsOf, List.intercalate_splitOn, List.intercalate_splitOn, String.toList_inj]
    at hjoin

theorem partsOf_of_blank (h : Blank header) : partsOf header = [header.toList] :=
  List.splitOn_eq_singleton fun hmem => absurd (h _ hmem) (by decide)

/-- A blank header has only itself as a part. -/
theorem not_blank_of_subperm (h : ¬ Blank header)
    (hparts : (partsOf header).Subperm (partsOf other)) : ¬ Blank other := by
  intro hblank
  obtain ⟨parts, hperm, hsub⟩ := hparts
  rw [partsOf_of_blank hblank] at hsub
  rcases List.sublist_singleton.mp hsub with rfl | rfl
  · exact List.splitOn_ne_nil _ _ (List.perm_nil.mp hperm.symm)
  · have hparts : partsOf header = partsOf other :=
      (List.singleton_perm.mp hperm).symm.trans (partsOf_of_blank hblank).symm
    exact h (partsOf_injective hparts ▸ hblank)

theorem json_of_subset (h : ¬ Blank header) (hparts : partsOf header ⊆ partsOf other)
    (hjson : Format.ofHeader header = .json) : Format.ofHeader other = .json := by
  obtain ⟨part, hpart, hadmits⟩ := (ofHeader_eq_json_iff.mp hjson).resolve_left h
  exact ofHeader_eq_json_iff.mpr (.inr ⟨part, hparts hpart, hadmits⟩)

theorem ofHeader_of_same_parts (h : ¬ Blank header)
    (hparts : (partsOf header).Subperm (partsOf other)) (hback : partsOf other ⊆ partsOf header) :
    Format.ofHeader other = Format.ofHeader header := by
  have hjson : Format.ofHeader other = .json ↔ Format.ofHeader header = .json :=
    ⟨json_of_subset (not_blank_of_subperm h hparts) hback, json_of_subset h hparts.subset⟩
  cases hother : Format.ofHeader other <;> cases hheader : Format.ofHeader header <;> simp_all

/-- Where no quality is `nan`, a part admits JSON exactly if it is a good candidate by itself, with
a quality above 0 and at most 1, and names a type and subtype that JSON falls under. -/
theorem admits_iff_own (h : Numeric header) (hpart : part ∈ partsOf header) :
    Admits part ↔ ∃ r, own part = [r] ∧ r.quality.IsUsable ∧ NamesJson part := by
  rw [own_eq (not_mem_of_mem_partsOf hpart)]
  constructor
  · intro hadmits
    obtain ⟨r, hr, -⟩ := id hadmits
    have hcontributes : r ∈ contributions header.toList := List.mem_filterMap.mpr ⟨part, hpart, hr⟩
    exact ⟨r, by rw [hr, Option.toList_some], isUsable_of_mem_contributions h r hcontributes,
      (admits_iff.mp hadmits).1⟩
  · rintro ⟨r, hr, -, hnames⟩
    obtain ⟨m, hm, hjson⟩ := isJson_ofMedia?_iff.mpr hnames
    have hr : ofPart? part = some r := by
      cases hpart : ofPart? part <;> simp_all
    refine ⟨r, hr, ?_⟩
    obtain ⟨m', qs, hm', -, -, rfl⟩ := ofPart?_eq_some_iff.mp hr
    obtain rfl := Option.some.inj (hm'.symm.trans hm)
    exact hjson

/-- Whether a header asks for JSON depends only on which of its parts are good candidates for it.
Blanks beside separators do not count. Unless the header is blank, more parts never take JSON away,
and neither the order of the parts counts nor how often one stands there. -/
theorem ofHeader_by_parts (header : String) :
    (Numeric header → (Format.ofHeader header = .json ↔ Blank header
      ∨ ∃ part ∈ partsOf header, ∃ r, own part = [r] ∧ r.quality.IsUsable ∧ NamesJson part))
    ∧ (∀ other, Respaced header other → Format.ofHeader other = Format.ofHeader header)
    ∧ (¬ Blank header → ∀ other,
      (partsOf header ⊆ partsOf other → Format.ofHeader header = .json →
        Format.ofHeader other = .json)
      ∧ ((partsOf header).Subperm (partsOf other) → partsOf other ⊆ partsOf header →
        Format.ofHeader other = Format.ofHeader header)) := by
  refine ⟨fun h => ?_, fun other => ofHeader_of_respaced,
    fun h other => ⟨json_of_subset h, ofHeader_of_same_parts h⟩⟩
  rw [ofHeader_eq_json_iff]
  refine or_congr_right (exists_congr fun part => and_congr_right fun hpart => ?_)
  exact admits_iff_own h hpart

/-- One header, with the blanks in other places, with its parts in another order and one of them
twice, and with more parts. -/
theorem ofHeader_by_parts_json :
    let header := "text/html, application/JSON;q=0.5"
    let spaced := "text/html,application/ JSON;q=0.5"
    let shuffled := " application/JSON;q=0.5,text/html, application/JSON;q=0.5"
    let longer := "text/html, application/JSON;q=0.5,application/json;q=2"
    (Numeric header ∧ ¬ Blank header ∧ Format.ofHeader header = .json)
    ∧ (Respaced header spaced ∧ Format.ofHeader spaced = .json)
    ∧ ((partsOf header).Subperm (partsOf shuffled) ∧ partsOf shuffled ⊆ partsOf header
      ∧ Format.ofHeader shuffled = .json)
    ∧ (partsOf header ⊆ partsOf longer ∧ Format.ofHeader longer = .json) := by
  intro header spaced shuffled longer
  have hnumeric : Numeric header := by decide +kernel
  have hnonblank : ¬ Blank header := fun h => absurd (h 't' (by decide)) (by decide)
  obtain ⟨hjson, hspaces, hparts⟩ := ofHeader_by_parts header
  have hanswer : Format.ofHeader header = .json := by
    refine (hjson hnumeric).mpr (.inr ⟨" application/JSON;q=0.5".toList, by decide, ?_⟩)
    refine ⟨⟨"application", "json", .number false 0x3fe0000000000000, []⟩, ?_, ?_, ?_⟩
    · rw [own_eq (by decide)]
      decide +kernel
    · refine Binary64.isUsable_iff.mpr ⟨Binary64.inUnit_iff.mpr (by decide), ?_⟩
      rw [Ne, Binary64.value?_eq_zero_iff]
      simp
    · exact ⟨" application".toList, "JSON".toList, by decide, by decide⟩
  have hspaced : Respaced header spaced := by
    have hless : Respaced header "text/html,application/JSON;q=0.5" :=
      .symm _ _ (.rel _ _ ⟨"text/html,".toList, "application/JSON;q=0.5".toList, ' ', by decide,
        by decide, by decide, .inl (by simp)⟩)
    have hmore : Respaced "text/html,application/JSON;q=0.5" spaced :=
      .rel _ _ ⟨"text/html,application/".toList, "JSON;q=0.5".toList, ' ', by decide, by decide,
        by decide, .inl (by simp)⟩
    exact hless.trans _ _ _ hmore
  have hsubperm : (partsOf header).Subperm (partsOf shuffled) := by decide
  have hback : partsOf shuffled ⊆ partsOf header := by decide
  have hlonger : partsOf header ⊆ partsOf longer := by decide
  refine ⟨⟨hnumeric, hnonblank, hanswer⟩, ⟨hspaced, ?_⟩, ⟨hsubperm, hback, ?_⟩, hlonger, ?_⟩
  · rw [hspaces spaced hspaced, hanswer]
  · rw [(hparts hnonblank shuffled).2 hsubperm hback, hanswer]
  · exact (hparts hnonblank longer).1 hlonger hanswer

end Ingest.Accept

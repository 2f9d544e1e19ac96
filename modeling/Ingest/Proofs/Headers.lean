import Mathlib
import Ingest.Http.Message

/-!
# Headers and their defaults

A request's own headers come first, and a default follows if the request has no header with its name
or if the first one with its name has no value (`Headers.withDefaults_eq`). Where names alone are to
decide, the defaults are therefore right unless a header without a value hides behind one of them.
-/

namespace Ingest

namespace Http

namespace Headers

variable {hs : Headers} {name : String}

/-- Among the headers is one with the name, in letters of either case. -/
def Names (hs : Headers) (name : String) : Prop :=
  ∃ h ∈ hs, Text.lower h.1.toList = Text.lower name.toList

/-- The first header with the name has no value. -/
def Blank (hs : Headers) (name : String) : Prop :=
  ∃ before h after, hs = before ++ h :: after ∧ ¬ Names before name
    ∧ Text.lower h.1.toList = Text.lower name.toList ∧ h.2 = ""

instance : Decidable (Names hs name) :=
  inferInstanceAs (Decidable (∃ h ∈ hs, Text.lower h.1.toList = Text.lower name.toList))

theorem sameName_iff {a b : String} :
    sameName a b = true ↔ Text.lower a.toList = Text.lower b.toList :=
  beq_iff_eq

theorem find?_eq_none_iff : (hs.find? fun h => sameName h.1 name) = none ↔ ¬ hs.Names name := by
  simp [Names, sameName_iff]

theorem blank_iff :
    hs.Blank name ↔ ∃ h, (hs.find? fun h => sameName h.1 name) = some h ∧ h.2 = "" := by
  simp only [List.find?_eq_some_iff_append, sameName_iff]
  constructor
  · rintro ⟨before, h, after, rfl, hnot, hname, hvalue⟩
    refine ⟨h, ⟨hname, before, after, rfl, fun x hx => ?_⟩, hvalue⟩
    have hother : ¬ sameName x.1 name = true := fun hsame => hnot ⟨x, hx, sameName_iff.mp hsame⟩
    simpa using hother
  · rintro ⟨h, ⟨hname, before, after, rfl, hnot⟩, hvalue⟩
    refine ⟨before, h, after, rfl, ?_, hname, hvalue⟩
    rintro ⟨x, hx, hsame⟩
    have hother := hnot x hx
    rw [sameName_iff.mpr hsame] at hother
    cases hother

theorem Blank.names (h : hs.Blank name) : hs.Names name := by
  obtain ⟨before, h, after, rfl, -, hname, -⟩ := h
  exact ⟨h, by simp, hname⟩

/-- There are two ways for a name to have no value. -/
theorem value_eq_empty_iff : hs.value name = "" ↔ ¬ hs.Names name ∨ hs.Blank name := by
  rw [← find?_eq_none_iff, blank_iff, value]
  split
  · rename_i h hfind
    simp [hfind]
  · rename_i hnone
    simp [hnone]

instance : Decidable (Blank hs name) :=
  decidable_of_iff (hs.Names name ∧ hs.value name = "") <| by
    rw [value_eq_empty_iff]
    exact ⟨fun h => h.2.resolve_left (not_not.mpr h.1), fun h => ⟨h.names, .inr h⟩⟩

/-- The request's headers come first, unchanged and in order. They are followed, in order, by
exactly the defaults for whose name the request has no header or a first one without a value. So they
are followed by exactly those for whose name it has none, unless there is one for whose name its
first header has no value. -/
theorem withDefaults_eq (request defaults : Headers) :
    request.withDefaults defaults
        = request ++ defaults.filter (fun d => ¬ request.Names d.1 ∨ request.Blank d.1)
      ∧ (request.withDefaults defaults = request ++ defaults.filter (fun d => ¬ request.Names d.1)
        ↔ ∀ d ∈ defaults, ¬ request.Blank d.1) := by
  have heq : request.withDefaults defaults
      = request ++ defaults.filter (fun d => ¬ request.Names d.1 ∨ request.Blank d.1) := by
    refine congrArg (request ++ ·) (List.filter_congr fun d _ => ?_)
    rw [Bool.eq_iff_iff, decide_eq_true_iff, ← value_eq_empty_iff, String.isEmpty_iff]
  refine ⟨heq, ?_⟩
  rw [heq, List.append_cancel_left_eq]
  constructor
  · intro hfilter d hd hblank
    have hkept : d ∈ defaults.filter (fun d => ¬ request.Names d.1 ∨ request.Blank d.1) :=
      List.mem_filter.mpr ⟨hd, by simp [hblank]⟩
    rw [hfilter, List.mem_filter, decide_eq_true_iff] at hkept
    exact hkept.2 hblank.names
  · intro hnone
    exact List.filter_congr fun d hd => by simp [hnone d hd]

/-- A header that a request has without a value does not keep the default away. -/
theorem blank_header_overridden :
    let request : Headers := [("Accept", "")]
    let defaults : Headers := [("accept", "*/*")]
    request.withDefaults defaults = [("Accept", ""), ("accept", "*/*")]
      ∧ request.withDefaults defaults
        ≠ request ++ defaults.filter (fun d => ¬ request.Names d.1) := by
  decide +kernel

end Headers

end Http

end Ingest

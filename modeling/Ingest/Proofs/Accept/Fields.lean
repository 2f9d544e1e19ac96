import Mathlib
import Ingest.Proofs.Accept.Quality
import Ingest.Proofs.Text

/-!
# What the fields of a part say

A field is cut at the first slash, if it is the type and subtype, and at the first equals sign, if
it is a parameter; blanks around what is on either side do not count.
-/

namespace Ingest.Accept.MediaRange

variable {field before after : List Char}

theorem mediaOf_mem (part : List Char) : mediaOf part ∈ part.splitOn ';' := by
  obtain ⟨media, fields, hsplit⟩ := List.exists_cons_of_ne_nil (List.splitOn_ne_nil ';' part)
  rw [mediaOf, hsplit]
  exact List.mem_cons_self

theorem fieldsOf_subset (part : List Char) : fieldsOf part ⊆ part.splitOn ';' :=
  (List.tail_suffix _).subset

theorem cut_trim {c : Char} (hc : Text.isBlank c = false) (h : c ∉ before) :
    Text.cut [c] (Text.trim (before ++ c :: after))
      = some (Text.trimStart before, Text.trimEnd after) := by
  rw [Text.trim_append_cons hc]
  exact Text.cut_eq_some_iff.mpr ⟨rfl, fun hmem => h ((List.dropWhile_suffix _).subset hmem)⟩

theorem keyValue_append (h : '=' ∉ before) : keyValue (Text.trim (before ++ '=' :: after))
    = (Text.lower (Text.trim before), Text.trim after) := by
  rw [keyValue, cut_trim (by decide) h]
  simp

theorem keyValue_of_not_mem (h : '=' ∉ field) :
    keyValue (Text.trim field) = (Text.lower (Text.trim field), []) := by
  rw [keyValue, Text.cut_eq_none_iff.mpr fun hmem => h (Text.trim_subset field hmem)]
  simp

/-- The type and subtype are what stands before and after the first slash. -/
theorem ofMedia?_append (h : '/' ∉ before) : ofMedia? (before ++ '/' :: after)
    = if Text.trim before = [] ∨ Text.trim after = []
        ∨ Text.trim before = ['*'] ∧ Text.trim after ≠ ['*'] then none
      else some ⟨String.ofList (Text.lower (Text.trim before)),
        String.ofList (Text.lower (Text.trim after)), .one, []⟩ := by
  have hstar : ∀ s, Text.lower s = ['*'] ↔ s = ['*'] :=
    fun s => Text.lower_eq_singleton_iff (by decide)
  simp only [ofMedia?, cut_trim (by decide) h, Option.bind_eq_bind, Option.bind_some,
    Text.trim_trimStart, Text.trim_trimEnd, List.isEmpty_iff, Text.lower_eq_nil_iff, ne_eq, hstar,
    Bool.or_eq_true]
  split_ifs <;> simp_all

theorem ofMedia?_of_not_mem (h : '/' ∉ field) : ofMedia? field = none := by
  rw [ofMedia?, Text.cut_eq_none_iff.mpr fun hmem => h (Text.trim_subset field hmem)]
  rfl

end Ingest.Accept.MediaRange

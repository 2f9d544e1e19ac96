import Mathlib
import Ingest.Feed

/-!
# Names with a dot between them

Two names that are joined by a dot may themselves have dots, and then the text does not say where it
was joined: it is the same for another pair if and only if the pairs part at two of its dots
(`dotted_eq_dotted_iff`).
-/

namespace Ingest

theorem append_cons_eq_append_cons_iff {α : Type} {x : α} {as bs cs ds : List α} :
    as ++ x :: bs = cs ++ x :: ds ↔ (as = cs ∧ bs = ds)
      ∨ (∃ es, cs = as ++ x :: es ∧ bs = es ++ x :: ds)
      ∨ ∃ es, as = cs ++ x :: es ∧ ds = es ++ x :: bs := by
  constructor
  · intro h
    rcases List.append_eq_append_iff.mp h with ⟨fs, rfl, hfs⟩ | ⟨fs, rfl, hfs⟩
    · rcases List.cons_eq_append_iff.mp hfs with ⟨rfl, hds⟩ | ⟨es, rfl, hbs⟩
      · exact .inl ⟨(List.append_nil as).symm, (List.cons.inj hds).2.symm⟩
      · exact .inr (.inl ⟨es, rfl, hbs⟩)
    · rcases List.cons_eq_append_iff.mp hfs with ⟨rfl, hbs⟩ | ⟨es, rfl, hds⟩
      · exact .inl ⟨List.append_nil cs, (List.cons.inj hbs).2⟩
      · exact .inr (.inr ⟨es, rfl, hds⟩)
  · rintro (⟨rfl, rfl⟩ | ⟨es, rfl, rfl⟩ | ⟨es, rfl, rfl⟩) <;> simp

theorem dotted_eq_dotted_iff {a b c d : String} :
    a ++ "." ++ b = c ++ "." ++ d ↔ (a = c ∧ b = d)
      ∨ (∃ s, c = a ++ "." ++ s ∧ b = s ++ "." ++ d)
      ∨ ∃ s, a = c ++ "." ++ s ∧ d = s ++ "." ++ b := by
  have hlist : ∀ s t u : String, s = t ++ "." ++ u ↔ s.toList = t.toList ++ '.' :: u.toList := by
    intro s t u
    rw [← String.toList_inj]
    simp
  have hex : ∀ p : List Char → Prop, (∃ es, p es) ↔ ∃ s : String, p s.toList := by
    intro p
    exact ⟨fun ⟨es, h⟩ => ⟨String.ofList es, by simpa using h⟩, fun ⟨s, h⟩ => ⟨_, h⟩⟩
  have hdot : (a ++ "." ++ b).toList = a.toList ++ '.' :: b.toList := by simp
  rw [hlist, hdot, append_cons_eq_append_cons_iff, hex, hex]
  simp only [hlist, String.toList_inj]

end Ingest

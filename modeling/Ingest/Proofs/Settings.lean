import Mathlib
import Ingest.Settings.Arguments

/-!
# What arguments can say

An argument ends at the character with code 0, so no text of the settings has one
(`Settings.plain_of_ofArguments`), and neither have the names of the tables that feeds write to.
-/

namespace Ingest

/-- A text without the character with code 0. -/
def Plain (s : String) : Prop :=
  '\x00' ∉ s.toList

instance : DecidablePred Plain :=
  fun s => inferInstanceAs (Decidable ('\x00' ∉ s.toList))

theorem plain_empty : Plain "" := by
  decide

theorem plain_untilNul (s : String) : Plain (untilNul s) := by
  intro h
  rw [untilNul, String.toList_ofList] at h
  simpa using List.mem_takeWhile_imp h

theorem Plain.untilNul {s : String} (h : Plain s) : untilNul s = s := by
  have hall : ∀ c ∈ s.toList, (c != '\x00') = true := by
    rintro c hc
    simpa using ne_of_mem_of_not_mem hc h
  rw [Ingest.untilNul, Text.beforeNul, List.takeWhile_eq_self_iff.mpr hall, String.ofList_toList]

theorem Text.subset_of_cut {sep s a b : List Char} (h : cut sep s = some (a, b)) : b ⊆ s := by
  induction s generalizing a b with
  | nil =>
    unfold cut at h
    split_ifs at h
    obtain ⟨rfl, rfl⟩ := Prod.mk.inj (Option.some.inj h)
    exact List.Subset.refl _
  | cons c s ih =>
    unfold cut at h
    split_ifs at h
    · obtain ⟨rfl, rfl⟩ := Prod.mk.inj (Option.some.inj h)
      exact List.drop_subset _ _
    · obtain ⟨p, hp, heq⟩ := Option.map_eq_some_iff.mp h
      obtain ⟨rfl, rfl⟩ := Prod.mk.inj heq
      exact List.subset_cons_of_subset _ (ih hp)

theorem Http.pathOf_subset (url : String) : Http.pathOf url ⊆ url.toList := by
  have hbare := List.takeWhile_subset (l := url.toList) (p := fun c => c != '?' && c != '#')
  unfold Http.pathOf
  simp only
  split
  · rename_i a b hcut
    exact List.Subset.trans (List.dropWhile_suffix _).subset
      (List.Subset.trans (Text.subset_of_cut hcut) hbare)
  · exact hbare

namespace Feed

/-- No text that says where a feed comes from or goes has the character with code 0. -/
structure Plain (f : Feed) : Prop where
  url : Ingest.Plain f.request.url
  database : Ingest.Plain f.database
  table : Ingest.Plain f.table

theorem Plain.resolvedTable {f : Feed} (h : f.Plain) : Ingest.Plain f.resolvedTable := by
  unfold Feed.resolvedTable
  split_ifs
  · intro hc
    rw [String.toList_ofList] at hc
    exact h.url (Http.pathOf_subset _ (List.mem_of_mem_filter hc))
  · exact h.table

end Feed

namespace Settings

namespace Draft

variable {d d' : Draft} {flag value : String}

/-- Every feed so far is plain. -/
def Plain (d : Draft) : Prop :=
  ∀ f ∈ d.settings.feeds, f.Plain

theorem Plain.of_feeds_eq (h : d.Plain) (heq : d'.settings.feeds = d.settings.feeds) :
    d'.Plain := by
  unfold Plain
  rwa [heq]

theorem Plain.modifyLatest {g : Feed → Feed} (h : d.Plain) (hg : ∀ f : Feed, f.Plain → (g f).Plain)
    (hd : d.modifyLatest flag g = .ok d') : d'.Plain := by
  unfold Draft.modifyLatest at hd
  split_ifs at hd
  obtain rfl := Except.ok.inj hd
  intro f hf
  obtain ⟨i, hi⟩ := List.mem_iff_getElem?.mp hf
  rw [Draft.modify, List.getElem?_modify, Option.map_eq_map, Option.map_eq_some_iff] at hi
  obtain ⟨f', hf', rfl⟩ := hi
  have hplain := h f' (List.mem_of_getElem? hf')
  split_ifs
  · exact hg f' hplain
  · exact hplain

theorem of_ite_eq {α : Type} {c p : Prop} [Decidable c] {x y z : α} (hx : x = z → p)
    (hy : y = z → p) : (if c then x else y) = z → p := by
  split_ifs <;> assumption

theorem Plain.take (h : d.Plain) (hvalue : Ingest.Plain value) (hd : d.take flag value = .ok d') :
    d'.Plain := by
  have hkeep : ∀ {d₁ : Draft}, d₁.settings.feeds = d.settings.feeds →
      (.ok d₁ : Except Error Draft) = .ok d' → d'.Plain := by
    rintro d₁ heq ⟨⟩
    exact h.of_feeds_eq heq
  have hmap : ∀ {g : ℤ → Draft}, (∀ n, (g n).settings.feeds = d.settings.feeds) →
      (integer flag value).map g = .ok d' → d'.Plain := by
    intro g hg hd
    rcases hn : integer flag value with e | n <;> rw [hn] at hd
    · cases hd
    · exact hkeep (hg n) hd
  revert hd
  unfold Draft.take
  refine of_ite_eq ?url <| of_ite_eq ?table <| of_ite_eq ?database <| of_ite_eq ?method <|
    of_ite_eq ?header <| of_ite_eq (hkeep rfl) <| of_ite_eq (hmap fun n => rfl) <|
    of_ite_eq (hmap fun n => rfl) <| of_ite_eq (hmap fun n => rfl) <| of_ite_eq ?workers <|
    of_ite_eq (hmap fun n => rfl) <| of_ite_eq (hkeep rfl) <| of_ite_eq (hkeep rfl) (by simp)
  case url =>
    rintro ⟨⟩ f hf
    rcases List.mem_append.mp hf with hf | hf
    · exact h f hf
    · obtain rfl := List.mem_singleton.mp hf
      exact ⟨hvalue, plain_empty, plain_empty⟩
  case table => exact h.modifyLatest fun f hf => ⟨hf.url, hf.database, hvalue⟩
  case database => exact h.modifyLatest fun f hf => ⟨hf.url, hvalue, hf.table⟩
  case method => exact h.modifyLatest fun f hf => ⟨hf.url, hf.database, hf.table⟩
  case header =>
    intro hd
    split at hd
    · cases hd
    · cases hd
    · rename_i d₁ header hd₁ hheader
      refine (h.modifyLatest (fun f hf => hf) hd₁).modifyLatest (fun f hf => ?_) hd
      exact ⟨hf.url, hf.database, hf.table⟩
  case workers =>
    intro hd
    rcases hn : integer flag value with e | n <;> simp only [hn, Except.bind] at hd
    · cases hd
    · revert hd
      exact of_ite_eq (by simp) (hkeep rfl)

/-- Settings that were checked have the feeds of the draft, and one at least. -/
theorem finish_eq_ok {s : Settings} (h : d.finish = .ok s) :
    s.feeds = d.settings.feeds ∧ s.feeds ≠ [] := by
  have hcheck : ∀ {s₁ : Settings}, s₁.feeds = d.settings.feeds → finish.check s₁ = .ok s →
      s.feeds = d.settings.feeds ∧ s.feeds ≠ [] := by
    intro s₁ heq h
    unfold finish.check at h
    split at h
    · cases h
    · rename_i hnone
      obtain rfl := Except.ok.inj h
      refine ⟨heq, fun hnil => ?_⟩
      simp [problem?, hnil] at hnone
  unfold finish at h
  split at h
  · cases h
  · cases h
  · refine hcheck ?_ h
    rfl
  · exact hcheck rfl h

theorem Plain.read {arguments : List String} (h : d.Plain)
    (harguments : ∀ a ∈ arguments, Ingest.Plain a) {s : Settings} (hs : d.read arguments = .ok s) :
    (∀ f ∈ s.feeds, f.Plain) ∧ (s.help = false → s.feeds ≠ []) := by
  have hfinish : ∀ {d₁ : Draft}, d₁.Plain → d₁.finish = .ok s →
      (∀ f ∈ s.feeds, f.Plain) ∧ (s.help = false → s.feeds ≠ []) := by
    intro d₁ h₁ hs
    obtain ⟨heq, hne⟩ := finish_eq_ok hs
    exact ⟨heq ▸ h₁, fun _ => hne⟩
  induction d, arguments using Draft.read.induct with
  | case1 d => exact hfinish h hs
  | case2 d flag hhelp =>
    rw [Draft.read, if_pos hhelp] at hs
    obtain rfl := Except.ok.inj hs
    exact ⟨h, fun hno => by cases hno⟩
  | case3 d hhelp =>
    rw [Draft.read, if_neg hhelp, if_pos rfl] at hs
    refine hfinish ?_ hs
    exact h
  | case4 d flag hhelp htruncate =>
    rw [Draft.read, if_neg hhelp, if_neg htruncate] at hs
    cases hs
  | case5 d flag value rest hhelp =>
    rw [Draft.read, if_pos hhelp] at hs
    obtain rfl := Except.ok.inj hs
    exact ⟨h, fun hno => by cases hno⟩
  | case6 d value rest hhelp ih =>
    rw [Draft.read, if_neg hhelp, if_pos rfl] at hs
    exact ih h (fun a ha => harguments a (List.mem_cons_of_mem _ ha)) hs
  | case7 d flag value rest hhelp htruncate ih =>
    rw [Draft.read, if_neg hhelp, if_neg htruncate] at hs
    rcases hd : d.take flag value with e | d₁ <;> rw [hd] at hs
    · cases hs
    · refine ih d₁ (h.take (harguments value (by simp)) hd) (fun a ha => harguments a ?_) hs
      exact List.mem_cons_of_mem _ (List.mem_cons_of_mem _ ha)

end Draft

/-- The feeds of settings that were read from arguments are plain, and there is one at least unless
the arguments call for help. -/
theorem plain_of_ofArguments {arguments : List String} {s : Settings}
    (h : ofArguments arguments = .ok s) :
    (∀ f ∈ s.feeds, f.Plain) ∧ (s.help = false → s.feeds ≠ []) := by
  refine Draft.Plain.read (d := {}) (by simp [Draft.Plain]) (fun a ha => ?_) h
  obtain ⟨b, -, rfl⟩ := List.mem_map.mp ha
  exact plain_untilNul b

end Settings

end Ingest

import Mathlib
import Ingest.Catalog

/-!
# What catalogs hold

A catalog that comes from setting values is in the order of its names (`Sorted`), so that it holds
one value under each name. What a fold over its entries appends to another catalog is then what it
holds (`listAt_foldl_append`).
-/

namespace Ingest

namespace Catalog

variable {α : Type}

/-- The entries are in the order of their names, each once. -/
def Sorted (c : Catalog α) : Prop :=
  c.entries.Pairwise fun a b => a.1 < b.1

theorem sorted_empty : Sorted ({} : Catalog α) :=
  List.Pairwise.nil

@[simp] theorem get?_empty (name : String) : ({} : Catalog α).get? name = none := rfl

@[simp] theorem set_empty (name : String) (v : α) :
    ({} : Catalog α).set name v = ⟨[(name, v)]⟩ := rfl

@[simp] theorem get?_singleton (name : String) (v : α) :
    (⟨[(name, v)]⟩ : Catalog α).get? name = some v := by
  simp [get?, find]

@[simp] theorem set_singleton (name : String) (v w : α) :
    (⟨[(name, v)]⟩ : Catalog α).set name w = ⟨[(name, w)]⟩ := by
  simp [set, insert]

theorem find_eq_none_of_forall_ne {name : String} {es : List (String × α)}
    (h : ∀ e ∈ es, e.1 ≠ name) : find name es = none := by
  induction es with
  | nil => rfl
  | cons e es ih =>
    rw [find, if_neg (h e List.mem_cons_self)]
    exact ih fun e he => h e (List.mem_cons_of_mem _ he)

theorem forall_mem_insert {p : String × α → Prop} {name : String} {v : α}
    {es : List (String × α)} (hv : p (name, v)) (hes : ∀ e ∈ es, p e) :
    ∀ e ∈ insert name v es, p e := by
  induction es with
  | nil => simpa [insert] using hv
  | cons x es ih =>
    obtain ⟨n, w⟩ := x
    obtain ⟨hx, hrest⟩ := List.forall_mem_cons.mp hes
    unfold insert
    split_ifs with heq
    · exact List.forall_mem_cons.mpr ⟨heq ▸ hv, hrest⟩
    · exact List.forall_mem_cons.mpr ⟨hv, hes⟩
    · exact List.forall_mem_cons.mpr ⟨hx, ih hrest⟩

theorem Sorted.set {c : Catalog α} (h : c.Sorted) (name : String) (v : α) :
    (c.set name v).Sorted := by
  obtain ⟨es⟩ := c
  show (insert name v es).Pairwise _
  replace h : es.Pairwise fun a b => a.1 < b.1 := h
  induction es with
  | nil => exact List.pairwise_singleton _ _
  | cons e es ih =>
    obtain ⟨n, w⟩ := e
    obtain ⟨hn, hes⟩ := List.pairwise_cons.mp h
    unfold insert
    split_ifs with heq hlt
    · exact List.pairwise_cons.mpr ⟨hn, hes⟩
    · have hall : ∀ e ∈ es, name < e.1 := fun e he => hlt.trans (hn e he)
      exact List.pairwise_cons.mpr ⟨List.forall_mem_cons.mpr ⟨hlt, hall⟩, h⟩
    · have hself : n < name := lt_of_le_of_ne (not_lt.mp hlt) heq
      exact List.pairwise_cons.mpr ⟨forall_mem_insert hself hn, ih hes⟩

theorem get?_erase_self (c : Catalog α) (name : String) : (c.erase name).get? name = none :=
  find_eq_none_of_forall_ne fun e he => by
    have := (List.mem_filter.mp he).2
    simpa using this

theorem get?_erase_of_ne (c : Catalog α) {name other : String} (h : other ≠ name) :
    (c.erase name).get? other = c.get? other := by
  obtain ⟨es⟩ := c
  show find other (es.filter fun e => e.1 ≠ name) = find other es
  induction es with
  | nil => rfl
  | cons e es ih =>
    obtain ⟨n, w⟩ := e
    by_cases hn : n = name
    · subst hn
      simpa [find, h.symm] using ih
    · rw [List.filter_cons_of_pos (by simpa using hn), find, find, ih]

theorem mem_of_get? {c : Catalog α} {name : String} {v : α} (h : c.get? name = some v) :
    (name, v) ∈ c.entries := by
  obtain ⟨es⟩ := c
  replace h : find name es = some v := h
  show (name, v) ∈ es
  induction es with
  | nil => cases h
  | cons e es ih =>
    obtain ⟨n, w⟩ := e
    rw [find] at h
    split_ifs at h with hn
    · obtain rfl := Option.some.inj h
      rw [hn]
      exact List.mem_cons_self
    · exact List.mem_cons_of_mem _ (ih h)

theorem forall_get?_set {c : Catalog α} {p : α → Prop} (h : ∀ name, ∀ v ∈ c.get? name, p v)
    {name : String} {v : α} (hv : p v) : ∀ other, ∀ w ∈ (c.set name v).get? other, p w := by
  intro other w hw
  by_cases hname : other = name
  · subst hname
    rw [get?_set_self] at hw
    exact Option.mem_some.mp hw ▸ hv
  · rw [get?_set_of_ne c hname] at hw
    exact h other w hw

theorem forall_get?_erase {c : Catalog α} {p : α → Prop} (h : ∀ name, ∀ v ∈ c.get? name, p v)
    (name : String) : ∀ other, ∀ w ∈ (c.erase name).get? other, p w := by
  intro other w hw
  by_cases hname : other = name
  · subst hname
    rw [get?_erase_self] at hw
    cases hw
  · rw [get?_erase_of_ne c hname] at hw
    exact h other w hw

/-! ### The entries, but for their order -/

theorem Sorted.erase {c : Catalog α} (h : c.Sorted) (name : String) : (c.erase name).Sorted :=
  h.filter _

theorem filter_ne_of_forall_ne {name : String} {es : List (String × α)}
    (h : ∀ e ∈ es, e.1 ≠ name) : es.filter (fun e => e.1 ≠ name) = es :=
  List.filter_eq_self.mpr fun e he => by simpa using h e he

theorem erase_of_get?_eq_none {c : Catalog α} {name : String} (h : c.get? name = none) :
    c.erase name = c := by
  obtain ⟨es⟩ := c
  replace h : find name es = none := h
  have hne : ∀ e ∈ es, e.1 ≠ name := by
    induction es with
    | nil => simp
    | cons e es ih =>
      rw [find] at h
      split_ifs at h with hn
      exact List.forall_mem_cons.mpr ⟨hn, ih h⟩
  rw [erase, filter_ne_of_forall_ne hne]

/-- What is under a name, and all the rest. -/
theorem Sorted.perm_of_get? {c : Catalog α} (h : c.Sorted) {name : String} {v : α}
    (hv : c.get? name = some v) : c.entries.Perm ((name, v) :: (c.erase name).entries) := by
  obtain ⟨es⟩ := c
  show es.Perm ((name, v) :: es.filter fun e => e.1 ≠ name)
  replace hv : find name es = some v := hv
  replace h : es.Pairwise fun a b => a.1 < b.1 := h
  induction es with
  | nil => cases hv
  | cons e es ih =>
    obtain ⟨n, w⟩ := e
    obtain ⟨hn, hes⟩ := List.pairwise_cons.mp h
    rw [find] at hv
    split_ifs at hv with heq
    · obtain rfl := Option.some.inj hv
      subst heq
      rw [List.filter_cons_of_neg (by simp),
        filter_ne_of_forall_ne fun e he => (hn e he).ne']
    · rw [List.filter_cons_of_pos (by simpa using heq)]
      exact ((ih hv hes).cons _).trans (List.Perm.swap _ _ _)

theorem Sorted.perm_set {c : Catalog α} (h : c.Sorted) (name : String) (v : α) :
    (c.set name v).entries.Perm ((name, v) :: (c.erase name).entries) := by
  have herase : (c.set name v).erase name = c.erase name := by
    obtain ⟨es⟩ := c
    show (⟨(insert name v es).filter fun e => e.1 ≠ name⟩ : Catalog α)
      = ⟨es.filter fun e => e.1 ≠ name⟩
    congr 1
    induction es with
    | nil => simp [insert]
    | cons e es ih =>
      obtain ⟨n, w⟩ := e
      unfold insert
      split_ifs with heq hlt
      · simp [heq]
      · simp
      · rw [List.filter_cons, List.filter_cons, ih (List.pairwise_cons.mp h).2]
  rw [← herase]
  exact (h.set name v).perm_of_get? (get?_set_self c name v)

/-! ### Lists under names -/

theorem listAt_set_self (c : Catalog (List α)) (name : String) (xs : List α) :
    (c.set name xs).listAt name = xs := by
  simp [listAt]

theorem listAt_set_of_ne (c : Catalog (List α)) {name other : String} (h : other ≠ name)
    (xs : List α) : (c.set name xs).listAt other = c.listAt other := by
  simp [listAt, get?_set_of_ne c h]

theorem listAt_append (c : Catalog (List α)) (name other : String) (xs : List α) :
    (c.append name xs).listAt other
      = c.listAt other ++ if name = other then xs else [] := by
  by_cases h : name = other
  · subst h
    rw [append, listAt_set_self, if_pos rfl]
  · rw [append, listAt_set_of_ne c (Ne.symm h), if_neg h, List.append_nil]

theorem contains_append (c : Catalog (List α)) (name other : String) (xs : List α) :
    (c.append name xs).contains other = (c.contains other || decide (name = other)) := by
  by_cases h : name = other
  · subst h
    simp [contains, append]
  · simp [contains, append, get?_set_of_ne c (Ne.symm h), h]

theorem contains_modify (c : Catalog α) (name other : String) (f : α → α) :
    (c.modify name f).contains other = c.contains other := by
  unfold modify
  cases hv : c.get? name with
  | none => rfl
  | some v =>
    by_cases h : other = name
    · subst h
      simp [contains, hv]
    · simp [contains, get?_set_of_ne c h]

/-- To make the list under a name empty. -/
theorem listAt_modify_nil (c : Catalog (List α)) (name other : String) :
    (c.modify name fun _ => []).listAt other = if name = other then [] else c.listAt other := by
  unfold modify
  by_cases h : name = other
  · subst h
    rw [if_pos rfl]
    cases hv : c.get? name with
    | none => simp [listAt, hv]
    | some v => exact listAt_set_self _ _ _
  · rw [if_neg h]
    cases c.get? name with
    | none => rfl
    | some v => exact listAt_set_of_ne c (Ne.symm h) _

theorem Sorted.append {c : Catalog (List α)} (h : c.Sorted) (name : String) (xs : List α) :
    (c.append name xs).Sorted :=
  h.set _ _

theorem Sorted.modify {c : Catalog α} (h : c.Sorted) (name : String) (f : α → α) :
    (c.modify name f).Sorted := by
  unfold Catalog.modify
  split
  · exact h.set _ _
  · exact h

theorem Sorted.foldl_append {c : Catalog (List α)} (h : c.Sorted) (es : List (String × List α)) :
    (es.foldl (fun c e => c.append e.1 e.2) c).Sorted := by
  induction es generalizing c with
  | nil => exact h
  | cons e es ih => exact ih (h.append _ _)

theorem listAt_foldl_append (c : Catalog (List α)) {d : Catalog (List α)} (h : d.Sorted)
    (name : String) : (d.entries.foldl (fun c e => c.append e.1 e.2) c).listAt name
      = c.listAt name ++ d.listAt name := by
  obtain ⟨es⟩ := d
  replace h : es.Pairwise fun a b => a.1 < b.1 := h
  induction es generalizing c with
  | nil => simp [listAt, get?, find]
  | cons e es ih =>
    obtain ⟨n, xs⟩ := e
    obtain ⟨hn, hes⟩ := List.pairwise_cons.mp h
    rw [List.foldl_cons, ih _ hes, listAt_append, List.append_assoc]
    by_cases heq : n = name
    · subst heq
      have hnone : find n es = none := find_eq_none_of_forall_ne fun e he => (hn e he).ne'
      simp [listAt, get?, find, hnone]
    · simp [listAt, get?, find, heq]

theorem contains_foldl_append (c d : Catalog (List α)) (name : String) :
    (d.entries.foldl (fun c e => c.append e.1 e.2) c).contains name
      = (c.contains name || d.contains name) := by
  obtain ⟨es⟩ := d
  induction es generalizing c with
  | nil => simp [contains, get?, find]
  | cons e es ih =>
    obtain ⟨n, xs⟩ := e
    rw [List.foldl_cons, ih, contains_append]
    by_cases heq : n = name
    · subst heq
      simp [contains, get?, find]
    · simp [contains, get?, find, heq]

end Catalog

end Ingest

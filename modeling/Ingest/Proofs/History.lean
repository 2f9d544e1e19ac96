import Mathlib

/-!
# Histories

A system is given by what each event makes of a state, if the event can happen then. A history is a
list of events that happen one after the other (`follow?`). What holds of every history is proved
once by `follow?_induction`: at the start, and kept when one more event happens.

`along` collects what there is to see while a history runs.
-/

namespace Ingest

variable {τ ε α : Type*}

/-- The state that events lead to, one after the other; none if one of them cannot happen in its
turn. -/
def follow? (step? : τ → ε → Option τ) : τ → List ε → Option τ
  | t, [] => some t
  | t, e :: es =>
    match step? t e with
    | none => none
    | some t => follow? step? t es

/-- What there is to see while events happen, in order. -/
def along (step? : τ → ε → Option τ) (look : τ → ε → List α) : τ → List ε → List α
  | _, [] => []
  | t, e :: es =>
    match step? t e with
    | none => []
    | some t' => look t e ++ along step? look t' es

variable {step? : τ → ε → Option τ}

theorem follow?_append (t : τ) (es es' : List ε) :
    follow? step? t (es ++ es') = (follow? step? t es).bind fun t => follow? step? t es' := by
  induction es generalizing t with
  | nil => rfl
  | cons e es ih =>
    simp only [List.cons_append, follow?]
    cases step? t e with
    | none => rfl
    | some t' => exact ih t'

theorem follow?_append_eq_some {t t' : τ} {es es' : List ε} :
    follow? step? t (es ++ es') = some t' ↔
      ∃ t₁, follow? step? t es = some t₁ ∧ follow? step? t₁ es' = some t' := by
  rw [follow?_append, Option.bind_eq_some_iff]

theorem follow?_cons_eq_some {t t' : τ} {e : ε} {es : List ε} :
    follow? step? t (e :: es) = some t' ↔
      ∃ t₁, step? t e = some t₁ ∧ follow? step? t₁ es = some t' := by
  rw [follow?]
  cases step? t e <;> simp

theorem follow?_singleton_eq_some {t t' : τ} {e : ε} :
    follow? step? t [e] = some t' ↔ step? t e = some t' := by
  rw [follow?_cons_eq_some]
  simp [follow?]

theorem along_append (look : τ → ε → List α) {t t₁ : τ} {es : List ε} (es' : List ε)
    (h : follow? step? t es = some t₁) :
    along step? look t (es ++ es') = along step? look t es ++ along step? look t₁ es' := by
  induction es generalizing t with
  | nil =>
    simp only [follow?, Option.some.injEq] at h
    subst h
    simp [along]
  | cons e es ih =>
    simp only [List.cons_append, follow?, along] at h ⊢
    cases hs : step? t e with
    | none => simp [hs] at h
    | some t' =>
      simp only [hs] at h ⊢
      rw [ih h, List.append_assoc]

theorem along_singleton (look : τ → ε → List α) {t t' : τ} {e : ε} (h : step? t e = some t') :
    along step? look t [e] = look t e := by
  simp [along, h]

theorem filterMap_along {β γ : Type*} {look : τ → ε → List α} {look' : τ → ε → List β}
    {f : α → Option γ} {g : β → Option γ}
    (h : ∀ t e, (look t e).filterMap f = (look' t e).filterMap g) (t : τ) (es : List ε) :
    (along step? look t es).filterMap f = (along step? look' t es).filterMap g := by
  induction es generalizing t with
  | nil => rfl
  | cons e es ih =>
    unfold along
    cases step? t e with
    | none => rfl
    | some t' => simp only [List.filterMap_append, h, ih]

/-- What holds at the start and is kept by every event that can happen holds of every history. -/
theorem follow?_induction {t₀ : τ} (P : List ε → τ → Prop) (h₀ : P [] t₀)
    (hstep : ∀ es e t t', follow? step? t₀ es = some t → P es t → step? t e = some t' →
      P (es ++ [e]) t') :
    ∀ (es : List ε) {t : τ}, follow? step? t₀ es = some t → P es t := by
  intro es
  induction es using List.reverseRecOn with
  | nil =>
    intro t h
    simp only [follow?, Option.some.injEq] at h
    exact h ▸ h₀
  | append_singleton es e ih =>
    intro t h
    obtain ⟨t₁, h₁, h⟩ := follow?_append_eq_some.mp h
    exact hstep es e t₁ t h₁ (ih h₁) (follow?_singleton_eq_some.mp h)

/-- What every event keeps that the history is made of holds at its end. -/
theorem follow?_invariant {P : τ → Prop} {es : List ε} {t t' : τ}
    (hstep : ∀ e ∈ es, ∀ t t', P t → step? t e = some t' → P t')
    (h₀ : P t) (h : follow? step? t es = some t') : P t' := by
  induction es generalizing t with
  | nil =>
    simp only [follow?, Option.some.injEq] at h
    exact h ▸ h₀
  | cons e es ih =>
    obtain ⟨t₁, hs, h⟩ := follow?_cons_eq_some.mp h
    exact ih (fun e he => hstep e (List.mem_cons_of_mem _ he))
      (hstep e List.mem_cons_self t t₁ h₀ hs) h

/-- If every event of a kind makes a load smaller and no other makes it larger, then as many of that
kind can happen as the load is at first. -/
theorem countP_add_load_le (load : τ → ℕ) {isMove : ε → Bool} {P : τ → Prop} {es : List ε}
    {t t' : τ} (hstep : ∀ e ∈ es, ∀ t t', P t → step? t e = some t' →
      P t' ∧ load t' + (if isMove e then 1 else 0) ≤ load t)
    (h₀ : P t) (h : follow? step? t es = some t') : es.countP isMove + load t' ≤ load t := by
  induction es generalizing t with
  | nil =>
    simp only [follow?, Option.some.injEq] at h
    simp [h]
  | cons e es ih =>
    obtain ⟨t₁, hs, h⟩ := follow?_cons_eq_some.mp h
    obtain ⟨h₁, hle⟩ := hstep e List.mem_cons_self t t₁ h₀ hs
    have := ih (fun e he => hstep e (List.mem_cons_of_mem _ he)) h₁ h
    rw [List.countP_cons]
    omega

/-! ### A list in which one element changes, or that gets another one

What a list holds altogether changes by what the changed element holds. -/

section Change

variable {β : Type*} {l : List α} {k : ℕ} {a b : α}

theorem exists_split_of_getElem? (h : l[k]? = some a) :
    ∃ l₁ l₂, l = l₁ ++ a :: l₂ ∧ ∀ b, l.set k b = l₁ ++ b :: l₂ := by
  obtain ⟨hk, rfl⟩ := List.getElem?_eq_some_iff.mp h
  refine ⟨l.take k, l.drop (k + 1), ?_, fun b => ?_⟩
  · rw [← List.drop_eq_getElem_cons hk, List.take_append_drop]
  · rw [List.set_eq_take_append_cons_drop, if_pos hk]

theorem count_flatMap_set [BEq β] (f : α → List β) (x : β) (h : l[k]? = some a) :
    ((l.set k b).flatMap f).count x + (f a).count x =
      (l.flatMap f).count x + (f b).count x := by
  obtain ⟨l₁, l₂, hl, hset⟩ := exists_split_of_getElem? h
  rw [hset, hl]
  simp only [List.flatMap_append, List.flatMap_cons, List.count_append]
  omega

theorem sum_map_set (f : α → ℕ) (h : l[k]? = some a) :
    ((l.set k b).map f).sum + f a = (l.map f).sum + f b := by
  obtain ⟨l₁, l₂, hl, hset⟩ := exists_split_of_getElem? h
  rw [hset, hl]
  simp only [List.map_append, List.map_cons, List.sum_append, List.sum_cons]
  omega

theorem countP_set_add (p : α → Bool) (h : l[k]? = some a) :
    (l.set k b).countP p + (if p a then 1 else 0) = l.countP p + (if p b then 1 else 0) := by
  obtain ⟨l₁, l₂, hl, hset⟩ := exists_split_of_getElem? h
  rw [hset, hl]
  simp only [List.countP_append, List.countP_cons]
  omega

theorem set_eq_singleton {c : α} (h : l[k]? = some a) (hset : l.set k b = [c]) :
    l = [a] ∧ b = c := by
  obtain ⟨l₁, l₂, hl, hsplit⟩ := exists_split_of_getElem? h
  rw [hsplit, List.append_eq_singleton_iff] at hset
  rcases hset with ⟨rfl, hset⟩ | ⟨-, hset⟩
  · obtain ⟨rfl, rfl⟩ := List.cons.inj hset
    exact ⟨hl, rfl⟩
  · cases hset

/-- An element of a list with one more behind it. -/
theorem getElem?_concat_cases (h : (l ++ [b])[k]? = some a) :
    l[k]? = some a ∨ k = l.length ∧ a = b := by
  rcases lt_or_ge k l.length with hk | hk
  · rw [List.getElem?_append_left hk] at h
    exact .inl h
  · rw [List.getElem?_append_right hk, List.getElem?_singleton] at h
    split_ifs at h with hz
    exact .inr ⟨by omega, (Option.some.inj h).symm⟩

/-- What holds of every element and of the new one holds of every element afterwards. -/
theorem forall_mem_set {p : α → Prop} (h : ∀ x ∈ l, p x) (hb : p b) : ∀ x ∈ l.set k b, p x := by
  intro x hx
  rcases List.mem_or_eq_of_mem_set hx with hx | rfl
  · exact h x hx
  · exact hb

end Change

end Ingest

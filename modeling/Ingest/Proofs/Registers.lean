import Mathlib
import Ingest.Error.Registers

/-!
# What registers keep

Registers that come from opening slots and noting errors are `Valid`: a slot's error is the first
that was noted there, its count is that of all others, and the path of a slot names slots that
exist, each once and itself among them. Noting an error changes one slot (`noted_note`) and no path
(`path_note`).
-/

namespace Ingest

namespace Slot

@[simp] theorem note_path (s : Slot) (e : Error) : (s.note e).path = s.path := by
  unfold note
  split <;> rfl

@[simp] theorem note_noted (s : Slot) (e : Error) : (s.note e).noted = s.noted ++ [e] := by
  unfold note
  split <;> rfl

/-- The slot shows the first error that was noted, and how many came after it. -/
def Shows (s : Slot) : Prop :=
  s.error = s.noted.head? ∧ s.dropped = s.noted.length - 1

theorem Shows.note {s : Slot} (h : s.Shows) (e : Error) : (s.note e).Shows := by
  obtain ⟨he, hd⟩ := h
  unfold Slot.note
  rcases hn : s.noted with _ | ⟨x, xs⟩ <;> rw [hn] at he hd
  · simpa [Shows, he, hn] using hd
  · simp [Shows, he, hd]

end Slot

namespace Registers

/-- Every slot shows what was noted there, and its path runs once through slots that exist. -/
def Valid (rs : Registers) : Prop :=
  ∀ (i : ℕ) (s : Slot), rs[i]? = some s → s.Shows ∧ s.path.Nodup ∧ i ∈ s.path ∧ ∀ j ∈ s.path, j < rs.length

theorem valid_nil : Valid [] := by
  intro i s h
  simp at h

theorem getElem?_note (rs : Registers) (i j : ℕ) (e : Error) :
    (rs.note i e)[j]? = if i = j then rs[j]?.map (·.note e) else rs[j]? := by
  unfold note
  rw [List.getElem?_modify]
  cases rs[j]? <;> split <;> rfl

@[simp] theorem length_note (rs : Registers) (i : ℕ) (e : Error) :
    (rs.note i e).length = rs.length := by
  simp [note]

@[simp] theorem path_note (rs : Registers) (i j : ℕ) (e : Error) :
    (rs.note i e).path j = rs.path j := by
  unfold path
  rw [getElem?_note]
  by_cases hij : i = j
  · rw [if_pos hij]
    cases rs[j]? <;> simp
  · rw [if_neg hij]

theorem noted_note {rs : Registers} {j : ℕ} (hj : j < rs.length) (i : ℕ) (e : Error) :
    (rs.note i e).noted j = rs.noted j ++ if i = j then [e] else [] := by
  unfold noted
  rw [getElem?_note, List.getElem?_eq_getElem hj]
  by_cases hij : i = j <;> simp [hij]

theorem Valid.note {rs : Registers} (h : rs.Valid) (i : ℕ) (e : Error) : (rs.note i e).Valid := by
  intro j s hs
  rw [getElem?_note] at hs
  have key : ∀ s', rs[j]? = some s' → s'.path.Nodup ∧ j ∈ s'.path
      ∧ ∀ k ∈ s'.path, k < (rs.note i e).length := by
    intro s' hs'
    rw [length_note]
    exact (h j s' hs').2
  split at hs
  · obtain ⟨s', hs', rfl⟩ := Option.map_eq_some_iff.mp hs
    exact ⟨(h j s' hs').1.note e, by simpa using key s' hs'⟩
  · exact ⟨(h j s hs).1, key s hs⟩

theorem path_eq {rs : Registers} {i : ℕ} {s : Slot} (h : rs[i]? = some s) : rs.path i = s.path := by
  simp [path, h]

theorem Valid.path_nodup {rs : Registers} (h : rs.Valid) (i : ℕ) : (rs.path i).Nodup := by
  cases hs : rs[i]? with
  | none => simp [path, hs]
  | some s => rw [path_eq hs]; exact (h i s hs).2.1

theorem Valid.lt_of_mem_path {rs : Registers} (h : rs.Valid) {i j : ℕ} (hj : j ∈ rs.path i) :
    j < rs.length := by
  cases hs : rs[i]? with
  | none => simp [path, hs] at hj
  | some s => rw [path_eq hs] at hj; exact (h i s hs).2.2.2 j hj

theorem Valid.mem_path {rs : Registers} (h : rs.Valid) {i : ℕ} (hi : i < rs.length) :
    i ∈ rs.path i := by
  have hs := List.getElem?_eq_getElem hi
  rw [path_eq hs]
  exact (h i _ hs).2.2.1

/-- A slot holds the first error that was noted there. -/
theorem Valid.error?_eq {rs : Registers} (h : rs.Valid) (i : ℕ) :
    rs.error? i = (rs.noted i).head? := by
  unfold error? noted
  cases hs : rs[i]? with
  | none => rfl
  | some s => exact (h i s hs).1.1

theorem error?_eq_none {rs : Registers} (h : rs.Valid) {i : ℕ} :
    rs.error? i = none ↔ rs.noted i = [] := by
  rw [h.error?_eq, List.head?_eq_none_iff]

/-! ### Opening a slot -/

@[simp] theorem length_openSlot (rs : Registers) (above : Option ℕ) :
    (rs.openSlot above).length = rs.length + 1 := by
  simp [openSlot]

theorem getElem?_openSlot_of_lt {rs : Registers} {i : ℕ} (hi : i < rs.length)
    (above : Option ℕ) : (rs.openSlot above)[i]? = rs[i]? := by
  simp [openSlot, List.getElem?_append_left hi]

theorem path_openSlot_of_lt {rs : Registers} {i : ℕ} (hi : i < rs.length) (above : Option ℕ) :
    (rs.openSlot above).path i = rs.path i := by
  unfold path
  rw [getElem?_openSlot_of_lt hi]

theorem path_openSlot_none (rs : Registers) : (rs.openSlot none).path rs.length = [rs.length] := by
  simp [openSlot, path, next]

theorem path_openSlot_some (rs : Registers) (i : ℕ) :
    (rs.openSlot (some i)).path rs.length = rs.path i ++ [rs.length] := by
  simp [openSlot, path, next]

@[simp] theorem noted_openSlot (rs : Registers) (above : Option ℕ) (i : ℕ) :
    (rs.openSlot above).noted i = rs.noted i := by
  unfold noted
  rcases Nat.lt_trichotomy i rs.length with hi | rfl | hi
  · rw [getElem?_openSlot_of_lt hi]
  · simp [openSlot]
  · rw [List.getElem?_eq_none (by simp; omega), List.getElem?_eq_none hi.le]

theorem Valid.openSlot {rs : Registers} (h : rs.Valid) (above : Option ℕ) :
    (rs.openSlot above).Valid := by
  intro i s hs
  rw [length_openSlot]
  rcases Nat.lt_or_ge i rs.length with hi | hi
  · rw [getElem?_openSlot_of_lt hi] at hs
    obtain ⟨h1, h2, h3, h4⟩ := h i s hs
    exact ⟨h1, h2, h3, fun j hj => (h4 j hj).trans (Nat.lt_succ_self _)⟩
  · obtain rfl : i = rs.length := by
      have := (List.getElem?_eq_some_iff.mp hs).1
      rw [length_openSlot] at this
      omega
    have hshows : s.Shows := by
      simp only [Registers.openSlot, List.getElem?_concat_length, Option.some.injEq] at hs
      subst hs
      simp [Slot.Shows]
    refine ⟨hshows, ?_⟩
    rw [← path_eq hs]
    cases above with
    | none =>
      rw [path_openSlot_none]
      simp
    | some k =>
      rw [path_openSlot_some, List.nodup_append]
      refine ⟨⟨h.path_nodup k, by simp, fun j hj l hl => ?_⟩, by simp, fun j hj => ?_⟩
      · have := h.lt_of_mem_path hj
        rw [List.mem_singleton] at hl
        omega
      · rcases List.mem_append.mp hj with hj | hj
        · exact (h.lt_of_mem_path hj).trans (Nat.lt_succ_self _)
        · rw [List.mem_singleton] at hj
          omega

end Registers

end Ingest

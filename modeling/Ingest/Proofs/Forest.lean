import Ingest.Proofs.History
import Ingest.Proofs.Registers

/-!
# Forests of registers

Registers by their history: slots are opened, on their own or below a slot that is there, and errors
are recorded, in any order (`Registers.act?`). The parents that the slots were given make a forest,
`Over` says who stands above whom, and `below` lists what was recorded in a slot or further down.

A slot's path is the way up (`Grown.mem_path_iff`), so that a record is noted in the slot and in all
above it, and in no other (`noted_record`). `first_error_wins` draws the consequences.
-/

namespace Ingest.Registers

/-- What can happen to registers. -/
inductive Event where
  /-- A slot is opened, below another one or on its own. -/
  | opened (above : Option ℕ)
  | recorded (slot : ℕ) (e : Error)
  deriving DecidableEq

/-- Registers after an event. None if it names a slot that is not there. -/
def act? (rs : Registers) : Event → Option Registers
  | .opened above => if above.all (· < rs.length) then some (rs.openSlot above) else none
  | .recorded i e => if i < rs.length then some (rs.record i e) else none

/-- The slot that each slot was opened below. -/
def parents (es : List Event) : List (Option ℕ) :=
  es.filterMap fun
    | .opened above => some above
    | .recorded _ _ => none

/-- Slot `i` is the slot itself or stands above it. -/
inductive Over (ps : List (Option ℕ)) (i : ℕ) : ℕ → Prop
  | self : Over ps i i
  | up {j k : ℕ} (hj : ps[j]? = some (some k)) (hk : Over ps i k) : Over ps i j

open scoped Classical in
/-- The errors that were recorded in a slot or in one below it, in order. -/
noncomputable def below (es : List Event) (i : ℕ) : List Error :=
  es.filterMap fun
    | .opened _ => none
    | .recorded j e => if Over (parents es) i j then some e else none

/-! ### The way up -/

section Over

variable {ps : List (Option ℕ)} {i j k : ℕ}

/-- Every slot was opened below an earlier one, if below any. -/
def Earlier (ps : List (Option ℕ)) : Prop :=
  ∀ j k : ℕ, ps[j]? = some (some k) → k < j

theorem over_iff : Over ps i j ↔ i = j ∨ ∃ k, ps[j]? = some (some k) ∧ Over ps i k := by
  constructor
  · rintro (_ | ⟨hj, hk⟩)
    · exact .inl rfl
    · exact .inr ⟨_, hj, hk⟩
  · rintro (rfl | ⟨k, hj, hk⟩)
    · exact .self
    · exact .up hj hk

theorem Over.le (hps : Earlier ps) (h : Over ps i j) : i ≤ j := by
  induction h with
  | self => exact le_rfl
  | up hj _ ih => exact ih.trans (hps _ _ hj).le

theorem Over.trans (hij : Over ps i j) (hjk : Over ps j k) : Over ps i k := by
  induction hjk with
  | self => exact hij
  | up hj _ ih => exact .up hj ih

/-- A slot that is opened changes nothing for those that are there. -/
theorem over_concat (hps : Earlier ps) (above : Option ℕ) (hj : j < ps.length) :
    Over (ps ++ [above]) i j ↔ Over ps i j := by
  induction j using Nat.strong_induction_on with
  | _ j ih =>
    rw [over_iff, List.getElem?_append_left hj]
    refine Iff.trans ?_ over_iff.symm
    refine or_congr_right (exists_congr fun k => and_congr_right fun hk => ?_)
    have hkj := hps j k hk
    exact ih k hkj (hkj.trans hj)

end Over

/-! ### Recording -/

section Record

variable {rs : Registers} {i j : ℕ}

theorem length_foldl_note (rs : Registers) (is : List ℕ) (e : Error) :
    (is.foldl (fun rs j => rs.note j e) rs).length = rs.length := by
  induction is generalizing rs with
  | nil => rfl
  | cons k is ih => rw [List.foldl_cons, ih, length_note]

theorem path_foldl_note (rs : Registers) (is : List ℕ) (e : Error) (i : ℕ) :
    (is.foldl (fun rs j => rs.note j e) rs).path i = rs.path i := by
  induction is generalizing rs with
  | nil => rfl
  | cons k is ih => rw [List.foldl_cons, ih, path_note]

theorem Valid.foldl_note (h : rs.Valid) (is : List ℕ) (e : Error) :
    Valid (is.foldl (fun rs j => rs.note j e) rs) := by
  induction is generalizing rs with
  | nil => exact h
  | cons k is ih => exact ih (h.note k e)

/-- Slots that are not named stay as they are. -/
theorem getElem?_foldl_note {is : List ℕ} (hi : i ∉ is) (rs : Registers) (e : Error) :
    (is.foldl (fun rs j => rs.note j e) rs)[i]? = rs[i]? := by
  induction is generalizing rs with
  | nil => rfl
  | cons k is ih =>
    rw [List.mem_cons, not_or] at hi
    rw [List.foldl_cons, ih hi.2, getElem?_note, if_neg (Ne.symm hi.1)]

theorem noted_foldl_note {is : List ℕ} (hnd : is.Nodup) (hi : i < rs.length) (e : Error) :
    (is.foldl (fun rs j => rs.note j e) rs).noted i
      = rs.noted i ++ if i ∈ is then [e] else [] := by
  induction is generalizing rs with
  | nil => simp
  | cons k is ih =>
    obtain ⟨hk, hnd⟩ := List.nodup_cons.mp hnd
    rw [List.foldl_cons, ih hnd (by rwa [length_note]), noted_note hi, List.append_assoc]
    rcases eq_or_ne k i with rfl | hki
    · simp [hk]
    · simp [hki, hki.symm]

theorem length_record (rs : Registers) (i : ℕ) (e : Error) :
    (rs.record i e).length = rs.length :=
  length_foldl_note _ _ _

theorem path_record (rs : Registers) (i j : ℕ) (e : Error) :
    (rs.record j e).path i = rs.path i :=
  path_foldl_note _ _ _ _

theorem Valid.record (h : rs.Valid) (i : ℕ) (e : Error) : (rs.record i e).Valid :=
  h.foldl_note _ _

theorem getElem?_record (hi : i ∉ rs.path j) (e : Error) : (rs.record j e)[i]? = rs[i]? :=
  getElem?_foldl_note hi _ _

theorem noted_record (h : rs.Valid) (hi : i < rs.length) (j : ℕ) (e : Error) :
    (rs.record j e).noted i = rs.noted i ++ if i ∈ rs.path j then [e] else [] :=
  noted_foldl_note (h.path_nodup j) hi e

theorem error?_congr {rs' : Registers} (h : rs'[i]? = rs[i]?) : rs'.error? i = rs.error? i := by
  unfold error?
  rw [h]

theorem Valid.dropped_eq (h : rs.Valid) (i : ℕ) : rs.dropped i = (rs.noted i).length - 1 := by
  unfold dropped noted
  cases hs : rs[i]? with
  | none => rfl
  | some s => exact (h i s hs).1.2

end Record

/-! ### What a history makes -/

/-- What holds of registers with a history. -/
structure Grown (es : List Event) (rs : Registers) : Prop where
  valid : rs.Valid
  length : (parents es).length = rs.length
  earlier : Earlier (parents es)
  path : ∀ j above, (parents es)[j]? = some above →
    rs.path j = (match above with | some k => rs.path k | none => []) ++ [j]
  named : ∀ j e, .recorded j e ∈ es → j < rs.length
  noted : ∀ i < rs.length, rs.noted i = below es i

theorem parents_concat (es : List Event) (e : Event) :
    parents (es ++ [e]) = parents es ++ match e with
      | .opened above => [above]
      | .recorded _ _ => [] := by
  cases e <;> simp [parents]

theorem mem_below {es : List Event} {i : ℕ} {e : Error} :
    e ∈ below es i ↔ ∃ j, .recorded j e ∈ es ∧ Over (parents es) i j := by
  unfold below
  rw [List.mem_filterMap]
  constructor
  · rintro ⟨_ | ⟨j, e'⟩, hx, he⟩
    · cases he
    · simp only at he
      split_ifs at he with hover
      exact ⟨j, Option.some.inj he ▸ hx, hover⟩
  · rintro ⟨j, hx, hover⟩
    exact ⟨_, hx, if_pos hover⟩

theorem below_concat_self (es : List Event) (i : ℕ) (e : Error) :
    below (es ++ [.recorded i e]) i = below es i ++ [e] := by
  unfold below
  rw [List.filterMap_append, parents_concat, List.append_nil]
  simp [Over.self]

namespace Grown

variable {es : List Event} {rs rs' : Registers} {i j : ℕ}

theorem nil : Grown [] [] :=
  ⟨valid_nil, rfl, by simp [Earlier, parents], by simp [parents], by simp, by simp⟩

/-- A path names the slot and those above it. -/
theorem mem_path_iff (h : Grown es rs) (hj : j < rs.length) :
    i ∈ rs.path j ↔ Over (parents es) i j := by
  induction j using Nat.strong_induction_on with
  | _ j ih =>
    obtain ⟨above, hps⟩ : ∃ above, (parents es)[j]? = some above :=
      ⟨_, List.getElem?_eq_getElem (h.length.symm ▸ hj)⟩
    rw [over_iff, h.path j _ hps, List.mem_append, List.mem_singleton, or_comm, hps]
    refine or_congr_right ?_
    cases above with
    | none => simp
    | some k =>
      have hkj : k < j := h.earlier j k hps
      simpa using ih k hkj (hkj.trans hj)

theorem opened (h : Grown es rs) {above : Option ℕ} (habove : above.all (· < rs.length)) :
    Grown (es ++ [.opened above]) (rs.openSlot above) := by
  have hps : parents (es ++ [.opened above]) = parents es ++ [above] := parents_concat _ _
  have hnew : ∀ k, above = some k → k < rs.length := by
    rintro k rfl
    simpa using habove
  have hearlier : Earlier (parents es ++ [above]) := by
    intro j k hj
    rcases getElem?_concat_cases hj with hj | ⟨rfl, habove⟩
    · exact h.earlier j k hj
    · rw [h.length]
      exact hnew k habove.symm
  have hnamed : ∀ j e, .recorded j e ∈ es ++ [.opened above] → j < rs.length := by
    intro j e hj
    rw [List.mem_append, List.mem_singleton] at hj
    exact h.named j e (hj.resolve_right (by simp))
  refine ⟨h.valid.openSlot above, ?_, hps ▸ hearlier, ?_, ?_, ?_⟩
  · rw [hps, List.length_append, h.length, length_openSlot]
    rfl
  · rw [hps]
    intro j above' hj
    rcases getElem?_concat_cases hj with hj | ⟨rfl, rfl⟩
    · have hlt : j < rs.length := h.length ▸ (List.getElem?_eq_some_iff.mp hj).1
      rw [path_openSlot_of_lt hlt, h.path j above' hj]
      cases above' with
      | none => rfl
      | some k =>
        have hk : k < rs.length := (h.earlier j k hj).trans hlt
        simp only [path_openSlot_of_lt hk]
    · rw [h.length]
      cases above' with
      | none => exact path_openSlot_none rs
      | some k =>
        rw [path_openSlot_some]
        simp only [path_openSlot_of_lt (hnew k rfl)]
  · intro j e hj
    rw [length_openSlot]
    exact (hnamed j e hj).trans (Nat.lt_succ_self _)
  · intro i hi
    rw [length_openSlot, Nat.lt_succ_iff_lt_or_eq] at hi
    rw [noted_openSlot]
    unfold below
    rw [List.filterMap_append, hps, show [Event.opened above].filterMap _ = [] from rfl,
      List.append_nil]
    rcases hi with hi | rfl
    · rw [h.noted i hi]
      refine List.filterMap_congr fun x hx => ?_
      cases x with
      | opened _ => rfl
      | recorded j e =>
        have hj : j < (parents es).length := h.length.symm ▸ h.named j e hx
        classical exact if_congr (over_concat h.earlier above hj).symm rfl rfl
    · have hempty : rs.noted rs.length = [] := by simp [Registers.noted]
      rw [hempty, eq_comm, List.filterMap_eq_nil_iff]
      intro x hx
      cases x with
      | opened _ => rfl
      | recorded j e =>
        refine if_neg fun hover => ?_
        have h1 := hover.le hearlier
        have h2 := h.named j e hx
        omega

theorem recorded (h : Grown es rs) (hj : j < rs.length) (e : Error) :
    Grown (es ++ [.recorded j e]) (rs.record j e) := by
  have hps : parents (es ++ [.recorded j e]) = parents es := by
    rw [parents_concat]
    exact List.append_nil _
  refine ⟨h.valid.record j e, ?_, hps ▸ h.earlier, ?_, ?_, ?_⟩
  · rw [hps, h.length, length_record]
  · rw [hps]
    intro k above hk
    rw [path_record, h.path k above hk]
    cases above with
    | none => rfl
    | some l => simp only [path_record]
  · intro k e' hk
    rw [length_record]
    rcases List.mem_append.mp hk with hk | hk
    · exact h.named k e' hk
    · simp only [List.mem_singleton, Event.recorded.injEq] at hk
      exact hk.1 ▸ hj
  · intro i hi
    rw [length_record] at hi
    rw [noted_record h.valid hi, h.noted i hi]
    unfold below
    rw [List.filterMap_append, hps]
    refine congrArg _ ?_
    by_cases hover : Over (parents es) i j
    · simp [h.mem_path_iff hj, hover]
    · simp [h.mem_path_iff hj, hover]

theorem act (h : Grown es rs) {e : Event} (hs : act? rs e = some rs') : Grown (es ++ [e]) rs' := by
  cases e with
  | opened above =>
    simp only [act?] at hs
    split_ifs at hs with habove
    exact Option.some.inj hs ▸ h.opened habove
  | recorded j e =>
    simp only [act?] at hs
    split_ifs at hs with hj
    exact Option.some.inj hs ▸ h.recorded hj e

theorem error?_eq (h : Grown es rs) (hi : i < rs.length) :
    rs.error? i = (below es i).head? := by
  rw [h.valid.error?_eq, h.noted i hi]

theorem dropped_eq (h : Grown es rs) (hi : i < rs.length) :
    rs.dropped i = (below es i).length - 1 := by
  rw [h.valid.dropped_eq, h.noted i hi]

/-- A record below a slot is one below every slot that stands above it. -/
theorem isSome_error?_of_over (h : Grown es rs) (hij : Over (parents es) i j) (hj : j < rs.length)
    (herr : (rs.error? j).isSome) : (rs.error? i).isSome := by
  rw [h.error?_eq hj] at herr
  rw [h.error?_eq (lt_of_le_of_lt (hij.le h.earlier) hj)]
  obtain ⟨e, he⟩ := Option.isSome_iff_exists.mp herr
  obtain ⟨k, hk, hjk⟩ := mem_below.mp (List.mem_of_head? he)
  have hmem : e ∈ below es i := mem_below.mpr ⟨k, hk, hij.trans hjk⟩
  exact List.isSome_head?.mpr (List.ne_nil_of_mem hmem)

/-- A record in a slot without a parent is noted there. -/
theorem record_of_root (h : Grown es rs) (hi : (parents es)[i]? = some none) (e : Error) :
    rs.record i e = rs.note i e := by
  unfold Registers.record
  rw [h.path i none hi]
  rfl

/-- A record is recorded in the parent first, and noted in the slot itself then. -/
theorem record_of_parent (h : Grown es rs) (hi : (parents es)[i]? = some (some j)) (e : Error) :
    rs.record i e = (rs.record j e).note i e := by
  unfold Registers.record
  rw [h.path i (some j) hi, List.foldl_append]
  rfl

/-- What was recorded in the parent does not decide whether an error is the slot's first. -/
theorem isFirst_record_parent (h : Grown es rs) (hi : (parents es)[i]? = some (some j)) (e : Error) :
    (rs.record j e).isFirst i = rs.isFirst i := by
  have hji : j < i := h.earlier i j hi
  have hlt : i < rs.length := by
    rw [← h.length]
    exact (List.getElem?_eq_some_iff.mp hi).1
  have hout : i ∉ rs.path j := by
    rw [h.mem_path_iff (hji.trans hlt)]
    exact fun hover => (hover.le h.earlier).not_gt hji
  unfold isFirst
  rw [error?_congr (getElem?_record hout e)]

end Grown

theorem grown_of_follow? {es : List Event} {rs : Registers} (h : follow? act? [] es = some rs) :
    Grown es rs :=
  follow?_induction Grown .nil (fun _ _ _ _ _ h hs => h.act hs) es h

/-- For every history of a forest of slots, after each of its events: a slot holds the first error that
was recorded in it or in any slot below it, and counts all that came after that one. A record goes to
the parent first and is then noted in the slot itself; it says that it was the first exactly if it
makes the error the slot's own, which without an earlier record in the slot or below it is so. If a
slot holds an error then so does each slot above it, and a record leaves every slot as it is that is
neither the one named nor above that. -/
theorem first_error_wins {es : List Event} {rs : Registers} (h : follow? act? [] es = some rs) :
    (∀ i < rs.length, rs.error? i = (below es i).head?
        ∧ rs.dropped i = (below es i).length - 1)
      ∧ (∀ i < rs.length, ∀ e,
        (rs.isFirst i = true ↔ below es i = [])
          ∧ (rs.isFirst i = true ↔ rs.error? i = none ∧ (rs.record i e).error? i = some e)
          ∧ (rs.isFirst i = false → (rs.record i e).error? i = rs.error? i))
      ∧ (∀ i e, (parents es)[i]? = some none → rs.record i e = rs.note i e)
      ∧ (∀ i j e, (parents es)[i]? = some (some j) →
        rs.record i e = (rs.record j e).note i e ∧ (rs.record j e).isFirst i = rs.isFirst i)
      ∧ (∀ i j, Over (parents es) i j → j < rs.length → (rs.error? j).isSome →
        (rs.error? i).isSome)
      ∧ ∀ i < rs.length, ∀ j e, ¬ Over (parents es) j i → (rs.record i e)[j]? = rs[j]? := by
  have hgrown := grown_of_follow? h
  refine ⟨fun i hi => ⟨hgrown.error?_eq hi, hgrown.dropped_eq hi⟩, fun i hi e => ?_,
    fun i e hi => hgrown.record_of_root hi e, fun i j e hi =>
    ⟨hgrown.record_of_parent hi e, hgrown.isFirst_record_parent hi e⟩,
    fun i j hij hj herr => hgrown.isSome_error?_of_over hij hj herr, fun i hi j e hji => ?_⟩
  · have hafter := (hgrown.recorded hi e).error?_eq (i := i) (by rwa [length_record])
    rw [below_concat_self] at hafter
    have hfirst : rs.isFirst i = true ↔ below es i = [] := by
      unfold isFirst
      rw [hgrown.error?_eq hi, Option.isNone_iff_eq_none, List.head?_eq_none_iff]
    refine ⟨hfirst, ?_, fun hlate => ?_⟩
    · rw [hfirst, hgrown.error?_eq hi, hafter, List.head?_eq_none_iff, iff_self_and]
      intro hnone
      rw [hnone]
      rfl
    · have hne : below es i ≠ [] := fun hnone => by simp [hfirst.mpr hnone] at hlate
      rw [hafter, hgrown.error?_eq hi, List.head?_append_of_ne_nil _ hne]
  · rw [← hgrown.mem_path_iff hi] at hji
    exact getElem?_record hji e

/-- Two slots below one: the second error is dropped by the slot above, and is the own error of the one
it was recorded in. -/
theorem first_error_wins_siblings :
    ∃ rs, follow? act? [] [.opened none, .opened (some 0), .opened (some 0),
        .recorded 1 ⟨.requestFailed, "a"⟩, .recorded 2 ⟨.storageFailed, "b"⟩] = some rs
      ∧ (∀ i < rs.length, ∀ j e, ¬ Over [none, some 0, some 0] j i → (rs.record i e)[j]? = rs[j]?)
      ∧ rs.error? 0 = some ⟨.requestFailed, "a"⟩ ∧ rs.dropped 0 = 1
      ∧ rs.error? 2 = some ⟨.storageFailed, "b"⟩ := by
  have hrun : ∃ rs, follow? act? [] [.opened none, .opened (some 0), .opened (some 0),
      .recorded 1 ⟨.requestFailed, "a"⟩, .recorded 2 ⟨.storageFailed, "b"⟩] = some rs
      ∧ rs.error? 0 = some ⟨.requestFailed, "a"⟩ ∧ rs.dropped 0 = 1
      ∧ rs.error? 2 = some ⟨.storageFailed, "b"⟩ := ⟨_, rfl, rfl, rfl, rfl⟩
  obtain ⟨rs, h, hshown⟩ := hrun
  exact ⟨rs, h, (first_error_wins h).2.2.2.2.2, hshown⟩

end Ingest.Registers

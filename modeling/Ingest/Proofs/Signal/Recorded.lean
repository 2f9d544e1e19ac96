import Ingest.Proofs.Signal.Course

/-!
# What events record

The entries of a context can be told from what has happened (`registered`), and so can whether it is
cancelled (`Recorded`). A listener is among the entries until it is taken away or the context is
cancelled (`mem_registered`).
-/

namespace Ingest

namespace Signal

/-- What an event changes among the entries of the context `k`. -/
def Event.change (k : ℕ) (xs : List (ℕ × Entry)) : Event → List (ℕ × Entry)
  | .added i id l => if i = k ∧ id ≠ 0 then xs ++ [(id, .listener l)] else xs
  | .derived i id c => if i = k then xs ++ [(id, .derived c)] else xs
  | .removed i id => xs.filter fun x => decide (k = i → x.1 ≠ id)
  | .left c => xs.filter fun x => decide (x.2 ≠ .derived c)
  | .began c => if c = k then [] else xs.filter fun x => decide (x.2 ≠ .derived c)
  | .asked _ | .called _ | .ended _ | .ran _ _ _ | .returned _ _ | .noted _ => xs

/-- The entries of the context `k`, by what has happened. -/
def registered (es : List Event) (k : ℕ) : List (ℕ × Entry) :=
  es.foldl (Event.change k) []

/-- A listener was added under a number, and not taken away since. -/
def Stands (es : List Event) (i id : ℕ) (l : Listener) : Prop :=
  ∃ a b, es = a ++ .added i id l :: b ∧ id ≠ 0 ∧ .removed i id ∉ b

/-- The event changes no entries. -/
def Event.Idle : Event → Prop
  | .added _ id _ => id = 0
  | .removed _ _ | .derived _ _ _ | .left _ | .began _ => False
  | .asked _ | .called _ | .ended _ | .ran _ _ _ | .returned _ _ | .noted _ => True

section Registered

variable {es es' : List Event} {e : Event} {i k id : ℕ} {l : Listener}

theorem registered_concat (es : List Event) (e : Event) (k : ℕ) :
    registered (es ++ [e]) k = e.change k (registered es k) := by
  simp [registered]

theorem Event.Idle.change (h : e.Idle) (k : ℕ) (xs : List (ℕ × Entry)) : e.change k xs = xs := by
  cases e <;> simp_all [Event.Idle, Event.change]

theorem registered_append_idle (h : ∀ e ∈ es', e.Idle) (k : ℕ) :
    registered (es ++ es') k = registered es k := by
  induction es' using List.reverseRecOn with
  | nil => rw [List.append_nil]
  | append_singleton es' e ih =>
    rw [← List.append_assoc, registered_concat, (h e (by simp)).change]
    exact ih fun e he => h e (List.mem_append_left _ he)

theorem mem_change {xs : List (ℕ × Entry)} (he : e ≠ .began k) :
    (id, .listener l) ∈ e.change k xs
      ↔ e = .added k id l ∧ id ≠ 0 ∨ (id, .listener l) ∈ xs ∧ e ≠ .removed k id := by
  cases e with
  | added i n l' =>
    simp only [Event.change, Event.added.injEq, reduceCtorEq, not_false_eq_true, and_true, ne_eq]
    split_ifs with hin
    · simp only [List.mem_append, List.mem_singleton, Prod.mk.injEq, Entry.listener.injEq]
      constructor
      · rintro (hold | ⟨rfl, rfl⟩)
        · exact .inr hold
        · exact .inl ⟨⟨hin.1, rfl, rfl⟩, hin.2⟩
      · rintro (⟨⟨-, rfl, rfl⟩, -⟩ | hold)
        · exact .inr ⟨rfl, rfl⟩
        · exact .inl hold
    · refine ⟨.inr, fun h => h.resolve_left ?_⟩
      rintro ⟨⟨rfl, rfl, -⟩, hid⟩
      exact hin ⟨rfl, hid⟩
  | derived i n c =>
    simp only [Event.change]
    split_ifs <;> simp
  | removed i n =>
    simp only [Event.change, List.mem_filter, decide_eq_true_iff, reduceCtorEq, false_and, false_or,
      ne_eq, Event.removed.injEq, not_and]
    refine and_congr_right fun _ => ⟨fun h hik hn => h hik.symm hn.symm, ?_⟩
    exact fun h hik hn => h hik.symm hn.symm
  | left c => simp [Event.change]
  | began c =>
    have hck : c ≠ k := fun hck => he (hck ▸ rfl)
    simp [Event.change, hck]
  | _ => simp [Event.change]

theorem stands_concat : Stands (es ++ [e]) k id l
    ↔ e = .added k id l ∧ id ≠ 0 ∨ Stands es k id l ∧ e ≠ .removed k id := by
  constructor
  · rintro ⟨a, b, hes, hid, hb⟩
    rcases List.eq_nil_or_concat' b with rfl | ⟨b, e', rfl⟩
    · exact .inl ⟨(List.append_inj' hes rfl).2 |> List.head_eq_of_cons_eq, hid⟩
    · rw [← List.cons_append, ← List.append_assoc] at hes
      obtain ⟨hinit, he⟩ := List.append_inj' hes rfl
      obtain rfl := List.head_eq_of_cons_eq he
      simp only [List.mem_append, List.mem_singleton, not_or] at hb
      exact .inr ⟨⟨a, b, hinit, hid, hb.1⟩, Ne.symm hb.2⟩
  · rintro (⟨rfl, hid⟩ | ⟨⟨a, b, rfl, hid, hb⟩, he⟩)
    · exact ⟨es, [], rfl, hid, List.not_mem_nil⟩
    · refine ⟨a, b ++ [e], by simp, hid, ?_⟩
      simp only [List.mem_append, List.mem_singleton, not_or]
      exact ⟨hb, he.symm⟩

/-- The listeners among the entries of a context that is not cancelled are those that were added and
not taken away since. -/
theorem mem_registered (h : .began k ∉ es) :
    (id, .listener l) ∈ registered es k ↔ Stands es k id l := by
  induction es using List.reverseRecOn with
  | nil => simp [Stands, registered]
  | append_singleton es e ih =>
    simp only [List.mem_append, List.mem_singleton, not_or] at h
    rw [registered_concat, mem_change (Ne.symm h.2), stands_concat, ih h.1]

end Registered

namespace Registry

variable {r r' : Registry} {es es' : List Event} {ds : List Duty} {d : Duty} {i k id : ℕ}

/-! ### Numbers and sources -/

/-- The entries of each context are in the order of their numbers, and the number of a derived
context's entry is no one else's. -/
structure Ordered (r : Registry) : Prop where
  source : ∀ k id c, (id, .derived c) ∈ r.entries k → (r.cell c).source = some (k, id)
  mine : ∀ c k id e, (r.cell c).source = some (k, id) → (id, e) ∈ r.entries k → e = .derived c
  number : ∀ c k id, (r.cell c).source = some (k, id) → id < (r.cell k).signal.next
  older : ∀ c k id, (r.cell c).source = some (k, id) → k < c
  alive : ∀ c p, (r.cell c).source = some p → r.isCancelled c = false
  sorted : ∀ k, (r.entries k).Pairwise fun x y => x.1 < y.1
  bounds : ∀ k, ∀ x ∈ r.entries k, 0 < x.1 ∧ x.1 < (r.cell k).signal.next
  counts : ∀ k, 0 < (r.cell k).signal.next

section Sprout

variable (r i k)

theorem entries_sprout {i : ℕ} (hi : i < r.cells.length) : (r.sprout i).entries k
    = r.entries k ++ if k = i then [((r.cell i).signal.next, .derived r.cells.length)] else [] := by
  rw [sprout, entries_grow rfl, entries_attach _ _ _ hi]

theorem source_sprout : ((r.sprout i).cell k).source
    = if k = r.cells.length then some (i, (r.cell i).signal.next) else (r.cell k).source := by
  rw [sprout, cell_grow, length_attach]
  split_ifs
  · rfl
  · rw [source_attach]

theorem isCancelled_sprout : (r.sprout i).isCancelled k = r.isCancelled k := by
  rw [isCancelled, sprout, cell_grow, length_attach]
  split_ifs with hk
  · rw [hk, isCancelled, cell_of_le le_rfl]
  · exact isCancelled_attach ..

theorem next_le_sprout : (r.cell k).signal.next ≤ ((r.sprout i).cell k).signal.next :=
  (next_le_attach ..).trans (next_le_grow Nat.one_pos k)

theorem next_sprout_self {i : ℕ} (hi : i < r.cells.length) :
    ((r.sprout i).cell i).signal.next = (r.cell i).signal.next + 1 := by
  rw [sprout, cell_grow, length_attach, if_neg hi.ne, next_attach_self _ _ hi]

end Sprout

theorem mem_entries_cancel (hi : i < r.cells.length) {x : ℕ × Entry} :
    x ∈ ((r.shut i).detach i).entries k
      ↔ k ≠ i ∧ x ∈ r.entries k ∧ ∀ id, (r.cell i).source = some (k, id) → x.1 ≠ id := by
  rw [mem_entries_detach, entries_shut _ _ hi, source_shut]
  by_cases hk : k = i <;> simp [hk]

namespace Ordered

theorem empty : Ordered {} := by
  have hcell : ∀ k, ({} : Registry).cell k = {} := fun k => cell_of_le (Nat.zero_le k)
  constructor <;> simp [entries, hcell]

theorem congr (h : Ordered r) (hcells : r'.cells = r.cells) : Ordered r' := by
  obtain ⟨cells, handles, guards, fired⟩ := r
  obtain ⟨cells', handles', guards', fired'⟩ := r'
  obtain rfl : cells' = cells := hcells
  exact { h with }

/-- A context's entry stands where the context is not out of range. -/
theorem lt_of_derived (h : Ordered r) {c : ℕ} (hc : (id, .derived c) ∈ r.entries k) :
    c < r.cells.length :=
  lt_of_source (by rw [h.source k id c hc]; rfl)

theorem forget (h : Ordered r) (i id : ℕ) : Ordered (r.forget i id) where
  source k n c hc := by simpa using h.source k n c ((mem_entries_forget ..).mp hc).1
  mine c k n e hc he := h.mine c k n e (by simpa using hc) ((mem_entries_forget ..).mp he).1
  number := by simpa using h.number
  older := by simpa using h.older
  alive := by simpa using h.alive
  sorted k := by
    rw [entries_forget]
    exact (h.sorted k).filter _
  bounds k x hx := by simpa using h.bounds k x ((mem_entries_forget ..).mp hx).1
  counts := by simpa using h.counts

theorem detach (h : Ordered r) (i : ℕ) : Ordered (r.detach i) where
  source k n c hc := by
    obtain ⟨hmem, hne⟩ := (mem_entries_detach ..).mp hc
    have hs := h.source k n c hmem
    rw [source_detach, if_neg ?_]
    · exact hs
    · rintro rfl
      exact hne n hs rfl
  mine c k n e hc he := by
    rw [source_detach] at hc
    split_ifs at hc
    exact h.mine c k n e hc ((mem_entries_detach ..).mp he).1
  number c k n hc := by
    rw [source_detach] at hc
    split_ifs at hc
    simpa using h.number c k n hc
  older c k n hc := by
    rw [source_detach] at hc
    split_ifs at hc
    exact h.older c k n hc
  alive c p hc := by
    rw [source_detach] at hc
    split_ifs at hc
    simpa using h.alive c p hc
  sorted k := by
    rw [entries_detach]
    exact (h.sorted k).filter _
  bounds k x hx := by simpa using h.bounds k x ((mem_entries_detach ..).mp hx).1
  counts := by simpa using h.counts

theorem cancel (h : Ordered r) (hi : i < r.cells.length) : Ordered ((r.shut i).detach i) where
  source k n c hc := by
    obtain ⟨-, hmem, hne⟩ := (mem_entries_cancel hi).mp hc
    have hs := h.source k n c hmem
    rw [source_detach, if_neg ?_, source_shut]
    · exact hs
    · rintro rfl
      exact hne n hs rfl
  mine c k n e hc he := by
    rw [source_detach, source_shut] at hc
    split_ifs at hc
    exact h.mine c k n e hc ((mem_entries_cancel hi).mp he).2.1
  number c k n hc := by
    rw [source_detach, source_shut] at hc
    split_ifs at hc
    simpa using h.number c k n hc
  older c k n hc := by
    rw [source_detach, source_shut] at hc
    split_ifs at hc
    exact h.older c k n hc
  alive c p hc := by
    rw [source_detach, source_shut] at hc
    split_ifs at hc with hci
    rw [isCancelled_detach, isCancelled_shut _ _ hi, if_neg hci]
    exact h.alive c p hc
  sorted k := by
    rw [entries_detach, entries_shut _ _ hi]
    split_ifs
    · exact List.Pairwise.nil
    · exact (h.sorted k).filter _
  bounds k x hx := by simpa using h.bounds k x ((mem_entries_cancel hi).mp hx).2.1
  counts := by simpa using h.counts

/-- The entries of a context with one that has the next number. -/
theorem sorted_append (h : Ordered r) (i k : ℕ) (e : Entry) :
    (r.entries k ++ if k = i then [((r.cell i).signal.next, e)] else []).Pairwise
      fun x y => x.1 < y.1 := by
  split_ifs with hk
  · subst hk
    refine List.pairwise_append.mpr ⟨h.sorted k, List.pairwise_singleton _ _, ?_⟩
    simpa using fun n e' hx => (h.bounds k (n, e') hx).2
  · simpa using h.sorted k

theorem attach (h : Ordered r) (hi : i < r.cells.length) (l : Listener) :
    Ordered (r.attach i (.listener l)) where
  source k n c hc := by
    rw [entries_attach _ _ _ hi] at hc
    rw [source_attach]
    refine h.source k n c ((List.mem_append.mp hc).resolve_right fun hnew => ?_)
    split_ifs at hnew <;> simp at hnew
  mine c k n e hc he := by
    rw [source_attach] at hc
    rw [entries_attach _ _ _ hi] at he
    rcases List.mem_append.mp he with hold | hnew
    · exact h.mine c k n e hc hold
    · split_ifs at hnew with hki
      · obtain ⟨rfl, -⟩ := Prod.mk.inj (List.mem_singleton.mp hnew)
        exact absurd (h.number c k _ hc) (hki ▸ lt_irrefl _)
      · cases hnew
  number c k n hc := (h.number c k n (by simpa using hc)).trans_le (next_le_attach ..)
  older := by simpa using h.older
  alive := by simpa using h.alive
  sorted k := by
    rw [entries_attach _ _ _ hi]
    exact h.sorted_append i k _
  bounds k x hx := by
    rw [entries_attach _ _ _ hi] at hx
    rcases List.mem_append.mp hx with hold | hnew
    · exact ⟨(h.bounds k x hold).1, (h.bounds k x hold).2.trans_le (next_le_attach ..)⟩
    · split_ifs at hnew with hki
      · obtain rfl := List.mem_singleton.mp hnew
        subst hki
        exact ⟨h.counts k, by rw [next_attach_self _ _ hi]; exact Nat.lt_succ_self _⟩
      · cases hnew
  counts k := (h.counts k).trans_le (next_le_attach ..)

theorem grow (h : Ordered r) {c : Cell} (hnext : 0 < c.signal.next)
    (hlisteners : c.signal.listeners = []) (hsource : c.source = none) : Ordered (r.grow c) := by
  have hsources : ∀ {d p}, ((r.grow c).cell d).source = some p → (r.cell d).source = some p := by
    intro d p hd
    rw [cell_grow] at hd
    split_ifs at hd
    · rw [hsource] at hd
      cases hd
    · exact hd
  have hold : ∀ {d p}, (r.cell d).source = some p → (r.grow c).cell d = r.cell d := by
    intro d p hd
    rw [cell_grow, if_neg (lt_of_source (by rw [hd]; rfl)).ne]
  exact {
    source := fun k n d hd => by
      rw [entries_grow hlisteners] at hd
      have hs := h.source k n d hd
      rw [hold hs, hs]
    mine := fun d k n e hd he => by
      rw [entries_grow hlisteners] at he
      exact h.mine d k n e (hsources hd) he
    number := fun d k n hd => (h.number d k n (hsources hd)).trans_le (next_le_grow hnext k)
    older := fun d k n hd => h.older d k n (hsources hd)
    alive := fun d p hd => by
      rw [isCancelled, hold (hsources hd)]
      exact h.alive d p (hsources hd)
    sorted := fun k => by
      rw [entries_grow hlisteners]
      exact h.sorted k
    bounds := fun k x hx => by
      rw [entries_grow hlisteners] at hx
      exact ⟨(h.bounds k x hx).1, (h.bounds k x hx).2.trans_le (next_le_grow hnext k)⟩
    counts := fun k => (h.counts k).trans_le (next_le_grow hnext k) }

theorem sprout (h : Ordered r) (hi : i < r.cells.length) : Ordered (r.sprout i) := by
  have hfresh : ∀ {p}, (r.cell r.cells.length).source ≠ some p := by simp [cell_of_le le_rfl]
  exact {
    source := fun k n c hc => by
      rw [entries_sprout _ _ hi] at hc
      rw [source_sprout]
      rcases List.mem_append.mp hc with hold | hnew
      · have hs := h.source k n c hold
        rw [if_neg fun hc => hfresh (hc ▸ hs), hs]
      · split_ifs at hnew with hki
        · obtain ⟨rfl, hentry⟩ := Prod.mk.inj (List.mem_singleton.mp hnew)
          rw [if_pos (Entry.derived.inj hentry), hki]
        · cases hnew
    mine := fun c k n e hc he => by
      rw [source_sprout] at hc
      rw [entries_sprout _ _ hi] at he
      split_ifs at hc with hnew
      · obtain ⟨rfl, rfl⟩ := Prod.mk.inj (Option.some.inj hc)
        rcases List.mem_append.mp he with hold | hlast
        · exact absurd (h.bounds i _ hold).2 (lt_irrefl _)
        · rw [if_pos rfl] at hlast
          rw [(Prod.mk.inj (List.mem_singleton.mp hlast)).2, hnew]
      · rcases List.mem_append.mp he with hold | hlast
        · exact h.mine c k n e hc hold
        · split_ifs at hlast with hki
          · obtain ⟨rfl, -⟩ := Prod.mk.inj (List.mem_singleton.mp hlast)
            exact absurd (h.number c k _ hc) (hki ▸ lt_irrefl _)
          · cases hlast
    number := fun c k n hc => by
      rw [source_sprout] at hc
      split_ifs at hc
      · obtain ⟨rfl, rfl⟩ := Prod.mk.inj (Option.some.inj hc)
        rw [next_sprout_self _ hi]
        exact Nat.lt_succ_self _
      · exact (h.number c k n hc).trans_le (next_le_sprout ..)
    older := fun c k n hc => by
      rw [source_sprout] at hc
      split_ifs at hc with hnew
      · obtain ⟨rfl, rfl⟩ := Prod.mk.inj (Option.some.inj hc)
        exact hnew ▸ hi
      · exact h.older c k n hc
    alive := fun c p hc => by
      rw [source_sprout] at hc
      rw [isCancelled_sprout]
      split_ifs at hc with hnew
      · simp [isCancelled, hnew, cell_of_le le_rfl]
      · exact h.alive c p hc
    sorted := fun k => by
      rw [entries_sprout _ _ hi]
      exact h.sorted_append i k _
    bounds := fun k x hx => by
      rw [entries_sprout _ _ hi] at hx
      rcases List.mem_append.mp hx with hold | hnew
      · exact ⟨(h.bounds k x hold).1, (h.bounds k x hold).2.trans_le (next_le_sprout ..)⟩
      · split_ifs at hnew with hki
        · obtain rfl := List.mem_singleton.mp hnew
          subst hki
          exact ⟨h.counts k, by rw [next_sprout_self _ hi]; exact Nat.lt_succ_self _⟩
        · cases hnew
    counts := fun k => (h.counts k).trans_le (next_le_sprout ..) }

/-- To detach a context takes out its entry, wherever it stands. -/
theorem filter_source (h : Ordered r) (c k : ℕ) :
    ((r.entries k).filter fun x => decide ((r.cell c).source ≠ some (k, x.1)))
      = (r.entries k).filter fun x => decide (x.2 ≠ .derived c) := by
  refine List.filter_congr fun x hx => decide_eq_decide.mpr (not_congr ⟨fun hs => ?_, fun he => ?_⟩)
  · exact h.mine c k x.1 x.2 hs hx
  · exact h.source k x.1 c (he ▸ hx)

end Ordered

/-! ### What has happened tells how the contexts are -/

/-- The events tell what the entries of each context are, and whether it is cancelled. -/
structure Recorded (es : List Event) (r : Registry) : Prop where
  ordered : Ordered r
  entries : ∀ k, r.entries k = registered es k
  flag : ∀ k, r.isCancelled k = true ↔ .began k ∈ es
  given : ∀ k id l, .added k id l ∈ es → id < (r.cell k).signal.next

namespace Recorded

theorem empty : Recorded [] {} where
  ordered := .empty
  entries k := by rw [Registry.entries, cell_of_le (Nat.zero_le k)]; rfl
  flag k := by simp [isCancelled, cell_of_le (r := {}) (Nat.zero_le k)]
  given k id l h := nomatch h

theorem live (h : Recorded es r) : r.isCancelled k = false ↔ .began k ∉ es := by
  rw [← h.flag, Bool.not_eq_true]

/-- A context that is not there yet has not been cancelled. -/
theorem not_began_length (h : Recorded es r) : .began r.cells.length ∉ es :=
  h.live.mp (by simp [isCancelled, cell_of_le le_rfl])

/-- What changes no entries leaves the contexts as they are. -/
theorem idle (h : Recorded es r) (hcells : r'.cells = r.cells) (hes : ∀ e ∈ es', e.Idle) :
    Recorded (es ++ es') r' := by
  have hcell : ∀ k, r'.cell k = r.cell k := fun k => by rw [cell, cell, hcells]
  exact {
    ordered := h.ordered.congr hcells
    entries := fun k => by
      rw [registered_append_idle hes, Registry.entries, hcell]
      exact h.entries k
    flag := fun k => by
      have hnew : .began k ∉ es' := fun hk => hes _ hk
      rw [isCancelled, hcell, List.mem_append, or_iff_left hnew]
      exact h.flag k
    given := fun k id l hadded => by
      rw [hcell]
      rcases List.mem_append.mp hadded with hold | hnew
      · exact h.given k id l hold
      · obtain rfl : id = 0 := hes _ hnew
        exact h.ordered.counts k }

theorem forget (h : Recorded es r) (i id : ℕ) :
    Recorded (es ++ [.removed i id]) (r.forget i id) where
  ordered := h.ordered.forget i id
  entries k := by rw [registered_concat, entries_forget, h.entries]; rfl
  flag k := by simp [h.flag]
  given k n l hadded := by simpa using h.given k n l (by simpa using hadded)

theorem detach (h : Recorded es r) (i : ℕ) : Recorded (es ++ [.left i]) (r.detach i) where
  ordered := h.ordered.detach i
  entries k := by
    rw [registered_concat, entries_detach, h.ordered.filter_source, h.entries]
    rfl
  flag k := by simp [h.flag]
  given k n l hadded := by simpa using h.given k n l (by simpa using hadded)

theorem cancel (h : Recorded es r) (hi : i < r.cells.length) :
    Recorded (es ++ [.called i, .began i]) ((r.shut i).detach i) where
  ordered := h.ordered.cancel hi
  entries k := by
    rw [List.append_cons es, registered_concat, registered_append_idle (by simp [Event.Idle]),
      entries_detach, entries_shut _ _ hi, source_shut, ← h.entries, Event.change]
    by_cases hk : i = k
    · simp [hk]
    · rw [if_neg (Ne.symm hk), if_neg hk, h.ordered.filter_source]
  flag k := by
    rw [isCancelled_detach, isCancelled_shut _ _ hi]
    by_cases hk : k = i <;> simp [hk, h.flag]
  given k n l hadded := by simpa using h.given k n l (by simpa using hadded)

theorem attach (h : Recorded es r) (hi : i < r.cells.length) (l : Listener) :
    Recorded (es ++ [.added i (r.cell i).signal.next l]) (r.attach i (.listener l)) where
  ordered := h.ordered.attach hi l
  entries k := by
    rw [registered_concat, entries_attach _ _ _ hi, h.entries, Event.change]
    by_cases hk : i = k
    · simp [hk, (h.ordered.counts k).ne']
    · simp [hk, Ne.symm hk]
  flag k := by simp [h.flag]
  given k n l' hadded := by
    rcases List.mem_append.mp hadded with hold | hnew
    · exact (h.given k n l' hold).trans_le (next_le_attach ..)
    · obtain ⟨rfl, rfl, -⟩ := Event.added.inj (List.mem_singleton.mp hnew)
      rw [next_attach_self _ _ hi]
      exact Nat.lt_succ_self _

theorem create (h : Recorded es r) : Recorded es (r.grow {}) where
  ordered := h.ordered.grow Nat.one_pos rfl rfl
  entries k := by rw [entries_grow rfl, h.entries]
  flag k := by
    rw [← h.flag, isCancelled, isCancelled, cell_grow]
    split_ifs with hk
    · simp [hk, cell_of_le le_rfl]
    · rfl
  given k n l hadded := (h.given k n l hadded).trans_le (next_le_grow Nat.one_pos k)

theorem sprout (h : Recorded es r) (hi : i < r.cells.length) :
    Recorded (es ++ [.derived i (r.cell i).signal.next r.cells.length]) (r.sprout i) where
  ordered := h.ordered.sprout hi
  entries k := by
    rw [registered_concat, entries_sprout _ _ hi, h.entries, Event.change]
    by_cases hk : i = k
    · simp [hk]
    · simp [hk, Ne.symm hk]
  flag k := by rw [isCancelled_sprout]; simp [h.flag]
  given k n l hadded :=
    (h.given k n l (by simpa using hadded)).trans_le (next_le_sprout ..)

/-- A context is derived from one that is cancelled. -/
theorem deriveEnded (h : Recorded es r) {c : Cell} (hnext : 0 < c.signal.next)
    (hlisteners : c.signal.listeners = []) (hsource : c.source = none)
    (hcancelled : c.signal.cancelled = true) :
    Recorded (es ++ [.called r.cells.length, .began r.cells.length, .ended r.cells.length])
      (r.grow c) where
  ordered := h.ordered.grow hnext hlisteners hsource
  entries k := by
    rw [List.append_cons es, List.append_cons (es ++ [Event.called _]),
      registered_append_idle (by simp [Event.Idle]), registered_concat,
      registered_append_idle (by simp [Event.Idle]), entries_grow hlisteners, ← h.entries,
      Event.change]
    split_ifs with hk
    · rw [← hk, Registry.entries, cell_of_le le_rfl]
    · refine (List.filter_eq_self.mpr fun x hx => ?_).symm
      obtain ⟨n, e⟩ := x
      simp only [ne_eq, decide_eq_true_eq]
      rintro rfl
      exact (h.ordered.lt_of_derived hx).false
  flag k := by
    rw [isCancelled, cell_grow]
    split_ifs with hk
    · simp [hk, hcancelled]
    · simp [← h.flag, hk, isCancelled]
  given k n l hadded :=
    (h.given k n l (by simpa using hadded)).trans_le (next_le_grow hnext k)

end Recorded

end Registry

end Signal

end Ingest

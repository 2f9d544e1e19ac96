import Ingest.Signal.Registry
import Ingest.Proofs.Catalog

/-!
# How contexts are linked

A derived context that is held and not cancelled has one entry among the listeners of the context it
was derived from, and remembers it as its source (`Linked`). Only a cancellation takes the entry
out, in order to pass on to the derived context, and the derived context itself, when it is
cancelled or nobody holds it any more. While a cancellation is at work the entries that it has taken
out wait as tasks.
-/

namespace Ingest

namespace Signal

namespace Registry

variable {r : Registry} {Q : Listener → Prop} {H H' : Set ℕ} {G G' : Set (ℕ × ℕ)}
  {ts : List Task} {i j k id : ℕ}

/-! ### Cells -/

/-- The listeners of a context. -/
def entries (r : Registry) (k : ℕ) : List (ℕ × Entry) :=
  (r.cell k).signal.listeners

theorem cell_of_le (hk : r.cells.length ≤ k) : r.cell k = {} := by
  simp [cell, List.getElem?_eq_none hk]

theorem lt_of_source (h : (r.cell i).source.isSome) : i < r.cells.length := by
  by_contra hi
  rw [cell_of_le (not_lt.mp hi)] at h
  cases h

theorem cell_modifyCell (r : Registry) (i k : ℕ) (f : Cell → Cell) : (r.modifyCell i f).cell k
    = if k = i ∧ i < r.cells.length then f (r.cell k) else r.cell k := by
  unfold cell modifyCell
  rw [List.getElem?_modify]
  by_cases hk : k < r.cells.length
  · rw [List.getElem?_eq_getElem hk]
    by_cases hki : i = k
    · subst hki
      simp [hk]
    · simp [hki, Ne.symm hki]
  · rw [List.getElem?_eq_none (not_lt.mp hk), if_neg (by omega)]
    rfl

@[simp] theorem length_modifyCell (r : Registry) (i : ℕ) (f : Cell → Cell) :
    (r.modifyCell i f).cells.length = r.cells.length :=
  List.length_modify _ _ _

theorem modifyCell_congr {f g : Cell → Cell} (h : f (r.cell i) = g (r.cell i)) :
    r.modifyCell i f = r.modifyCell i g := by
  have hcells : r.cells.modify i f = r.cells.modify i g := by
    refine List.ext_getElem? fun k => ?_
    rw [List.getElem?_modify, List.getElem?_modify]
    by_cases hki : i = k
    · subst hki
      by_cases hlt : i < r.cells.length
      · have hc : r.cell i = r.cells[i] := by simp [cell, hlt]
        simpa [hlt, hc] using h
      · simp [List.getElem?_eq_none (not_lt.mp hlt)]
    · simp [hki]
  unfold modifyCell
  rw [hcells]

/-- A registry with a further context. -/
def grow (r : Registry) (c : Cell) : Registry :=
  { r with cells := r.cells ++ [c] }

theorem cell_grow (r : Registry) (c : Cell) (k : ℕ) :
    (r.grow c).cell k = if k = r.cells.length then c else r.cell k := by
  unfold cell grow
  rcases Nat.lt_trichotomy k r.cells.length with hk | rfl | hk
  · rw [List.getElem?_append_left hk, if_neg hk.ne]
  · simp
  · rw [List.getElem?_eq_none (by simp; omega), List.getElem?_eq_none hk.le, if_neg hk.ne']

@[simp] theorem length_grow (r : Registry) (c : Cell) :
    (r.grow c).cells.length = r.cells.length + 1 := by
  simp [grow]

theorem entries_grow {c : Cell} (hc : c.signal.listeners = []) (k : ℕ) :
    (r.grow c).entries k = r.entries k := by
  unfold entries
  rw [cell_grow]
  split_ifs with hk
  · rw [hc, hk, cell_of_le le_rfl]
  · rfl

theorem next_le_grow {c : Cell} (hc : 0 < c.signal.next) (k : ℕ) :
    (r.cell k).signal.next ≤ ((r.grow c).cell k).signal.next := by
  rw [cell_grow]
  split_ifs with hk
  · rw [hk, cell_of_le le_rfl]
    exact hc
  · exact le_rfl

/-! ### To forget a listener and to detach a context -/

section Forget

variable (r i id k)

theorem cell_forget : (r.forget i id).cell k
    = if k = i then { r.cell k with signal := (r.cell k).signal.forget id } else r.cell k := by
  unfold forget
  rw [cell_modifyCell]
  by_cases hk : k = i
  · subst hk
    by_cases hlt : k < r.cells.length
    · simp [hlt]
    · simp [hlt, cell_of_le (not_lt.mp hlt), Signal.forget]
  · simp [hk]

@[simp] theorem length_forget : (r.forget i id).cells.length = r.cells.length :=
  length_modifyCell ..

@[simp] theorem handles_forget : (r.forget i id).handles = r.handles := rfl

@[simp] theorem guards_forget : (r.forget i id).guards = r.guards := rfl

@[simp] theorem source_forget : ((r.forget i id).cell k).source = (r.cell k).source := by
  rw [cell_forget]
  split <;> rfl

@[simp] theorem origin_forget : ((r.forget i id).cell k).origin = (r.cell k).origin := by
  rw [cell_forget]
  split <;> rfl

@[simp] theorem next_forget : ((r.forget i id).cell k).signal.next = (r.cell k).signal.next := by
  rw [cell_forget]
  split <;> rfl

@[simp] theorem isCancelled_forget : (r.forget i id).isCancelled k = r.isCancelled k := by
  unfold isCancelled
  rw [cell_forget]
  split <;> rfl

theorem entries_forget : (r.forget i id).entries k
    = (r.entries k).filter fun x => decide (k = i → x.1 ≠ id) := by
  unfold entries
  rw [cell_forget]
  by_cases hk : k = i
  · rw [if_pos hk]
    exact List.filter_congr fun x _ => by simp [hk, bne, beq_eq_decide]
  · simp [hk]

theorem mem_entries_forget {x : ℕ × Entry} :
    x ∈ (r.forget i id).entries k ↔ x ∈ r.entries k ∧ (k = i → x.1 ≠ id) := by
  rw [entries_forget, List.mem_filter, decide_eq_true_iff]

end Forget

/-- A context without its source. -/
def unlink (r : Registry) (i : ℕ) : Registry :=
  r.modifyCell i fun c => { c with source := none }

theorem detach_eq (r : Registry) (i : ℕ) : r.detach i
    = match (r.cell i).source with
      | none => r
      | some (above, listener) => (r.forget above listener).unlink i := rfl

theorem cell_unlink (r : Registry) (i k : ℕ) : (r.unlink i).cell k
    = { r.cell k with source := if k = i then none else (r.cell k).source } := by
  unfold unlink
  rw [cell_modifyCell]
  by_cases hk : k = i
  · subst hk
    by_cases hlt : k < r.cells.length
    · simp [hlt]
    · simp [hlt, cell_of_le (not_lt.mp hlt)]
  · simp [hk]

section Detach

variable (r i k)

@[simp] theorem length_detach : (r.detach i).cells.length = r.cells.length := by
  rw [detach_eq]
  split <;> simp [unlink]

@[simp] theorem handles_detach : (r.detach i).handles = r.handles := by
  rw [detach_eq]
  split <;> rfl

@[simp] theorem guards_detach : (r.detach i).guards = r.guards := by
  rw [detach_eq]
  split <;> rfl

@[simp] theorem source_detach :
    ((r.detach i).cell k).source = if k = i then none else (r.cell k).source := by
  rw [detach_eq]
  split
  · rename_i hs
    split_ifs with hk
    · rw [hk, hs]
    · rfl
  · simp [cell_unlink]

@[simp] theorem origin_detach : ((r.detach i).cell k).origin = (r.cell k).origin := by
  rw [detach_eq]
  split <;> simp [cell_unlink]

@[simp] theorem next_detach : ((r.detach i).cell k).signal.next = (r.cell k).signal.next := by
  rw [detach_eq]
  split <;> simp [cell_unlink]

@[simp] theorem isCancelled_detach : (r.detach i).isCancelled k = r.isCancelled k := by
  have hunlink : ∀ r : Registry, (r.unlink i).isCancelled k = r.isCancelled k := fun r => by
    simp [isCancelled, cell_unlink]
  rw [detach_eq]
  split
  · rfl
  · rw [hunlink, isCancelled_forget]

theorem entries_detach : (r.detach i).entries k
    = (r.entries k).filter fun x => decide ((r.cell i).source ≠ some (k, x.1)) := by
  have hunlink : ∀ r : Registry, (r.unlink i).entries k = r.entries k := fun r => by
    simp [entries, cell_unlink]
  rw [detach_eq]
  rcases (r.cell i).source with _ | ⟨above, id⟩
  · simp
  · simp only [hunlink, entries_forget]
    refine List.filter_congr fun x _ => decide_eq_decide.mpr ?_
    simp only [ne_eq, Option.some.injEq, Prod.mk.injEq, not_and]
    exact ⟨fun h hk hx => h hk.symm hx.symm, fun h hk hx => h hk.symm hx.symm⟩

theorem mem_entries_detach {x : ℕ × Entry} : x ∈ (r.detach i).entries k
    ↔ x ∈ r.entries k ∧ ∀ id, (r.cell i).source = some (k, id) → x.1 ≠ id := by
  rw [entries_detach, List.mem_filter, decide_eq_true_iff]
  refine and_congr_right fun _ => ⟨?_, fun h hx => h x.1 hx rfl⟩
  rintro h id hid rfl
  exact h hid

end Detach

/-- A context that is cancelled, with no listeners left. -/
def shut (r : Registry) (i : ℕ) : Registry :=
  r.modifyCell i fun c => { c with signal := { c.signal with cancelled := true, listeners := [] } }

section Shut

variable (r i k)

@[simp] theorem length_shut : (r.shut i).cells.length = r.cells.length :=
  length_modifyCell ..

@[simp] theorem source_shut : ((r.shut i).cell k).source = (r.cell k).source := by
  unfold shut
  rw [cell_modifyCell]
  split <;> rfl

@[simp] theorem origin_shut : ((r.shut i).cell k).origin = (r.cell k).origin := by
  unfold shut
  rw [cell_modifyCell]
  split <;> rfl

@[simp] theorem next_shut : ((r.shut i).cell k).signal.next = (r.cell k).signal.next := by
  unfold shut
  rw [cell_modifyCell]
  split <;> rfl

theorem isCancelled_shut {i : ℕ} (hi : i < r.cells.length) :
    (r.shut i).isCancelled k = if k = i then true else r.isCancelled k := by
  unfold shut isCancelled
  rw [cell_modifyCell]
  by_cases hk : k = i <;> simp [hk, hi]

theorem entries_shut {i : ℕ} (hi : i < r.cells.length) :
    (r.shut i).entries k = if k = i then [] else r.entries k := by
  unfold shut entries
  rw [cell_modifyCell]
  by_cases hk : k = i <;> simp [hk, hi]

end Shut

/-- A context with a further listener. -/
def attach (r : Registry) (i : ℕ) (e : Entry) : Registry :=
  r.modifyCell i fun c => { c with signal :=
    { c.signal with
      next := c.signal.next + 1
      listeners := c.signal.listeners ++ [(c.signal.next, e)] } }

section Attach

variable (r i k) (e : Entry)

@[simp] theorem length_attach : (r.attach i e).cells.length = r.cells.length :=
  length_modifyCell ..

@[simp] theorem source_attach : ((r.attach i e).cell k).source = (r.cell k).source := by
  unfold attach
  rw [cell_modifyCell]
  split <;> rfl

@[simp] theorem origin_attach : ((r.attach i e).cell k).origin = (r.cell k).origin := by
  unfold attach
  rw [cell_modifyCell]
  split <;> rfl

@[simp] theorem isCancelled_attach : (r.attach i e).isCancelled k = r.isCancelled k := by
  unfold attach isCancelled
  rw [cell_modifyCell]
  split <;> rfl

theorem next_le_attach : (r.cell k).signal.next ≤ ((r.attach i e).cell k).signal.next := by
  unfold attach
  rw [cell_modifyCell]
  split
  · exact Nat.le_succ _
  · exact le_rfl

theorem next_attach_self {i : ℕ} (hi : i < r.cells.length) :
    ((r.attach i e).cell i).signal.next = (r.cell i).signal.next + 1 := by
  unfold attach
  rw [cell_modifyCell, if_pos ⟨rfl, hi⟩]

theorem entries_attach {i : ℕ} (hi : i < r.cells.length) : (r.attach i e).entries k
    = r.entries k ++ if k = i then [((r.cell i).signal.next, e)] else [] := by
  unfold attach entries
  rw [cell_modifyCell]
  by_cases hk : k = i <;> simp [hk, hi]

end Attach

/-- A registry with a further context, derived from one that is not cancelled. -/
def sprout (r : Registry) (i : ℕ) : Registry :=
  (r.attach i (.derived r.cells.length)).grow
    { source := some (i, (r.cell i).signal.next), origin := some i }

/-! ### The links -/

/-- The contexts `H` are held, and `G` are numbers that were given for listeners. What waits to be
done is `ts`, and of all listeners is known `Q`. -/
structure Linked (Q : Listener → Prop) (H : Set ℕ) (G : Set (ℕ × ℕ)) (ts : List Task)
    (r : Registry) : Prop where
  held_lt : ∀ i ∈ H, i < r.cells.length
  /-- An entry stands where its context says. -/
  source : ∀ k id i, (id, .derived i) ∈ r.entries k → (r.cell i).source = some (k, id)
  entry : ∀ i k id, (r.cell i).source = some (k, id) →
    (id, .derived i) ∈ r.entries k ∨ .cancel i ∈ ts
  origin : ∀ i k id, (r.cell i).source = some (k, id) → (r.cell i).origin = some k
  number : ∀ i k id, (r.cell i).source = some (k, id) → id < (r.cell k).signal.next
  injective : ∀ i j p, (r.cell i).source = some p → (r.cell j).source = some p → i = j
  /-- Who has a source is held and not cancelled, and who is held and not cancelled has one. -/
  alive : ∀ i p, (r.cell i).source = some p → i ∈ H ∧ r.isCancelled i = false
  attached : ∀ i ∈ H, r.isCancelled i = false → ∀ k, (r.cell i).origin = some k →
    ∃ id, (r.cell i).source = some (k, id)
  ended : ∀ k, r.isCancelled k = true → r.entries k = []
  older : ∀ i k, (r.cell i).origin = some k → k < i
  /-- A number that was given belongs to no entry of a derived context, now or later. -/
  given : ∀ p ∈ G, p.2 < (r.cell p.1).signal.next ∧ ∀ c, (p.2, .derived c) ∉ r.entries p.1
  counts : ∀ k, 0 < (r.cell k).signal.next
  known : ∀ k id l, (id, .listener l) ∈ r.entries k → Q l

namespace Linked

theorem anti (h : Linked Q H G ts r) (hG : G' ⊆ G) : Linked Q H G' ts r :=
  { h with given := fun p hp => h.given p (hG hp) }

theorem congr {r' : Registry} (h : Linked Q H G ts r) (hcells : r'.cells = r.cells) :
    Linked Q H G ts r' := by
  obtain ⟨cells, handles, guards, fired⟩ := r
  obtain ⟨cells', handles', guards', fired'⟩ := r'
  obtain rfl : cells' = cells := hcells
  exact { h with }

theorem wait {ts' : List Task} (h : Linked Q H G ts r) (hts : ts ⊆ ts') : Linked Q H G ts' r :=
  { h with entry := fun i k id hi => (h.entry i k id hi).imp_right fun hwait => hts hwait }

/-- The next number of a context is not that of an entry of a derived context. -/
theorem fresh (h : Linked Q H G ts r) (i c : ℕ) :
    (r.cell c).source ≠ some (i, (r.cell i).signal.next) :=
  fun hc => (h.number c i _ hc).false

/-- Nothing is left to do: what was derived from a context that is cancelled is cancelled too. -/
theorem ends (h : Linked Q H G [] r) (hi : i ∈ H) (horigin : (r.cell i).origin = some k)
    (hk : r.isCancelled k = true) : r.isCancelled i = true := by
  by_contra hlive
  obtain ⟨id, hsource⟩ := h.attached i hi (Bool.not_eq_true _ ▸ hlive) k horigin
  rcases h.entry i k id hsource with hentry | hwait
  · rw [h.ended k hk] at hentry
    cases hentry
  · cases hwait

theorem give {id : ℕ} (h : Linked Q H G ts r) (hlt : id < (r.cell i).signal.next)
    (hid : ∀ c, (id, .derived c) ∉ r.entries i) : Linked Q H (insert (i, id) G) ts r :=
  { h with given := Set.forall_mem_insert.mpr ⟨⟨hlt, hid⟩, h.given⟩ }

theorem empty : Linked Q ∅ ∅ [] {} := by
  have hcell : ∀ k, ({} : Registry).cell k = {} := fun k => cell_of_le (Nat.zero_le k)
  constructor <;> simp [entries, isCancelled, hcell]

/-- Somebody's listener is taken away. -/
theorem forget (h : Linked Q H G ts r) (hid : ∀ c, (id, .derived c) ∉ r.entries i) :
    Linked Q H G ts (r.forget i id) where
  held_lt := by simpa using h.held_lt
  source k n c hc := by simpa using h.source k n c ((mem_entries_forget ..).mp hc).1
  entry c k n hc := by
    refine (h.entry c k n (by simpa using hc)).imp_left fun hentry => ?_
    refine (mem_entries_forget ..).mpr ⟨hentry, ?_⟩
    rintro rfl rfl
    exact hid c hentry
  origin := by simpa using h.origin
  number := by simpa using h.number
  injective := by simpa using h.injective
  alive := by simpa using h.alive
  attached := by simpa using h.attached
  ended k hk := by
    have hnil := h.ended k (by simpa using hk)
    refine List.eq_nil_iff_forall_not_mem.mpr fun x hx => ?_
    simpa [hnil] using ((mem_entries_forget ..).mp hx).1
  older := by simpa using h.older
  given p hp := by
    obtain ⟨hlt, hne⟩ := h.given p hp
    exact ⟨by simpa using hlt, fun c hc => hne c ((mem_entries_forget ..).mp hc).1⟩
  counts := by simpa using h.counts
  known k n l hl := h.known k n l ((mem_entries_forget ..).mp hl).1

/-- A context is let go of, or cancelled: its source forgets it. -/
theorem detach (h : Linked Q H G ts r) (i : ℕ) : Linked Q (H \ {i}) G ts (r.detach i) where
  held_lt := by simpa using fun c hc _ => h.held_lt c hc
  source k n c hc := by
    obtain ⟨hmem, hne⟩ := (mem_entries_detach ..).mp hc
    have hs := h.source k n c hmem
    rw [source_detach, if_neg ?_]
    · exact hs
    · rintro rfl
      exact hne n hs rfl
  entry c k n hc := by
    rw [source_detach] at hc
    split_ifs at hc with hci
    refine (h.entry c k n hc).imp_left fun hmem => (mem_entries_detach ..).mpr ⟨hmem, ?_⟩
    rintro m hm rfl
    exact hci (h.injective c i _ hc hm)
  origin c k n hc := by
    rw [source_detach] at hc
    split_ifs at hc
    simpa using h.origin c k n hc
  number c k n hc := by
    rw [source_detach] at hc
    split_ifs at hc
    simpa using h.number c k n hc
  injective c d p hc hd := by
    rw [source_detach] at hc hd
    split_ifs at hc hd
    exact h.injective c d p hc hd
  alive c p hc := by
    rw [source_detach] at hc
    split_ifs at hc with hci
    obtain ⟨hheld, hlive⟩ := h.alive c p hc
    exact ⟨⟨hheld, hci⟩, by simpa using hlive⟩
  attached c hc hlive k hk := by
    obtain ⟨n, hn⟩ := h.attached c hc.1 (by simpa using hlive) k (by simpa using hk)
    exact ⟨n, (source_detach ..).trans ((if_neg hc.2).trans hn)⟩
  ended k hk := by
    have hnil := h.ended k (by simpa using hk)
    refine List.eq_nil_iff_forall_not_mem.mpr fun x hx => ?_
    simpa [hnil] using ((mem_entries_detach ..).mp hx).1
  older := by simpa using h.older
  given p hp := by
    obtain ⟨hlt, hne⟩ := h.given p hp
    exact ⟨by simpa using hlt, fun c hc => hne c ((mem_entries_detach ..).mp hc).1⟩
  counts := by simpa using h.counts
  known k n l hl := h.known k n l ((mem_entries_detach ..).mp hl).1

/-- A context is cancelled: what its listeners lead to is left to do. -/
theorem cancel (h : Linked Q H G (.cancel i :: ts) r) (hi : i < r.cells.length) :
    Linked Q H G ((r.entries i).map (fun e => taskOf e.2) ++ ts) ((r.shut i).detach i) := by
  have hmem : ∀ {k x}, x ∈ ((r.shut i).detach i).entries k →
      k ≠ i ∧ x ∈ r.entries k ∧ ∀ n, (r.cell i).source = some (k, n) → x.1 ≠ n := by
    intro k x hx
    rw [mem_entries_detach, entries_shut _ _ hi, source_shut] at hx
    split_ifs at hx with hk
    · simp at hx
    · exact ⟨hk, hx⟩
  have hcancelled : ∀ {k}, ((r.shut i).detach i).isCancelled k
      = if k = i then true else r.isCancelled k := fun {k} => by
    rw [isCancelled_detach, isCancelled_shut _ _ hi]
  have hsource : ∀ {c p}, (((r.shut i).detach i).cell c).source = some p →
      c ≠ i ∧ (r.cell c).source = some p := by
    intro c p hc
    rw [source_detach, source_shut] at hc
    split_ifs at hc with hci
    exact ⟨hci, hc⟩
  constructor
  · simpa using h.held_lt
  · intro k n c hc
    obtain ⟨-, hold, hne⟩ := hmem hc
    have hs := h.source k n c hold
    rw [source_detach, if_neg ?_, source_shut]
    · exact hs
    · rintro rfl
      exact hne n hs rfl
  · intro c k n hc
    obtain ⟨hci, hs⟩ := hsource hc
    rcases h.entry c k n hs with hold | hwait
    · by_cases hk : k = i
      · subst hk
        exact .inr (List.mem_append_left _ (List.mem_map.mpr ⟨_, hold, rfl⟩))
      · refine .inl ((mem_entries_detach ..).mpr ?_)
        rw [entries_shut _ _ hi, if_neg hk, source_shut]
        refine ⟨hold, ?_⟩
        rintro m hm rfl
        exact hci (h.injective c i _ hs hm)
    · refine .inr (List.mem_append_right _ ?_)
      simpa [hci] using hwait
  · intro c k n hc
    simpa using h.origin c k n (hsource hc).2
  · intro c k n hc
    simpa using h.number c k n (hsource hc).2
  · intro c d p hc hd
    exact h.injective c d p (hsource hc).2 (hsource hd).2
  · intro c p hc
    obtain ⟨hci, hs⟩ := hsource hc
    rw [hcancelled, if_neg hci]
    exact h.alive c p hs
  · intro c hc hlive k hk
    rw [hcancelled] at hlive
    split_ifs at hlive with hci
    obtain ⟨n, hn⟩ := h.attached c hc hlive k (by simpa using hk)
    exact ⟨n, by rw [source_detach, if_neg hci, source_shut, hn]⟩
  · intro k hk
    refine List.eq_nil_iff_forall_not_mem.mpr fun x hx => ?_
    obtain ⟨hki, hold, -⟩ := hmem hx
    rw [hcancelled, if_neg hki] at hk
    simp [h.ended k hk] at hold
  · simpa using h.older
  · intro p hp
    obtain ⟨hlt, hne⟩ := h.given p hp
    exact ⟨by simpa using hlt, fun c hc => hne c (hmem hc).2.1⟩
  · simpa using h.counts
  · intro k n l hl
    exact h.known k n l (hmem hl).2.1

/-- What waits is of no account if it cancels nothing, or a context that is cancelled already. -/
theorem done {t : Task} (h : Linked Q H G (t :: ts) r)
    (ht : ∀ i, t = .cancel i → r.isCancelled i = true) : Linked Q H G ts r := by
  refine { h with entry := fun c k n hc => (h.entry c k n hc).imp_right fun hwait => ?_ }
  refine (List.mem_cons.mp hwait).resolve_left fun heq => ?_
  have hlive := (h.alive c _ hc).2
  rw [ht c heq.symm] at hlive
  cases hlive

/-- Somebody adds a listener: its number belongs to no entry of a derived context. -/
theorem listen (h : Linked Q H G ts r) (hi : i < r.cells.length) (hlive : r.isCancelled i = false)
    {l : Listener} (hl : Q l) :
    Linked Q H (insert (i, (r.cell i).signal.next) G) ts (r.attach i (.listener l)) := by
  have hmem : ∀ {k n c}, (n, .derived c) ∈ (r.attach i (.listener l)).entries k
      ↔ (n, .derived c) ∈ r.entries k := by
    intro k n c
    rw [entries_attach _ _ _ hi]
    split_ifs <;> simp
  constructor
  · simpa using h.held_lt
  · intro k n c hc
    simpa using h.source k n c (hmem.mp hc)
  · intro c k n hc
    exact (h.entry c k n (by simpa using hc)).imp_left hmem.mpr
  · simpa using h.origin
  · intro c k n hc
    exact (h.number c k n (by simpa using hc)).trans_le (next_le_attach ..)
  · simpa using h.injective
  · simpa using h.alive
  · simpa using h.attached
  · intro k hk
    rw [isCancelled_attach] at hk
    rw [entries_attach _ _ _ hi, if_neg ?_, h.ended k hk]
    · rfl
    · rintro rfl
      rw [hlive] at hk
      cases hk
  · simpa using h.older
  · rintro p (rfl | hp)
    · refine ⟨by simp [next_attach_self _ _ hi], fun c hc => ?_⟩
      exact (h.number c i _ (h.source i _ c (hmem.mp hc))).false
    · obtain ⟨hlt, hne⟩ := h.given p hp
      exact ⟨hlt.trans_le (next_le_attach ..), fun c hc => hne c (hmem.mp hc)⟩
  · exact fun k => (h.counts k).trans_le (next_le_attach ..)
  · intro k n x hx
    rw [entries_attach _ _ _ hi, List.mem_append] at hx
    rcases hx with hx | hx
    · exact h.known k n x hx
    · split_ifs at hx
      · simp only [List.mem_singleton, Prod.mk.injEq, Entry.listener.injEq] at hx
        exact hx.2 ▸ hl
      · simp at hx

/-- A context comes into being that keeps no entry anywhere. -/
theorem grow (h : Linked Q H G ts r) {c : Cell} (hnext : 0 < c.signal.next)
    (hlisteners : c.signal.listeners = []) (hsource : c.source = none)
    (horigin : ∀ k, c.origin = some k → c.signal.cancelled = true ∧ k < r.cells.length) :
    Linked Q (insert r.cells.length H) G ts (r.grow c) := by
  have hmem : ∀ {k x}, x ∈ (r.grow c).entries k ↔ x ∈ r.entries k := fun {k x} => by
    rw [entries_grow hlisteners]
  have hsources : ∀ {d p}, ((r.grow c).cell d).source = some p ↔ (r.cell d).source = some p := by
    intro d p
    rw [cell_grow]
    split_ifs with hd
    · rw [hsource, hd, cell_of_le le_rfl]
    · rfl
  have hold : ∀ {d p}, (r.cell d).source = some p → (r.grow c).cell d = r.cell d := by
    intro d p hd
    rw [cell_grow, if_neg (lt_of_source (by rw [hd]; rfl)).ne]
  have hnexts : ∀ k, (r.cell k).signal.next ≤ ((r.grow c).cell k).signal.next :=
    next_le_grow hnext
  constructor
  · rintro d (rfl | hd)
    · simp
    · simpa using (h.held_lt d hd).trans (Nat.lt_succ_self _)
  · exact fun k n d hd => hsources.mpr (h.source k n d (hmem.mp hd))
  · exact fun d k n hd => (h.entry d k n (hsources.mp hd)).imp_left hmem.mpr
  · intro d k n hd
    rw [hold (hsources.mp hd)]
    exact h.origin d k n (hsources.mp hd)
  · exact fun d k n hd => (h.number d k n (hsources.mp hd)).trans_le (hnexts k)
  · exact fun d e p hd he => h.injective d e p (hsources.mp hd) (hsources.mp he)
  · intro d p hd
    obtain ⟨hheld, hlive⟩ := h.alive d p (hsources.mp hd)
    refine ⟨Set.mem_insert_of_mem _ hheld, ?_⟩
    unfold isCancelled
    rw [hold (hsources.mp hd)]
    exact hlive
  · intro d hd hlive k hk
    rw [isCancelled, cell_grow] at hlive
    rw [cell_grow] at hk
    split_ifs at hk hlive with hnew
    · rw [(horigin k hk).1] at hlive
      cases hlive
    · obtain ⟨n, hn⟩ := h.attached d (hd.resolve_left hnew) hlive k hk
      exact ⟨n, hsources.mpr hn⟩
  · intro k hk
    refine List.eq_nil_iff_forall_not_mem.mpr fun x hx => ?_
    rw [isCancelled, cell_grow] at hk
    have hold := hmem.mp hx
    split_ifs at hk with hnew
    · rw [entries, hnew, cell_of_le le_rfl] at hold
      cases hold
    · rw [h.ended k hk] at hold
      cases hold
  · intro d k hk
    rw [cell_grow] at hk
    split_ifs at hk with hnew
    · exact hnew ▸ (horigin k hk).2
    · exact h.older d k hk
  · intro p hp
    obtain ⟨hlt, hne⟩ := h.given p hp
    exact ⟨hlt.trans_le (hnexts _), fun d hd => hne d (hmem.mp hd)⟩
  · exact fun k => (h.counts k).trans_le (hnexts k)
  · exact fun k n l hl => h.known k n l (hmem.mp hl)

/-- A context comes into being that is derived from another. -/
theorem sprout (h : Linked Q H G ts r) (hi : i < r.cells.length) (hlive : r.isCancelled i = false) :
    Linked Q (insert r.cells.length H) G ts (r.sprout i) := by
  have hmem : ∀ {k x}, x ∈ (r.sprout i).entries k ↔ x ∈ r.entries k
      ∨ k = i ∧ x = ((r.cell i).signal.next, .derived r.cells.length) := by
    intro k x
    unfold Registry.sprout entries
    rw [cell_grow, length_attach]
    split_ifs with hk
    · subst hk
      simp [cell_of_le le_rfl, hi.ne']
    · rw [← entries, entries_attach _ _ _ hi, List.mem_append]
      split_ifs with hki <;> simp [entries, hki]
  have hcell : ∀ {c}, ((r.sprout i).cell c).source = (if c = r.cells.length
      then some (i, (r.cell i).signal.next) else (r.cell c).source)
      ∧ ((r.sprout i).cell c).origin = (if c = r.cells.length then some i else (r.cell c).origin)
      ∧ (r.sprout i).isCancelled c = r.isCancelled c
      ∧ (r.cell c).signal.next ≤ ((r.sprout i).cell c).signal.next := by
    intro c
    unfold Registry.sprout isCancelled
    rw [cell_grow, length_attach]
    split_ifs with hc
    · subst hc
      simp [cell_of_le le_rfl]
    · exact ⟨source_attach .., origin_attach .., isCancelled_attach .., next_le_attach ..⟩
  have hfresh : ∀ {p}, (r.cell r.cells.length).source ≠ some p := by simp [cell_of_le le_rfl]
  constructor
  · rintro d (rfl | hd)
    · simp [Registry.sprout]
    · simpa [Registry.sprout] using (h.held_lt d hd).trans (Nat.lt_succ_self _)
  · intro k n c hc
    rw [hcell.1]
    rcases hmem.mp hc with hold | ⟨rfl, hnew⟩
    · have hs := h.source k n c hold
      rw [if_neg fun hc => hfresh (hc ▸ hs), hs]
    · obtain ⟨rfl, hentry⟩ := Prod.mk.inj hnew
      rw [if_pos (Entry.derived.inj hentry)]
  · intro c k n hc
    rw [hcell.1] at hc
    split_ifs at hc with hnew
    · obtain ⟨rfl, rfl⟩ := Prod.mk.inj (Option.some.inj hc)
      exact .inl (hmem.mpr (.inr ⟨rfl, by rw [hnew]⟩))
    · exact (h.entry c k n hc).imp_left fun hold => hmem.mpr (.inl hold)
  · intro c k n hc
    rw [hcell.1] at hc
    rw [hcell.2.1]
    split_ifs at hc ⊢
    · rw [(Prod.mk.inj (Option.some.inj hc)).1]
    · exact h.origin c k n hc
  · intro c k n hc
    rw [hcell.1] at hc
    split_ifs at hc
    · obtain ⟨rfl, rfl⟩ := Prod.mk.inj (Option.some.inj hc)
      unfold Registry.sprout
      rw [cell_grow, length_attach, if_neg hi.ne, next_attach_self _ _ hi]
      exact Nat.lt_succ_self _
    · exact (h.number c k n hc).trans_le hcell.2.2.2
  · have hother := h.fresh i
    intro c d p hc hd
    rw [hcell.1] at hc hd
    split_ifs at hc hd with hcnew hdnew hdnew
    · rw [hcnew, hdnew]
    · exact absurd (hd.trans hc.symm) (hother d)
    · exact absurd (hc.trans hd.symm) (hother c)
    · exact h.injective c d p hc hd
  · intro c p hc
    rw [hcell.1] at hc
    rw [hcell.2.2.1]
    split_ifs at hc with hnew
    · subst hnew
      exact ⟨Set.mem_insert _ _, by simp [isCancelled, cell_of_le le_rfl]⟩
    · exact (h.alive c p hc).imp_left (Set.mem_insert_of_mem _)
  · intro c hc hlive k hk
    rw [hcell.2.2.1] at hlive
    rw [hcell.2.1] at hk
    rw [hcell.1]
    split_ifs at hk ⊢ with hnew
    · exact ⟨_, by rw [Option.some.inj hk]⟩
    · exact h.attached c (hc.resolve_left hnew) hlive k hk
  · intro k hk
    rw [hcell.2.2.1] at hk
    refine List.eq_nil_iff_forall_not_mem.mpr fun x hx => ?_
    rcases hmem.mp hx with hold | ⟨rfl, -⟩
    · rw [h.ended k hk] at hold
      cases hold
    · rw [hlive] at hk
      cases hk
  · intro c k hk
    rw [hcell.2.1] at hk
    split_ifs at hk with hnew
    · rw [hnew, ← Option.some.inj hk]
      exact hi
    · exact h.older c k hk
  · intro p hp
    obtain ⟨hlt, hne⟩ := h.given p hp
    refine ⟨hlt.trans_le hcell.2.2.2, fun c hc => ?_⟩
    rcases hmem.mp hc with hold | ⟨hpi, hnew⟩
    · exact hne c hold
    · rw [hpi, (Prod.mk.inj hnew).1] at hlt
      exact hlt.false
  · exact fun k => (h.counts k).trans_le hcell.2.2.2
  · intro k n l hl
    rcases hmem.mp hl with hold | ⟨-, hnew⟩
    · exact h.known k n l hold
    · cases (Prod.mk.inj hnew).2

end Linked

end Registry

end Signal

end Ingest

import Ingest.Proofs.Signal.Settling

/-!
# Who holds the contexts

A context is held by the handles and guards that are under some name. To bind a name, to drop one
and to end a guard let go of at most one context, which is detached from its source once nobody
holds it (`Linked.release`), so that the links stay in order (`Tidy`).
-/

namespace Ingest

namespace Catalog

variable {α : Type}

theorem Sorted.any_of_get? {c : Catalog α} (h : c.Sorted) {name : String} {v : α}
    (hv : c.get? name = some v) (p : String × α → Bool) :
    c.entries.any p = (p (name, v) || (c.erase name).entries.any p) :=
  (h.perm_of_get? hv).any_eq

theorem Sorted.any_set {c : Catalog α} (h : c.Sorted) (name : String) (v : α)
    (p : String × α → Bool) :
    (c.set name v).entries.any p = (p (name, v) || (c.erase name).entries.any p) :=
  (h.perm_set name v).any_eq

end Catalog

namespace Signal

namespace Registry

variable {r r' : Registry} {Q : Listener → Prop} {H : Set ℕ} {G given : Set (ℕ × ℕ)}
  {i j : ℕ} {name : String} {g : Guard}

/-- The contexts that somebody holds. -/
def held (r : Registry) : Set ℕ :=
  {i | r.isHeld i = true}

/-- The numbers of the guards' listeners. -/
def guarded (r : Registry) : Set (ℕ × ℕ) :=
  {p | ∃ e ∈ r.guards.entries, (e.2.cell, e.2.listener) = p}

theorem mem_held : i ∈ r.held ↔ r.isHeld i = true :=
  Iff.rfl

theorem Kept.held (h : Kept r r') : r'.held = r.held :=
  Set.ext fun i => by rw [mem_held, mem_held, h.isHeld]

theorem Kept.guarded (h : Kept r r') : r'.guarded = r.guarded := by
  rw [Registry.guarded, Registry.guarded, h.guards]

theorem mem_held_of_named (h : r.named? name = some i) : i ∈ r.held := by
  rw [mem_held, isHeld, Bool.or_eq_true, List.any_eq_true]
  exact .inl ⟨_, Catalog.mem_of_get? h, by simp⟩

theorem mem_guarded_of_get? (h : r.guards.get? name = some g) : (g.cell, g.listener) ∈ r.guarded :=
  ⟨_, Catalog.mem_of_get? h, rfl⟩

@[simp] theorem held_forget (r : Registry) (i id : ℕ) : (r.forget i id).held = r.held := rfl

@[simp] theorem held_detach (r : Registry) (i : ℕ) : (r.detach i).held = r.held :=
  Set.ext fun j => by rw [mem_held, mem_held, isHeld, isHeld, handles_detach, guards_detach]

/-! ### Names that are bound and dropped -/

section Names

/-- Without a name. -/
def unname (r : Registry) (name : String) : Registry :=
  { r with handles := r.handles.erase name }

/-- With a name bound. -/
def rename (r : Registry) (name : String) (i : ℕ) : Registry :=
  { r with handles := r.handles.set name i }

theorem held_of_named (h : r.handles.Sorted) (hj : r.named? name = some j) :
    r.held = insert j (r.unname name).held := by
  ext c
  rw [Set.mem_insert_iff, mem_held, mem_held, isHeld, isHeld, h.any_of_get? hj, Bool.or_assoc,
    Bool.or_eq_true, beq_iff_eq, eq_comm]
  rfl

theorem unname_of_not_named (hname : r.named? name = none) : r.unname name = r := by
  unfold unname
  rw [Catalog.erase_of_get?_eq_none hname]

theorem held_rename (h : r.handles.Sorted) (name : String) (i : ℕ) :
    (r.rename name i).held = insert i (r.unname name).held := by
  ext c
  rw [Set.mem_insert_iff, mem_held, mem_held, isHeld, isHeld, rename, h.any_set, Bool.or_assoc,
    Bool.or_eq_true, beq_iff_eq, eq_comm]
  rfl

theorem held_unname_subset (r : Registry) (name : String) : (r.unname name).held ⊆ r.held := by
  intro c hc
  rw [mem_held, isHeld, Bool.or_eq_true, List.any_eq_true] at hc ⊢
  refine hc.imp_left ?_
  rintro ⟨e, he, hec⟩
  exact ⟨e, (List.mem_filter.mp he).1, hec⟩

theorem bindName_eq (r : Registry) (name : String) (i : ℕ) : r.bindName name i
    = match r.named? name with
      | some j => (r.rename name i).release j
      | none => r.rename name i := rfl

/-- Without a guard. -/
def unguard (r : Registry) (name : String) : Registry :=
  { r with guards := r.guards.erase name }

/-- With a guard set. -/
def reguard (r : Registry) (name : String) (g : Guard) : Registry :=
  { r with guards := r.guards.set name g }

/-- To set a guard ends the one that has its name. -/
def setGuard (r : Registry) (name : String) (g : Guard) : Registry :=
  match r.guards.get? name with
  | some g' => (r.reguard name g).endGuard g'
  | none => r.reguard name g

theorem guardWith_eq (r : Registry) (i : ℕ) (name : String) (l : Listener) :
    r.guardWith i name l = (r.listen i l).2.setGuard name ⟨i, (r.listen i l).1⟩ := rfl

theorem held_of_guard (h : r.guards.Sorted) (hg : r.guards.get? name = some g) :
    r.held = insert g.cell (r.unguard name).held := by
  ext c
  rw [Set.mem_insert_iff, mem_held, mem_held, isHeld, isHeld, h.any_of_get? hg, Bool.or_left_comm,
    Bool.or_eq_true, beq_iff_eq, eq_comm]
  rfl

theorem held_reguard (h : r.guards.Sorted) (name : String) (g : Guard) :
    (r.reguard name g).held = insert g.cell (r.unguard name).held := by
  ext c
  rw [Set.mem_insert_iff, mem_held, mem_held, isHeld, isHeld, reguard, h.any_set, Bool.or_left_comm,
    Bool.or_eq_true, beq_iff_eq, eq_comm]
  rfl

theorem unguard_of_not_guard (hname : r.guards.get? name = none) : r.unguard name = r := by
  unfold unguard
  rw [Catalog.erase_of_get?_eq_none hname]

theorem held_unguard_subset (r : Registry) (name : String) : (r.unguard name).held ⊆ r.held := by
  intro c hc
  rw [mem_held, isHeld, Bool.or_eq_true, List.any_eq_true (l := (r.unguard name).guards.entries)]
    at hc
  rw [mem_held, isHeld, Bool.or_eq_true, List.any_eq_true (l := r.guards.entries)]
  refine hc.imp_right ?_
  rintro ⟨e, he, hec⟩
  exact ⟨e, (List.mem_filter.mp he).1, hec⟩

theorem guarded_unguard_subset (r : Registry) (name : String) :
    (r.unguard name).guarded ⊆ r.guarded := by
  rintro p ⟨e, he, rfl⟩
  exact ⟨e, (List.mem_filter.mp he).1, rfl⟩

theorem guarded_reguard_subset (r : Registry) (name : String) (g : Guard) :
    (r.reguard name g).guarded ⊆ insert (g.cell, g.listener) r.guarded := by
  rintro p ⟨e, he, rfl⟩
  exact Catalog.forall_mem_insert
    (p := fun e : String × Guard => (e.2.cell, e.2.listener) ∈ insert (g.cell, g.listener) r.guarded)
    (Set.mem_insert _ _) (fun e he => Set.mem_insert_of_mem _ ⟨e, he, rfl⟩) e he

end Names

/-! ### What letting go of a context leaves as it is -/

section Frame

variable (r i j name g)

theorem release_eq : r.release i = r ∨ r.release i = r.detach i := by
  unfold release
  split
  · exact .inl rfl
  · exact .inr rfl

@[simp] theorem held_release : (r.release i).held = r.held := by
  rcases r.release_eq i with h | h <;> rw [h]
  exact held_detach r i

@[simp] theorem handles_release : (r.release i).handles = r.handles := by
  rcases r.release_eq i with h | h <;> rw [h]
  exact handles_detach r i

@[simp] theorem guards_release : (r.release i).guards = r.guards := by
  rcases r.release_eq i with h | h <;> rw [h]
  exact guards_detach r i

@[simp] theorem held_endGuard : (r.endGuard g).held = r.held :=
  held_release ..

@[simp] theorem handles_endGuard : (r.endGuard g).handles = r.handles :=
  handles_release ..

@[simp] theorem guards_endGuard : (r.endGuard g).guards = r.guards :=
  guards_release ..

/-- There are the same contexts, derived as before, and the same ones are cancelled. -/
structure SameCells (r r' : Registry) : Prop where
  length : r'.cells.length = r.cells.length
  origin : ∀ k, (r'.cell k).origin = (r.cell k).origin
  flag : ∀ k, r'.isCancelled k = r.isCancelled k

theorem SameCells.of_cells {r r' : Registry} (h : r'.cells = r.cells) : SameCells r r' := by
  constructor <;> simp [cell, isCancelled, h]

theorem SameCells.trans {r r' r'' : Registry} (h : SameCells r r') (h' : SameCells r' r'') :
    SameCells r r'' where
  length := h'.length.trans h.length
  origin k := (h'.origin k).trans (h.origin k)
  flag k := (h'.flag k).trans (h.flag k)

theorem SameCells.forget (id : ℕ) : SameCells r (r.forget i id) :=
  ⟨length_forget .., fun _ => origin_forget .., fun _ => isCancelled_forget ..⟩

theorem SameCells.release : SameCells r (r.release i) := by
  rcases r.release_eq i with h | h <;> rw [h]
  · exact .of_cells rfl
  · exact ⟨length_detach .., fun _ => origin_detach .., fun _ => isCancelled_detach ..⟩

theorem SameCells.endGuard : SameCells r (r.endGuard g) :=
  (SameCells.forget r g.cell g.listener).trans (.release ..)

theorem SameCells.bindName : SameCells r (r.bindName name i) := by
  have hcells : SameCells r (r.rename name i) := .of_cells rfl
  rw [bindName_eq]
  split
  · exact hcells.trans (.release ..)
  · exact hcells

theorem SameCells.setGuard : SameCells r (r.setGuard name g) := by
  have hcells : SameCells r (r.reguard name g) := .of_cells rfl
  rw [Registry.setGuard]
  split
  · exact hcells.trans (.endGuard ..)
  · exact hcells

end Frame

/-! ### The links stay in order -/

/-- Who lets go of a context leaves the links in order. -/
theorem Linked.release (h : Linked Q H G [] r) (hle : r.held ⊆ H) (hge : H ⊆ insert j r.held) :
    Linked Q (r.release j).held G [] (r.release j) := by
  rw [held_release, Registry.release]
  split_ifs with hj
  · have hall : H = r.held :=
      (hge.trans (Set.insert_eq_of_mem (mem_held.mpr hj)).subset).antisymm hle
    exact hall ▸ h
  · have hrest : H \ {j} = r.held := by
      refine Set.Subset.antisymm (fun c hc => ?_) fun c hc => ⟨hle hc, ?_⟩
      · exact (hge hc.1).resolve_left hc.2
      · rintro rfl
        exact hj hc
    exact hrest ▸ h.detach j

theorem Linked.endGuard (h : Linked Q H G [] r) (hg : (g.cell, g.listener) ∈ G) (hle : r.held ⊆ H)
    (hge : H ⊆ insert g.cell r.held) : Linked Q (r.endGuard g).held G [] (r.endGuard g) :=
  (h.forget (h.given _ hg).2).release hle hge

/-- A registry between two commands: `given` are the numbers that were given for listeners. -/
structure Tidy (Q : Listener → Prop) (given : Set (ℕ × ℕ)) (r : Registry) : Prop where
  handles : r.handles.Sorted
  guards : r.guards.Sorted
  linked : Linked Q r.held (given ∪ r.guarded) [] r

theorem tidy_empty : Tidy Q ∅ {} where
  handles := Catalog.sorted_empty
  guards := Catalog.sorted_empty
  linked := by
    have hheld : ({} : Registry).held = ∅ := Set.eq_empty_of_forall_notMem fun i hi => nomatch hi
    rw [hheld]
    exact Linked.empty.anti fun p hp => (hp.elim False.elim fun ⟨_, he, _⟩ => nomatch he)

/-- A name is bound to a context that is linked as if it were held already. -/
theorem tidy_bindName (hh : r.handles.Sorted) (hg : r.guards.Sorted)
    (h : Linked Q (insert i r.held) (given ∪ r.guarded) [] r) :
    Tidy Q given (r.bindName name i) := by
  have hlinked : Linked Q (insert i r.held) (given ∪ r.guarded) [] (r.rename name i) := h.congr rfl
  rw [bindName_eq]
  rcases hname : r.named? name with _ | j
  · have hheld : (r.rename name i).held = insert i r.held := by
      rw [held_rename hh, unname_of_not_named hname]
    exact ⟨hh.set name i, hg, hheld ▸ hlinked⟩
  · refine ⟨by simpa [rename] using hh.set name i, by simpa [rename] using hg, ?_⟩
    have hsame : ((r.rename name i).release j).guarded = r.guarded := by simp [guarded, rename]
    rw [hsame]
    refine hlinked.release ?_ ?_
    · rw [held_rename hh]
      exact Set.insert_subset_insert (held_unname_subset r name)
    · rw [held_rename hh, held_of_named hh hname, Set.insert_comm]

namespace Tidy

theorem anti {given' : Set (ℕ × ℕ)} (h : Tidy Q given r) (hsub : given' ⊆ given) :
    Tidy Q given' r :=
  { h with linked := h.linked.anti (Set.union_subset_union_left _ hsub) }

/-- What is held is as before. -/
theorem of_kept {given' : Set (ℕ × ℕ)} (h : Tidy Q given r) (hkept : Kept r r')
    (hlinked : Linked Q r.held (given' ∪ r.guarded) [] r') : Tidy Q given' r' where
  handles := hkept.handles ▸ h.handles
  guards := hkept.guards ▸ h.guards
  linked := by
    rw [hkept.held, hkept.guarded]
    exact hlinked

theorem create (h : Tidy Q given r) (name : String) : Tidy Q given (r.create name) :=
  tidy_bindName h.handles h.guards (h.linked.grow Nat.one_pos rfl rfl fun _ hk => nomatch hk)

theorem share (h : Tidy Q given r) (hi : i ∈ r.held) (name : String) :
    Tidy Q given (r.share i name) :=
  tidy_bindName h.handles h.guards (by rw [Set.insert_eq_of_mem hi]; exact h.linked)

theorem derive (h : Tidy Q given r) (hi : i ∈ r.held) (name : String) :
    Tidy Q given (r.derive i name) := by
  have hlt := h.linked.held_lt i hi
  cases hlive : r.isCancelled i with
  | true =>
    rw [derive_of_isCancelled hlive]
    refine tidy_bindName h.handles h.guards (h.linked.grow Nat.one_pos rfl rfl ?_)
    rintro k ⟨⟩
    exact ⟨rfl, hlt⟩
  | false =>
    rw [derive_of_live hlive]
    exact tidy_bindName h.handles h.guards (h.linked.sprout hlt hlive)

theorem dropName (h : Tidy Q given r) (name : String) : Tidy Q given (r.dropName name) := by
  rcases hname : r.named? name with _ | j
  · have hsame : r.dropName name = r := by rw [Registry.dropName, hname]
    rwa [hsame]
  · have hdrop : r.dropName name = (r.unname name).release j := by
      rw [Registry.dropName, hname]
      rfl
    rw [hdrop]
    refine ⟨by simpa [unname] using h.handles.erase name, by simpa [unname] using h.guards, ?_⟩
    have hsame : ((r.unname name).release j).guarded = r.guarded := by simp [guarded, unname]
    rw [hsame]
    have hlinked : Linked Q r.held (given ∪ r.guarded) [] (r.unname name) := h.linked.congr rfl
    exact hlinked.release (held_unname_subset r name) (held_of_named h.handles hname).subset

theorem dropGuard (h : Tidy Q given r) (name : String) : Tidy Q given (r.dropGuard name) := by
  rcases hname : r.guards.get? name with _ | g
  · have hsame : r.dropGuard name = r := by rw [Registry.dropGuard, hname]
    rwa [hsame]
  · have hdrop : r.dropGuard name = (r.unguard name).endGuard g := by
      rw [Registry.dropGuard, hname]
      rfl
    rw [hdrop]
    have hlinked : Linked Q r.held (given ∪ r.guarded) [] (r.unguard name) := h.linked.congr rfl
    have hsub : ((r.unguard name).endGuard g).guarded ⊆ r.guarded := by
      have hsame : ((r.unguard name).endGuard g).guarded = (r.unguard name).guarded := by
        simp [guarded]
      exact hsame ▸ guarded_unguard_subset r name
    refine ⟨by simpa [unguard] using h.handles, by simpa [unguard] using h.guards.erase name, ?_⟩
    refine (hlinked.endGuard ?_ (held_unguard_subset r name) ?_).anti
      (Set.union_subset_union_right _ hsub)
    · exact .inr (mem_guarded_of_get? hname)
    · exact (held_of_guard h.guards hname).subset

theorem cancel (h : Tidy Listener.Quiet given r) (hi : i ∈ r.held) :
    Tidy Listener.Quiet given (r.cancel i) := by
  obtain ⟨hlinked, hkept, -⟩ := h.linked.cancel_spec (h.linked.held_lt i hi)
  exact h.of_kept hkept hlinked

theorem listen {l : Listener} (h : Tidy Listener.Quiet given r) (hi : i ∈ r.held) (hl : l.Quiet) :
    Tidy Listener.Quiet (insert (i, (r.listen i l).1) given) (r.listen i l).2 := by
  obtain ⟨hlinked, hkept, -⟩ := h.linked.listen_spec (h.linked.held_lt i hi) hl
  refine h.of_kept hkept ?_
  rw [Set.insert_union]
  exact hlinked

theorem forget {id : ℕ} (h : Tidy Q given r) (hid : (i, id) ∈ given) :
    Tidy Q given (r.forget i id) :=
  ⟨h.handles, h.guards, h.linked.forget (h.linked.given _ (.inl hid)).2⟩

theorem setGuard (h : Tidy Q (insert (g.cell, g.listener) given) r) (hg : g.cell ∈ r.held)
    (name : String) : Tidy Q given (r.setGuard name g) := by
  have hsub : given ∪ (r.reguard name g).guarded ⊆ insert (g.cell, g.listener) given ∪ r.guarded := by
    rw [Set.insert_union, ← Set.union_insert]
    exact Set.union_subset_union_right _ (guarded_reguard_subset r name g)
  have hlinked : Linked Q r.held _ [] (r.reguard name g) := h.linked.congr rfl
  have hheld := held_reguard h.guards name g
  rw [Registry.setGuard]
  rcases hname : r.guards.get? name with _ | g'
  · rw [unguard_of_not_guard hname, Set.insert_eq_of_mem hg] at hheld
    exact ⟨h.handles, h.guards.set name g, hheld ▸ hlinked.anti hsub⟩
  · have hsame : ((r.reguard name g).endGuard g').guarded = (r.reguard name g).guarded := by
      simp [guarded]
    refine ⟨by simpa [reguard] using h.handles, by simpa [reguard] using h.guards.set name g, ?_⟩
    rw [hsame]
    refine (hlinked.endGuard (.inr (mem_guarded_of_get? hname)) ?_ ?_).anti hsub
    · rw [hheld]
      exact Set.insert_subset hg (held_unguard_subset r name)
    · rw [hheld, held_of_guard h.guards hname, Set.insert_comm]
      exact Set.subset_insert _ _

theorem guardWith {l : Listener} (h : Tidy Listener.Quiet given r) (hi : i ∈ r.held) (hl : l.Quiet)
    (name : String) : Tidy Listener.Quiet given (r.guardWith i name l) := by
  obtain ⟨-, hkept, -⟩ := h.linked.listen_spec (h.linked.held_lt i hi) hl
  rw [guardWith_eq]
  exact (h.listen hi hl).setGuard (hkept.held.symm ▸ hi) name

end Tidy

/-! ### What a command leaves as it is -/

/-- Nobody is cancelled, and what was there is held by nobody else; a context that is new is
cancelled if it was derived from one that is. -/
structure Grown (r r' : Registry) : Prop where
  length : r.cells.length ≤ r'.cells.length
  origin : ∀ j < r.cells.length, (r'.cell j).origin = (r.cell j).origin
  flag : ∀ j < r.cells.length, r'.isCancelled j = r.isCancelled j
  fresh : ∀ j, r.cells.length ≤ j →
    (r'.isCancelled j = true ↔ ∃ k, (r'.cell j).origin = some k ∧ r'.isCancelled k = true)
  held : ∀ j < r.cells.length, j ∈ r'.held → j ∈ r.held

namespace Grown

theorem of_sameCells (h : SameCells r r') (hheld : r'.held ⊆ r.held) : Grown r r' where
  length := h.length.ge
  origin j _ := h.origin j
  flag j _ := h.flag j
  fresh j hj := by
    rw [h.flag j, h.origin]
    simp [isCancelled, cell_of_le hj]
  held _ _ hj := hheld hj

theorem of_grow {r₁ : Registry} (hlength : r₁.cells.length = r.cells.length + 1)
    (hold : ∀ j < r.cells.length,
      (r₁.cell j).origin = (r.cell j).origin ∧ r₁.isCancelled j = r.isCancelled j)
    (hfresh : r₁.isCancelled r.cells.length = true
      ↔ ∃ k, (r₁.cell r.cells.length).origin = some k ∧ r₁.isCancelled k = true)
    (h : SameCells r₁ r') (hheld : r'.held ⊆ insert r.cells.length r.held) : Grown r r' where
  length := by rw [h.length, hlength]; exact Nat.le_succ _
  origin j hj := (h.origin j).trans (hold j hj).1
  flag j hj := (h.flag j).trans (hold j hj).2
  fresh j hj := by
    simp only [h.origin, h.flag]
    rcases hj.eq_or_lt with rfl | hj
    · exact hfresh
    · simp [isCancelled, cell_of_le (hlength.trans_le hj)]
  held j hj hmem := (hheld hmem).resolve_left hj.ne

end Grown

namespace Tidy

variable {l : Listener}

theorem held_bindName_subset (hh : r.handles.Sorted) (name : String) (i : ℕ) :
    (r.bindName name i).held ⊆ insert i r.held := by
  have hle : (r.rename name i).held ⊆ insert i r.held := by
    rw [held_rename hh]
    exact Set.insert_subset_insert (held_unname_subset r name)
  rw [bindName_eq]
  split
  · rwa [held_release]
  · exact hle

theorem held_setGuard_subset (hg : r.guards.Sorted) (name : String) (g : Guard) :
    (r.setGuard name g).held ⊆ insert g.cell r.held := by
  have hle : (r.reguard name g).held ⊆ insert g.cell r.held := by
    rw [held_reguard hg]
    exact Set.insert_subset_insert (held_unguard_subset r name)
  rw [Registry.setGuard]
  split
  · rwa [held_endGuard]
  · exact hle

theorem grown_create (h : Tidy Q given r) (name : String) : Grown r (r.create name) := by
  refine Grown.of_grow (length_grow r {}) (fun j hj => ?_) ?_ (.bindName ..)
    (held_bindName_subset (r := r.grow {}) h.handles name _)
  · rw [isCancelled, cell_grow, if_neg hj.ne]
    exact ⟨rfl, rfl⟩
  · simp [isCancelled, cell_grow]

theorem grown_derive (h : Tidy Q given r) (hi : i ∈ r.held) (name : String) :
    Grown r (r.derive i name) := by
  have hlt := h.linked.held_lt i hi
  cases hlive : r.isCancelled i with
  | true =>
    rw [derive_of_isCancelled hlive]
    refine Grown.of_grow (length_grow ..) (fun j hj => ?_) ?_ (.bindName ..)
      (held_bindName_subset (r := r.grow _) h.handles name _)
    · rw [isCancelled, cell_grow, if_neg hj.ne]
      exact ⟨rfl, rfl⟩
    · have hlive' : (r.cell i).signal.cancelled = true := hlive
      simp [isCancelled, cell_grow, hlt.ne, hlive']
  | false =>
    rw [derive_of_live hlive]
    refine Grown.of_grow (by simp [sprout]) (fun j hj => ?_) ?_ (.bindName ..)
      (held_bindName_subset (r := r.sprout i) h.handles name _)
    · rw [sprout, isCancelled, cell_grow, length_attach, if_neg hj.ne]
      exact ⟨origin_attach .., isCancelled_attach ..⟩
    · have hlive' := (isCancelled_attach r i i (.derived r.cells.length)).trans hlive
      rw [isCancelled] at hlive'
      simp [sprout, isCancelled, cell_grow, hlt.ne, hlive']

theorem grown_share (h : Tidy Q given r) (hi : i ∈ r.held) (name : String) :
    Grown r (r.share i name) :=
  .of_sameCells (.bindName ..)
    ((held_bindName_subset h.handles name i).trans (Set.insert_eq_of_mem hi).subset)

theorem grown_dropName (r : Registry) (name : String) : Grown r (r.dropName name) := by
  rw [Registry.dropName]
  split
  · have hcells : SameCells r (r.unname name) := .of_cells rfl
    refine .of_sameCells (hcells.trans (.release ..)) ?_
    rw [held_release]
    exact held_unname_subset r name
  · exact .of_sameCells (.of_cells rfl) subset_rfl

theorem grown_dropGuard (r : Registry) (name : String) : Grown r (r.dropGuard name) := by
  rw [Registry.dropGuard]
  split
  · have hcells : SameCells r (r.unguard name) := .of_cells rfl
    refine .of_sameCells (hcells.trans (.endGuard ..)) ?_
    rw [held_endGuard]
    exact held_unguard_subset r name
  · exact .of_sameCells (.of_cells rfl) subset_rfl

theorem grown_listen (h : Tidy Listener.Quiet given r) (hi : i ∈ r.held) (hl : l.Quiet) :
    Grown r (r.listen i l).2 := by
  obtain ⟨-, hkept, hflag⟩ := h.linked.listen_spec (h.linked.held_lt i hi) hl
  exact .of_sameCells ⟨hkept.length, hkept.origin, hflag⟩ hkept.held.subset

theorem grown_guardWith (h : Tidy Listener.Quiet given r) (hi : i ∈ r.held) (hl : l.Quiet)
    (name : String) :
    Grown r (r.guardWith i name l) := by
  obtain ⟨-, hkept, hflag⟩ := h.linked.listen_spec (h.linked.held_lt i hi) hl
  have hlisten : SameCells r (r.listen i l).2 := ⟨hkept.length, hkept.origin, hflag⟩
  have hguards : (r.listen i l).2.guards.Sorted := hkept.guards ▸ h.guards
  have hheld : i ∈ (r.listen i l).2.held := hkept.held.symm ▸ hi
  rw [guardWith_eq]
  refine .of_sameCells (hlisten.trans (.setGuard ..)) ?_
  rw [← hkept.held]
  exact (held_setGuard_subset hguards name _).trans (Set.insert_eq_of_mem hheld).subset

end Tidy

end Registry

end Signal

end Ingest

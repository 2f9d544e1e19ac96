import Ingest.Proofs.Signal.Holding

/-!
# The books of listeners

The entries of a context that is not cancelled are its listeners, which were added and not taken
away (`Booked`), and its children (`length_entries`). Numbers are given once, so that to take a
listener away by its number, or a derived context's entry, leaves the others. In a settlement
listeners may cancel contexts and add listeners; each thing done keeps the books
(`Underway.perform`), and so does each command (`Accounted`).
-/

namespace Ingest

namespace Signal

/-- The entry is somebody's listener. -/
def Entry.isListener : Entry → Bool
  | listener _ => true
  | derived _ => false

/-- The numbers of a context's listeners that were added and not taken away. -/
def standing (added removed : List (ℕ × ℕ)) (k : ℕ) : List ℕ :=
  (added.filter fun p => p.1 = k ∧ p ∉ removed).map Prod.snd

section Standing

variable (added removed : List (ℕ × ℕ)) (i id k : ℕ)

/-- A listener that is added stands last. -/
theorem standing_concat : standing (added ++ [(i, id)]) removed k
    = standing added removed k ++ if i = k ∧ (i, id) ∉ removed then [id] else [] := by
  unfold standing
  rw [List.filter_append, List.map_append]
  refine congrArg _ ?_
  split_ifs with h
  · simp only [List.filter_cons, decide_eq_true h, if_true, List.filter_nil, List.map_cons,
      List.map_nil]
  · simp only [List.filter_cons, decide_eq_false h, Bool.false_eq_true, if_false, List.filter_nil,
      List.map_nil]

theorem standing_concat_removed : standing added (removed ++ [(i, id)]) k
    = (standing added removed k).filter fun n => decide (k = i → n ≠ id) := by
  unfold standing
  rw [List.filter_map, List.filter_filter]
  refine congrArg _ (List.filter_congr fun p _ => ?_)
  obtain ⟨j, n⟩ := p
  simp only [Function.comp_apply, List.mem_append, List.mem_singleton, Prod.mk.injEq,
    ← Bool.decide_and, decide_eq_decide]
  constructor
  · rintro ⟨rfl, hnot⟩
    exact ⟨fun hj hn => hnot (.inr ⟨hj, hn⟩), rfl, fun hmem => hnot (.inl hmem)⟩
  · rintro ⟨hne, rfl, hnot⟩
    exact ⟨rfl, fun hmem => hmem.elim hnot fun heq => hne heq.1 heq.2⟩

end Standing

namespace Registry

variable {r r' : Registry} {Q : Listener → Prop} {added removed : List (ℕ × ℕ)}
  {G : Set (ℕ × ℕ)} {ts : List Task} {i j k id : ℕ}

/-- The numbers of the entries that are somebody's listeners. -/
def listeners (r : Registry) (k : ℕ) : List ℕ :=
  ((r.entries k).filter fun x => x.2.isListener).map Prod.fst

/-- The contexts that were derived from `k`, are held and not cancelled. -/
def children (r : Registry) (k : ℕ) : List ℕ :=
  (List.range r.cells.length).filter fun c =>
    (r.cell c).origin = some k ∧ r.isCancelled c = false ∧ r.isHeld c = true

/-- The listeners of a context that is not cancelled are those that were added and not taken away,
and each number is new when it is given. -/
structure Booked (added removed : List (ℕ × ℕ)) (r : Registry) : Prop where
  nodup : ∀ k, (r.entries k).Nodup
  below : ∀ k, ∀ x ∈ r.entries k, x.1 < (r.cell k).signal.next
  past : ∀ p ∈ removed, p.2 < (r.cell p.1).signal.next
  /-- No listener has the number of an entry of a derived context. -/
  apart : ∀ c k id, (r.cell c).source = some (k, id) → ∀ l, (id, .listener l) ∉ r.entries k
  standing : ∀ k, r.isCancelled k = false → r.listeners k = standing added removed k

theorem listeners_attach (k : ℕ) (e : Entry) (hi : i < r.cells.length) :
    (r.attach i e).listeners k = r.listeners k
      ++ if k = i ∧ e.isListener = true then [(r.cell i).signal.next] else [] := by
  rw [listeners, listeners, entries_attach _ _ _ hi, List.filter_append, List.map_append]
  by_cases hk : k = i <;> cases he : e.isListener <;> simp [hk, he]

namespace Booked

theorem empty : Booked [] [] {} := by
  have hcell : ∀ k, ({} : Registry).cell k = {} := fun k => cell_of_le (Nat.zero_le k)
  constructor <;> simp [entries, listeners, Signal.standing, hcell]

theorem congr (h : Booked added removed r) (hcells : r'.cells = r.cells) :
    Booked added removed r' := by
  obtain ⟨cells, handles, guards, fired⟩ := r
  obtain ⟨cells', handles', guards', fired'⟩ := r'
  obtain rfl : cells' = cells := hcells
  exact { h with }

theorem detach (h : Booked added removed r) (i : ℕ) : Booked added removed (r.detach i) where
  nodup k := by
    rw [entries_detach]
    exact (h.nodup k).filter _
  below k x hx := by
    rw [next_detach]
    exact h.below k x ((mem_entries_detach ..).mp hx).1
  past p hp := by
    rw [next_detach]
    exact h.past p hp
  apart c k id hc l hl := by
    rw [source_detach] at hc
    split_ifs at hc
    exact h.apart c k id hc l ((mem_entries_detach ..).mp hl).1
  standing k hk := by
    rw [isCancelled_detach] at hk
    rw [← h.standing k hk, listeners, listeners, entries_detach, List.filter_filter]
    refine congrArg _ (List.filter_congr fun x hx => ?_)
    obtain ⟨n, e⟩ := x
    cases e with
    | listener l =>
      have hne : (r.cell i).source ≠ some (k, n) := fun hs => h.apart i k n hs l hx
      simp [hne]
    | derived c => rfl

theorem shut (h : Booked added removed r) (hi : i < r.cells.length) :
    Booked added removed (r.shut i) where
  nodup k := by
    rw [entries_shut _ _ hi]
    split_ifs
    · exact List.nodup_nil
    · exact h.nodup k
  below k x hx := by
    rw [entries_shut _ _ hi] at hx
    rw [next_shut]
    split_ifs at hx
    · cases hx
    · exact h.below k x hx
  past p hp := by
    rw [next_shut]
    exact h.past p hp
  apart c k id hc l hl := by
    rw [source_shut] at hc
    rw [entries_shut _ _ hi] at hl
    split_ifs at hl
    · cases hl
    · exact h.apart c k id hc l hl
  standing k hk := by
    rw [isCancelled_shut _ _ hi] at hk
    split_ifs at hk with hki
    rw [← h.standing k hk, listeners, listeners, entries_shut _ _ hi, if_neg hki]

/-- What is taken away has a number that was given before, and need not be there any more. -/
theorem forget (h : Booked added removed r) (hid : id < (r.cell i).signal.next) :
    Booked added (removed ++ [(i, id)]) (r.forget i id) where
  nodup k := by
    rw [entries_forget]
    exact (h.nodup k).filter _
  below k x hx := by
    rw [next_forget]
    exact h.below k x ((mem_entries_forget ..).mp hx).1
  past p hp := by
    rw [next_forget]
    rcases List.mem_append.mp hp with hp | hp
    · exact h.past p hp
    · obtain rfl := List.mem_singleton.mp hp
      exact hid
  apart c k n hc l hl := by
    rw [source_forget] at hc
    exact h.apart c k n hc l ((mem_entries_forget ..).mp hl).1
  standing k hk := by
    rw [isCancelled_forget] at hk
    rw [standing_concat_removed, ← h.standing k hk, listeners, listeners, entries_forget,
      List.filter_map, List.filter_filter, List.filter_filter]
    exact congrArg _ (List.filter_congr fun x _ => Bool.and_comm ..)

theorem attach {added' : List (ℕ × ℕ)} {e : Entry} (h : Booked added removed r)
    (hi : i < r.cells.length) (hfresh : ∀ c, (r.cell c).source ≠ some (i, (r.cell i).signal.next))
    (hstanding : ∀ k, r.isCancelled k = false →
      (r.attach i e).listeners k = Signal.standing added' removed k) :
    Booked added' removed (r.attach i e) where
  nodup k := by
    rw [entries_attach _ _ _ hi]
    split_ifs with hk
    · refine List.nodup_append.mpr ⟨h.nodup k, List.nodup_singleton _, fun x hx y hy => ?_⟩
      rintro rfl
      obtain rfl := List.mem_singleton.mp hy
      exact (hk ▸ h.below k _ hx).false
    · simpa using h.nodup k
  below k x hx := by
    rw [entries_attach _ _ _ hi, List.mem_append] at hx
    rcases hx with hx | hx
    · exact (h.below k x hx).trans_le (next_le_attach ..)
    · split_ifs at hx with hk
      · obtain rfl := List.mem_singleton.mp hx
        rw [hk, next_attach_self _ _ hi]
        exact Nat.lt_succ_self _
      · cases hx
  past p hp := (h.past p hp).trans_le (next_le_attach ..)
  apart c k id hc l hl := by
    rw [source_attach] at hc
    rw [entries_attach _ _ _ hi, List.mem_append] at hl
    rcases hl with hl | hl
    · exact h.apart c k id hc l hl
    · split_ifs at hl with hk
      · obtain ⟨rfl, -⟩ := Prod.mk.inj (List.mem_singleton.mp hl)
        exact hfresh c (hk ▸ hc)
      · cases hl
  standing k hk := hstanding k (by rwa [isCancelled_attach] at hk)

/-- A listener is added: its number is the next one. -/
theorem listen (h : Booked added removed r) (hi : i < r.cells.length)
    (hfresh : ∀ c, (r.cell c).source ≠ some (i, (r.cell i).signal.next)) (l : Listener) :
    Booked (added ++ [(i, (r.cell i).signal.next)]) removed (r.attach i (.listener l)) := by
  refine h.attach hi hfresh fun k hk => ?_
  have hnew : (i, (r.cell i).signal.next) ∉ removed := fun hmem => (h.past _ hmem).false
  rw [listeners_attach _ _ hi, standing_concat, h.standing k hk]
  simp [Entry.isListener, hnew, eq_comm]

/-- A context that is cancelled takes no listener: it gives 0. -/
theorem listen_cancelled (h : Booked added removed r) (hi : r.isCancelled i = true) :
    Booked (added ++ [(i, id)]) removed r where
  __ := h
  standing k hk := by
    have hik : i ≠ k := by
      rintro rfl
      rw [hi] at hk
      cases hk
    rw [standing_concat, if_neg fun hboth => hik hboth.1, List.append_nil, h.standing k hk]

/-- A context comes into being without listeners. -/
theorem grow (h : Booked added removed r) {c : Cell} (hnext : 0 < c.signal.next)
    (hlisteners : c.signal.listeners = [])
    (hsource : ∀ k id, c.source = some (k, id) → ∀ l, (id, .listener l) ∉ r.entries k) :
    Booked added removed (r.grow c) where
  nodup k := by
    rw [entries_grow hlisteners]
    exact h.nodup k
  below k x hx := by
    rw [entries_grow hlisteners] at hx
    exact (h.below k x hx).trans_le (next_le_grow hnext k)
  past p hp := (h.past p hp).trans_le (next_le_grow hnext p.1)
  apart d k id hd l := by
    rw [entries_grow hlisteners]
    rw [cell_grow] at hd
    split_ifs at hd
    · exact hsource k id hd l
    · exact h.apart d k id hd l
  standing k hk := by
    have hold : r.isCancelled k = false := by
      rw [isCancelled, cell_grow] at hk
      split_ifs at hk with hnew
      · rw [hnew, isCancelled, cell_of_le le_rfl]
      · exact hk
    rw [← h.standing k hold, listeners, listeners, entries_grow hlisteners]

/-- The entry of a context that is derived is nobody's listener. -/
theorem sprout (h : Booked added removed r) (hi : i < r.cells.length)
    (hfresh : ∀ c, (r.cell c).source ≠ some (i, (r.cell i).signal.next)) :
    Booked added removed (r.sprout i) := by
  have hattach : Booked added removed (r.attach i (.derived r.cells.length)) := by
    refine h.attach hi hfresh fun k hk => ?_
    rw [listeners_attach _ _ hi, h.standing k hk]
    simp [Entry.isListener]
  refine hattach.grow Nat.one_pos rfl ?_
  rintro k id ⟨⟩ l hl
  rw [entries_attach _ _ _ hi, if_pos rfl, List.mem_append] at hl
  rcases hl with hl | hl
  · exact (h.below i _ hl).false
  · simp at hl

theorem release (h : Booked added removed r) (i : ℕ) : Booked added removed (r.release i) := by
  rcases r.release_eq i with heq | heq <;> rw [heq]
  · exact h
  · exact h.detach i

theorem bindName (h : Booked added removed r) (name : String) (i : ℕ) :
    Booked added removed (r.bindName name i) := by
  have hrename : Booked added removed (r.rename name i) := h.congr rfl
  rw [bindName_eq]
  split
  · exact hrename.release _
  · exact hrename

theorem endGuard {g : Guard} (h : Booked added removed r)
    (hg : g.listener < (r.cell g.cell).signal.next) :
    Booked added (removed ++ [(g.cell, g.listener)]) (r.endGuard g) :=
  (h.forget hg).release g.cell

end Booked

/-! ### The entries of a context -/

theorem mem_children (hlinked : Linked Q r.held G [] r) {c : ℕ} : c ∈ r.children k
    ↔ (r.cell c).origin = some k ∧ r.isCancelled c = false ∧ c ∈ r.held := by
  simp only [children, List.mem_filter, List.mem_range, decide_eq_true_iff]
  exact and_iff_right_of_imp fun h => hlinked.held_lt c h.2.2

/-- Nothing is left to do: the entries of a context are its listeners and its children. -/
theorem length_entries (hlinked : Linked Q r.held G [] r)
    (hnodup : (r.entries k).Nodup) :
    (r.entries k).length = (r.listeners k).length + (r.children k).length := by
  let entryOf : ℕ → ℕ × Entry := fun c => (((r.cell c).source.getD (0, 0)).2, .derived c)
  have hsplit := List.length_eq_length_filter_add (l := r.entries k) fun x => x.2.isListener
  have hlength : (r.listeners k).length = ((r.entries k).filter fun x => x.2.isListener).length :=
    List.length_map _
  rw [hsplit, hlength, ← List.length_map (f := entryOf)]
  refine congrArg _ (List.Perm.length_eq ?_)
  refine (List.perm_ext_iff_of_nodup (hnodup.filter _) ?_).mpr fun x => ?_
  · refine (List.nodup_range.filter _).map fun c d hcd => ?_
    exact Entry.derived.inj (Prod.mk.inj hcd).2
  · simp only [List.mem_filter, List.mem_map, mem_children hlinked]
    constructor
    · obtain ⟨n, l | c⟩ := x
      · simp [Entry.isListener]
      · rintro ⟨hmem, -⟩
        have hsource := hlinked.source k n c hmem
        exact ⟨c, ⟨hlinked.origin c k n hsource, (hlinked.alive c _ hsource).symm⟩,
          by simp [entryOf, hsource]⟩
    · rintro ⟨c, ⟨horigin, hlive, hheld⟩, rfl⟩
      obtain ⟨n, hsource⟩ := hlinked.attached c hheld hlive k horigin
      refine ⟨?_, rfl⟩
      simpa [entryOf, hsource] using hlinked.entry c k n hsource

/-! ### In the course of a settlement -/

/-- A settlement began with `r₀` and has come to `r`; what its listeners may do is not known. -/
structure Underway (r₀ : Registry) (G : Set (ℕ × ℕ)) (removed added : List (ℕ × ℕ))
    (ts : List Task) (r : Registry) : Prop where
  linked : Linked (fun _ => True) r₀.held ({p | p ∈ added} ∪ G) ts r
  booked : Booked added removed r
  kept : Kept r₀ r
  ended : ∀ j, r₀.isCancelled j = true → r.isCancelled j = true
  ahead : ∀ j, .cancel j ∈ ts → j < r.cells.length

namespace Underway

variable {r₀ : Registry} {t : Task} {name : String}

theorem lt_of_named (h : Underway r₀ G removed added ts r) (hi : r.named? name = some i) :
    i < r.cells.length :=
  h.linked.held_lt i (h.kept.held ▸ mem_held_of_named hi)

theorem ahead_of_cons (h : Underway r₀ G removed added (t :: ts) r) :
    ∀ j, .cancel j ∈ ts → j < r.cells.length :=
  fun j hj => h.ahead j (List.mem_cons_of_mem _ hj)

/-- What changes no context, and leaves only contexts to be cancelled that there are. -/
theorem calm {more : List Task} (h : Underway r₀ G removed added (t :: ts) r)
    (ht : ∀ j, t = .cancel j → r.isCancelled j = true) (hcells : r'.cells = r.cells)
    (hhandles : r'.handles = r.handles) (hguards : r'.guards = r.guards)
    (hmore : ∀ j, .cancel j ∈ more → j < r.cells.length) :
    Underway r₀ G removed added (more ++ ts) r' where
  linked := ((h.linked.done ht).congr hcells).wait (List.subset_append_right _ _)
  booked := h.booked.congr hcells
  kept := h.kept.trans ⟨hhandles, hguards, congrArg _ hcells, fun k => by simp [cell, hcells]⟩
  ended j hj := by
    rw [isCancelled, cell, hcells]
    exact h.ended j hj
  ahead j hj := by
    rw [hcells]
    exact (List.mem_append.mp hj).elim (hmore j) (h.ahead_of_cons j)

theorem perform_cancel (h : Underway r₀ G removed added (.cancel i :: ts) r) :
    Underway r₀ G removed added ((r.perform (.cancel i)).1 ++ ts) (r.perform (.cancel i)).2 := by
  have hi : i < r.cells.length := h.ahead i List.mem_cons_self
  cases hlive : r.isCancelled i with
  | true =>
    rw [perform_cancel_of_isCancelled hlive]
    exact h.calm (fun j hj => Task.cancel.inj hj ▸ hlive) rfl rfl rfl nofun
  | false =>
    rw [Registry.perform_cancel hlive]
    refine ⟨h.linked.cancel hi, (h.booked.shut hi).detach i, h.kept.trans (.cancel ..),
      fun j hj => ?_, fun j hj => ?_⟩
    · rw [isCancelled_detach, isCancelled_shut _ _ hi, h.ended j hj, ite_self]
    rw [length_detach, length_shut]
    rcases List.mem_append.mp hj with hnew | hold
    · obtain ⟨⟨n, l | c⟩, he, htask⟩ := List.mem_map.mp hnew
      · cases htask
      · obtain rfl := Task.cancel.inj htask
        exact h.linked.held_lt c (h.linked.alive c _ (h.linked.source i n c he)).1
    · exact h.ahead_of_cons j hold

theorem perform_cancelNamed (h : Underway r₀ G removed added (.cancelNamed name :: ts) r) :
    Underway r₀ G removed added ((r.perform (.cancelNamed name)).1 ++ ts)
      (r.perform (.cancelNamed name)).2 := by
  rcases hname : r.named? name with _ | i
  · have hcalm : Underway r₀ G removed added ([] ++ ts) r := h.calm nofun rfl rfl rfl nofun
    simpa [perform, hname] using hcalm
  · have hmore : ∀ j, .cancel j ∈ [Task.cancel i] → j < r.cells.length := by
      simpa using h.lt_of_named hname
    simpa [perform, hname] using h.calm nofun rfl rfl rfl hmore

theorem perform_run {l : Listener} (h : Underway r₀ G removed added (.run l :: ts) r) :
    Underway r₀ G removed added ((r.perform (.run l)).1 ++ ts) (r.perform (.run l)).2 := by
  refine h.calm nofun ?_ ?_ ?_ fun j => ?_
  all_goals cases l <;> simp [Registry.perform]

theorem given_concat (p : ℕ × ℕ) :
    {q | q ∈ added ++ [p]} ∪ G = insert p ({q | q ∈ added} ∪ G) := by
  ext q
  simp [or_comm, or_assoc]

/-- A listener is added by a listener. -/
theorem perform_add {l : Listener} (h : Underway r₀ G removed added (.add name l :: ts) r) :
    Underway r₀ G removed (added ++ r.adds (.add name l)) ((r.perform (.add name l)).1 ++ ts)
      (r.perform (.add name l)).2 := by
  rcases hname : r.named? name with _ | i
  · rw [adds_of_not_named hname, perform_add_of_not_named hname, List.append_nil]
    exact h.calm nofun rfl rfl rfl nofun
  have hi := h.lt_of_named hname
  have hlinked : Linked (fun _ => True) r₀.held ({p | p ∈ added} ∪ G) ts r := h.linked.done nofun
  cases hlive : r.isCancelled i with
  | true =>
    rw [adds_of_isCancelled hname hlive, perform_add_of_isCancelled hname hlive]
    have hcalm : Underway r₀ G removed added ([.run l] ++ ts) r :=
      h.calm nofun rfl rfl rfl (by simp)
    have hnone : ∀ c, (0, .derived c) ∉ r.entries i := by simp [hlinked.ended i hlive]
    refine ⟨?_, h.booked.listen_cancelled hlive, h.kept, h.ended, hcalm.ahead⟩
    rw [given_concat]
    exact hcalm.linked.give (hlinked.counts i) hnone
  | false =>
    rw [adds_of_live hname hlive, perform_add_of_live hname hlive]
    refine ⟨?_, h.booked.listen hi (hlinked.fresh i) l, h.kept.trans (.attach ..), fun j hj => ?_,
      fun j hj => ?_⟩
    · rw [given_concat]
      exact hlinked.listen hi hlive trivial
    · rw [isCancelled_attach]
      exact h.ended j hj
    · rw [length_attach]
      exact h.ahead_of_cons j hj

theorem perform (h : Underway r₀ G removed added (t :: ts) r) :
    Underway r₀ G removed (added ++ r.adds t) ((r.perform t).1 ++ ts) (r.perform t).2 := by
  cases t with
  | cancel i => simpa [adds] using h.perform_cancel
  | cancelNamed name => simpa [adds] using h.perform_cancelNamed
  | run l => simpa [adds] using h.perform_run
  | add name l => exact h.perform_add

theorem settle (h : Underway r₀ G removed added ts r) :
    Underway r₀ G removed (added ++ r.settleAdds ts) [] (r.settle ts) :=
  settle_induction_adds added (fun _ _ _ _ h => h.perform) h

end Underway

/-! ### Between two commands -/

/-- A registry between two commands, with the numbers that were given for listeners and those by
which listeners were taken away. -/
structure Accounted (added removed : List (ℕ × ℕ)) (r : Registry) : Prop where
  tidy : Tidy (fun _ => True) {p | p ∈ added} r
  booked : Booked added removed r

/-- The numbers that are given when a listener is added, the last one for itself. -/
def listenAdds (r : Registry) (i : ℕ) (l : Listener) : List (ℕ × ℕ) :=
  (if r.isCancelled i then r.settleAdds [.run l] else []) ++ [(i, (r.listen i l).1)]

/-- The number of the listener of a guard, with its context. -/
def guardNumber (r : Registry) (name : String) : List (ℕ × ℕ) :=
  (r.guards.get? name).toList.map fun g => (g.cell, g.listener)

theorem Booked.setGuard {name : String} {g : Guard} (h : Booked added removed r)
    (hold : ∀ p ∈ r.guardNumber name, p.2 < (r.cell p.1).signal.next) :
    Booked added (removed ++ r.guardNumber name) (r.setGuard name g) := by
  have hreguard : Booked added removed (r.reguard name g) := h.congr rfl
  rw [Registry.setGuard]
  unfold guardNumber at hold ⊢
  rcases hname : r.guards.get? name with _ | g'
  · simpa using hreguard
  · exact hreguard.endGuard (hold (g'.cell, g'.listener) (by simp [hname]))

namespace Accounted

variable {name : String} {l : Listener}

theorem empty : Accounted [] [] {} where
  tidy := tidy_empty.anti fun _ hp => nomatch hp
  booked := .empty

theorem create (h : Accounted added removed r) (name : String) :
    Accounted added removed (r.create name) where
  tidy := h.tidy.create name
  booked := by
    refine (h.booked.grow Nat.one_pos rfl ?_).bindName name _
    exact fun _ _ hsource => nomatch hsource

theorem share (h : Accounted added removed r) (hi : i ∈ r.held) (name : String) :
    Accounted added removed (r.share i name) where
  tidy := h.tidy.share hi name
  booked := h.booked.bindName name i

theorem derive (h : Accounted added removed r) (hi : i ∈ r.held) (name : String) :
    Accounted added removed (r.derive i name) where
  tidy := h.tidy.derive hi name
  booked := by
    cases hlive : r.isCancelled i with
    | true =>
      rw [derive_of_isCancelled hlive]
      refine (h.booked.grow Nat.one_pos rfl ?_).bindName name _
      exact fun _ _ hsource => nomatch hsource
    | false =>
      rw [derive_of_live hlive]
      exact (h.booked.sprout (h.tidy.linked.held_lt i hi) (h.tidy.linked.fresh i)).bindName name _

theorem dropName (h : Accounted added removed r) (name : String) :
    Accounted added removed (r.dropName name) where
  tidy := h.tidy.dropName name
  booked := by
    have hunname : Booked added removed (r.unname name) := h.booked.congr rfl
    rw [Registry.dropName]
    split
    · exact hunname.release _
    · exact h.booked

/-- A listener is taken away by a number that was given for one. -/
theorem forget (h : Accounted added removed r) (hid : (i, id) ∈ added) :
    Accounted added (removed ++ [(i, id)]) (r.forget i id) where
  tidy := h.tidy.forget hid
  booked := h.booked.forget (h.tidy.linked.given _ (.inl hid)).1

theorem lt_of_guardNumber (h : Accounted added removed r) (name : String) :
    ∀ p ∈ r.guardNumber name, p.2 < (r.cell p.1).signal.next := by
  simp only [guardNumber, List.mem_map, Option.mem_toList]
  rintro p ⟨g, hg, rfl⟩
  exact (h.tidy.linked.given _ (.inr (mem_guarded_of_get? hg))).1

theorem dropGuard (h : Accounted added removed r) (name : String) :
    Accounted added (removed ++ r.guardNumber name) (r.dropGuard name) where
  tidy := h.tidy.dropGuard name
  booked := by
    have hnumber := h.lt_of_guardNumber name
    rw [Registry.dropGuard]
    unfold guardNumber at hnumber ⊢
    rcases hname : r.guards.get? name with _ | g
    · simpa using h.booked
    · have hunguard : Booked added removed (r.unguard name) := h.booked.congr rfl
      exact hunguard.endGuard (hnumber (g.cell, g.listener) (by simp [hname]))

/-- A settlement begins with a registry that is accounted for. -/
theorem underway (h : Accounted added removed r)
    (hts : ∀ j, .cancel j ∈ ts → j < r.cells.length) : Underway r r.guarded removed added ts r :=
  ⟨h.tidy.linked.wait (List.nil_subset _), h.booked, .refl r, fun _ hj => hj, hts⟩

/-- And it ends with one. -/
theorem of_underway {added' : List (ℕ × ℕ)} (h : Accounted added removed r)
    (hdone : Underway r r.guarded removed added' [] r') : Accounted added' removed r' :=
  ⟨h.tidy.of_kept hdone.kept hdone.linked, hdone.booked⟩

theorem cancel (h : Accounted added removed r) (hi : i ∈ r.held) :
    Accounted (added ++ r.settleAdds [.cancel i]) removed (r.cancel i) :=
  h.of_underway (h.underway (by simpa using h.tidy.linked.held_lt i hi)).settle

/-- Under a context that is cancelled already the listener runs at once, and leaves it cancelled. -/
theorem listen (h : Accounted added removed r) (hi : i ∈ r.held) (l : Listener) :
    Accounted (added ++ r.listenAdds i l) removed (r.listen i l).2 ∧ Kept r (r.listen i l).2 := by
  rw [listenAdds]
  cases hlive : r.isCancelled i with
  | false =>
    rw [if_neg (by simp), List.nil_append, listen_of_live hlive]
    have hi := h.tidy.linked.held_lt i hi
    refine ⟨⟨h.tidy.of_kept (.attach ..) ?_, h.booked.listen hi (h.tidy.linked.fresh i) l⟩,
      .attach ..⟩
    rw [Underway.given_concat]
    exact h.tidy.linked.listen hi hlive trivial
  | true =>
    rw [if_pos rfl, Registry.listen, if_pos hlive, ← List.append_assoc]
    have hbegin : Underway r r.guarded removed added [.run l] r := h.underway (by simp)
    have hdone := hbegin.settle
    have hended := hdone.ended i hlive
    have hnone : ∀ c, (0, .derived c) ∉ (r.settle [.run l]).entries i := by
      simp [hdone.linked.ended i hended]
    refine ⟨⟨h.tidy.of_kept hdone.kept ?_, hdone.booked.listen_cancelled hended⟩, hdone.kept⟩
    rw [Underway.given_concat]
    exact hdone.linked.give (hdone.linked.counts i) hnone

/-- The guard that had the name before loses its listener. -/
theorem guardWith (h : Accounted added removed r) (hi : i ∈ r.held) (name : String) (l : Listener) :
    Accounted (added ++ r.listenAdds i l) (removed ++ r.guardNumber name)
      (r.guardWith i name l) := by
  obtain ⟨hlisten, hkept⟩ := h.listen hi l
  have hnumber : (r.listen i l).2.guardNumber name = r.guardNumber name := by
    rw [guardNumber, guardNumber, hkept.guards]
  have hgiven : (i, (r.listen i l).1) ∈ added ++ r.listenAdds i l := by simp [listenAdds]
  rw [guardWith_eq, ← hnumber]
  refine ⟨Tidy.setGuard ?_ (hkept.held.symm ▸ hi) name,
    hlisten.booked.setGuard (hlisten.lt_of_guardNumber name)⟩
  rw [Set.insert_eq_of_mem (by exact hgiven)]
  exact hlisten.tidy

end Accounted

end Registry

end Signal

end Ingest

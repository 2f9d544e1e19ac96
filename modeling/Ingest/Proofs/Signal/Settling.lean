import Ingest.Proofs.Signal.Linked

/-!
# What a cancellation reaches

Each thing that is done makes `Registry.load` smaller (`load_perform`), so that what every single
one keeps is kept when all is done (`settle_induction`). Where no listener cancels anything, a
cancellation ends the contexts that it reaches from the links and no others (`Spread`), and the
links are in order afterwards (`Linked.settle`).
-/

namespace Ingest

/-- Neither the listener nor one that it adds cancels a context. -/
def Listener.Quiet : Listener → Prop
  | note _ cancels => cancels = none
  | noteThen _ cancels _ following => cancels = none ∧ following.Quiet
  | andThen first second => first.Quiet ∧ second.Quiet

namespace Signal

/-- The task cancels no context by its name, and neither does a listener that it runs or adds. -/
def Task.Quiet : Task → Prop
  | cancel _ => True
  | cancelNamed _ => False
  | run l | add _ l => l.Quiet

theorem listen_of_live {α : Type} {s : Signal α} (h : s.cancelled = false) (x : α) : s.listen x
    = (s.next, { s with next := s.next + 1, listeners := s.listeners ++ [(s.next, x)] }) := by
  rw [listen, h]
  rfl

theorem listen_of_cancelled {α : Type} {s : Signal α} (h : s.cancelled = true) (x : α) :
    s.listen x = (0, s) := by
  rw [listen, if_pos h]

theorem cancel_of_live {α : Type} {s : Signal α} (h : s.cancelled = false) :
    s.cancel = (s.listeners.map Prod.snd, { s with cancelled := true, listeners := [] }) := by
  rw [cancel, h]
  rfl

namespace Registry

variable {r : Registry} {H : Set ℕ} {G : Set (ℕ × ℕ)} {ts : List Task} {i : ℕ}

/-! ### Each thing done makes the load smaller -/

/-- What the cells can still lead to. -/
def weight (r : Registry) : ℕ :=
  (r.cells.map Cell.load).sum

theorem Cell.load_eq (c : Cell) :
    c.load = (c.signal.listeners.map fun e => e.2.load).sum := by
  rw [Cell.load, List.sum_eq_foldr, List.foldr_map]

theorem load_eq (r : Registry) (ts : List Task) :
    r.load ts = r.weight + (ts.map Task.load).sum := by
  rw [load, weight, List.sum_eq_foldr, List.sum_eq_foldr, List.foldr_map, List.foldr_map]

theorem weight_modifyCell (hi : i < r.cells.length) (f : Cell → Cell) :
    (r.modifyCell i f).weight + (r.cell i).load = r.weight + (f (r.cell i)).load := by
  have hcell : r.cell i = r.cells[i] := by simp [cell, hi]
  have hsum : ∀ (cs : List Cell) (i : ℕ) (hi : i < cs.length),
      ((cs.modify i f).map Cell.load).sum + cs[i].load = (cs.map Cell.load).sum + (f cs[i]).load := by
    intro cs
    induction cs with
    | nil => exact fun i hi => absurd hi (Nat.not_lt_zero i)
    | cons c cs ih =>
      intro i hi
      cases i with
      | zero => simp; omega
      | succ i =>
        have := ih i (Nat.lt_of_succ_lt_succ hi)
        simp; omega
  rw [hcell]
  exact hsum r.cells i hi

theorem modifyCell_of_le (hi : r.cells.length ≤ i) (f : Cell → Cell) : r.modifyCell i f = r := by
  unfold modifyCell
  rw [List.modify_eq_self hi]

theorem weight_modifyCell_le {f : Cell → Cell} (hf : ∀ c, (f c).load ≤ c.load) :
    (r.modifyCell i f).weight ≤ r.weight := by
  rcases lt_or_ge i r.cells.length with hi | hi
  · have := weight_modifyCell hi f
    have := hf (r.cell i)
    omega
  · rw [modifyCell_of_le hi]

theorem weight_detach_le (r : Registry) (i : ℕ) : (r.detach i).weight ≤ r.weight := by
  rw [detach_eq]
  split
  · exact le_rfl
  · refine (weight_modifyCell_le fun c => ?_).trans (weight_modifyCell_le fun c => ?_)
    · simp [Cell.load_eq]
    · rw [Cell.load_eq, Cell.load_eq]
      exact (List.filter_sublist.map _).sum_le_sum fun _ _ => Nat.zero_le _

theorem weight_shut (r : Registry) (i : ℕ) : (r.shut i).weight
    + (((r.entries i).map fun e => taskOf e.2).map Task.load).sum = r.weight := by
  have htasks : ((r.entries i).map fun e => taskOf e.2).map Task.load
      = (r.entries i).map fun e => e.2.load := by
    rw [List.map_map]
    exact List.map_congr_left fun e _ => by rcases e with ⟨n, l | c⟩ <;> rfl
  rw [htasks]
  rcases lt_or_ge i r.cells.length with hi | hi
  · have hload : (r.cell i).load = ((r.entries i).map fun e => e.2.load).sum := Cell.load_eq _
    have := weight_modifyCell hi fun c =>
      { c with signal := { c.signal with cancelled := true, listeners := [] } }
    rw [shut, ← hload]
    simpa [Cell.load_eq] using this
  · rw [shut, modifyCell_of_le hi, entries, cell_of_le hi]
    rfl

theorem weight_attach_le (r : Registry) (i : ℕ) (e : Entry) :
    (r.attach i e).weight ≤ r.weight + e.load := by
  rcases lt_or_ge i r.cells.length with hi | hi
  · have hweight : (r.attach i e).weight + (r.cell i).load = r.weight + _ :=
      weight_modifyCell hi _
    rw [Cell.load_eq, Cell.load_eq, List.map_append, List.sum_append] at hweight
    simp only [List.map_cons, List.map_nil, List.sum_cons, List.sum_nil] at hweight
    omega
  · rw [attach, modifyCell_of_le hi]
    exact Nat.le_add_right _ _

/-! ### One thing done -/

theorem perform_cancel_of_isCancelled (h : r.isCancelled i = true) :
    r.perform (.cancel i) = ([], r) := by
  rw [perform, if_pos h]

theorem perform_cancel (h : r.isCancelled i = false) : r.perform (.cancel i)
    = ((r.entries i).map fun e => taskOf e.2, (r.shut i).detach i) := by
  rw [perform, if_neg (by simp [h]), Signal.cancel_of_live h]
  exact Prod.ext (List.map_map ..) (congrArg (detach · i) (modifyCell_congr rfl))

theorem listen_of_live (h : r.isCancelled i = false) (l : Listener) :
    r.listen i l = ((r.cell i).signal.next, r.attach i (.listener l)) := by
  rw [listen, if_neg (by simp [h]), Signal.listen_of_live h]
  exact Prod.ext rfl (modifyCell_congr rfl)

theorem derive_of_isCancelled (h : r.isCancelled i = true) (name : String) : r.derive i name
    = (r.grow { signal := { cancelled := true }, origin := some i }).bindName name
        r.cells.length := by
  rw [derive, if_pos h]
  rfl

theorem derive_of_live (h : r.isCancelled i = false) (name : String) :
    r.derive i name = (r.sprout i).bindName name r.cells.length := by
  rw [derive, if_neg (by simp [h]), Signal.listen_of_live h]
  refine congrArg (bindName · name r.cells.length) (congrArg (grow · _) ?_)
  exact modifyCell_congr rfl

theorem perform_add_of_live {name : String} (hname : r.named? name = some i)
    (h : r.isCancelled i = false) (l : Listener) :
    r.perform (.add name l) = ([], r.attach i (.listener l)) := by
  simp only [perform, hname, h, Bool.false_eq_true, if_false]
  refine Prod.ext rfl (modifyCell_congr ?_)
  simp only [Signal.listen_of_live h]

theorem perform_add_of_not_named {name : String} (hname : r.named? name = none) (l : Listener) :
    r.perform (.add name l) = ([], r) := by
  simp [perform, hname]

theorem perform_add_of_isCancelled {name : String} (hname : r.named? name = some i)
    (h : r.isCancelled i = true) (l : Listener) : r.perform (.add name l) = ([.run l], r) := by
  simp [perform, hname, h]

theorem load_perform (r : Registry) (t : Task) (ts : List Task) :
    (r.perform t).2.load ((r.perform t).1 ++ ts) < r.load (t :: ts) := by
  simp only [load_eq, List.map_append, List.sum_append, List.map_cons, List.sum_cons]
  suffices h : (r.perform t).2.weight + ((r.perform t).1.map Task.load).sum < r.weight + t.load by
    omega
  have hnamed : ∀ cancels : Option String,
      (((cancels.map Task.cancelNamed).toList).map Task.load).sum ≤ 2 := by
    intro cancels
    cases cancels <;> simp [Task.load]
  match t with
  | .cancel i =>
    cases h : r.isCancelled i with
    | true => simp [perform_cancel_of_isCancelled h, Task.load]
    | false =>
      rw [perform_cancel h]
      have hdetach := weight_detach_le (r.shut i) i
      have hshut := weight_shut r i
      simp only [Task.load]
      omega
  | .cancelNamed name =>
    rcases h : r.named? name with _ | i <;> simp [perform, h, Task.load]
  | .run (.note label cancels) =>
    have := hnamed cancels
    simp only [perform, weight, Task.load, Listener.load]
    omega
  | .run (.noteThen label cancels on following) =>
    have := hnamed cancels
    simp only [perform, weight, Task.load, Listener.load, List.map_append, List.sum_append,
      List.map_cons, List.map_nil, List.sum_cons, List.sum_nil]
    omega
  | .run (.andThen first second) =>
    simp only [perform, Task.load, Listener.load, List.map_cons, List.map_nil, List.sum_cons,
      List.sum_nil]
    omega
  | .add name l =>
    rcases hname : r.named? name with _ | i
    · simp [perform_add_of_not_named hname, Task.load]
    · cases h : r.isCancelled i with
      | true => simp [perform_add_of_isCancelled hname h, Task.load]
      | false =>
        rw [perform_add_of_live hname h]
        have := weight_attach_le r i (.listener l)
        simp only [Task.load, Entry.load, List.map_nil, List.sum_nil] at this ⊢
        omega

/-- The number that one thing done gives for a listener, with its context. -/
def adds (r : Registry) : Task → List (ℕ × ℕ)
  | .add name l =>
    (r.named? name).toList.map fun i => (i, ((r.cell i).signal.listen (.listener l)).1)
  | _ => []

theorem adds_of_not_named {name : String} (hname : r.named? name = none) (l : Listener) :
    r.adds (.add name l) = [] := by
  rw [adds, hname]
  rfl

theorem adds_of_isCancelled {name : String} (hname : r.named? name = some i)
    (h : r.isCancelled i = true) (l : Listener) : r.adds (.add name l) = [(i, 0)] := by
  rw [adds, hname, Option.toList_some, List.map_singleton, Signal.listen_of_cancelled h]

theorem adds_of_live {name : String} (hname : r.named? name = some i)
    (h : r.isCancelled i = false) (l : Listener) :
    r.adds (.add name l) = [(i, (r.cell i).signal.next)] := by
  rw [adds, hname, Option.toList_some, List.map_singleton, Signal.listen_of_live h]

/-- The numbers that are given for listeners while at most `bound` things are done. -/
def addsWithin : ℕ → List Task → Registry → List (ℕ × ℕ)
  | 0, _, _ => []
  | _ + 1, [], _ => []
  | bound + 1, t :: ts, r =>
    r.adds t ++ addsWithin bound ((r.perform t).1 ++ ts) (r.perform t).2

/-- The numbers that are given for listeners while everything is done. -/
def settleAdds (ts : List Task) (r : Registry) : List (ℕ × ℕ) :=
  addsWithin (r.load ts) ts r

/-- What each single thing keeps, with the things that it leaves in its place and the numbers that
it gives, holds when all is done. -/
theorem settle_induction_adds {P : List (ℕ × ℕ) → List Task → Registry → Prop}
    (added : List (ℕ × ℕ)) (step : ∀ added t ts r, P added (t :: ts) r →
      P (added ++ r.adds t) ((r.perform t).1 ++ ts) (r.perform t).2)
    (h : P added ts r) : P (added ++ r.settleAdds ts) [] (r.settle ts) := by
  have hwithin : ∀ bound added ts r, r.load ts ≤ bound → P added ts r →
      P (added ++ addsWithin bound ts r) [] (settleWithin bound ts r) := by
    intro bound
    induction bound with
    | zero =>
      intro added ts r hload h
      cases ts with
      | nil => simpa [addsWithin, settleWithin] using h
      | cons t ts => exact absurd (load_perform r t ts) (by omega)
    | succ bound ih =>
      intro added ts r hload h
      cases ts with
      | nil => simpa [addsWithin, settleWithin] using h
      | cons t ts =>
        have hless := (load_perform r t ts).trans_le hload
        have hrest := ih _ _ _ (Nat.lt_succ_iff.mp hless) (step added t ts r h)
        rwa [List.append_assoc] at hrest
  exact hwithin _ added ts r le_rfl h

/-- What each single thing keeps, with the things that it leaves in its place, holds when all is
done. -/
theorem settle_induction {P : List Task → Registry → Prop}
    (step : ∀ t ts r, P (t :: ts) r → P ((r.perform t).1 ++ ts) (r.perform t).2)
    (h : P ts r) : P [] (r.settle ts) :=
  settle_induction_adds [] (P := fun _ => P) (fun _ => step) h

/-! ### How far a cancellation reaches -/

/-- Who holds what, and what was derived from what, is as before. -/
structure Kept (r₀ r : Registry) : Prop where
  handles : r.handles = r₀.handles
  guards : r.guards = r₀.guards
  length : r.cells.length = r₀.cells.length
  origin : ∀ k, (r.cell k).origin = (r₀.cell k).origin

theorem Kept.trans {r₀ r r' : Registry} (h : Kept r₀ r) (h' : Kept r r') : Kept r₀ r' where
  handles := h'.handles.trans h.handles
  guards := h'.guards.trans h.guards
  length := h'.length.trans h.length
  origin k := (h'.origin k).trans (h.origin k)

theorem Kept.refl (r : Registry) : Kept r r :=
  ⟨rfl, rfl, rfl, fun _ => rfl⟩

theorem Kept.attach (r : Registry) (i : ℕ) (e : Entry) : Kept r (r.attach i e) :=
  ⟨rfl, rfl, length_attach .., fun _ => origin_attach ..⟩

theorem Kept.cancel (r : Registry) (i : ℕ) : Kept r ((r.shut i).detach i) :=
  ⟨handles_detach .., guards_detach .., by simp, by simp⟩

theorem Kept.isHeld {r₀ r : Registry} (h : Kept r₀ r) (i : ℕ) : r.isHeld i = r₀.isHeld i := by
  rw [Registry.isHeld, Registry.isHeld, h.handles, h.guards]

/-- The contexts that a cancellation of `i` reaches: `i` itself, and the contexts of `H` that were
derived from one that it reaches. -/
inductive Reaches (r : Registry) (H : Set ℕ) (i : ℕ) : ℕ → Prop
  | self : Reaches r H i i
  | derived {c k : ℕ} : Reaches r H i k → (r.cell c).origin = some k → c ∈ H → Reaches r H i c

/-- In the course of a settlement that began with `r₀`: the contexts of `D` are cancelled or about
to be, and only contexts of `R` are. -/
structure Spread (r₀ : Registry) (D R H : Set ℕ) (G : Set (ℕ × ℕ)) (ts : List Task)
    (r : Registry) : Prop where
  linked : Linked Listener.Quiet H G ts r
  kept : Kept r₀ r
  due : ∀ j ∈ D, r.isCancelled j = true ∨ .cancel j ∈ ts
  within : ∀ j, r.isCancelled j = true → j ∈ R
  ahead : ∀ j, .cancel j ∈ ts → j ∈ R ∧ j < r.cells.length
  quiet : ∀ t ∈ ts, t.Quiet

namespace Spread

variable {r₀ : Registry} {D R : Set ℕ} {t : Task}

theorem perform_cancel (h : Spread r₀ D R H G (.cancel i :: ts) r)
    (hR : ∀ c ∈ H, ∀ k ∈ R, (r₀.cell c).origin = some k → c ∈ R) :
    Spread r₀ D R H G ((r.perform (.cancel i)).1 ++ ts) (r.perform (.cancel i)).2 := by
  obtain ⟨hiR, hi⟩ := h.ahead i List.mem_cons_self
  have hdue : ∀ j ∈ D, j = i ∨ r.isCancelled j = true ∨ .cancel j ∈ ts := by
    intro j hj
    rcases h.due j hj with hold | hwait
    · exact .inr (.inl hold)
    · exact (List.mem_cons.mp hwait).imp Task.cancel.inj .inr
  cases hlive : r.isCancelled i with
  | true =>
    rw [perform_cancel_of_isCancelled hlive]
    exact {
      linked := h.linked.done fun j hj => Task.cancel.inj hj ▸ hlive
      kept := h.kept
      due := fun j hj => (hdue j hj).elim (fun hji => .inl (hji ▸ hlive)) id
      within := h.within
      ahead := fun j hj => h.ahead j (List.mem_cons_of_mem _ hj)
      quiet := fun t ht => h.quiet t (List.mem_cons_of_mem _ ht) }
  | false =>
    rw [Registry.perform_cancel hlive]
    have hcancelled : ∀ j, ((r.shut i).detach i).isCancelled j
        = if j = i then true else r.isCancelled j := fun j => by
      rw [isCancelled_detach, isCancelled_shut _ _ hi]
    refine ⟨h.linked.cancel hi, h.kept.trans (.cancel ..), ?_, ?_, ?_, ?_⟩
    · intro j hj
      rw [hcancelled]
      split_ifs with hji
      · exact .inl rfl
      · exact ((hdue j hj).resolve_left hji).imp_right (List.mem_append_right _)
    · intro j hj
      rw [hcancelled] at hj
      split_ifs at hj with hji
      · exact hji ▸ hiR
      · exact h.within j hj
    · intro j hj
      rcases List.mem_append.mp hj with hnew | hold
      · obtain ⟨⟨n, e⟩, he, htask⟩ := List.mem_map.mp hnew
        rcases e with l | c
        · cases htask
        · obtain rfl := Task.cancel.inj htask
          have hs := h.linked.source i n c he
          have hc := (h.linked.alive c _ hs).1
          have horigin := h.linked.origin c i n hs
          exact ⟨hR c hc i hiR (h.kept.origin c ▸ horigin), by simpa using h.linked.held_lt c hc⟩
      · simpa using h.ahead j (List.mem_cons_of_mem _ hold)
    · intro t ht
      rcases List.mem_append.mp ht with hnew | hold
      · obtain ⟨⟨n, e⟩, he, rfl⟩ := List.mem_map.mp hnew
        rcases e with l | c
        · exact h.linked.known i n l he
        · trivial
      · exact h.quiet t (List.mem_cons_of_mem _ hold)

/-- What ends no context and leaves nothing to do that would. -/
theorem calm {r' : Registry} {more : List Task} (h : Spread r₀ D R H G (t :: ts) r)
    (ht : ∀ j, t ≠ .cancel j) (hmore : ∀ t ∈ more, t.Quiet ∧ ∀ j, t ≠ .cancel j)
    (hlinked : Linked Listener.Quiet H G (more ++ ts) r') (hkept : Kept r r')
    (hcancelled : ∀ j, r'.isCancelled j = r.isCancelled j) :
    Spread r₀ D R H G (more ++ ts) r' where
  linked := hlinked
  kept := h.kept.trans hkept
  due j hj := by
    rcases h.due j hj with hold | hwait
    · exact .inl (hcancelled j ▸ hold)
    · have hwait := (List.mem_cons.mp hwait).resolve_left (ht j).symm
      exact .inr (List.mem_append_right _ hwait)
  within j hj := h.within j (hcancelled j ▸ hj)
  ahead j hj := by
    rw [hkept.length]
    rcases List.mem_append.mp hj with hnew | hold
    · exact absurd rfl ((hmore _ hnew).2 j)
    · exact h.ahead j (List.mem_cons_of_mem _ hold)
  quiet t ht := by
    rcases List.mem_append.mp ht with hnew | hold
    · exact (hmore t hnew).1
    · exact h.quiet t (List.mem_cons_of_mem _ hold)

theorem perform_run {l : Listener} (h : Spread r₀ D R H G (.run l :: ts) r) :
    Spread r₀ D R H G ((r.perform (.run l)).1 ++ ts) (r.perform (.run l)).2 := by
  have hl : l.Quiet := h.quiet (.run l) List.mem_cons_self
  have hlinked : Linked Listener.Quiet H G ts r := h.linked.done fun _ hj => nomatch hj
  refine h.calm nofun ?_ ((hlinked.congr ?_).wait (List.subset_append_right _ _))
    ⟨?_, ?_, ?_, fun _ => ?_⟩ fun _ => ?_
  all_goals cases l with
  | note label cancels =>
    obtain rfl : cancels = none := hl
    simp [Registry.perform, cell, isCancelled]
  | noteThen label cancels on following =>
    obtain ⟨rfl, hfollowing⟩ := hl
    simp [Registry.perform, cell, isCancelled, Task.Quiet, hfollowing]
  | andThen first second =>
    obtain ⟨hfirst, hsecond⟩ := hl
    simp [Registry.perform, Task.Quiet, hfirst, hsecond]

theorem perform_add {name : String} {l : Listener} (h : Spread r₀ D R H G (.add name l :: ts) r) :
    Spread r₀ D R H G ((r.perform (.add name l)).1 ++ ts) (r.perform (.add name l)).2 := by
  have hl : l.Quiet := h.quiet (.add name l) List.mem_cons_self
  have hlinked : Linked Listener.Quiet H G ts r := h.linked.done fun _ hj => nomatch hj
  rcases hname : r.named? name with _ | i
  · rw [perform_add_of_not_named hname]
    exact h.calm nofun nofun hlinked (.refl r) fun _ => rfl
  cases hlive : r.isCancelled i with
  | true =>
    rw [perform_add_of_isCancelled hname hlive]
    exact h.calm nofun (by simpa [Task.Quiet] using hl)
      (hlinked.wait (List.subset_append_right _ _)) (.refl r) fun _ => rfl
  | false =>
    rw [perform_add_of_live hname hlive]
    refine h.calm nofun nofun ?_ (.attach ..) fun _ => isCancelled_attach ..
    rcases lt_or_ge i r.cells.length with hi | hi
    · exact (hlinked.listen hi hlive hl).anti (Set.subset_insert _ _)
    · rw [Registry.attach, modifyCell_of_le hi]
      exact hlinked

theorem perform (h : Spread r₀ D R H G (t :: ts) r)
    (hR : ∀ c ∈ H, ∀ k ∈ R, (r₀.cell c).origin = some k → c ∈ R) :
    Spread r₀ D R H G ((r.perform t).1 ++ ts) (r.perform t).2 := by
  cases t with
  | cancel i => exact h.perform_cancel hR
  | cancelNamed name => exact (h.quiet (.cancelNamed name) List.mem_cons_self).elim
  | run l => exact h.perform_run
  | add name l => exact h.perform_add

theorem settle (h : Spread r₀ D R H G ts r)
    (hR : ∀ c ∈ H, ∀ k ∈ R, (r₀.cell c).origin = some k → c ∈ R) :
    Spread r₀ D R H G [] (r.settle ts) :=
  settle_induction (fun _ _ _ h => h.perform hR) h

/-- In the end the contexts of `D` are cancelled. -/
theorem ended (h : Spread r₀ D R H G [] r) : ∀ j ∈ D, r.isCancelled j = true :=
  fun j hj => (h.due j hj).resolve_right List.not_mem_nil

end Spread

namespace Linked

/-- A cancellation ends what it reaches, and nothing else. -/
theorem cancel_spec (h : Linked Listener.Quiet H G [] r) (hi : i < r.cells.length) :
    Linked Listener.Quiet H G [] (r.cancel i) ∧ Kept r (r.cancel i)
      ∧ ∀ j, (r.cancel i).isCancelled j = true ↔ r.isCancelled j = true ∨ Reaches r H i j := by
  have hspread : Spread r {j | r.isCancelled j = true ∨ j = i}
      {j | r.isCancelled j = true ∨ Reaches r H i j} H G [.cancel i] r := {
    linked := h.wait (List.nil_subset _)
    kept := .refl r
    due := fun j hj => hj.imp_right fun hji => by simp [hji]
    within := fun _ hj => .inl hj
    ahead := by simpa using ⟨.inr .self, hi⟩
    quiet := by simp [Task.Quiet] }
  have hdone : Spread r _ _ H G [] (r.cancel i) := hspread.settle fun c hc k hk horigin =>
    hk.imp (h.ends hc horigin) (.derived · horigin hc)
  refine ⟨hdone.linked, hdone.kept, fun j => ⟨hdone.within j, ?_⟩⟩
  rintro (hj | hj)
  · exact hdone.ended j (.inl hj)
  · induction hj with
    | self => exact hdone.ended i (.inr rfl)
    | derived _ horigin hheld ih =>
      exact hdone.linked.ends hheld ((hdone.kept.origin _).trans horigin) ih

/-- A listener that is added ends no context, also where it runs at once. -/
theorem listen_spec (h : Linked Listener.Quiet H G [] r) (hi : i < r.cells.length) {l : Listener}
    (hl : l.Quiet) :
    Linked Listener.Quiet H (insert (i, (r.listen i l).1) G) [] (r.listen i l).2
      ∧ Kept r (r.listen i l).2
      ∧ ∀ j, (r.listen i l).2.isCancelled j = r.isCancelled j := by
  cases hlive : r.isCancelled i with
  | false =>
    rw [listen_of_live hlive]
    exact ⟨h.listen hi hlive hl, .attach .., fun _ => isCancelled_attach ..⟩
  | true =>
    have hlisten : r.listen i l = (0, r.settle [.run l]) := by rw [Registry.listen, if_pos hlive]
    rw [hlisten]
    have hspread : Spread r {j | r.isCancelled j = true} {j | r.isCancelled j = true} H G [.run l]
        r := {
      linked := h.wait (List.nil_subset _)
      kept := .refl r
      due := fun j hj => .inl hj
      within := fun _ hj => hj
      ahead := by simp
      quiet := by simpa [Task.Quiet] using hl }
    have hdone := hspread.settle fun c hc k hk horigin => h.ends hc horigin hk
    refine ⟨hdone.linked.give (hdone.linked.counts i) fun c hc => ?_, hdone.kept,
      fun j => Bool.eq_iff_iff.mpr ⟨hdone.within j, hdone.ended j⟩⟩
    rw [hdone.linked.ended i (hdone.ended i hlive)] at hc
    cases hc

end Linked

end Registry

end Signal

end Ingest

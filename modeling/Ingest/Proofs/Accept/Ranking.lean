import Mathlib
import Ingest.Accept.Ranking

/-!
# What a ranking comes to

Where the test compares keys in a linear order, `Ranking.sort` puts the greater keys first and
leaves equals in the order in which they were (`ranks_sort`), whatever runs and halves it goes
through. Only one list does both (`Ranks.unique`), so that a list which is in order stays as it is,
and what is sorted in two pieces can be merged.

The test may compare keys only among some of all things, those that satisfy `p`.
-/

namespace Ingest.Accept.Ranking

variable {α κ : Type} [LinearOrder κ] {key : α → κ} {before : α → α → Bool} {p : α → Prop}
  {xs ys zs : List α} {x : α}

/-- The keys never increase. -/
def Falls (key : α → κ) (xs : List α) : Prop :=
  xs.Pairwise fun a b => key b ≤ key a

theorem Falls.head_le {a b : α} {as : List α} (h : Falls key (a :: as)) (hb : b ∈ a :: as) :
    key b ≤ key a := by
  rcases List.mem_cons.mp hb with rfl | hb
  · exact le_rfl
  · exact (List.pairwise_cons.mp h).1 b hb

/-- The second list has what the first one has, things with the same key in the same order. -/
def Keeps (key : α → κ) (xs ys : List α) : Prop :=
  ∀ k, ys.filter (key · = k) = xs.filter (key · = k)

namespace Keeps

theorem refl (xs : List α) : Keeps key xs xs :=
  fun _ => rfl

theorem trans (h : Keeps key xs ys) (h' : Keeps key ys zs) : Keeps key xs zs :=
  fun k => (h' k).trans (h k)

theorem append {xs' ys' : List α} (h : Keeps key xs ys) (h' : Keeps key xs' ys') :
    Keeps key (xs ++ xs') (ys ++ ys') :=
  fun k => by rw [List.filter_append, List.filter_append, h k, h' k]

theorem cons (h : Keeps key xs ys) (x : α) : Keeps key (x :: xs) (x :: ys) :=
  append (refl [x]) h

theorem mem_iff (h : Keeps key xs ys) : x ∈ ys ↔ x ∈ xs := by
  have hmem : ∀ zs : List α, x ∈ zs ↔ x ∈ zs.filter (key · = key x) := by simp
  rw [hmem ys, hmem xs, h]

/-- What moves over things with smaller keys. -/
theorem middle (xs : List α) (h : ∀ a ∈ ys, key a < key x) :
    Keeps key (xs ++ ys ++ [x]) (xs ++ x :: ys) := by
  intro k
  by_cases hk : key x = k
  · have hnone : ys.filter (key · = k) = [] := by
      refine List.filter_eq_nil_iff.mpr fun a ha => ?_
      simpa [← hk] using (h a ha).ne
    simp [List.filter_append, hk, hnone]
  · simp [List.filter_append, hk]

end Keeps

/-- The second list is the first one in order: the keys never increase, and equals stand in the
order in which they were. -/
structure Ranks (key : α → κ) (xs ys : List α) : Prop where
  falls : Falls key ys
  keeps : Keeps key xs ys

/-- There is one order only: two begin with the greatest key, and so with the first thing that has
it. -/
theorem Falls.eq_of_keeps (hxs : Falls key xs) (hys : Falls key ys) (h : Keeps key xs ys) :
    xs = ys := by
  induction xs generalizing ys with
  | nil =>
    refine (List.eq_nil_iff_forall_not_mem.mpr fun x hx => ?_).symm
    simpa using h.mem_iff.mp hx
  | cons x xs ih =>
    obtain ⟨y, ys, rfl⟩ : ∃ y ys', ys = y :: ys' :=
      List.exists_cons_of_ne_nil (List.ne_nil_of_mem (h.mem_iff.mpr List.mem_cons_self))
    have hkey : key y = key x := le_antisymm (hxs.head_le (h.mem_iff.mp List.mem_cons_self))
      (hys.head_le (h.mem_iff.mpr List.mem_cons_self))
    obtain rfl : y = x := by
      have hhead := h (key x)
      rw [List.filter_cons_of_pos (by simpa using hkey), List.filter_cons_of_pos (by simp)] at hhead
      exact (List.cons.inj hhead).1
    have hrest : Keeps key xs ys := by
      intro k
      have hall := h k
      rw [List.filter_cons, List.filter_cons] at hall
      split_ifs at hall
      · exact (List.cons.inj hall).2
      · exact hall
    rw [ih (List.pairwise_cons.mp hxs).2 (List.pairwise_cons.mp hys).2 hrest]

namespace Ranks

theorem unique (h : Ranks key xs ys) (h' : Ranks key xs zs) : ys = zs :=
  h.falls.eq_of_keeps h'.falls fun k => (h'.keeps k).trans (h.keeps k).symm

theorem of_keeps (h : Ranks key ys zs) (h' : Keeps key xs ys) : Ranks key xs zs :=
  ⟨h.falls, h'.trans h.keeps⟩

end Ranks

/-- Among the things that satisfy `p`, the test says whether the key is greater. -/
def Compares (before : α → α → Bool) (key : α → κ) (p : α → Prop) : Prop :=
  ∀ a b, p a → p b → (before a b = true ↔ key b < key a)

/-- Ranked pieces of a list, in the order in which they were. -/
structure Pieces (key : α → κ) (xs : List α) (runs : List (List α)) : Prop where
  falls : ∀ run ∈ runs, Falls key run
  keeps : Keeps key xs runs.flatten

/-- Where there is no more than one piece, it is the whole list. -/
theorem Pieces.ranks {runs : List (List α)} (h : Pieces key xs runs) (hone : runs.length ≤ 1) :
    Ranks key xs runs.flatten := by
  refine ⟨?_, h.keeps⟩
  match runs, hone with
  | [], _ => exact .nil
  | [run], _ => simpa using h.falls run (List.mem_singleton_self _)

theorem length_mergePairs_le (before : α → α → Bool) (runs : List (List α)) :
    (mergePairs before runs).length ≤ max 1 (runs.length - 1) := by
  suffices hhalf : (mergePairs before runs).length = (runs.length + 1) / 2 by omega
  fun_induction mergePairs before runs with
  | case1 xs ys rest ih => simp only [List.length_cons, ih]; omega
  | case2 runs hshort =>
    match runs, hshort with
    | [], _ | [_], _ => simp
    | xs :: ys :: rest, hshort => exact absurd rfl (hshort xs ys rest)

section Steps

variable (hbefore : Compares before key p)
include hbefore

/-- Something is placed behind what has no smaller key and before what has a smaller one. -/
theorem exists_place (hx : p x) (hp : ∀ a ∈ xs, p a) (h : Falls key xs) :
    ∃ l r, xs = l ++ r ∧ place before x xs = l ++ x :: r
      ∧ (∀ a ∈ l, key x ≤ key a) ∧ ∀ a ∈ r, key a < key x := by
  rw [place]
  split_ifs with hhead
  · obtain ⟨y, ys, rfl⟩ : ∃ y ys, xs = y :: ys :=
      List.exists_cons_of_ne_nil (by rintro rfl; simp at hhead)
    have hy : key y < key x :=
      (hbefore x y hx (hp y List.mem_cons_self)).mp (by simpa using hhead)
    refine ⟨[], y :: ys, rfl, rfl, by simp, List.forall_mem_cons.mpr ⟨hy, fun a ha => ?_⟩⟩
    exact ((List.pairwise_cons.mp h).1 a ha).trans_lt hy
  · have hback : Falls (OrderDual.toDual ∘ key) xs.reverse := List.pairwise_reverse.mpr h
    have hsplit := List.takeWhile_append_dropWhile (p := before x) (l := xs.reverse)
    refine ⟨(xs.reverse.dropWhile (before x)).reverse, (xs.reverse.takeWhile (before x)).reverse,
      ?_, rfl, fun a ha => ?_, fun a ha => ?_⟩
    · rw [← List.reverse_append, hsplit, List.reverse_reverse]
    · rw [List.mem_reverse] at ha
      obtain ⟨y, rest, hrest⟩ := List.exists_cons_of_ne_nil (List.ne_nil_of_mem ha)
      have hmem : y ∈ xs := List.mem_reverse.mp
        ((List.dropWhile_suffix (before x)).subset (hrest ▸ List.mem_cons_self))
      have hy : key x ≤ key y := by
        have hstop := List.head?_dropWhile_not (before x) xs.reverse
        rw [hrest] at hstop
        exact not_lt.mp fun hlt => by simp [(hbefore x y hx (hp y hmem)).mpr hlt] at hstop
      have hfalls : Falls (OrderDual.toDual ∘ key) (y :: rest) := by
        rw [← hrest]
        exact hback.sublist (List.dropWhile_sublist _)
      exact hy.trans (hfalls.head_le (hrest ▸ ha))
    · rw [List.mem_reverse] at ha
      have hmem : a ∈ xs := List.mem_reverse.mp (List.takeWhile_subset _ ha)
      exact (hbefore x a hx (hp a hmem)).mp (List.mem_takeWhile_imp ha)

theorem ranks_place (hx : p x) (hp : ∀ a ∈ xs, p a) (h : Falls key xs) :
    Ranks key (xs ++ [x]) (place before x xs) := by
  obtain ⟨l, r, rfl, hplace, hl, hr⟩ := exists_place hbefore hx hp h
  obtain ⟨hfl, hfr, hlr⟩ := List.pairwise_append.mp h
  rw [hplace]
  refine ⟨List.pairwise_append.mpr
    ⟨hfl, List.pairwise_cons.mpr ⟨fun a ha => (hr a ha).le, hfr⟩, fun a ha b hb => ?_⟩,
    .middle l hr⟩
  rcases List.mem_cons.mp hb with rfl | hb
  · exact hl a ha
  · exact hlr a ha b hb

theorem pieces_runs {run : List α} (hrun : ∀ a ∈ run, p a) (hp : ∀ a ∈ xs, p a)
    (h : Falls key run) : Pieces key (run ++ xs) (runs before run xs) := by
  induction xs generalizing run with
  | nil => exact ⟨by simpa [runs] using h, by simpa [runs] using .refl run⟩
  | cons x xs ih =>
    obtain ⟨hx, hxs⟩ := List.forall_mem_cons.mp hp
    rw [runs]
    split_ifs
    · have hplace := ranks_place hbefore hx hrun h
      have hpieces := ih (fun a ha => ?_) hxs hplace.falls
      · refine ⟨hpieces.falls, .trans ?_ hpieces.keeps⟩
        simpa using hplace.keeps.append (.refl xs)
      · rcases List.mem_cons.mp ((place_perm before x run).mem_iff.mp ha) with rfl | ha
        · exact hx
        · exact hrun a ha
    · have hpieces := @ih [x] (by simpa using hx) hxs (List.pairwise_singleton _ _)
      refine ⟨List.forall_mem_cons.mpr ⟨h, hpieces.falls⟩, ?_⟩
      exact (Keeps.refl run).append hpieces.keeps

theorem ranks_merge (hxs : ∀ a ∈ xs, p a) (hys : ∀ a ∈ ys, p a) (hx : Falls key xs)
    (hy : Falls key ys) : Ranks key (xs ++ ys) (merge before xs ys) := by
  unfold merge
  fun_induction List.merge xs ys (fun x y => !before y x) with
  | case1 ys => exact ⟨hy, .refl _⟩
  | case2 xs => exact ⟨hx, by simpa using .refl xs⟩
  | case3 x xs y ys hfirst ih =>
    obtain ⟨hpx, hpxs⟩ := List.forall_mem_cons.mp hxs
    obtain ⟨hpy, -⟩ := List.forall_mem_cons.mp hys
    obtain ⟨hxall, hxs'⟩ := List.pairwise_cons.mp hx
    have hyx : key y ≤ key x :=
      not_lt.mp fun hlt => by simp [(hbefore y x hpy hpx).mpr hlt] at hfirst
    have hrest := ih hpxs hys hxs' hy
    refine ⟨List.pairwise_cons.mpr ⟨fun a ha => ?_, hrest.falls⟩, hrest.keeps.cons x⟩
    rcases List.mem_append.mp (hrest.keeps.mem_iff.mp ha) with ha | ha
    · exact hxall a ha
    · exact (hy.head_le ha).trans hyx
  | case4 x xs y ys hfirst ih =>
    obtain ⟨hpx, hpy, hpys⟩ := And.intro (hxs x List.mem_cons_self) (List.forall_mem_cons.mp hys)
    obtain ⟨hyall, hys'⟩ := List.pairwise_cons.mp hy
    have hxy : key x < key y := (hbefore y x hpy hpx).mp (by simpa using hfirst)
    have hbehind : ∀ a ∈ x :: xs, key a < key y := fun a ha => (hx.head_le ha).trans_lt hxy
    have hrest := ih hxs hpys hx hys'
    refine ⟨List.pairwise_cons.mpr ⟨fun a ha => ?_, hrest.falls⟩, ?_⟩
    · rcases List.mem_append.mp (hrest.keeps.mem_iff.mp ha) with ha | ha
      · exact (hbehind a ha).le
      · exact hyall a ha
    · have hmoved : Keeps key (x :: xs ++ [y] ++ ys) (y :: (x :: xs) ++ ys) :=
        (Keeps.middle [] hbehind).append (.refl ys)
      rw [List.append_assoc] at hmoved
      exact hmoved.trans (hrest.keeps.cons y)

/-- Seen from the back, the order is the opposite one. -/
theorem ranks_mergeBack (hxs : ∀ a ∈ xs, p a) (hys : ∀ a ∈ ys, p a) (hx : Falls key xs)
    (hy : Falls key ys) : Ranks key (xs ++ ys) (mergeBack before xs ys) := by
  have hopposite : Compares (fun a b => before b a) (OrderDual.toDual ∘ key) p :=
    fun a b ha hb => hbefore b a hb ha
  have hmerge := ranks_merge hopposite (by simpa using hys) (by simpa using hxs)
    (List.pairwise_reverse.mpr hy) (List.pairwise_reverse.mpr hx)
  refine ⟨List.pairwise_reverse.mpr hmerge.falls, fun k => ?_⟩
  have hkeeps := hmerge.keeps (OrderDual.toDual k)
  rw [← List.reverse_append, List.filter_reverse] at hkeeps
  rw [mergeBack, List.filter_reverse, List.reverse_eq_iff]
  exact hkeeps

theorem pieces_mergePairs {runs : List (List α)} (hp : ∀ run ∈ runs, ∀ a ∈ run, p a)
    (h : Pieces key xs runs) : Pieces key xs (mergePairs before runs) := by
  suffices hpairs : Pieces key runs.flatten (mergePairs before runs) from
    ⟨hpairs.falls, h.keeps.trans hpairs.keeps⟩
  replace h := h.falls
  fun_induction mergePairs before runs with
  | case1 xs ys rest ih =>
    simp only [List.forall_mem_cons] at hp h
    have hmerge := ranks_merge hbefore hp.1 hp.2.1 h.1 h.2.1
    have hrest := ih hp.2.2 h.2.2
    refine ⟨List.forall_mem_cons.mpr ⟨hmerge.falls, hrest.falls⟩, ?_⟩
    simpa using hmerge.keeps.append hrest.keeps
  | case2 runs => exact ⟨h, .refl _⟩

/-- Each round of merging leaves fewer runs, until there is one. -/
theorem ranks_sortHalf (hp : ∀ a ∈ xs, p a) : Ranks key xs (sortHalf before xs) := by
  have hruns : Pieces key xs (runs before [] xs) := by
    simpa using pieces_runs hbefore (List.forall_mem_nil p) hp .nil
  have hrounds : ∀ n, Pieces key xs (Nat.repeat (mergePairs before) n (runs before [] xs))
      ∧ (Nat.repeat (mergePairs before) n (runs before [] xs)).length
        ≤ max 1 ((runs before [] xs).length - n) := by
    intro n
    induction n with
    | zero => exact ⟨hruns, by simp [Nat.repeat]⟩
    | succ n ih =>
      obtain ⟨hpieces, hlength⟩ := ih
      have hall : ∀ run ∈ Nat.repeat (mergePairs before) n (runs before [] xs), ∀ a ∈ run, p a :=
        fun run hrun a ha => hp a (hpieces.keeps.mem_iff.mp (List.mem_flatten.mpr ⟨run, hrun, ha⟩))
      refine ⟨pieces_mergePairs hbefore hall hpieces, ?_⟩
      have hless := length_mergePairs_le before
        (Nat.repeat (mergePairs before) n (runs before [] xs))
      simp only [Nat.repeat]
      omega
  obtain ⟨hpieces, hlength⟩ := hrounds (runs before [] xs).length
  exact hpieces.ranks (by simpa using hlength)

theorem ranks_sort (hp : ∀ a ∈ xs, p a) : Ranks key xs (sort before xs) := by
  let n := (xs.length + 1) / 2
  have htake : ∀ a ∈ xs.take n, p a := fun a ha => hp a (List.mem_of_mem_take ha)
  have hdrop : ∀ a ∈ xs.drop n, p a := fun a ha => hp a (List.mem_of_mem_drop ha)
  have hfront := ranks_sortHalf hbefore htake
  have hback := ranks_sortHalf hbefore hdrop
  have hfrontp := fun a ha => htake a (hfront.keeps.mem_iff.mp ha)
  have hbackp := fun a ha => hdrop a (hback.keeps.mem_iff.mp ha)
  have hhalves := hfront.keeps.append hback.keeps
  rw [List.take_append_drop] at hhalves
  dsimp only [sort]
  split_ifs
  · exact (ranks_mergeBack hbefore hfrontp hbackp hfront.falls hback.falls).of_keeps hhalves
  · exact (ranks_merge hbefore hfrontp hbackp hfront.falls hback.falls).of_keeps hhalves

/-- What is in order stays as it is. -/
theorem sort_of_falls (hp : ∀ a ∈ xs, p a) (h : Falls key xs) : sort before xs = xs :=
  (ranks_sort hbefore hp).unique ⟨h, .refl xs⟩

end Steps

end Ingest.Accept.Ranking

/-!
# Ranking

Putting things in order by a test that says which of two comes before the other; where it says
neither, they stay in the order in which they were.

`Ranking.sort` ranks the two halves of a list and merges them. A half is cut into runs of seven,
each ranked by insertion, and neighbouring runs are merged until one is left. A test may contradict
itself, as one does that compares with a number that is none. What comes out is then still the list
in some order (`sort_perm`), and the halves, the runs and the direction of each merge decide which.
-/

namespace Ingest.Accept.Ranking

variable {α : Type} (before : α → α → Bool)

/-- Puts `x` into a ranked list: in front if it comes before the first, and else behind the last
thing that it does not come before. -/
def place (x : α) (xs : List α) : List α :=
  if xs.head?.any (before x) then x :: xs
  else
    let back := xs.reverse
    (back.dropWhile (before x)).reverse ++ x :: (back.takeWhile (before x)).reverse

theorem place_perm (x : α) (xs : List α) : (place before x xs).Perm (x :: xs) := by
  unfold place
  split
  · exact .refl _
  · refine List.perm_middle.trans (.cons x ?_)
    refine List.Perm.trans ?_ (List.reverse_perm xs)
    refine ((List.reverse_perm _).append (List.reverse_perm _)).trans ?_
    refine List.perm_append_comm.trans ?_
    rw [List.takeWhile_append_dropWhile]

/-- Cuts a list into ranked runs of seven. The first one is begun already. -/
def runs (run : List α) : List α → List (List α)
  | [] => [run]
  | x :: xs => if run.length < 7 then runs (place before x run) xs else run :: runs [x] xs

theorem runs_perm (xs : List α) :
    ∀ run : List α, (runs before run xs).flatten.Perm (run ++ xs) := by
  induction xs with
  | nil => intro run; simp [runs]
  | cons x xs ih =>
    intro run
    unfold runs
    split
    · exact (ih _).trans (((place_perm before x run).append_right xs).trans List.perm_middle.symm)
    · exact (ih [x]).append_left run

/-- Merges from the front: the later list goes first only where its head comes before the other. -/
def merge (xs ys : List α) : List α :=
  xs.merge ys fun x y => !before y x

/-- Merges from the back: the later list goes last unless its end comes before the other. -/
def mergeBack (xs ys : List α) : List α :=
  (ys.reverse.merge xs.reverse fun y x => !before y x).reverse

theorem mergeBack_perm (xs ys : List α) : (mergeBack before xs ys).Perm (xs ++ ys) :=
  ((List.reverse_perm _).trans (List.merge_perm_append _)).trans
    (((List.reverse_perm _).append (List.reverse_perm _)).trans List.perm_append_comm)

/-- Merges each two neighbouring runs. -/
def mergePairs : List (List α) → List (List α)
  | xs :: ys :: rest => merge before xs ys :: mergePairs rest
  | rest => rest

theorem mergePairs_perm : ∀ rs : List (List α), (mergePairs before rs).flatten.Perm rs.flatten
  | [] => .refl _
  | [_] => .refl _
  | xs :: ys :: rest => by
    simp only [mergePairs, List.flatten_cons, ← List.append_assoc]
    exact (List.merge_perm_append _).append (mergePairs_perm rest)

/-- Ranks a half: so many rounds of merging as there are runs leave one. -/
def sortHalf (xs : List α) : List α :=
  let parts := runs before [] xs
  (Nat.repeat (mergePairs before) parts.length parts).flatten

theorem sortHalf_perm (xs : List α) : (sortHalf before xs).Perm xs := by
  have rounds : ∀ n rs, (Nat.repeat (mergePairs before) n rs).flatten.Perm rs.flatten := by
    intro n rs
    induction n with
    | zero => exact .refl _
    | succ n ih => exact (mergePairs_perm before _).trans ih
  exact (rounds _ _).trans (runs_perm before xs [])

/-- Ranks a list. The first half gets the odd one, and then the halves merge from the back. -/
def sort (xs : List α) : List α :=
  let n := (xs.length + 1) / 2
  let front := sortHalf before (xs.take n)
  let back := sortHalf before (xs.drop n)
  if back.length < front.length then mergeBack before front back else merge before front back

theorem sort_perm (xs : List α) : (sort before xs).Perm xs := by
  have halves : (sortHalf before (xs.take ((xs.length + 1) / 2))
      ++ sortHalf before (xs.drop ((xs.length + 1) / 2))).Perm xs :=
    ((sortHalf_perm before _).append (sortHalf_perm before _)).trans (by simp)
  dsimp only [sort]
  split
  · exact (mergeBack_perm before _ _).trans halves
  · exact (List.merge_perm_append _).trans halves

end Ingest.Accept.Ranking

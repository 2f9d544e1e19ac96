import Ingest.Proofs.Signal.Holding

/-!
# The course of commands

What happens in a registry that is told commands, as a list of events (`Registry.course`): which
listener is added where, which context is cancelled when, which listener runs and when it returns. A
command leads to duties, and each of them is done with all that it leads to before the next
(`Registry.course_append`). A cancellation that has begun leaves the context's entries to be gone
through, and then its end to be noted.

The registry at the end is the one that the commands lead to (`Registry.finish_told`).
-/

namespace Ingest

/-- The label that a listener notes first. -/
def Listener.label : Listener → String
  | note label _ => label
  | noteThen label _ _ _ => label
  | andThen first _ => first.label

namespace Signal

/-- What happens in a registry. -/
inductive Event where
  /-- A listener is added to a context and gets a number; with 0 it is not kept. -/
  | added (cell id : ℕ) (l : Listener)
  /-- The listener with a number is taken away from a context. -/
  | removed (cell id : ℕ)
  /-- A context is derived from another, and its entry there gets a number. -/
  | derived (above id cell : ℕ)
  /-- Nobody holds the context any more. -/
  | left (cell : ℕ)
  /-- A listener asks for the cancellation of a context. -/
  | asked (cell : ℕ)
  /-- The cancellation of a context is called for, by whomever. -/
  | called (cell : ℕ)
  /-- A context is cancelled, and its entries are to be gone through. -/
  | began (cell : ℕ)
  /-- The entries have been gone through. -/
  | ended (cell : ℕ)
  /-- A listener starts to run. -/
  | ran (cell id : ℕ) (l : Listener)
  /-- The listener has run. -/
  | returned (cell id : ℕ)
  | noted (label : String)
  deriving DecidableEq, Repr

/-- What is left to do. -/
inductive Duty where
  | told (c : Registry.Command)
  /-- A context is to be made, derived from another or not, and bound to a name. -/
  | make (origin : Option ℕ) (name : String)
  | bind (name : String) (cell : ℕ)
  | release (cell : ℕ)
  | setGuard (name : String) (g : Guard)
  | endGuard (g : Guard)
  /-- A listener is to be added. -/
  | attend (cell : ℕ) (l : Listener)
  | remove (cell id : ℕ)
  | task (t : Task)
  /-- A listener with its number is to run. -/
  | start (cell id : ℕ) (l : Listener)
  /-- A listener is about to have run. -/
  | returning (cell id : ℕ)
  /-- A cancellation is about to have ended. -/
  | ending (cell : ℕ)
  deriving DecidableEq, Repr

/-- What happens when a duty is done, what it leaves to be done at once, and the registry after
it. -/
structure Upshot where
  events : List Event := []
  more : List Duty := []
  after : Registry
  deriving DecidableEq, Repr

/-- The duty that an entry of a cancelled context stands for. -/
def dutyOf (i : ℕ) : ℕ × Entry → Duty
  | (id, .listener l) => .start i id l
  | (_, .derived c) => .task (.cancel c)

/-- What a listener notes itself when it runs. -/
def noting : Listener → List Event
  | .note label _ | .noteThen label _ _ _ => [.noted label]
  | .andThen _ _ => []

namespace Registry

/-- The number that a listener gets. -/
def number (r : Registry) (i : ℕ) : ℕ :=
  if r.isCancelled i then 0 else (r.cell i).signal.next

/-- To be told something leads to the duties that do it. -/
def tellTurn (r : Registry) : Command → Upshot
  | .create name => { more := [.make none name], after := r }
  | .derive on name =>
    { more := (r.named? on).toList.map fun i => .make (some i) name, after := r }
  | .share on name => { more := (r.named? on).toList.map fun i => .bind name i, after := r }
  | .dropName name =>
    { more := (r.named? name).toList.map fun i => .release i, after := r.unname name }
  | .cancel on => { more := (r.named? on).toList.map fun i => .task (.cancel i), after := r }
  | .listen on l => { more := (r.named? on).toList.map fun i => .attend i l, after := r }
  | .forget on id => { more := (r.named? on).toList.map fun i => .remove i id, after := r }
  | .guardWith on name l =>
    { more := (r.named? on).toList.flatMap fun i => [.attend i l, .setGuard name ⟨i, r.number i⟩]
      after := r }
  | .dropGuard name =>
    { more := (r.guards.get? name).toList.map fun g => .endGuard g, after := r.unguard name }

/-- A context that is derived from a cancelled one keeps no entry there. The cancellation is passed
on at once. -/
def makeTurn (r : Registry) (name : String) : Option ℕ → Upshot
  | none => { more := [.bind name r.cells.length], after := r.grow {} }
  | some i =>
    if r.isCancelled i then
      { events := [.called r.cells.length, .began r.cells.length, .ended r.cells.length]
        more := [.bind name r.cells.length]
        after := r.grow { signal := { cancelled := true }, origin := some i } }
    else
      { events := [.derived i (r.cell i).signal.next r.cells.length]
        more := [.bind name r.cells.length], after := r.sprout i }

/-- On a context that is cancelled a listener runs at once. -/
def attendTurn (r : Registry) (i : ℕ) (l : Listener) : Upshot :=
  if r.isCancelled i then
    { events := [.added i 0 l, .ran i 0 l]
      more := [.task (.run l), .returning i 0], after := r }
  else { events := [.added i (r.cell i).signal.next l], after := r.attach i (.listener l) }

/-- A context is cancelled once, and then all its entries are gone through. -/
def cancelTurn (r : Registry) (i : ℕ) : Upshot :=
  if r.isCancelled i then { events := [.called i], after := r }
  else
    { events := [.called i, .began i]
      more := (r.entries i).map (dutyOf i) ++ [.ending i], after := (r.shut i).detach i }

def taskTurn (r : Registry) : Task → Upshot
  | .cancel i => r.cancelTurn i
  | .cancelNamed name =>
    { events := (r.named? name).toList.map fun i => .asked i
      more := (r.named? name).toList.map fun i => .task (.cancel i), after := r }
  | .run l =>
    { events := noting l
      more := (r.perform (.run l)).1.map .task, after := (r.perform (.run l)).2 }
  | .add name l => { more := (r.named? name).toList.map fun i => .attend i l, after := r }

/-- Does one duty. -/
def turn (r : Registry) : Duty → Upshot
  | .told c => r.tellTurn c
  | .make origin name => r.makeTurn name origin
  | .bind name i =>
    { more := (r.named? name).toList.map fun j => .release j, after := r.rename name i }
  | .release i => { events := if r.isHeld i then [] else [.left i], after := r.release i }
  | .setGuard name g =>
    { more := (r.guards.get? name).toList.map fun g' => .endGuard g', after := r.reguard name g }
  | .endGuard g => { more := [.remove g.cell g.listener, .release g.cell], after := r }
  | .attend i l => r.attendTurn i l
  | .remove i id => { events := [.removed i id], after := r.forget i id }
  | .task t => r.taskTurn t
  | .start i id l =>
    { events := [.ran i id l], more := [.task (.run l), .returning i id], after := r }
  | .returning i id => { events := [.returned i id], after := r }
  | .ending i => { events := [.ended i], after := r }

theorem turn_cancel {r : Registry} {i : ℕ} (hlive : r.isCancelled i = false) :
    r.turn (.task (.cancel i)) = {
      events := [.called i, .began i]
      more := (r.entries i).map (dutyOf i) ++ [.ending i]
      after := (r.shut i).detach i } := by
  simp [turn, taskTurn, cancelTurn, hlive]

theorem turn_cancel_of_isCancelled {r : Registry} {i : ℕ} (h : r.isCancelled i = true) :
    r.turn (.task (.cancel i)) = { events := [.called i], after := r } := by
  simp [turn, taskTurn, cancelTurn, h]

theorem turn_make {r : Registry} {i : ℕ} (hlive : r.isCancelled i = false) (name : String) :
    r.turn (.make (some i) name) = {
      events := [.derived i (r.cell i).signal.next r.cells.length]
      more := [.bind name r.cells.length], after := r.sprout i } := by
  simp [turn, makeTurn, hlive]

theorem turn_make_of_isCancelled {r : Registry} {i : ℕ} (h : r.isCancelled i = true)
    (name : String) : r.turn (.make (some i) name) = {
      events := [.called r.cells.length, .began r.cells.length, .ended r.cells.length]
      more := [.bind name r.cells.length]
      after := r.grow { signal := { cancelled := true }, origin := some i } } := by
  simp [turn, makeTurn, h]

theorem turn_attend {r : Registry} {i : ℕ} (hlive : r.isCancelled i = false) (l : Listener) :
    r.turn (.attend i l) = {
      events := [.added i (r.cell i).signal.next l], after := r.attach i (.listener l) } := by
  simp [turn, attendTurn, hlive]

theorem turn_attend_of_isCancelled {r : Registry} {i : ℕ} (h : r.isCancelled i = true)
    (l : Listener) : r.turn (.attend i l) = {
      events := [.added i 0 l, .ran i 0 l]
      more := [.task (.run l), .returning i 0], after := r } := by
  simp [turn, attendTurn, h]

end Registry

/-! ### A bound on what duties can lead to -/

def Registry.Command.load : Registry.Command → ℕ
  | .create _ | .derive _ _ => 8
  | .share _ _ | .dropName _ | .forget _ _ => 3
  | .cancel _ | .dropGuard _ => 5
  | .listen _ l => 4 * l.load + 2
  | .guardWith _ _ l => 4 * l.load + 6

def Duty.load : Duty → ℕ
  | .told c => c.load
  | .make _ _ => 7
  | .bind _ _ => 2
  | .release _ | .remove _ _ | .returning _ _ | .ending _ => 1
  | .setGuard _ _ => 4
  | .endGuard _ => 3
  | .attend _ l => 4 * l.load + 1
  | .task (.run l) => 4 * l.load - 2
  | .task t => 4 * t.load
  | .start _ _ l => 4 * l.load

namespace Registry

variable {r : Registry} {ds ds' : List Duty} {d : Duty} {i : ℕ}

def dutyLoad (r : Registry) (ds : List Duty) : ℕ :=
  4 * r.weight + (ds.map Duty.load).sum

/-- Does at most `bound` duties, each with all that it leads to before the next: what happens, and
the registry at the end. -/
def proceedWithin : ℕ → List Duty → Registry → List Event × Registry
  | 0, _, r => ([], r)
  | _ + 1, [], r => ([], r)
  | bound + 1, d :: ds, r =>
    let rest := proceedWithin bound ((r.turn d).more ++ ds) (r.turn d).after
    ((r.turn d).events ++ rest.1, rest.2)

/-- What happens while all duties are done. -/
def course (r : Registry) (ds : List Duty) : List Event :=
  (proceedWithin (r.dutyLoad ds) ds r).1

/-- The registry when all duties are done. -/
def finish (r : Registry) (ds : List Duty) : Registry :=
  (proceedWithin (r.dutyLoad ds) ds r).2

theorem three_le_load (l : Listener) : 3 ≤ l.load := by
  induction l with
  | note => exact le_rfl
  | noteThen => rw [Listener.load]; omega
  | andThen first second ih => rw [Listener.load]; omega

theorem weight_congr {r' : Registry} (h : r'.cells = r.cells) : r'.weight = r.weight := by
  rw [weight, weight, h]

theorem weight_grow {c : Cell} (hc : c.signal.listeners = []) (r : Registry) :
    (r.grow c).weight = r.weight := by
  have hload : c.load = 0 := by rw [Cell.load, hc]; rfl
  simp [weight, grow, hload]

theorem weight_sprout_le (r : Registry) (i : ℕ) : (r.sprout i).weight ≤ r.weight + 1 := by
  rw [sprout, weight_grow rfl]
  exact weight_attach_le r i _

theorem weight_forget_le (r : Registry) (i id : ℕ) : (r.forget i id).weight ≤ r.weight := by
  refine weight_modifyCell_le fun c => ?_
  rw [Cell.load_eq, Cell.load_eq]
  exact (List.filter_sublist.map _).sum_le_sum fun _ _ => Nat.zero_le _

theorem weight_release_le (r : Registry) (i : ℕ) : (r.release i).weight ≤ r.weight := by
  rcases r.release_eq i with h | h <;> rw [h]
  exact weight_detach_le r i

theorem weight_cancel_add_le (r : Registry) (i : ℕ) : 4 * ((r.shut i).detach i).weight
    + (((r.entries i).map (dutyOf i)).map Duty.load).sum ≤ 4 * r.weight := by
  have hshut := weight_shut r i
  have hdetach := weight_detach_le (r.shut i) i
  have hduties : ((r.entries i).map (dutyOf i)).map Duty.load
      = ((r.entries i).map fun e => taskOf e.2).map fun t => 4 * t.load := by
    rw [List.map_map, List.map_map]
    exact List.map_congr_left fun e _ => by rcases e with ⟨n, l | c⟩ <;> rfl
  rw [hduties, List.sum_map_mul_left]
  omega

theorem sum_load_map_le {α : Type} (o : Option α) (f : α → Duty) {n : ℕ}
    (h : ∀ x, (f x).load ≤ n) : ((o.toList.map f).map Duty.load).sum ≤ n := by
  rcases o with _ | x
  · exact Nat.zero_le n
  · simpa using h x

theorem tellTurn_load (r : Registry) (c : Command) :
    (r.tellTurn c).after.dutyLoad (r.tellTurn c).more < 4 * r.weight + c.load := by
  cases c with
  | create name => simp [tellTurn, dutyLoad, Command.load, Duty.load]
  | derive on name =>
    have hmore := sum_load_map_le (n := 7) (r.named? on) (fun i => .make (some i) name)
      fun _ => le_rfl
    simp only [tellTurn, dutyLoad, Command.load]
    omega
  | share on name =>
    have hmore := sum_load_map_le (n := 2) (r.named? on) (fun i => .bind name i)
      fun _ => le_rfl
    simp only [tellTurn, dutyLoad, Command.load]
    omega
  | dropName name =>
    have hmore := sum_load_map_le (n := 1) (r.named? name) (fun i => .release i)
      fun _ => le_rfl
    have hweight : (r.unname name).weight = r.weight := weight_congr rfl
    simp only [tellTurn, dutyLoad, Command.load]
    omega
  | cancel on =>
    have hmore := sum_load_map_le (n := 4) (r.named? on) (fun i => .task (.cancel i))
      fun _ => le_rfl
    simp only [tellTurn, dutyLoad, Command.load]
    omega
  | listen on l =>
    have hmore := sum_load_map_le (n := 4 * l.load + 1) (r.named? on) (fun i => .attend i l)
      fun _ => le_rfl
    simp only [tellTurn, dutyLoad, Command.load]
    omega
  | forget on id =>
    have hmore := sum_load_map_le (n := 1) (r.named? on) (fun i => .remove i id)
      fun _ => le_rfl
    simp only [tellTurn, dutyLoad, Command.load]
    omega
  | guardWith on name l =>
    rcases hname : r.named? on <;> simp [tellTurn, dutyLoad, Command.load, Duty.load, hname]
  | dropGuard name =>
    have hmore := sum_load_map_le (n := 3) (r.guards.get? name) (fun g => .endGuard g)
      fun _ => le_rfl
    have hweight : (r.unguard name).weight = r.weight := weight_congr rfl
    simp only [tellTurn, dutyLoad, Command.load]
    omega

theorem makeTurn_load (r : Registry) (name : String) (origin : Option ℕ) :
    (r.makeTurn name origin).after.dutyLoad (r.makeTurn name origin).more < 4 * r.weight + 7 := by
  rcases origin with _ | i
  · have hweight := weight_grow (c := {}) rfl r
    simp only [makeTurn, dutyLoad, Duty.load, List.map_cons, List.map_nil, List.sum_cons,
      List.sum_nil]
    omega
  · have hsprout := weight_sprout_le r i
    simp only [makeTurn]
    split_ifs <;> simp only [dutyLoad, Duty.load, List.map_cons, List.map_nil, List.sum_cons,
      List.sum_nil]
    · rw [weight_grow rfl]
      omega
    · omega

theorem attendTurn_load (r : Registry) (i : ℕ) (l : Listener) :
    (r.attendTurn i l).after.dutyLoad (r.attendTurn i l).more
      < 4 * r.weight + (4 * l.load + 1) := by
  have hattach := weight_attach_le r i (.listener l)
  have hload := three_le_load l
  unfold attendTurn
  split_ifs <;> simp only [dutyLoad, Duty.load, List.map_cons, List.map_nil, List.sum_cons,
    List.sum_nil]
  · omega
  · rw [Entry.load] at hattach
    omega

theorem cancelTurn_load (r : Registry) (i : ℕ) :
    (r.cancelTurn i).after.dutyLoad (r.cancelTurn i).more < 4 * r.weight + 4 := by
  unfold cancelTurn
  split_ifs
  · simp [dutyLoad]
  · have hcancel := weight_cancel_add_le r i
    simp only [dutyLoad, Duty.load, List.map_append, List.sum_append, List.map_cons,
      List.map_nil, List.sum_cons, List.sum_nil]
    omega

theorem sum_load_named_le (cancels : Option String) :
    (((cancels.map Task.cancelNamed).toList.map Duty.task).map Duty.load).sum ≤ 8 := by
  cases cancels <;> simp [Duty.load, Task.load]

theorem taskTurn_load (r : Registry) (t : Task) :
    (r.taskTurn t).after.dutyLoad (r.taskTurn t).more < 4 * r.weight + (Duty.task t).load := by
  match t with
  | .cancel i => exact cancelTurn_load r i
  | .cancelNamed name =>
    have hmore := sum_load_map_le (n := 4) (r.named? name) (fun i => .task (.cancel i))
      fun _ => le_rfl
    simp only [taskTurn, dutyLoad, Duty.load, Task.load] at hmore ⊢
    omega
  | .run (.note label cancels) =>
    have hnamed := sum_load_named_le cancels
    have hweight : ({ r with fired := r.fired ++ [label] } : Registry).weight = r.weight := rfl
    simp only [taskTurn, perform, dutyLoad, Duty.load, Listener.load]
    omega
  | .run (.noteThen label cancels on following) =>
    have hnamed := sum_load_named_le cancels
    have hweight : ({ r with fired := r.fired ++ [label] } : Registry).weight = r.weight := rfl
    simp only [taskTurn, perform, dutyLoad, List.map_append, List.sum_append, List.map_cons,
      List.map_nil, List.sum_cons, List.sum_nil]
    simp only [Duty.load, Task.load, Listener.load]
    omega
  | .run (.andThen first second) =>
    have hfirst := three_le_load first
    have hsecond := three_le_load second
    simp only [taskTurn, perform, dutyLoad, Duty.load, Listener.load, List.map_cons, List.map_nil,
      List.sum_cons, List.sum_nil]
    omega
  | .add name l =>
    have hmore := sum_load_map_le (n := 4 * l.load + 1) (r.named? name) (fun i => .attend i l)
      fun _ => le_rfl
    simp only [taskTurn, dutyLoad, Duty.load, Task.load] at hmore ⊢
    omega

/-- What a duty leads to is less than the duty was. -/
theorem turn_load (r : Registry) (d : Duty) :
    (r.turn d).after.dutyLoad (r.turn d).more < 4 * r.weight + d.load := by
  cases d with
  | told c => exact tellTurn_load r c
  | make origin name => exact makeTurn_load r name origin
  | bind name i =>
    have hmore := sum_load_map_le (n := 1) (r.named? name) (fun j => .release j)
      fun _ => le_rfl
    have hweight : (r.rename name i).weight = r.weight := weight_congr rfl
    simp only [turn, dutyLoad, Duty.load] at hmore ⊢
    omega
  | release i =>
    have hrelease := weight_release_le r i
    simp only [turn, dutyLoad, Duty.load, List.map_nil, List.sum_nil]
    omega
  | setGuard name g =>
    have hmore := sum_load_map_le (n := 3) (r.guards.get? name) (fun g' => .endGuard g')
      fun _ => le_rfl
    have hweight : (r.reguard name g).weight = r.weight := weight_congr rfl
    simp only [turn, dutyLoad, Duty.load] at hmore ⊢
    omega
  | endGuard g => simp [turn, dutyLoad, Duty.load]
  | attend i l => exact attendTurn_load r i l
  | remove i id =>
    have hforget := weight_forget_le r i id
    simp only [turn, dutyLoad, Duty.load, List.map_nil, List.sum_nil]
    omega
  | task t => exact taskTurn_load r t
  | start i id l =>
    have hload := three_le_load l
    simp only [turn, dutyLoad, Duty.load, List.map_cons, List.map_nil, List.sum_cons, List.sum_nil]
    omega
  | returning i id => simp [turn, dutyLoad, Duty.load]
  | ending i => simp [turn, dutyLoad, Duty.load]

theorem dutyLoad_turn (r : Registry) (d : Duty) (ds : List Duty) :
    (r.turn d).after.dutyLoad ((r.turn d).more ++ ds) < r.dutyLoad (d :: ds) := by
  have h := turn_load r d
  simp only [dutyLoad, List.map_append, List.sum_append, List.map_cons, List.sum_cons] at h ⊢
  omega

/-- No bound that is large enough ends the work early. -/
theorem proceedWithin_of_le {bound : ℕ} (h : r.dutyLoad ds ≤ bound) :
    proceedWithin bound ds r = (r.course ds, r.finish ds) := by
  have henough : ∀ b b' ds r, dutyLoad r ds ≤ b → dutyLoad r ds ≤ b' →
      proceedWithin b ds r = proceedWithin b' ds r := by
    intro b
    induction b with
    | zero =>
      intro b' ds r hb hb'
      cases ds with
      | nil => cases b' <;> rfl
      | cons d ds => exact absurd (dutyLoad_turn r d ds) (by omega)
    | succ b ih =>
      intro b' ds r hb hb'
      cases ds with
      | nil => cases b' <;> rfl
      | cons d ds =>
        have hless := dutyLoad_turn r d ds
        cases b' with
        | zero => omega
        | succ b' => rw [proceedWithin, proceedWithin, ih b' _ _ (by omega) (by omega)]
  exact henough _ _ _ _ h le_rfl

@[simp] theorem course_nil (r : Registry) : r.course [] = [] := by
  unfold course
  cases r.dutyLoad [] <;> rfl

@[simp] theorem finish_nil (r : Registry) : r.finish [] = r := by
  unfold finish
  cases r.dutyLoad [] <;> rfl

theorem proceed_cons (r : Registry) (d : Duty) (ds : List Duty) :
    r.course (d :: ds) = (r.turn d).events ++ (r.turn d).after.course ((r.turn d).more ++ ds)
      ∧ r.finish (d :: ds) = (r.turn d).after.finish ((r.turn d).more ++ ds) := by
  have hless := dutyLoad_turn r d ds
  have hsucc := proceedWithin_of_le (Nat.le_succ (r.dutyLoad (d :: ds)))
  rw [proceedWithin, proceedWithin_of_le hless.le] at hsucc
  exact ⟨(congrArg Prod.fst hsucc).symm, (congrArg Prod.snd hsucc).symm⟩

theorem course_cons (r : Registry) (d : Duty) (ds : List Duty) : r.course (d :: ds)
    = (r.turn d).events ++ (r.turn d).after.course ((r.turn d).more ++ ds) :=
  (proceed_cons r d ds).1

theorem finish_cons (r : Registry) (d : Duty) (ds : List Duty) :
    r.finish (d :: ds) = (r.turn d).after.finish ((r.turn d).more ++ ds) :=
  (proceed_cons r d ds).2

/-- What holds when nothing is left to do, and before a duty if after it, holds always. -/
theorem course_induction {P : Registry → List Duty → Prop} (nil : ∀ r, P r [])
    (cons : ∀ r d ds, P (r.turn d).after ((r.turn d).more ++ ds) → P r (d :: ds)) (r : Registry)
    (ds : List Duty) : P r ds := by
  induction hload : r.dutyLoad ds using Nat.strong_induction_on generalizing r ds with
  | _ n ih =>
    cases ds with
    | nil => exact nil r
    | cons d ds =>
      subst hload
      exact cons r d ds (ih _ (dutyLoad_turn r d ds) _ _ rfl)

/-- What each duty keeps, with what has happened and what it leaves to do, is kept until some of the
duties are done. -/
theorem course_preserves {P : List Event → List Duty → Registry → Prop}
    (step : ∀ es d ds r, P es (d :: ds) r →
      P (es ++ (r.turn d).events) ((r.turn d).more ++ ds) (r.turn d).after)
    {es : List Event} (h : P es (ds ++ ds') r) : P (es ++ r.course ds) ds' (r.finish ds) := by
  induction r, ds using course_induction generalizing es with
  | nil r => simpa using h
  | cons r d ds ih =>
    have hturn := step es d (ds ++ ds') r h
    rw [← List.append_assoc] at hturn
    rw [course_cons, finish_cons, ← List.append_assoc]
    exact ih hturn

/-- Each duty is done with all that it leads to before the next. -/
theorem proceed_append (r : Registry) (ds ds' : List Duty) :
    r.course (ds ++ ds') = r.course ds ++ (r.finish ds).course ds'
      ∧ r.finish (ds ++ ds') = (r.finish ds).finish ds' := by
  induction r, ds using course_induction with
  | nil r => simp
  | cons r d ds ih =>
    rw [List.append_assoc] at ih
    rw [List.cons_append, course_cons r d ds, finish_cons r d ds, course_cons r d (ds ++ ds'),
      finish_cons r d (ds ++ ds'), ih.1, ih.2, List.append_assoc]
    exact ⟨rfl, rfl⟩

theorem course_append (r : Registry) (ds ds' : List Duty) :
    r.course (ds ++ ds') = r.course ds ++ (r.finish ds).course ds' :=
  (proceed_append r ds ds').1

theorem finish_append (r : Registry) (ds ds' : List Duty) :
    r.finish (ds ++ ds') = (r.finish ds).finish ds' :=
  (proceed_append r ds ds').2

/-! ### The registry at the end -/

theorem settle_cons (r : Registry) (t : Task) (ts : List Task) :
    r.settle (t :: ts) = (r.perform t).2.settle ((r.perform t).1 ++ ts) := by
  have henough : ∀ b b' ts r, load r ts ≤ b → load r ts ≤ b' →
      settleWithin b ts r = settleWithin b' ts r := by
    intro b
    induction b with
    | zero =>
      intro b' ts r hb hb'
      cases ts with
      | nil => cases b' <;> rfl
      | cons t ts => exact absurd (load_perform r t ts) (by omega)
    | succ b ih =>
      intro b' ts r hb hb'
      cases ts with
      | nil => cases b' <;> rfl
      | cons t ts =>
        have hless := load_perform r t ts
        cases b' with
        | zero => omega
        | succ b' =>
          exact ih b' ((r.perform t).1 ++ ts) (r.perform t).2 (by omega) (by omega)
  have hless := load_perform r t ts
  exact (henough _ _ _ _ le_rfl (Nat.le_succ _)).trans (henough _ _ _ _ hless.le le_rfl)

@[simp] theorem settle_nil (r : Registry) : r.settle [] = r := by
  unfold settle
  cases r.load [] <;> rfl

theorem finish_returning (r : Registry) (i id : ℕ) (ds : List Duty) :
    r.finish (.returning i id :: ds) = r.finish ds :=
  finish_cons r _ ds

theorem finish_ending (r : Registry) (i : ℕ) (ds : List Duty) :
    r.finish (.ending i :: ds) = r.finish ds :=
  finish_cons r _ ds

theorem finish_start (r : Registry) (i id : ℕ) (l : Listener) (ds : List Duty) :
    r.finish (.start i id l :: ds) = r.finish (.task (.run l) :: ds) := by
  have hrun : ∀ ds, r.finish (.task (.run l) :: ds) = (r.finish [.task (.run l)]).finish ds :=
    fun ds => finish_append r [_] ds
  rw [finish_cons]
  exact (hrun _).trans ((finish_returning ..).trans (hrun ds).symm)

theorem finish_map_dutyOf (r : Registry) (i : ℕ) (xs : List (ℕ × Entry)) (ds : List Duty) :
    r.finish (xs.map (dutyOf i) ++ ds)
      = r.finish ((xs.map fun e => taskOf e.2).map .task ++ ds) := by
  induction xs generalizing r with
  | nil => rfl
  | cons x xs ih =>
    have hhead : r.finish (dutyOf i x :: (xs.map (dutyOf i) ++ ds))
        = r.finish (.task (taskOf x.2) :: (xs.map (dutyOf i) ++ ds)) := by
      rcases x with ⟨id, l | c⟩
      · exact finish_start ..
      · rfl
    refine hhead.trans ?_
    have htail := ih (r.finish [.task (taskOf x.2)])
    rw [← finish_append, ← finish_append] at htail
    exact htail

theorem finish_task (r : Registry) (t : Task) (ds : List Duty) : r.finish (.task t :: ds)
    = (r.perform t).2.finish ((r.perform t).1.map .task ++ ds) := by
  rw [finish_cons]
  cases t with
  | cancel i =>
    cases hlive : r.isCancelled i with
    | true =>
      rw [turn_cancel_of_isCancelled hlive, perform_cancel_of_isCancelled hlive, List.map_nil]
    | false =>
      rw [turn_cancel hlive, perform_cancel hlive, List.append_assoc, finish_map_dutyOf,
        finish_append, List.singleton_append, finish_ending, ← finish_append]
  | cancelNamed name => rcases hname : r.named? name <;> simp [turn, taskTurn, perform, hname]
  | run l => rfl
  | add name l =>
    rcases hname : r.named? name with _ | i
    · simp [turn, taskTurn, hname, perform_add_of_not_named hname]
    · have hturn : r.turn (.task (.add name l)) = { more := [.attend i l], after := r } := by
        simp [turn, taskTurn, hname]
      rw [hturn, List.singleton_append, finish_cons]
      cases hlive : r.isCancelled i with
      | false =>
        rw [perform_add_of_live hname hlive, turn_attend hlive]
        rfl
      | true =>
        rw [perform_add_of_isCancelled hname hlive, turn_attend_of_isCancelled hlive]
        have hrun := finish_start r i 0 l ds
        rw [finish_cons] at hrun
        exact hrun

theorem finish_tasks (r : Registry) (ts : List Task) (ds : List Duty) :
    r.finish (ts.map .task ++ ds) = (r.settle ts).finish ds := by
  induction hload : r.load ts using Nat.strong_induction_on generalizing r ts with
  | _ n ih =>
    subst hload
    cases ts with
    | nil => simp
    | cons t ts =>
      rw [List.map_cons, List.cons_append, finish_task, settle_cons, ← List.append_assoc,
        ← List.map_append]
      exact ih _ (load_perform r t ts) _ _ rfl

theorem listen_fst (r : Registry) (i : ℕ) (l : Listener) : (r.listen i l).1 = r.number i := by
  rw [listen, number]
  split_ifs with hi
  · rfl
  · rw [Signal.listen_of_live (Bool.eq_false_of_not_eq_true hi)]

theorem finish_release (r : Registry) (i : ℕ) (ds : List Duty) :
    r.finish (.release i :: ds) = (r.release i).finish ds :=
  finish_cons r _ ds

theorem finish_remove (r : Registry) (i id : ℕ) (ds : List Duty) :
    r.finish (.remove i id :: ds) = (r.forget i id).finish ds :=
  finish_cons r _ ds

theorem finish_endGuard (r : Registry) (g : Guard) (ds : List Duty) :
    r.finish (.endGuard g :: ds) = (r.endGuard g).finish ds := by
  rw [finish_cons]
  exact (finish_remove ..).trans (finish_release ..)

theorem finish_bind (r : Registry) (name : String) (i : ℕ) (ds : List Duty) :
    r.finish (.bind name i :: ds) = (r.bindName name i).finish ds := by
  rw [finish_cons, bindName_eq]
  rcases hname : r.named? name with _ | j
  · simp [turn, hname]
  · simpa [turn, hname] using finish_release (r.rename name i) j ds

theorem finish_setGuard (r : Registry) (name : String) (g : Guard) (ds : List Duty) :
    r.finish (.setGuard name g :: ds) = (r.setGuard name g).finish ds := by
  rw [finish_cons, setGuard]
  rcases hname : r.guards.get? name with _ | g'
  · simp [turn, hname]
  · simpa [turn, hname] using finish_endGuard (r.reguard name g) g' ds

theorem finish_attend (r : Registry) (i : ℕ) (l : Listener) (ds : List Duty) :
    r.finish (.attend i l :: ds) = (r.listen i l).2.finish ds := by
  cases hlive : r.isCancelled i with
  | false =>
    rw [finish_cons, listen_of_live hlive, turn_attend hlive]
    rfl
  | true =>
    have hrun := (finish_start r i 0 l ds).trans (finish_tasks r [.run l] ds)
    rw [finish_cons] at hrun ⊢
    rw [turn_attend_of_isCancelled hlive, listen, if_pos hlive]
    exact hrun

theorem finish_make (r : Registry) (i : ℕ) (name : String) (ds : List Duty) :
    r.finish (.make (some i) name :: ds) = (r.derive i name).finish ds := by
  cases hlive : r.isCancelled i with
  | true =>
    rw [derive_of_isCancelled hlive, ← finish_bind, finish_cons, turn_make_of_isCancelled hlive]
    rfl
  | false =>
    rw [derive_of_live hlive, ← finish_bind, finish_cons, turn_make hlive]
    rfl

/-- A command that is told does what it does when it is obeyed. -/
theorem finish_told (r : Registry) (c : Command) (ds : List Duty) :
    r.finish (.told c :: ds) = (r.obey c).2.finish ds := by
  rw [finish_cons]
  cases c with
  | create name =>
    refine (finish_cons r (.make none name) ds).trans ?_
    exact finish_bind (r.grow {}) name r.cells.length ds
  | derive on name =>
    rcases hname : r.named? on with _ | i
    · simp [turn, tellTurn, obey, hname]
    · simpa [turn, tellTurn, obey, hname] using finish_make r i name ds
  | share on name =>
    rcases hname : r.named? on with _ | i
    · simp [turn, tellTurn, obey, hname]
    · simpa [turn, tellTurn, obey, share, hname] using finish_bind r name i ds
  | dropName name =>
    rcases hname : r.named? name with _ | i
    · simp [turn, tellTurn, obey, dropName, hname, unname_of_not_named hname]
    · simpa [turn, tellTurn, obey, dropName, hname, unname] using
        finish_release (r.unname name) i ds
  | cancel on =>
    rcases hname : r.named? on with _ | i
    · simp [turn, tellTurn, obey, hname]
    · simpa [turn, tellTurn, obey, cancel, hname] using finish_tasks r [.cancel i] ds
  | listen on l =>
    rcases hname : r.named? on with _ | i
    · simp [turn, tellTurn, obey, hname]
    · simpa [turn, tellTurn, obey, hname] using finish_attend r i l ds
  | forget on id =>
    rcases hname : r.named? on with _ | i
    · simp [turn, tellTurn, obey, hname]
    · simpa [turn, tellTurn, obey, hname] using finish_remove r i id ds
  | guardWith on name l =>
    rcases hname : r.named? on with _ | i
    · simp [turn, tellTurn, obey, hname]
    · have hset := (finish_attend r i l (.setGuard name ⟨i, (r.listen i l).1⟩ :: ds)).trans
        (finish_setGuard ..)
      rw [← guardWith_eq, listen_fst] at hset
      simpa [turn, tellTurn, obey, hname] using hset
  | dropGuard name =>
    rcases hname : r.guards.get? name with _ | g
    · simp [turn, tellTurn, obey, dropGuard, hname, unguard_of_not_guard hname]
    · simpa [turn, tellTurn, obey, dropGuard, hname, unguard] using
        finish_endGuard (r.unguard name) g ds

/-- The registry after commands, from one that is empty. -/
def after (cs : List Command) : Registry :=
  cs.foldl (fun r c => (r.obey c).2) {}

/-- What happens when commands are told to an empty registry. -/
def history (cs : List Command) : List Event :=
  ({} : Registry).course (cs.map .told)

theorem finish_map_told (cs : List Command) : ({} : Registry).finish (cs.map .told) = after cs := by
  have hfrom : ∀ r : Registry, r.finish (cs.map .told) = cs.foldl (fun r c => (r.obey c).2) r := by
    induction cs with
    | nil => exact finish_nil
    | cons c cs ih => exact fun r => (finish_told r c _).trans (ih _)
  exact hfrom {}

/-- Further commands add to what happened. -/
theorem history_append (cs cs' : List Command) :
    history (cs ++ cs') = history cs ++ (after cs).course (cs'.map .told) := by
  rw [history, List.map_append, course_append, finish_map_told, history]

end Registry

end Signal

end Ingest

import Ingest.Proofs.Pipeline.Success
import Ingest.Proofs.Pipeline.Faithful

/-!
# The listeners of a run

The batch listens to the caller's context from its start to its stop, the cursor while a call waits,
and each courier while it waits for a payload (`Run.listeners`). A step of any of them leaves the
context alone, or adds a listener that is then kept, or takes out one that was (`Signal.Turn`). So at
every moment a listener of the context either was there before the run or is kept by one of its
threads (`Signal.Hosts`), and a run that has returned keeps none.
-/

namespace Ingest

namespace Signal

variable {α : Type}

/-- Listeners have numbers that were given out, and a cancelled signal has none. -/
structure Sound (g : Signal α) : Prop where
  numbered : ∀ l ∈ g.listeners, l.1 < g.next
  silent : g.cancelled = true → g.listeners = []

/-- A context that comes into being has no listeners. -/
theorem sound_new : Sound ({} : Signal α) :=
  ⟨by simp, by simp⟩

/-- What one step makes of a signal, and of the numbers that those keep who take the step. -/
inductive Turn (own : List ℕ) (g : Signal α) (own' : List ℕ) : Signal α → Prop
  | keep (h : own'.Perm own) : Turn own g own' g
  | listen (x : α) (h : own'.Perm (own ++ [(g.listen x).1])) : Turn own g own' (g.listen x).2
  | forget {i : ℕ} (h : own.Perm (i :: own')) : Turn own g own' (g.forget i)
  | cancel (h : own'.Perm own) : Turn own g own' g.cancel.2

/-- The listeners are those that the signal had when it was `g₀`, and some that are kept. -/
structure Hosts (g₀ : Signal α) (own : List ℕ) (g : Signal α) : Prop where
  before : g.listeners.filter (·.1 < g₀.next) = g₀.listeners
  kept : ∀ l ∈ g.listeners, g₀.next ≤ l.1 → l.1 ∈ own
  fresh : ∀ id ∈ own, g₀.next ≤ id
  next : g₀.next ≤ g.next

variable {g₀ g g' : Signal α} {own own' : List ℕ}

theorem Sound.hosts (h : g.Sound) : Hosts g [] g := by
  refine ⟨?_, fun l hl hle => ?_, by simp, le_rfl⟩
  · exact List.filter_eq_self.mpr fun l hl => decide_eq_true (h.numbered l hl)
  · have := h.numbered l hl
    omega

namespace Turn

theorem sound (h : Turn own g own' g') (hg : g.Sound) : g'.Sound := by
  cases h with
  | keep => exact hg
  | listen x =>
    unfold Signal.listen
    split_ifs with hc
    · exact hg
    · refine ⟨fun l hl => ?_, fun h => absurd h hc⟩
      rcases List.mem_append.mp hl with hl | hl
      · exact Nat.lt_succ_of_lt (hg.numbered l hl)
      · rw [List.mem_singleton.mp hl]
        exact Nat.lt_succ_self _
  | forget =>
    refine ⟨fun l hl => hg.numbered l (List.mem_of_mem_filter hl), fun hc => ?_⟩
    show g.listeners.filter _ = []
    rw [hg.silent hc, List.filter_nil]
  | cancel =>
    unfold Signal.cancel
    split_ifs with hc
    · exact hg
    · exact ⟨by simp, fun _ => rfl⟩

/-- What others keep does not matter. -/
theorem append_right (h : Turn own g own' g') (rest : List ℕ) :
    Turn (own ++ rest) g (own' ++ rest) g' := by
  cases h with
  | keep hperm => exact .keep (hperm.append_right rest)
  | listen x hperm =>
    refine .listen x ((hperm.append_right rest).trans ?_)
    rw [List.append_assoc, List.append_assoc]
    exact List.perm_append_comm.append_left own
  | forget hperm => exact .forget (hperm.append_right rest)
  | cancel hperm => exact .cancel (hperm.append_right rest)

theorem append_left (h : Turn own g own' g') (rest : List ℕ) :
    Turn (rest ++ own) g (rest ++ own') g' := by
  cases h with
  | keep hperm => exact .keep (hperm.append_left rest)
  | listen x hperm => exact .listen x (List.append_assoc .. ▸ hperm.append_left rest)
  | forget hperm => exact .forget ((hperm.append_left rest).trans List.perm_middle)
  | cancel hperm => exact .cancel (hperm.append_left rest)

/-- A cancellation is for good. -/
theorem open_of_open (h : Turn own g own' g') (hopen : g'.cancelled = false) :
    g.cancelled = false := by
  cases h with
  | keep => exact hopen
  | listen x =>
    unfold Signal.listen at hopen
    split_ifs at hopen with hc
    · exact hopen
    · simpa using hc
  | forget => exact hopen
  | cancel =>
    unfold Signal.cancel at hopen
    split_ifs at hopen with hc
    · exact hopen

/-- As long as the signal is not cancelled, every listener is one from before or kept. -/
theorem hosts (h : Turn own g own' g') (hopen : g'.cancelled = false) (hg : Hosts g₀ own g) :
    Hosts g₀ own' g' := by
  have hbefore := h.open_of_open hopen
  cases h with
  | keep hperm =>
    exact ⟨hg.before, fun l hl hle => hperm.mem_iff.mpr (hg.kept l hl hle),
      fun id hid => hg.fresh id (hperm.mem_iff.mp hid), hg.next⟩
  | listen x hperm =>
    simp only [Signal.listen, hbefore, Bool.false_eq_true, if_false] at hperm ⊢
    refine ⟨?_, fun l hl hle => ?_, fun id hid => ?_, Nat.le_succ_of_le hg.next⟩
    · rw [List.filter_append, hg.before, List.filter_singleton]
      simp [Nat.not_lt.mpr hg.next]
    · rw [hperm.mem_iff]
      rcases List.mem_append.mp hl with hl | hl
      · exact List.mem_append_left _ (hg.kept l hl hle)
      · rw [List.mem_singleton.mp hl]
        exact List.mem_append_right _ (List.mem_singleton_self _)
    · rcases List.mem_append.mp (hperm.mem_iff.mp hid) with hid | hid
      · exact hg.fresh id hid
      · rw [List.mem_singleton.mp hid]
        exact hg.next
  | @forget id hperm =>
    have hid : g₀.next ≤ id := hg.fresh id (hperm.mem_iff.mpr List.mem_cons_self)
    refine ⟨?_, fun l hl hle => ?_, fun i hi => ?_, hg.next⟩
    · show (g.listeners.filter _).filter _ = g₀.listeners
      rw [← hg.before, List.filter_filter]
      refine List.filter_congr fun l _ => ?_
      by_cases hl : l.1 < g₀.next
      · simp [hl, show l.1 ≠ id by omega]
      · simp [hl]
    · obtain ⟨hl, hne⟩ := List.mem_filter.mp hl
      rcases List.mem_cons.mp (hperm.mem_iff.mp (hg.kept l hl hle)) with heq | hmem
      · simp [heq] at hne
      · exact hmem
    · exact hg.fresh i (hperm.mem_iff.mpr (List.mem_cons_of_mem _ hi))
  | cancel =>
    unfold Signal.cancel at hopen
    rw [if_neg (by simp [hbefore])] at hopen
    cases hopen

end Turn

/-- If nothing is kept, only the listeners from before are left. -/
theorem Hosts.listeners (h : Hosts g₀ [] g) : g.listeners = g₀.listeners := by
  rw [← h.before, eq_comm]
  refine List.filter_eq_self.mpr fun l hl => decide_eq_true ?_
  by_contra hle
  cases h.kept l hl (Nat.not_lt.mp hle)

end Signal

namespace Pipeline

variable {σ : Type}

namespace Shared

variable (s : Shared σ)

theorem signal_listen (context : String) (w : Waker) :
    (s.listen context w).2.signal context = ((s.signal context).listen w).2 := by
  simp [listen, signal_setSignal]

theorem signal_forget (context : String) (id : ℕ) :
    (s.forget context id).signal context = (s.signal context).forget id := by
  simp [forget, signal_setSignal]

end Shared

/-! ### What the threads keep -/

/-- What the call of a cursor keeps. -/
def Cursor.Phase.listeners : Cursor.Phase → List ℕ
  | .waiting _ l | .leaving _ l _ => [l]
  | _ => []

/-- The context that the call of a cursor has to do with. -/
def Cursor.Phase.context? : Cursor.Phase → Option String
  | .starting context | .entering context | .waiting context _ | .leaving context _ _ => some context
  | .resting | .joining => none

/-- What a cursor keeps: the link of its batch until it is closed, and the listener of a call. -/
def Cursor.listeners (c : Cursor) : List ℕ :=
  (if c.closed then [] else c.batch.toList.map Batch.link) ++ c.phase.listeners

/-- What a courier keeps. -/
def Courier.listeners : Courier → List ℕ
  | .waiting l | .holding l _ => [l]
  | _ => []

def Run.listeners (r : Run) : List ℕ :=
  r.cursor.listeners ++ r.delivery.couriers.flatMap Courier.listeners

namespace Cursor

variable {sv : Services σ} {c c' : Cursor} {s s' : Shared σ} {context : String}

/-- The cursor has to do with one context only. -/
structure Under (context : String) (c : Cursor) : Prop where
  call : ∀ other ∈ c.phase.context?, other = context
  caller : ∀ b ∈ c.batch, b.caller = context

theorem conclude_frame (c : Cursor) (rs : Registers) (r : Received Fetched) :
    (c.conclude rs r).phase = c.phase ∧ (c.conclude rs r).closed = c.closed
      ∧ (c.conclude rs r).batch = c.batch := by
  unfold conclude
  split_ifs
  · exact ⟨rfl, rfl, rfl⟩
  cases r with
  | closed => cases h : rs.error? c.slot <;> simp
  | _ => exact ⟨rfl, rfl, rfl⟩

theorem Calls.listening (h : Calls c s c' s') (hsound : c.Sound) (hunder : c.Under context) :
    c'.Under context
      ∧ Signal.Turn c.listeners (s.signal context) c'.listeners (s'.signal context) := by
  have hcall := hunder.call
  cases h with
  | start hp =>
    rw [hp] at hcall
    obtain rfl := hcall _ rfl
    have hstate := hsound.phase
    rw [hp] at hstate
    have hnone : c.batch = none := by
      simpa only [State.Fits, show c.state = .unstarted from hstate] using hsound.state
    have hopen := hsound.open_of_phase (by simp [hp]) (by simp [hp])
    refine ⟨⟨by simp [Phase.context?], by simp [Batch.start]⟩, ?_⟩
    simp only [Batch.start, Shared.signal_listen]
    refine .listen Waker.batch ?_
    simp [listeners, hp, hnone, hopen, Phase.listeners, Shared.listen]
  | enter hp =>
    rw [hp] at hcall
    obtain rfl := hcall _ rfl
    refine ⟨⟨by simp [Phase.context?], hunder.caller⟩, ?_⟩
    rw [Shared.signal_listen]
    refine .listen Waker.receiver ?_
    simp [listeners, hp, Phase.listeners, Shared.listen]
  | cancelled hp | close hp =>
    rw [hp] at hcall
    refine ⟨⟨hcall, hunder.caller⟩, .keep ?_⟩
    simp [listeners, hp, Phase.listeners]
  | @receive _ _ b _ _ hp hb =>
    rw [hp] at hcall
    refine ⟨⟨hcall, ?_⟩, .keep ?_⟩
    · rintro _ ⟨⟩
      exact hunder.caller b hb
    · simp [listeners, hp, hb, Phase.listeners]
  | @conclude other listener r hp =>
    rw [hp] at hcall
    obtain rfl := hcall _ rfl
    obtain ⟨hphase, hclosed, hbatch⟩ := conclude_frame { c with phase := .resting } s.registers r
    refine ⟨⟨?_, ?_⟩, ?_⟩
    · simp [hphase, Phase.context?]
    · rw [hbatch]
      exact hunder.caller
    · rw [Shared.signal_forget]
      refine .forget (i := listener) ?_
      simp only [listeners, hphase, hclosed, hbatch, hp, Phase.listeners, List.append_nil]
      exact List.perm_append_singleton _ _
  | join hp =>
    refine ⟨⟨by simp [Phase.context?], hunder.caller⟩, .keep ?_⟩
    simp [listeners, hp, Phase.listeners]

theorem stepWorker?_listening {k : ℕ} (h : c.stepWorker? sv k s = some (c', s'))
    (hunder : c.Under context) :
    c'.Under context ∧ c'.closed = c.closed
      ∧ Signal.Turn c.listeners (s.signal context) c'.listeners (s'.signal context) := by
  obtain ⟨b, b', hb, hstep, rfl⟩ := stepWorker?_cases h
  obtain ⟨w, w', b₁, -, hworks, rfl, -⟩ := Batch.step?_cases hstep
  obtain ⟨-, -, hcaller, -, hlink, -⟩ := hworks.frame
  refine ⟨⟨hunder.call, ?_⟩, rfl, ?_⟩
  · rintro _ ⟨⟩
    exact hcaller.trans (hunder.caller b hb)
  · have hsignal : s'.signal context = s.signal context := by cases hworks <;> rfl
    rw [hsignal]
    exact .keep (by simp [listeners, hb, hlink])

theorem heed?_listening (h : c.heed? s = some c') (hunder : c.Under context) :
    c'.Under context ∧ c'.closed = c.closed
      ∧ Signal.Turn c.listeners (s.signal context) c'.listeners (s.signal context) := by
  obtain ⟨b, hb, -, rfl⟩ := heed?_cases h
  refine ⟨⟨hunder.call, ?_⟩, rfl, .keep (by simp [listeners, hb])⟩
  rintro _ ⟨⟩
  exact hunder.caller b hb

/-- A call that begins has not listened yet. -/
theorem advance_listening (hrest : c.phase = .resting) (hunder : c.Under context) (s : Shared σ) :
    (c.advance context s).Under context ∧ Signal.Turn c.listeners (s.signal context)
      (c.advance context s).listeners (s.signal context) := by
  rcases c.advance_cases context s with ⟨-, heq⟩ | ⟨-, -, heq⟩ | ⟨-, -, -, heq⟩ | ⟨-, -, heq⟩ <;>
    rw [heq]
  · exact ⟨⟨hunder.call, hunder.caller⟩, .keep (.refl _)⟩
  · exact ⟨⟨hunder.call, hunder.caller⟩, .keep (.refl _)⟩
  all_goals
    refine ⟨⟨?_, hunder.caller⟩, .keep (by simp [listeners, hrest, Phase.listeners])⟩
    simp [Phase.context?]

/-- The batch is stopped by the first call for the end, which takes its link out. -/
theorem close_listening (hrest : c.phase = .resting) (hunder : c.Under context) (s : Shared σ) :
    (c.close s).1.Under context ∧ (c.close s).1.closed = true
      ∧ Signal.Turn c.listeners (s.signal context) (c.close s).1.listeners
        ((c.close s).2.signal context) := by
  by_cases hclosed : c.closed = true
  · rw [close, if_pos hclosed]
    exact ⟨hunder, hclosed, .keep (.refl _)⟩
  rcases c.close_cases s with ⟨hclosed', -⟩ | ⟨hnone, heq⟩ | ⟨b, hb, heq⟩
  · exact absurd hclosed' hclosed
  · rw [heq]
    refine ⟨⟨hunder.call, hunder.caller⟩, rfl, .keep ?_⟩
    simp [listeners, hnone]
  · obtain rfl := hunder.caller b hb
    rw [heq]
    refine ⟨⟨by simp [Phase.context?], ?_⟩, rfl, ?_⟩
    · rintro _ ⟨⟩
      rfl
    · rw [Shared.signal_forget]
      refine .forget (i := b.link) ?_
      simp [listeners, hclosed, hb, hrest, Phase.listeners]

end Cursor

/-- What the changed element held is exchanged for what the new one holds. -/
theorem perm_flatMap_set {α β : Type} [DecidableEq β] {xs : List α} {k : ℕ} {a b : α}
    (f : α → List β) (h : xs[k]? = some a) :
    ((xs.set k b).flatMap f ++ f a).Perm (xs.flatMap f ++ f b) := by
  rw [List.perm_iff_count]
  intro x
  simpa only [List.count_append] using count_flatMap_set f x h

/-- What a courier's step does to the listeners of its context. -/
theorem Delivery.step?_listening {sv : Services σ} {d d' : Delivery} {s s' : Shared σ} {k : ℕ}
    (h : d.step? sv k s = some (d', s')) :
    Signal.Turn (d.couriers.flatMap Courier.listeners) (s.signal d.context)
      (d'.couriers.flatMap Courier.listeners) (s'.signal d.context) := by
  obtain ⟨c, c', d₁, hc, hserves, rfl⟩ := step?_cases h
  have hperm := perm_flatMap_set (b := c') Courier.listeners hc
  show Signal.Turn _ _ ((d.couriers.set k c').flatMap _) _
  cases hserves with
  | enter =>
    rw [Shared.signal_listen]
    exact .listen Waker.receiver (by simpa [Courier.listeners, Shared.listen] using hperm)
  | @begin l =>
    rw [Shared.signal_forget]
    refine .forget (i := l) ?_
    simpa [Courier.listeners] using hperm.symm.trans (List.perm_append_singleton _ _)
  | @quit l r hr =>
    rw [Shared.signal_forget]
    refine .forget (i := l) ?_
    simpa [Courier.listeners] using hperm.symm.trans (List.perm_append_singleton _ _)
  | _ => exact .keep ((List.perm_append_right_iff _).mp hperm)

namespace Run

variable {sv : Services σ} {feeds : List Feed} {handled : List Fetched} {base told : ℕ → List Error}
  {r r' : Run} {s s' : Shared σ} {context : String}

/-- What holds at every moment of a run about the context that it works under, which was `g₀` when
the run began. -/
structure Lodges (g₀ : Signal Waker) (r : Run) (s : Shared σ) : Prop where
  cursor : r.cursor.Under r.context
  stopped : r.phase.isStopped = true → r.cursor.closed = true
  sound : (s.signal r.context).Sound
  open_of_open : s.isCancelled r.context = false → g₀.cancelled = false
  hosts : s.isCancelled r.context = false → g₀.Hosts r.listeners (s.signal r.context)

namespace Lodges

variable {g₀ : Signal Waker}

theorem start (context : String) (feeds : List Feed) (workers : ℕ)
    (h : (s.signal context).Sound) :
    Lodges (s.signal context) (Run.start context feeds workers s).1
      (Run.start context feeds workers s).2 := by
  refine ⟨⟨?_, ?_⟩, ?_, h, id, fun _ => ?_⟩
  · simp [Run.start, Cursor.ofFeeds, Cursor.Phase.context?]
  · simp [Run.start, Cursor.ofFeeds]
  · simp [Run.start]
  · have hnone : (Run.start context feeds workers s).1.listeners = [] := by
      simp [Run.start, Run.listeners, Cursor.listeners, Cursor.ofFeeds, Cursor.Phase.listeners,
        Delivery.start, List.flatMap_replicate, Courier.listeners]
    rw [hnone]
    exact h.hosts

/-- What a step does to the listeners of the run's context it does to what the run keeps. -/
theorem turn (h : Lodges g₀ r s) (hcontext : r'.context = r.context)
    (hcursor : r'.cursor.Under r.context)
    (hstopped : r'.phase.isStopped = true → r'.cursor.closed = true)
    (hturn : Signal.Turn r.listeners (s.signal r.context) r'.listeners (s'.signal r.context)) :
    Lodges g₀ r' s' := by
  rw [← hcontext] at hcursor hturn
  have hbefore : s'.isCancelled r'.context = false → s.isCancelled r.context = false :=
    fun hopen => hcontext ▸ hturn.open_of_open hopen
  exact ⟨hcursor, hstopped, hturn.sound (hcontext ▸ h.sound),
    fun hopen => h.open_of_open (hbefore hopen),
    fun hopen => hturn.hosts hopen (hcontext ▸ h.hosts (hbefore hopen))⟩

theorem loops (h : Lodges g₀ r s) (hfits : Fits sv feeds handled base told r s)
    (hl : Loops r s r' s') : Lodges g₀ r' s' := by
  have hstage := hfits.stage
  cases hl with
  | call hp =>
    simp only [Stage, hp] at hstage
    obtain ⟨hunder, hturn⟩ := Cursor.advance_listening hstage.1 h.cursor s
    exact h.turn rfl hunder (by simp) (hturn.append_right _)
  | await hp hc =>
    obtain ⟨hunder, hturn⟩ := hc.listening hfits.cursor h.cursor
    refine h.turn rfl hunder (fun hstop => ?_) (hturn.append_right _)
    exact (hc.frame hfits.cursor).2.1.trans (h.stopped hstop)
  | stop hp =>
    simp only [Stage, hp] at hstage
    obtain ⟨hunder, hclosed, hturn⟩ := Cursor.close_listening hstage.1 h.cursor s
    exact h.turn rfl hunder (fun _ => hclosed) (hturn.append_right _)
  | joined hp | report hp =>
    exact h.turn rfl h.cursor (fun _ => h.stopped (by rw [hp]; rfl)) (.keep (.refl _))
  | _ => exact h.turn rfl h.cursor (by simp) (.keep (.refl _))

theorem step (h : Lodges g₀ r s) (hfits : Fits sv feeds handled base told r s) {e : Event}
    (hs : r.step? sv s e = some (r', s')) : Lodges g₀ r' s' := by
  cases steps_of_step? hs with
  | loop hl => exact h.loops hfits hl
  | fetch hc =>
    obtain ⟨hunder, hclosed, hturn⟩ := Cursor.stepWorker?_listening hc h.cursor
    exact h.turn rfl hunder (fun hstop => hclosed.trans (h.stopped hstop)) (hturn.append_right _)
  | deliver hd =>
    have hturn := Delivery.step?_listening hd
    rw [hfits.context] at hturn
    exact h.turn rfl h.cursor h.stopped (hturn.append_left _)
  | heed hc =>
    obtain ⟨hunder, hclosed, hturn⟩ := Cursor.heed?_listening hc h.cursor
    exact h.turn rfl hunder (fun hstop => hclosed.trans (h.stopped hstop)) (hturn.append_right _)
  | cancel =>
    refine h.turn rfl h.cursor h.stopped ?_
    rw [Shared.cancel, Shared.signal_setSignal]
    split_ifs with heq
    · exact heq ▸ .cancel (.refl _)
    · exact .keep (.refl _)

end Lodges

theorem lodges_of_follow? {workers : ℕ} (hw : 0 < workers) {s₀ : Shared σ}
    (hv : s₀.registers.Valid) (hsound : (s₀.signal context).Sound) {es : List Event}
    (hes : follow? (act? sv) (start context feeds workers s₀) es = some (r, s)) :
    Lodges (s₀.signal context) r s := by
  refine follow?_induction (fun _ t => Lodges (s₀.signal context) t.1 t.2)
    (.start context feeds workers hsound) ?_ es hes
  rintro es e t t' ht h hs
  obtain ⟨handled, base, told, hfits⟩ := fits_of_follow? hw hv ht
  exact h.step hfits hs

/-- A run that has returned keeps nothing. -/
theorem listeners_of_returned (hfits : Fits sv feeds handled base told r s)
    (hclosed : r.cursor.closed = true) {e? : Option Error} (hp : r.phase = .returned e?) :
    r.listeners = [] := by
  have hrest := (hfits.ended hp).2.1
  have hover := hfits.drained (by rw [hp]; rfl)
  rw [listeners, Delivery.flatMap_of_isOver hover rfl]
  simp [Cursor.listeners, hclosed, hrest, Cursor.Phase.listeners]

/-- What a run leaves behind on its context: what was there before, unless the context was cancelled
in the meantime. -/
theorem Lodges.returned {g₀ : Signal Waker} (h : Lodges g₀ r s) (hg₀ : g₀.Sound)
    (hfits : Fits sv feeds handled base told r s) {e? : Option Error}
    (hp : r.phase = .returned e?) (hsame : s.isCancelled r.context = g₀.cancelled) :
    (s.signal r.context).listeners = g₀.listeners := by
  cases hc : s.isCancelled r.context with
  | false =>
    have hosts := h.hosts hc
    rw [listeners_of_returned hfits (h.stopped (by rw [hp]; rfl)) hp] at hosts
    exact hosts.listeners
  | true => rw [h.sound.silent hc, hg₀.silent (hsame ▸ hc)]

/-- What runs under a context make of what their threads share. -/
structure Leaves (context : String) (s₀ s : Shared σ) : Prop where
  registers : s.registers.Valid
  sound : (s.signal context).Sound
  open_of_open : s.isCancelled context = false → s₀.isCancelled context = false
  listeners : s.isCancelled context = s₀.isCancelled context →
    (s.signal context).listeners = (s₀.signal context).listeners

theorem Leaves.trans {s₀ s₁ s₂ : Shared σ} (h₁ : Leaves context s₀ s₁) (h₂ : Leaves context s₁ s₂) :
    Leaves context s₀ s₂ := by
  refine ⟨h₂.registers, h₂.sound, fun hc => h₁.open_of_open (h₂.open_of_open hc), fun hsame => ?_⟩
  have hsame₁ : s₁.isCancelled context = s₀.isCancelled context := by
    cases h₀ : s₀.isCancelled context with
    | false => exact h₂.open_of_open (hsame.trans h₀)
    | true =>
      by_contra hc
      rw [h₁.open_of_open (by simpa using hc)] at h₀
      cases h₀
  exact (h₂.listeners (hsame.trans hsame₁.symm)).trans (h₁.listeners hsame₁)

theorem leaves_of_returned {cores workers : ℕ} (hcores : 0 < cores) {s₀ : Shared σ}
    (hv : s₀.registers.Valid) (hsound : (s₀.signal context).Sound) {es : List Event}
    (hes : follow? (act? sv) (start context feeds (Batch.workersOr cores workers) s₀) es
      = some (r, s)) {e? : Option Error} (hret : r.returned? = some e?) :
    Leaves context s₀ s := by
  have hw := Batch.workersOr_pos hcores workers
  obtain ⟨handled, base, told, hfits⟩ := fits_of_follow? hw hv hes
  have h := lodges_of_follow? hw hv hsound hes
  obtain rfl := context_of_follow? hes
  exact ⟨hfits.books.valid, h.sound, h.open_of_open,
    h.returned hsound hfits (returned?_eq_some.mp hret)⟩

/-- So many runs under a context, one after the other, each with feeds, workers, services and a
history of its own. -/
inductive InTurn (cores : ℕ) (context : String) : ℕ → Shared σ → Shared σ → Prop
  | none (s : Shared σ) : InTurn cores context 0 s s
  | next {n : ℕ} {s₀ s₁ s₂ : Shared σ} (h : InTurn cores context n s₀ s₁) {sv : Services σ}
    {feeds : List Feed} {workers : ℕ} {es : List Event} {r : Run} {e? : Option Error}
    (hes : follow? (act? sv) (start context feeds (Batch.workersOr cores workers) s₁) es
      = some (r, s₂)) (hret : r.returned? = some e?) : InTurn cores context (n + 1) s₀ s₂

theorem InTurn.leaves {cores n : ℕ} (hcores : 0 < cores) {s₀ : Shared σ}
    (h : InTurn cores context n s₀ s) (hv : s₀.registers.Valid)
    (hsound : (s₀.signal context).Sound) : Leaves context s₀ s := by
  induction h with
  | none s => exact ⟨hv, hsound, id, fun _ => rfl⟩
  | next _ hes hret ih =>
    have hbefore := ih hv hsound
    exact hbefore.trans (leaves_of_returned hcores hbefore.registers hbefore.sound hes hret)

/-- A run leaves nothing on the context that it worked under. However the feeds, the workers, the
client, the limiter and the storages are and however the threads take turns: if the run has returned
and the context was not cancelled in the meantime, its listeners are those from before. So any number
of runs under one context, one after the other, leaves as many as there were. -/
theorem runs_leave_no_listener {cores : ℕ} (hcores : 0 < cores) (context : String) {s₀ : Shared σ}
    (hvalid : s₀.registers.Valid) (hsound : (s₀.signal context).Sound) :
    (∀ (sv : Services σ) (feeds : List Feed) (workers : ℕ) (es : List Event) (r : Run)
        (s : Shared σ) (e? : Option Error),
      follow? (act? sv) (start context feeds (Batch.workersOr cores workers) s₀) es = some (r, s) →
      r.returned? = some e? → s.isCancelled context = s₀.isCancelled context →
      (s.signal context).listeners = (s₀.signal context).listeners)
    ∧ ∀ (n : ℕ) (s : Shared σ), InTurn cores context n s₀ s →
      s.isCancelled context = s₀.isCancelled context →
      s.listenerCount context = s₀.listenerCount context := by
  refine ⟨fun sv feeds workers es r s e? hes hret => ?_, fun n s h hsame => ?_⟩
  · exact (leaves_of_returned hcores hvalid hsound hes hret).listeners
  · exact congrArg List.length ((h.leaves hcores hvalid hsound).listeners hsame)

/-- A context that somebody else listens to. -/
def observed : Shared Unit :=
  (({ world := () } : Shared Unit).listen "ctx" (.outsider "x")).2

/-- A run of one feed whose request fails. -/
def historyOfFailure : List Event :=
  List.flatten [List.replicate 3 .loop, List.replicate 12 (.fetch 0), List.replicate 10 .loop,
    List.replicate 4 (.deliver 0), List.replicate 5 .loop]

/-- A run of one feed whose payload is written. -/
def historyOfSuccess : List Event :=
  List.flatten [List.replicate 3 .loop, List.replicate 8 (.fetch 0), List.replicate 5 .loop,
    List.replicate 5 (.deliver 0), List.replicate 6 .loop, List.replicate 4 (.deliver 0),
    List.replicate 5 .loop]

/-- The one run after the other, under a context that somebody else listens to. -/
theorem runs_leave_no_listener_observed :
    ∃ r s₁ s₂ e, follow? (act? (.constant (.error ⟨.requestFailed, "x"⟩) [sink]))
        (start "ctx" [⟨{ url := "a" }, "", "t"⟩] (Batch.workersOr 4 1) observed) historyOfFailure
        = some (r, s₁)
      ∧ r.returned? = some (some e)
      ∧ (s₁.signal "ctx").listeners = [(1, .outsider "x")]
      ∧ InTurn 4 "ctx" 2 observed s₂
      ∧ s₂.listenerCount "ctx" = 1 := by
  have hruns : ∃ r₁ s₁ e r₂ s₂,
      follow? (act? (.constant (.error ⟨.requestFailed, "x"⟩) [sink]))
        (start "ctx" [⟨{ url := "a" }, "", "t"⟩] (Batch.workersOr 4 1) observed) historyOfFailure
        = some (r₁, s₁)
      ∧ r₁.returned? = some (some e) ∧ s₁.isCancelled "ctx" = false
      ∧ follow? (act? (.constant (.ok ⟨200, "a", [], []⟩) [sink]))
        (start "ctx" [⟨{ url := "a" }, "", "t"⟩] (Batch.workersOr 4 1) s₁) historyOfSuccess
        = some (r₂, s₂)
      ∧ r₂.returned? = some none ∧ s₂.isCancelled "ctx" = false :=
    ⟨_, _, _, _, _, rfl, rfl, rfl, rfl, rfl, rfl⟩
  obtain ⟨r₁, s₁, e, r₂, s₂, h₁, hret₁, hc₁, h₂, hret₂, hc₂⟩ := hruns
  have hsound : (observed.signal "ctx").Sound := ⟨by decide, by decide⟩
  obtain ⟨hone, hmany⟩ :=
    runs_leave_no_listener (by decide : 0 < 4) "ctx" Registers.valid_nil hsound
  have hturn : InTurn 4 "ctx" 2 observed s₂ := .next (.next (.none _) h₁ hret₁) h₂ hret₂
  exact ⟨r₁, s₁, s₂, e, h₁, hret₁, hone _ _ _ _ _ _ _ h₁ hret₁ hc₁, hturn, hmany _ _ hturn hc₂⟩

end Run

end Pipeline

end Ingest

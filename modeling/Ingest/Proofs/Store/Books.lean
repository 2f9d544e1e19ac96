import Ingest.Proofs.Store.Transcript

/-!
# Books on connections

Each connection that has been attempted is either held by somebody, who still has to finish it, or
settled: its transcript is one whole life. `Books` says so of a log and of those who hold
connections. To send, to connect and to finish change one entry of the books each, and leave all
others as they are (`Books.sent`, `Books.connect`, `Books.finish`).
-/

namespace Ingest.Store.Postgres

namespace Turn

def IsSent : Turn → Prop
  | sent .. => True
  | attempted _ | finished => False

/-- A statement that some call sends. -/
def IsCall : Turn → Prop
  | sent q _ => ∃ c : Call, ∃ q', c.Sends q' ∧ q = q'.wire
  | attempted _ | finished => False

theorem IsCall.isSent {t : Turn} (h : t.IsCall) : t.IsSent := by
  cases t with
  | sent q answer => trivial
  | attempted refusal => exact h
  | finished => exact h

/-- The life of a connection from its attempt to its end. -/
inductive Whole : List Turn → Prop where
  | refused (message : String) : Whole [attempted (some message), finished]
  | used {ts : List Turn} (hts : ∀ t ∈ ts, t.IsSent) : Whole (attempted none :: (ts ++ [finished]))

/-- How a transaction that has begun ends on its connection. -/
inductive Ending : List Turn → Prop where
  | committed (r : Reply) : Ending [sent .commit (.ok r)]
  | refused (message : String) (answer : Except String Reply) :
      Ending [sent .commit (.error message), sent .rollback answer]
  | rolledBack (answer : Except String Reply) : Ending [sent .rollback answer]

/-- The life of a connection that a transaction opened, by whether a unit has closed its scope. -/
inductive OfTransaction (closed : Prop) : List Turn → Prop where
  | refused (message : String) : OfTransaction closed [attempted (some message), finished]
  | notBegun (message : String) :
      OfTransaction closed [attempted none, sent .start (.error message), finished]
  | ended (r : Reply) {ts us : List Turn} (hts : ∀ t ∈ ts, t.IsCall) (hus : Ending us) :
      OfTransaction closed (attempted none :: sent .start (.ok r) :: (ts ++ us ++ [finished]))
  | closed (h : closed) (r : Reply) {ts : List Turn} (hts : ∀ t ∈ ts, t.IsCall) :
      OfTransaction closed (attempted none :: sent .start (.ok r) :: (ts ++ [finished]))

theorem Ending.isSent {us : List Turn} (h : Ending us) : ∀ t ∈ us, t.IsSent := by
  cases h <;> simp [IsSent]

theorem OfTransaction.mono {c c' : Prop} (hc : c → c') {ts : List Turn}
    (h : OfTransaction c ts) : OfTransaction c' ts := by
  cases h with
  | refused message => exact .refused message
  | notBegun message => exact .notBegun message
  | ended r hts hus => exact .ended r hts hus
  | closed h r hts => exact .closed (hc h) r hts

theorem OfTransaction.whole {c : Prop} {ts : List Turn} (h : OfTransaction c ts) : Whole ts := by
  cases h with
  | refused message => exact .refused message
  | notBegun message =>
    have hts : ∀ t ∈ [sent .start (.error message)], t.IsSent := by simp [IsSent]
    exact .used hts
  | @ended r ts us hts hus =>
    have hsent : ∀ t ∈ sent .start (.ok r) :: (ts ++ us), t.IsSent :=
      List.forall_mem_cons.mpr
        ⟨trivial, List.forall_mem_append.mpr ⟨fun t ht => (hts t ht).isSent, hus.isSent⟩⟩
    exact .used hsent
  | @closed h r ts hts =>
    have hsent : ∀ t ∈ sent .start (.ok r) :: ts, t.IsSent :=
      List.forall_mem_cons.mpr ⟨trivial, fun t ht => (hts t ht).isSent⟩
    exact .used hsent

end Turn

open Turn

/-- As what a connection is held. -/
inductive Hold where
  /-- By whom, is not settled yet: this is its transcript so far. -/
  | new (ts : List Turn)
  /-- By a storage that has connected itself. -/
  | direct
  /-- By a transaction that has begun, with what it has sent after its units' statements. -/
  | begun (us : List Turn)
  /-- By a transaction that has ended. -/
  | ended

/-- The transcript of a connection by how it is held, where transactions have opened `B`. -/
def Hold.Fits (B : Set Nat) (n : Nat) (ts : List Turn) : Hold → Prop
  | new us => ts = us
  | direct => n ∉ B ∧ ∃ us, (∀ t ∈ us, t.IsSent) ∧ ts = attempted none :: us
  | begun us => n ∈ B ∧ ∃ r vs, (∀ t ∈ vs, t.IsCall)
      ∧ ts = attempted none :: sent .start (.ok r) :: (vs ++ us)
  | ended => n ∈ B ∧ ∃ r vs us, (∀ t ∈ vs, t.IsCall) ∧ Ending us
      ∧ ts = attempted none :: sent .start (.ok r) :: (vs ++ us)

/-- A connection that nobody holds any more, where transactions have opened `B` and units have closed
`C`. -/
def Settled (B C : Set Nat) (n : Nat) (ts : List Turn) : Prop :=
  Whole ts ∧ (n ∈ B → OfTransaction (n ∈ C) ts)

namespace Hold

variable {B C : Set Nat} {n : Nat} {ts : List Turn} {hold : Hold}

/-- A statement of a call makes no difference to a storage or to a transaction that goes on. -/
theorem Fits.call (hhold : hold = .direct ∨ hold = .begun []) {t : Turn} (ht : t.IsCall)
    (h : hold.Fits B n ts) : hold.Fits B n (ts ++ [t]) := by
  have hconcat : ∀ {P : Turn → Prop} {us : List Turn}, (∀ u ∈ us, P u) → P t →
      ∀ u ∈ us ++ [t], P u :=
    fun hus ht => List.forall_mem_append.mpr ⟨hus, List.forall_mem_singleton.mpr ht⟩
  rcases hhold with rfl | rfl
  · obtain ⟨hB, us, hus, rfl⟩ := h
    exact ⟨hB, us ++ [t], hconcat hus ht.isSent, rfl⟩
  · obtain ⟨hB, r, vs, hvs, rfl⟩ := h
    exact ⟨hB, r, vs ++ [t], hconcat hvs ht, by simp⟩

theorem Fits.settled_direct (h : Hold.direct.Fits B n ts) :
    Settled B C n (ts ++ [.finished]) := by
  obtain ⟨hB, us, hus, rfl⟩ := h
  exact ⟨.used hus, fun hmem => absurd hmem hB⟩

/-- A unit closes the scope of its transaction. -/
theorem Fits.settled_begun (hC : n ∈ C) (h : (Hold.begun []).Fits B n ts) :
    Settled B C n (ts ++ [.finished]) := by
  obtain ⟨-, r, vs, hvs, rfl⟩ := h
  have htransaction : OfTransaction (n ∈ C)
      (attempted none :: sent .start (.ok r) :: (vs ++ []) ++ [.finished]) := by
    simpa using OfTransaction.closed hC r hvs
  exact ⟨htransaction.whole, fun _ => htransaction⟩

theorem Fits.settled_ended (h : Hold.ended.Fits B n ts) : Settled B C n (ts ++ [.finished]) := by
  obtain ⟨-, r, vs, us, hvs, hus, rfl⟩ := h
  have htransaction : OfTransaction (n ∈ C) _ := .ended r hvs hus
  exact ⟨htransaction.whole, fun _ => htransaction⟩

end Hold

/-- The log that began with `s₀`, where transactions have opened `B` and units have closed `C`, and
`hs` are those who hold connections. -/
structure Books (s₀ : Script) (B C : Set Nat) (hs : List (Nat × Hold)) (s : Script) : Prop where
  follows : s₀.Follows s.log s
  nodup : (hs.map Prod.fst).Nodup
  held : ∀ e ∈ hs, 0 < e.1 ∧ e.1 ≤ s.attempts ∧ e.2.Fits B e.1 (s₀.transcript e.1 s.log)
  settled : ∀ n, 0 < n → n ≤ s.attempts → n ∉ hs.map Prod.fst →
    Settled B C n (s₀.transcript n s.log)
  unused : ∀ n, n = 0 ∨ s.attempts < n → s₀.transcript n s.log = []
  attempted : ∀ n ∈ B, n ≤ s.attempts

namespace Books

variable {s₀ s : Script} {B C C' : Set Nat} {hs hs' : List (Nat × Hold)} {n : Nat}
  {hold hold' : Hold}

/-- The books of a script that has answered nothing yet. -/
theorem fresh (hlog : s.log = []) (hattempts : s.attempts = 0) : Books s ∅ ∅ [] s where
  follows := hlog ▸ .refl s
  nodup := List.nodup_nil
  held := by simp
  settled n hpos hle := by omega
  unused n _ := by simp [hlog, Script.transcript]
  attempted := by simp

theorem perm (h : Books s₀ B C hs s) (hperm : hs.Perm hs') : Books s₀ B C hs' s where
  follows := h.follows
  nodup := (hperm.map Prod.fst).nodup_iff.mp h.nodup
  held e he := h.held e (hperm.mem_iff.mpr he)
  settled n hpos hle hn := h.settled n hpos hle fun hmem => hn ((hperm.map Prod.fst).mem_iff.mp hmem)
  unused := h.unused
  attempted := h.attempted

/-- The holder is seen as another that the transcript fits too. -/
theorem weaken (h : Books s₀ B C ((n, hold) :: hs) s)
    (hfits : ∀ ts, hold.Fits B n ts → hold'.Fits B n ts) :
    Books s₀ B C ((n, hold') :: hs) s := by
  obtain ⟨⟨hpos, hle, hfit⟩, hrest⟩ := List.forall_mem_cons.mp h.held
  exact ⟨h.follows, h.nodup, List.forall_mem_cons.mpr ⟨⟨hpos, hle, hfits _ hfit⟩, hrest⟩, h.settled,
    h.unused, h.attempted⟩

/-- More connections have been closed by units. -/
theorem mono (h : Books s₀ B C hs s) (hC : C ⊆ C') : Books s₀ B C' hs s where
  follows := h.follows
  nodup := h.nodup
  held := h.held
  settled n hpos hle hn := by
    obtain ⟨hwhole, htransaction⟩ := h.settled n hpos hle hn
    exact ⟨hwhole, fun hB => (htransaction hB).mono (@hC n)⟩
  unused := h.unused
  attempted := h.attempted

theorem ne_of_mem (h : Books s₀ B C ((n, hold) :: hs) s) {e : Nat × Hold} (he : e ∈ hs) :
    e.1 ≠ n := by
  rintro rfl
  exact (List.nodup_cons.mp h.nodup).1 (List.mem_map.mpr ⟨e, he, rfl⟩)

/-- Of what fits a holder, to be among those that transactions have opened matters for that
connection alone. -/
theorem fits_insert {m : Nat} (hne : m ≠ n) {ts : List Turn} :
    hold.Fits (insert n B) m ts ↔ hold.Fits B m ts := by
  cases hold <;> simp [Hold.Fits, hne]

/-- The connection turns out to be one that a transaction has opened. -/
theorem mark {ts : List Turn} (h : Books s₀ B C ((n, .new ts) :: hs) s) :
    Books s₀ (insert n B) C ((n, .new ts) :: hs) s where
  follows := h.follows
  nodup := h.nodup
  held := by
    obtain ⟨hfirst, hrest⟩ := List.forall_mem_cons.mp h.held
    refine List.forall_mem_cons.mpr ⟨hfirst, fun e he => ?_⟩
    obtain ⟨hpos, hle, hfit⟩ := hrest e he
    exact ⟨hpos, hle, (fits_insert (h.ne_of_mem he)).mpr hfit⟩
  settled m hpos hle hm := by
    obtain ⟨hwhole, htransaction⟩ := h.settled m hpos hle hm
    refine ⟨hwhole, fun hB => htransaction (hB.resolve_left ?_)⟩
    rintro rfl
    exact hm List.mem_cons_self
  unused := h.unused
  attempted := by
    rintro m (rfl | hm)
    · exact (h.held _ List.mem_cons_self).2.1
    · exact h.attempted m hm

/-! ### What happens to the server -/

/-- A holder sends a statement. -/
theorem sent (h : Books s₀ B C ((n, hold) :: hs) s) (q : Statement)
    (hfits : ∀ ts, hold.Fits B n ts → hold'.Fits B n (ts ++ [.sent q (s.execute n q).1])) :
    Books s₀ B C ((n, hold') :: hs) (s.execute n q).2 := by
  have hother : ∀ m, m ≠ n → s₀.transcript m (s.execute n q).2.log = s₀.transcript m s.log :=
    fun m hm => h.follows.transcript_of_ne hm.symm
  have hself : s₀.transcript n (s.execute n q).2.log
      = s₀.transcript n s.log ++ [.sent q (s.execute n q).1] :=
    h.follows.transcript_self rfl
  obtain ⟨⟨hpos, hle, hfit⟩, hrest⟩ := List.forall_mem_cons.mp h.held
  refine ⟨h.follows.trans (.execute s n q), h.nodup, ?_, fun m hpos hle hm => ?_, fun m hm => ?_,
    h.attempted⟩
  · refine List.forall_mem_cons.mpr ⟨⟨hpos, hle, hself ▸ hfits _ hfit⟩, fun e he => ?_⟩
    rw [hother _ (h.ne_of_mem he)]
    exact hrest e he
  · rw [hother m (List.ne_of_not_mem_cons hm)]
    exact h.settled m hpos hle hm
  · replace hm : m = 0 ∨ s.attempts < m := hm
    rw [hother m (by omega)]
    exact h.unused m hm

/-- A connection is attempted. -/
theorem connect (h : Books s₀ B C hs s) (conninfo : String) :
    Books s₀ B C ((s.attempts + 1, .new [.attempted (s.connect conninfo).1.2]) :: hs)
      (s.connect conninfo).2 := by
  have hother : ∀ m, m ≠ s.attempts + 1 →
      s₀.transcript m (s.connect conninfo).2.log = s₀.transcript m s.log :=
    fun m hm => h.follows.transcript_of_ne hm.symm
  have hself : s₀.transcript (s.attempts + 1) (s.connect conninfo).2.log
      = s₀.transcript (s.attempts + 1) s.log ++ [.attempted (s.connect conninfo).1.2] :=
    h.follows.transcript_self rfl
  rw [h.unused _ (.inr (Nat.lt_succ_self _)), List.nil_append] at hself
  have hattempts : (s.connect conninfo).2.attempts = s.attempts + 1 := rfl
  refine ⟨h.follows.trans (.connect s conninfo), List.nodup_cons.mpr ⟨fun hmem => ?_, h.nodup⟩, ?_,
    fun m hpos hle hm => ?_, fun m hm => ?_, fun m hm => ?_⟩
  · obtain ⟨e, he, heq⟩ := List.mem_map.mp hmem
    have hle := (h.held e he).2.1
    omega
  · refine List.forall_mem_cons.mpr ⟨⟨Nat.succ_pos _, hattempts.ge, hself⟩, fun e he => ?_⟩
    obtain ⟨hpos, hle, hfit⟩ := h.held e he
    rw [hother _ (by omega)]
    exact ⟨hpos, by omega, hfit⟩
  · have hne : m ≠ s.attempts + 1 := List.ne_of_not_mem_cons hm
    rw [hother m hne]
    exact h.settled m hpos (by omega) (List.not_mem_of_not_mem_cons hm)
  · rw [hother m (by omega)]
    exact h.unused m (by omega)
  · have hle := h.attempted m hm
    omega

/-- A holder finishes its connection, whose life is whole with that. -/
theorem finish (h : Books s₀ B C ((n, hold) :: hs) s)
    (hsettled : ∀ ts, hold.Fits B n ts → Settled B C n (ts ++ [.finished])) :
    Books s₀ B C hs (s.finish n) := by
  have hother : ∀ m, m ≠ n → s₀.transcript m (s.finish n).log = s₀.transcript m s.log :=
    fun m hm => h.follows.transcript_of_ne hm.symm
  have hself : s₀.transcript n (s.finish n).log = s₀.transcript n s.log ++ [.finished] :=
    h.follows.transcript_self rfl
  obtain ⟨⟨hpos, hle, hfit⟩, hrest⟩ := List.forall_mem_cons.mp h.held
  refine ⟨h.follows.trans (.finish s n), (List.nodup_cons.mp h.nodup).2, fun e he => ?_,
    fun m hpos hle hm => ?_, fun m hm => ?_, h.attempted⟩
  · rw [hother _ (h.ne_of_mem he)]
    exact hrest e he
  · by_cases hne : m = n
    · subst hne
      rw [hself]
      exact hsettled _ hfit
    · rw [hother m hne]
      exact h.settled m hpos hle (List.not_mem_cons_of_ne_of_not_mem hne hm)
  · replace hm : m = 0 ∨ s.attempts < m := hm
    rw [hother m (by omega)]
    exact h.unused m hm

/-! ### A connection that is new -/

theorem finish_refused {message : String}
    (h : Books s₀ B C ((n, .new [.attempted (some message)]) :: hs) s) :
    Books s₀ B C hs (s.finish n) := by
  refine h.finish ?_
  rintro ts rfl
  exact ⟨.refused message, fun _ => .refused message⟩

theorem direct_of_new (hB : n ∉ B) (h : Books s₀ B C ((n, .new [.attempted none]) :: hs) s) :
    Books s₀ B C ((n, .direct) :: hs) s := by
  refine h.weaken ?_
  rintro ts rfl
  exact ⟨hB, [], by simp, rfl⟩

theorem sent_start (h : Books s₀ B C ((n, .new [.attempted none]) :: hs) s) :
    Books s₀ B C ((n, .new [.attempted none, .sent .start (s.execute n .start).1]) :: hs)
      (s.execute n .start).2 := by
  refine h.sent .start ?_
  rintro ts rfl
  rfl

theorem finish_notBegun {message : String}
    (h : Books s₀ B C ((n, .new [.attempted none, .sent .start (.error message)]) :: hs) s) :
    Books s₀ B C hs (s.finish n) := by
  refine h.finish ?_
  rintro ts rfl
  have htransaction : OfTransaction (n ∈ C) _ := .notBegun message
  exact ⟨htransaction.whole, fun _ => htransaction⟩

theorem begun_of_new (hB : n ∈ B) {r : Reply}
    (h : Books s₀ B C ((n, .new [.attempted none, .sent .start (.ok r)]) :: hs) s) :
    Books s₀ B C ((n, .begun []) :: hs) s := by
  refine h.weaken ?_
  rintro ts rfl
  exact ⟨hB, r, [], by simp, rfl⟩

end Books

end Ingest.Store.Postgres

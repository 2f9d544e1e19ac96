import Mathlib
import Ingest.Proofs.Settings

/-!
# Arguments in phrases

Arguments are read in phrases, an option with its value or one that stands alone, one after the other
(`Draft.read_written`). What a phrase writes is one part of the draft, and what it makes of this part
depends on nothing else (`Part.Writes`); so two phrases that write different parts may change places
(`exchange_among`). All options of a feed write the same part, and any other option has one of
its own.
-/

namespace Ingest

namespace Settings

/-- What is read of a list of arguments at a time. -/
inductive Phrase where
  | truncate
  | valued (flag value : String)
  deriving DecidableEq, Repr

namespace Phrase

def option : Phrase → String
  | truncate => "--truncate"
  | valued flag _ => flag

def arguments : Phrase → List String
  | truncate => ["--truncate"]
  | valued flag value => [flag, value]

/-- The arguments of phrases. -/
def written (phrases : List Phrase) : List String :=
  phrases.flatMap arguments

/-- The group is read as it was written. -/
def Proper : Phrase → Prop
  | truncate => True
  | valued flag _ => Draft.isHelp flag = false ∧ flag ≠ "--truncate"

/-- The option says something about the latest feed, or begins a feed. -/
def IsOfFeed (g : Phrase) : Prop :=
  g.option ∈ ["--url", "--table", "--database", "--method", "--header"]

instance : DecidablePred IsOfFeed :=
  fun g => inferInstanceAs (Decidable (g.option ∈ _))

/-- The phrases that arguments are read in, unless they call for help or a value is missing. -/
def ofArguments? : List String → Option (List Phrase)
  | [] => some []
  | [flag] => if flag = "--truncate" then some [truncate] else none
  | flag :: value :: rest =>
    if Draft.isHelp flag then none
    else if flag = "--truncate" then (ofArguments? (value :: rest)).map (truncate :: ·)
    else (ofArguments? rest).map (valued flag value :: ·)

end Phrase

/-- Takes a phrase into a draft. -/
def Draft.accept (d : Draft) : Phrase → Except Error Draft
  | .truncate => .ok (d.modify fun s => { s with truncate := true })
  | .valued flag value => d.take flag value

open Phrase

variable {d d' e : Draft} {flag value : String} {phrases : List Phrase} {g : Phrase}

theorem Phrase.spec_of_ofArguments? {arguments : List String}
    (h : ofArguments? arguments = some phrases) :
    written phrases = arguments ∧ ∀ g ∈ phrases, g.Proper := by
  induction arguments using ofArguments?.induct generalizing phrases with
  | case1 =>
    obtain rfl := Option.some.inj h
    exact ⟨rfl, nofun⟩
  | case2 =>
    rw [ofArguments?, if_pos rfl] at h
    obtain rfl := Option.some.inj h
    exact ⟨rfl, by simp [Proper]⟩
  | case3 flag htruncate =>
    rw [ofArguments?, if_neg htruncate] at h
    cases h
  | case4 flag value rest hhelp =>
    rw [ofArguments?, if_pos hhelp] at h
    cases h
  | case5 value rest hhelp ih =>
    rw [ofArguments?, if_neg hhelp, if_pos rfl] at h
    obtain ⟨phrases, hphrases, rfl⟩ := Option.map_eq_some_iff.mp h
    obtain ⟨hwritten, hproper⟩ := ih hphrases
    exact ⟨congrArg ("--truncate" :: ·) hwritten, List.forall_mem_cons.mpr ⟨trivial, hproper⟩⟩
  | case6 flag value rest hhelp htruncate ih =>
    rw [ofArguments?, if_neg hhelp, if_neg htruncate] at h
    obtain ⟨phrases, hphrases, rfl⟩ := Option.map_eq_some_iff.mp h
    obtain ⟨hwritten, hproper⟩ := ih hphrases
    refine ⟨congrArg ([flag, value] ++ ·) hwritten, List.forall_mem_cons.mpr ⟨?_, hproper⟩⟩
    exact ⟨by simpa using hhelp, htruncate⟩

namespace Draft

theorem take_header (d : Draft) (value : String) : d.take "--header" value
    = match d.modifyLatest "--header" id, header? value with
      | .error e, _ => .error e
      | .ok _, none => .error (.unreadable "--header")
      | .ok d, some h => d.modifyLatest "--header" (addHeader h) := by
  have hothers : "--header" ≠ "--url" ∧ "--header" ≠ "--table" ∧ "--header" ≠ "--database"
      ∧ "--header" ≠ "--method" := by decide
  obtain ⟨hurl, htable, hdatabase, hmethod⟩ := hothers
  exact (if_neg hurl).trans <| (if_neg htable).trans <| (if_neg hdatabase).trans <|
    (if_neg hmethod).trans (if_pos rfl)

/-- The check that there is a feed comes first. -/
theorem take_header_of_some {h : String × String} (hvalue : header? value = some h) (d : Draft) :
    d.take "--header" value = d.modifyLatest "--header" (addHeader h) := by
  rw [take_header, hvalue]
  unfold modifyLatest
  by_cases hempty : d.settings.feeds.isEmpty = true
  · simp only [if_pos hempty]
  · simp only [if_neg hempty, modify, List.modify_id]

theorem read_truncate (d : Draft) (rest : List String) :
    d.read ("--truncate" :: rest) = (d.modify fun s => { s with truncate := true }).read rest := by
  have hhelp : isHelp "--truncate" = false := by decide +kernel
  cases rest <;> simp [read, hhelp]

/-- Groups are taken in one after the other. -/
theorem read_written (h : ∀ g ∈ phrases, g.Proper) (d : Draft) :
    d.read (written phrases) = phrases.foldlM Draft.accept d >>= finish := by
  induction phrases generalizing d with
  | nil => rfl
  | cons g phrases ih =>
    obtain ⟨hg, hphrases⟩ := List.forall_mem_cons.mp h
    rw [List.foldlM_cons]
    cases g with
    | truncate => exact (read_truncate d _).trans (ih hphrases _)
    | valued flag value =>
      have hread : d.read (flag :: value :: written phrases)
          = (d.take flag value).bind fun d => d.read (written phrases) := by
        rw [read, if_neg (by simp [hg.1]), if_neg hg.2]
      refine hread.trans ?_
      rw [Draft.accept]
      rcases d.take flag value with e | d
      · rfl
      · exact ih hphrases d

/-- What is read without a call for help has phrases. -/
theorem exists_phrases {arguments : List String} {s : Settings} (h : d.read arguments = .ok s)
    (hhelp : s.help = false) : ∃ phrases, ofArguments? arguments = some phrases := by
  induction d, arguments using Draft.read.induct with
  | case1 => exact ⟨[], rfl⟩
  | case2 d flag hflag =>
    rw [read, if_pos hflag] at h
    obtain rfl := Except.ok.inj h
    cases hhelp
  | case3 => exact ⟨[.truncate], by simp [ofArguments?]⟩
  | case4 d flag hflag htruncate =>
    rw [read, if_neg hflag, if_neg htruncate] at h
    cases h
  | case5 d flag value rest hflag =>
    rw [read, if_pos hflag] at h
    obtain rfl := Except.ok.inj h
    cases hhelp
  | case6 d value rest hflag ih =>
    rw [read, if_neg hflag, if_pos rfl] at h
    obtain ⟨phrases, hphrases⟩ := ih h
    exact ⟨.truncate :: phrases, by rw [ofArguments?, if_neg hflag, if_pos rfl, hphrases]; rfl⟩
  | case7 d flag value rest hflag htruncate ih =>
    rw [read, if_neg hflag, if_neg htruncate] at h
    rcases hd : d.take flag value with e | d₁ <;> rw [hd] at h
    · cases h
    · obtain ⟨phrases, hphrases⟩ := ih d₁ h
      refine ⟨.valued flag value :: phrases, ?_⟩
      rw [ofArguments?, if_neg hflag, if_neg htruncate, hphrases]
      rfl

end Draft

/-! ### The parts of a draft -/

/-- The parts of a draft that options write. -/
inductive Part where
  | feeds | storages | rate | intervalMs | burst | workers | timeout | userAgent | logLevel
  | truncate
  /-- What no option writes. -/
  | rest
  deriving DecidableEq

namespace Part

/-- The options that write the part. -/
def options : Part → List String
  | feeds => ["--url", "--table", "--database", "--method", "--header"]
  | storages => ["--storage"]
  | rate => ["--rate"]
  | intervalMs => ["--interval-ms"]
  | burst => ["--burst"]
  | workers => ["--workers"]
  | timeout => ["--timeout"]
  | userAgent => ["--user-agent"]
  | logLevel => ["--log-level"]
  | truncate => ["--truncate"]
  | rest => []

/-- Two drafts have the part in common. -/
def Same (d e : Draft) : Part → Prop
  | feeds => d.settings.feeds = e.settings.feeds
  | storages => d.settings.storages = e.settings.storages
  | rate => d.rate = e.rate
  | intervalMs => d.intervalMs = e.intervalMs
  | burst => d.burst = e.burst
  | workers => d.settings.workers = e.settings.workers
  | timeout => d.settings.timeoutSeconds = e.settings.timeoutSeconds
  | userAgent => d.settings.userAgent = e.settings.userAgent
  | logLevel => d.settings.logLevel = e.settings.logLevel
  | truncate => d.settings.truncate = e.settings.truncate
  | rest => d.settings.rateLimit = e.settings.rateLimit ∧ d.settings.help = e.settings.help

variable {p q : Part} {f f' : Draft → Except Error Draft}

theorem Same.symm (h : p.Same d e) : p.Same e d := by
  cases p <;> first | exact Eq.symm h | exact ⟨h.1.symm, h.2.symm⟩

theorem Same.trans {d₁ d₂ d₃ : Draft} (h : p.Same d₁ d₂) (h' : p.Same d₂ d₃) : p.Same d₁ d₃ := by
  cases p <;> first | exact Eq.trans h h' | exact ⟨h.1.trans h'.1, h.2.trans h'.2⟩

theorem eq_of_same (h : ∀ p : Part, p.Same d e) : d = e := by
  obtain ⟨⟨feeds, storages, limit, workers, timeout, agent, truncate, level, help⟩, rate, interval,
    burst⟩ := d
  obtain ⟨⟨feeds', storages', limit', workers', timeout', agent', truncate', level', help'⟩, rate',
    interval', burst'⟩ := e
  obtain rfl : feeds = feeds' := h .feeds
  obtain rfl : storages = storages' := h .storages
  obtain rfl : rate = rate' := h .rate
  obtain rfl : interval = interval' := h .intervalMs
  obtain rfl : burst = burst' := h .burst
  obtain rfl : workers = workers' := h .workers
  obtain rfl : timeout = timeout' := h .timeout
  obtain rfl : agent = agent' := h .userAgent
  obtain rfl : level = level' := h .logLevel
  obtain rfl : truncate = truncate' := h .truncate
  obtain ⟨rfl, rfl⟩ : limit = limit' ∧ help = help' := h .rest
  rfl

/-- The step writes only this part, and what it makes of the part, or whether it fails, depends on
nothing else. -/
structure Writes (p : Part) (f : Draft → Except Error Draft) : Prop where
  frame : ∀ {d d'}, f d = .ok d' → ∀ q ≠ p, q.Same d d'
  alike : ∀ {d d' e}, f d = .ok d' → p.Same d e → ∃ e', f e = .ok e' ∧ p.Same d' e'

namespace Writes

/-- A step that cannot fail. -/
theorem of_ok {g : Draft → Draft} (frame : ∀ d, ∀ q ≠ p, q.Same d (g d))
    (alike : ∀ {d e}, p.Same d e → p.Same (g d) (g e)) : Writes p fun d => .ok (g d) where
  frame h := Except.ok.inj h ▸ frame _
  alike h hsame := ⟨_, rfl, Except.ok.inj h ▸ alike hsame⟩

theorem of_error (error : Error) : Writes p fun _ => .error error :=
  ⟨nofun, nofun⟩

/-- A step that writes what a value spells. -/
theorem of_bind {α : Type} {x : Except Error α} {g : α → Draft → Except Error Draft}
    (h : ∀ a, Writes p (g a)) : Writes p fun d => x.bind fun a => g a d := by
  rcases x with e | a
  · exact .of_error e
  · exact h a

theorem of_map {α : Type} {x : Except Error α} {g : α → Draft → Draft}
    (h : ∀ a, Writes p fun d => .ok (g a d)) : Writes p fun d => x.map (g · d) := by
  rcases x with e | a
  · exact .of_error e
  · exact h a

theorem of_modifyLatest (flag : String) (change : Feed → Feed) :
    Writes feeds fun d => d.modifyLatest flag change where
  frame {d d'} h q hq := by
    unfold Draft.modifyLatest at h
    split_ifs at h
    obtain rfl := Except.ok.inj h
    cases q <;> first | exact absurd rfl hq | simp [Same, Draft.modify]
  alike {d d' e} h hsame := by
    unfold Draft.modifyLatest at h ⊢
    have hfeeds : d.settings.feeds = e.settings.feeds := hsame
    split_ifs at h with hempty
    obtain rfl := Except.ok.inj h
    rw [hfeeds] at hempty
    exact ⟨_, if_neg hempty, by simp [Same, Draft.modify, hfeeds]⟩

theorem of_header (value : String) : Writes feeds fun d => d.take "--header" value := by
  rcases hvalue : Draft.header? value with _ | h
  · have hfails : ∀ d d' : Draft, d.take "--header" value ≠ .ok d' := by
      intro d d'
      rw [Draft.take_header, hvalue]
      rcases d.modifyLatest "--header" id with e | d₁ <;> exact nofun
    exact ⟨fun h => absurd h (hfails _ _), fun h => absurd h (hfails _ _)⟩
  · simp only [Draft.take_header_of_some hvalue]
    exact .of_modifyLatest _ _

/-- Steps that write different parts may change places. -/
theorem exchange (hf : Writes p f) (hf' : Writes q f') (hpq : p ≠ q)
    (h : f d >>= f' = .ok d') : f' d >>= f = .ok d' := by
  rcases hd : f d with e | d₁ <;> rw [hd] at h
  · cases h
  have hd₁ : f' d₁ = .ok d' := h
  obtain ⟨e₁, he₁, hq⟩ := hf'.alike hd₁ (hf.frame hd q hpq.symm).symm
  obtain ⟨e₂, he₂, hp⟩ := hf.alike hd (hf'.frame he₁ p hpq)
  have hsame : ∀ r : Part, r.Same d' e₂ := by
    intro r
    by_cases hrp : r = p
    · exact hrp ▸ (hf'.frame hd₁ p hpq).symm.trans hp
    · by_cases hrq : r = q
      · exact hrq ▸ hq.trans (hf.frame he₂ q hpq.symm)
      · have hfirst := ((hf'.frame hd₁ r hrq).symm.trans (hf.frame hd r hrp).symm)
        exact hfirst.trans ((hf'.frame he₁ r hrq).trans (hf.frame he₂ r hrp))
  rw [he₁, eq_of_same hsame]
  exact he₂

end Writes

/-- An option with a value writes its part. -/
theorem writes_take (hflag : flag ∈ p.options) (htruncate : flag ≠ "--truncate") :
    Writes p (·.take flag value) := by
  cases p with
  | feeds =>
    simp only [options, List.mem_cons, List.not_mem_nil, or_false] at hflag
    rcases hflag with rfl | rfl | rfl | rfl | rfl
    case inr.inr.inr.inr => exact .of_header value
    all_goals simp only [Draft.take, String.reduceEq, if_true, if_false]
    · refine .of_ok (fun d q hq => ?_) (congrArg (· ++ _))
      cases q <;> simp_all [Same, Draft.modify]
    all_goals exact .of_modifyLatest ..
  | truncate => exact absurd (List.mem_singleton.mp hflag) htruncate
  | rest => cases hflag
  | storages =>
    obtain rfl := List.mem_singleton.mp hflag
    simp only [Draft.take, String.reduceEq, if_true, if_false]
    refine .of_ok (fun d q hq => ?_) (congrArg (· ++ _))
    cases q <;> simp_all [Same, Draft.modify]
  | workers =>
    obtain rfl := List.mem_singleton.mp hflag
    simp only [Draft.take, String.reduceEq, if_true, if_false]
    refine .of_bind fun n => ?_
    split_ifs
    · exact .of_error _
    · refine .of_ok (fun d q hq => ?_) fun _ => rfl
      cases q <;> simp_all [Same, Draft.modify]
  | userAgent | logLevel =>
    obtain rfl := List.mem_singleton.mp hflag
    simp only [Draft.take, String.reduceEq, if_true, if_false]
    refine .of_ok (fun d q hq => ?_) fun _ => rfl
    cases q <;> simp_all [Same, Draft.modify]
  | rate | intervalMs | burst | timeout =>
    obtain rfl := List.mem_singleton.mp hflag
    simp only [Draft.take, String.reduceEq, if_true, if_false]
    refine .of_map fun n => .of_ok (fun d q hq => ?_) fun _ => rfl
    cases q <;> simp_all [Same, Draft.modify]

theorem writes_accept (h : g.option ∈ p.options) (hg : g.Proper) : Writes p (·.accept g) := by
  cases g with
  | truncate =>
    obtain rfl : p = truncate := by cases p <;> simp [options, option] at h ⊢
    refine .of_ok (fun d q hq => ?_) fun _ => rfl
    cases q <;> simp_all [Same, Draft.modify]
  | valued flag value => exact writes_take h hg.2

/-- An option that is understood has a part. -/
theorem exists_part (h : d.accept g = .ok d') : ∃ p : Part, g.option ∈ p.options := by
  cases g with
  | truncate => exact ⟨truncate, List.mem_singleton_self _⟩
  | valued flag value =>
    by_contra hnone
    have hne : ∀ p ∈ [feeds, storages, rate, intervalMs, burst, workers, timeout, userAgent,
        logLevel], ∀ option ∈ p.options, flag ≠ option := by
      rintro p - option hoption rfl
      exact hnone ⟨p, hoption⟩
    simp only [options, List.forall_mem_cons, List.not_mem_nil, false_implies, implies_true,
      and_true] at hne
    simp [Draft.accept, Draft.take, hne] at h

/-- Two options of one part are the same, unless both are of a feed. -/
theorem eq_of_mem_options {a b : String} (ha : a ∈ p.options) (hb : b ∈ p.options)
    (hp : p ≠ feeds) : a = b := by
  cases p with
  | feeds => exact absurd rfl hp
  | rest => cases ha
  | _ => exact (List.mem_singleton.mp ha).trans (List.mem_singleton.mp hb).symm

end Part

/-! ### To exchange two phrases -/

/-- Neighbours that write different parts may change places among other phrases. -/
theorem exchange_among {before after : List Phrase} {a b : Phrase} (ha : a.Proper) (hb : b.Proper)
    (hne : a.option ≠ b.option) (hfeed : ¬ (a.IsOfFeed ∧ b.IsOfFeed))
    (h : (before ++ a :: b :: after).foldlM Draft.accept d = .ok d') :
    (before ++ b :: a :: after).foldlM Draft.accept d = .ok d' := by
  rw [List.foldlM_append] at h ⊢
  rcases hd : before.foldlM Draft.accept d with e | d₁ <;> rw [hd] at h
  · cases h
  have htwo : (d₁.accept a >>= fun d => d.accept b) >>= after.foldlM Draft.accept = .ok d' := by
    rw [bind_assoc]
    exact h
  rcases hab : (d₁.accept a >>= fun d => d.accept b) with e | d₂ <;> rw [hab] at htwo
  · cases htwo
  obtain ⟨p, hp⟩ : ∃ p : Part, a.option ∈ p.options := by
    rcases hd₁ : d₁.accept a with e | d₃
    · rw [hd₁] at hab
      cases hab
    · exact Part.exists_part hd₁
  obtain ⟨q, hq⟩ : ∃ q : Part, b.option ∈ q.options := by
    rcases hd₁ : d₁.accept a with e | d₃ <;> rw [hd₁] at hab
    · cases hab
    · exact Part.exists_part hab
  have hpq : p ≠ q := by
    rintro rfl
    by_cases hfeeds : p = .feeds
    · subst hfeeds
      exact hfeed ⟨hp, hq⟩
    · exact hne (Part.eq_of_mem_options hp hq hfeeds)
  have hba := (Part.writes_accept hp ha).exchange (Part.writes_accept hq hb) hpq hab
  have hback : (d₁.accept b >>= fun d => d.accept a) >>= after.foldlM Draft.accept = .ok d' := by
    rw [hba]
    exact htwo
  rw [bind_assoc] at hback
  exact hback

/-- Arguments that are read without a call for help have phrases, and two neighbours among them with
different options, not both of a feed, may change places: the settings are the same. -/
theorem ofArguments_exchange {program : String} {arguments : List String} {s : Settings}
    (h : ofArguments (program :: arguments) = .ok s) (hhelp : s.help = false) :
    ∃ phrases, ofArguments? (arguments.map untilNul) = some phrases
      ∧ ∀ before a b after, phrases = before ++ a :: b :: after → a.option ≠ b.option →
        ¬ (a.IsOfFeed ∧ b.IsOfFeed) →
        ofArguments (program :: written (before ++ b :: a :: after)) = .ok s := by
  obtain ⟨phrases, hphrases⟩ := Draft.exists_phrases h hhelp
  obtain ⟨hwritten, hproper⟩ := Phrase.spec_of_ofArguments? hphrases
  refine ⟨phrases, hphrases, ?_⟩
  rintro before a b after rfl hne hfeed
  have hperm : (before ++ b :: a :: after).Perm (before ++ a :: b :: after) :=
    (List.Perm.swap a b after).append_left before
  have hproper' : ∀ g ∈ before ++ b :: a :: after, g.Proper := fun g hg =>
    hproper g (hperm.mem_iff.mp hg)
  have hplain : (written (before ++ b :: a :: after)).map untilNul
      = written (before ++ b :: a :: after) := by
    refine (List.map_congr_left fun x hx => ?_).trans (List.map_id _)
    have hmem : x ∈ arguments.map untilNul := hwritten ▸ (hperm.flatMap_right _).mem_iff.mp hx
    obtain ⟨y, -, rfl⟩ := List.mem_map.mp hmem
    exact (plain_untilNul y).untilNul
  have hread : ({} : Draft).read (written (before ++ a :: b :: after)) = .ok s := hwritten ▸ h
  rw [Draft.read_written hproper] at hread
  change ({} : Draft).read ((written (before ++ b :: a :: after)).map untilNul) = .ok s
  rw [hplain, Draft.read_written hproper']
  rcases hd : (before ++ a :: b :: after).foldlM Draft.accept {} with e | d <;> rw [hd] at hread
  · cases hread
  · rw [exchange_among (hproper a (by simp)) (hproper b (by simp)) hne hfeed hd]
    exact hread

/-- The value of `--table` looks like an option, and the option after it stands alone. -/
theorem ofArguments_exchange_alike :
    let arguments := ["--url", "u", "--workers", " +3", "--table", "--truncate", "--truncate"]
    let exchanged := ["--url", "u", "--table", "--truncate", "--workers", " +3", "--truncate"]
    ∃ s, ofArguments ("p" :: arguments) = .ok s ∧ s.help = false
      ∧ ofArguments ("p" :: exchanged) = .ok s := by
  intro arguments exchanged
  let s : Settings :=
    { feeds := [{ request := { url := "u" }, table := "--truncate" }]
      workers := 3, truncate := true }
  have h : ofArguments ("p" :: arguments) = .ok s := by decide +kernel
  obtain ⟨phrases, hphrases, hexchange⟩ := ofArguments_exchange h rfl
  have hsome : ofArguments? (arguments.map untilNul) = some ([.valued "--url" "u"]
      ++ .valued "--workers" " +3" :: .valued "--table" "--truncate" :: [.truncate]) := by
    decide +kernel
  have heq := Option.some.inj (hphrases.symm.trans hsome)
  exact ⟨s, h, rfl, hexchange _ _ _ _ heq (by decide) (by decide)⟩

end Settings

end Ingest

import Mathlib
import Ingest.Proofs.Whole
import Ingest.Proofs.Settings.Phrases

/-!
# Settings in writing

Settings that are in order can be written as arguments (`Settings.arguments`), and what is written
is read as the same settings (`Settings.ofArguments_arguments`). What cannot be said is a body, a
character with code 0, a header's name with a colon and a header's value that begins with a space.
-/

namespace Ingest

namespace Settings

open Phrase

/-! ### To write settings -/

/-- A feed in writing: its address, and then what is said about it. -/
def feedPhrases (f : Feed) : List Phrase :=
  [.valued "--url" f.request.url, .valued "--database" f.database, .valued "--table" f.table,
    .valued "--method" f.request.method]
  ++ f.request.headers.map fun h => .valued "--header" (Http.Headers.line h)

def limitPhrases (r : RateLimit) : List Phrase :=
  [.valued "--rate" (toString r.requests), .valued "--interval-ms" (toString r.intervalMs),
    .valued "--burst" (toString r.burst)]

def phrases (s : Settings) : List Phrase :=
  s.feeds.flatMap feedPhrases ++ s.storages.map (.valued "--storage")
  ++ s.rateLimit.toList.flatMap limitPhrases
  ++ [.valued "--workers" (toString (s.workers : ℤ)),
    .valued "--timeout" (toString s.timeoutSeconds), .valued "--user-agent" s.userAgent,
    .valued "--log-level" s.logLevel]
  ++ if s.truncate then [.truncate] else []

/-- The arguments that spell the settings. -/
def arguments (s : Settings) : List String :=
  written s.phrases

/-- The texts of a feed. -/
def feedTexts (f : Feed) : List String :=
  [f.request.url, f.database, f.table, f.request.method]
  ++ f.request.headers.flatMap fun h => [h.1, h.2]

def texts (s : Settings) : List String :=
  s.feeds.flatMap feedTexts ++ s.storages ++ [s.userAgent, s.logLevel]

def integers (s : Settings) : List ℤ :=
  [(s.workers : ℤ), s.timeoutSeconds]
  ++ s.rateLimit.toList.flatMap fun r => [r.requests, r.intervalMs, r.burst]

/-- What arguments can say of a header: no colon is in its name, and its value begins with no
space. -/
structure Sayable (h : String × String) : Prop where
  name : ':' ∉ h.1.toList
  value : h.2.toList.head? ≠ some ' '

/-- Settings that arguments can say. -/
structure Expressible (s : Settings) : Prop where
  help : s.help = false
  accepted : s.problem? = none
  fits : ∀ n ∈ s.integers, Whole.fits32 n = true
  plain : ∀ text ∈ s.texts, Plain text
  bodies : ∀ f ∈ s.feeds, f.request.body = []
  headers : ∀ f ∈ s.feeds, ∀ h ∈ f.request.headers, Sayable h

/-! ### To read what was written -/

namespace Draft

variable {d d' : Draft} {f : Feed} {h : String × String}

/-- With a further feed. -/
def withFeed (d : Draft) (f : Feed) : Draft :=
  d.modify fun s => { s with feeds := s.feeds ++ [f] }

theorem modifyLatest_withFeed (d : Draft) (f : Feed) (flag : String) (change : Feed → Feed) :
    (d.withFeed f).modifyLatest flag change = .ok (d.withFeed (change f)) := by
  have hmodify : ∀ fs : List Feed, (fs ++ [f]).modify fs.length change = fs ++ [change f] := by
    intro fs
    induction fs with
    | nil => rfl
    | cons g fs ih => simp [ih]
  simp [modifyLatest, withFeed, modify, hmodify]

theorem header?_line (hh : Sayable h) : header? (Http.Headers.line h) = some h := by
  obtain ⟨name, value⟩ := h
  have hline : (Http.Headers.line (name, value)).toList
      = name.toList ++ ':' :: ' ' :: value.toList := by
    simp [Http.Headers.line]
  have hvalue : value.toList.dropWhile (· == ' ') = value.toList := by
    have hfirst := hh.value
    simp only at hfirst
    cases hlist : value.toList with
    | nil => rfl
    | cons c s =>
      rw [hlist] at hfirst
      exact List.dropWhile_cons_of_neg (by simpa using hfirst)
  rw [header?, hline, Text.cut_eq_some_iff.mpr ⟨rfl, hh.name⟩]
  simp [hvalue]

theorem accept_url (d : Draft) (url : String) :
    d.accept (.valued "--url" url) = .ok (d.withFeed { request := { url := url } }) := by
  simp [accept, take, withFeed]

theorem accept_database (d : Draft) (f : Feed) (database : String) :
    (d.withFeed f).accept (.valued "--database" database)
      = .ok (d.withFeed { f with database := database }) := by
  simp [accept, take, modifyLatest_withFeed]

theorem accept_table (d : Draft) (f : Feed) (table : String) :
    (d.withFeed f).accept (.valued "--table" table)
      = .ok (d.withFeed { f with table := table }) := by
  simp [accept, take, modifyLatest_withFeed]

theorem accept_method (d : Draft) (f : Feed) (method : String) :
    (d.withFeed f).accept (.valued "--method" method)
      = .ok (d.withFeed { f with request := { f.request with method := method } }) := by
  simp [accept, take, modifyLatest_withFeed]

theorem foldlM_cons_of_accept {g : Phrase} (h : d.accept g = .ok d') (phrases : List Phrase) :
    (g :: phrases).foldlM accept d = phrases.foldlM accept d' := by
  rw [List.foldlM_cons, h]
  rfl

theorem foldlM_append_of_accept {first more : List Phrase} (h : first.foldlM accept d = .ok d') :
    (first ++ more).foldlM accept d = more.foldlM accept d' := by
  rw [List.foldlM_append, h]
  rfl

theorem accept_headers (d : Draft) (f : Feed) (hs : List (String × String))
    (hsayable : ∀ h ∈ hs, Sayable h) :
    (hs.map fun h => Phrase.valued "--header" (Http.Headers.line h)).foldlM accept (d.withFeed f)
      = .ok (d.withFeed
        { f with request := { f.request with headers := f.request.headers ++ hs } }) := by
  induction hs generalizing f with
  | nil =>
    rw [List.append_nil]
    rfl
  | cons h hs ih =>
    obtain ⟨hh, hrest⟩ := List.forall_mem_cons.mp hsayable
    have haccept : (d.withFeed f).accept (.valued "--header" (Http.Headers.line h))
        = .ok (d.withFeed (addHeader h f)) := by
      rw [accept, take_header_of_some (header?_line hh), modifyLatest_withFeed]
    rw [List.map_cons, foldlM_cons_of_accept haccept, ih _ hrest]
    simp [addHeader]

theorem accept_feed (d : Draft) (hbody : f.request.body = [])
    (hsayable : ∀ h ∈ f.request.headers, Sayable h) :
    (feedPhrases f).foldlM accept d = .ok (d.withFeed f) := by
  obtain ⟨⟨method, url, headers, body⟩, database, table⟩ := f
  obtain rfl : body = [] := hbody
  simp only [feedPhrases, List.cons_append, List.nil_append]
  rw [foldlM_cons_of_accept (accept_url ..), foldlM_cons_of_accept (accept_database ..),
    foldlM_cons_of_accept (accept_table ..), foldlM_cons_of_accept (accept_method ..),
    accept_headers _ _ _ hsayable]
  rfl

theorem accept_feeds (d : Draft) (fs : List Feed) (hbodies : ∀ f ∈ fs, f.request.body = [])
    (hsayable : ∀ f ∈ fs, ∀ h ∈ f.request.headers, Sayable h) :
    (fs.flatMap feedPhrases).foldlM accept d
      = .ok (d.modify fun s => { s with feeds := s.feeds ++ fs }) := by
  induction fs generalizing d with
  | nil => simp [modify]; rfl
  | cons f fs ih =>
    obtain ⟨hbody, hbodies⟩ := List.forall_mem_cons.mp hbodies
    obtain ⟨hheaders, hsayable⟩ := List.forall_mem_cons.mp hsayable
    rw [List.flatMap_cons, foldlM_append_of_accept (accept_feed d hbody hheaders),
      ih _ hbodies hsayable]
    simp [withFeed, modify]

theorem accept_storages (d : Draft) (storages : List String) :
    (storages.map (Phrase.valued "--storage")).foldlM accept d
      = .ok (d.modify fun s => { s with storages := s.storages ++ storages }) := by
  induction storages generalizing d with
  | nil => simp [modify]; rfl
  | cons storage storages ih =>
    have haccept : d.accept (.valued "--storage" storage)
        = .ok (d.modify fun s => { s with storages := s.storages ++ [storage] }) := by
      simp [accept, take]
    rw [List.map_cons, foldlM_cons_of_accept haccept, ih]
    simp [modify]

theorem integer_toString {n : ℤ} (hn : Whole.fits32 n = true) (flag : String) :
    integer flag (toString n) = .ok n := by
  rw [integer, Whole.read?_toString hn]

theorem accept_limit (d : Draft) {r : RateLimit}
    (hfits : ∀ n ∈ [r.requests, r.intervalMs, r.burst], Whole.fits32 n = true) :
    (limitPhrases r).foldlM accept d
      = .ok { d with
          rate := some r.requests, intervalMs := some r.intervalMs, burst := r.burst } := by
  have hrate : ∀ d : Draft, d.accept (.valued "--rate" (toString r.requests))
      = .ok { d with rate := some r.requests } := fun d => by
    simp only [accept, take, String.reduceEq, if_true, if_false,
      integer_toString (hfits r.requests (by simp)), Except.map]
  have hinterval : ∀ d : Draft, d.accept (.valued "--interval-ms" (toString r.intervalMs))
      = .ok { d with intervalMs := some r.intervalMs } := fun d => by
    simp only [accept, take, String.reduceEq, if_true, if_false,
      integer_toString (hfits r.intervalMs (by simp)), Except.map]
  have hburst : ∀ d : Draft, d.accept (.valued "--burst" (toString r.burst))
      = .ok { d with burst := r.burst } := fun d => by
    simp only [accept, take, String.reduceEq, if_true, if_false,
      integer_toString (hfits r.burst (by simp)), Except.map]
  rw [limitPhrases, foldlM_cons_of_accept (hrate _), foldlM_cons_of_accept (hinterval _),
    foldlM_cons_of_accept (hburst _)]
  rfl

theorem accept_workers (d : Draft) {n : ℕ} (hn : Whole.fits32 n = true) :
    d.accept (.valued "--workers" (toString (n : ℤ)))
      = .ok (d.modify fun s => { s with workers := n }) := by
  simp only [accept, take, String.reduceEq, if_true, if_false, integer_toString hn, Except.bind]
  rw [if_neg (by omega), Int.toNat_natCast]

theorem accept_timeout (d : Draft) {n : ℤ} (hn : Whole.fits32 n = true) :
    d.accept (.valued "--timeout" (toString n))
      = .ok (d.modify fun s => { s with timeoutSeconds := n }) := by
  simp only [accept, take, String.reduceEq, if_true, if_false, integer_toString hn, Except.map]

theorem accept_userAgent (d : Draft) (userAgent : String) :
    d.accept (.valued "--user-agent" userAgent)
      = .ok (d.modify fun s => { s with userAgent := userAgent }) := by
  simp [accept, take]

theorem accept_logLevel (d : Draft) (level : String) : d.accept (.valued "--log-level" level)
    = .ok (d.modify fun s => { s with logLevel := level }) := by
  simp [accept, take]

end Draft

/-- The draft that settings come from. -/
def toDraft (s : Settings) : Draft :=
  match s.rateLimit with
  | some r =>
    { settings := { s with rateLimit := none }
      rate := some r.requests, intervalMs := some r.intervalMs, burst := r.burst }
  | none => { settings := s }

namespace Expressible

variable {s : Settings}

/-- What is written of the settings is taken in. -/
theorem foldlM_phrases (h : Expressible s) :
    s.phrases.foldlM Draft.accept {} = .ok s.toDraft := by
  obtain ⟨feeds, storages, limit, workers, timeout, agent, truncate, level, help⟩ := s
  obtain rfl : help = false := h.help
  have hworkers : Whole.fits32 workers = true := h.fits _ (by simp [integers])
  have htimeout : Whole.fits32 timeout = true := h.fits _ (by simp [integers])
  have hfeeds := Draft.accept_feeds {} feeds h.bodies h.headers
  have hlimit : ∀ d : Draft, (limit.toList.flatMap limitPhrases).foldlM Draft.accept d
      = .ok (match limit with
        | some r =>
          { d with rate := some r.requests, intervalMs := some r.intervalMs, burst := r.burst }
        | none => d) := by
    intro d
    cases limit with
    | none => rfl
    | some r =>
      simp only [Option.toList_some, List.flatMap_singleton]
      exact d.accept_limit fun n hn => h.fits n (by simp_all [integers])
  simp only [phrases, List.append_assoc]
  rw [Draft.foldlM_append_of_accept hfeeds,
    Draft.foldlM_append_of_accept (Draft.accept_storages ..),
    Draft.foldlM_append_of_accept (hlimit _)]
  simp only [List.cons_append, List.nil_append]
  rw [Draft.foldlM_cons_of_accept (Draft.accept_workers _ hworkers),
    Draft.foldlM_cons_of_accept (Draft.accept_timeout _ htimeout),
    Draft.foldlM_cons_of_accept (Draft.accept_userAgent ..),
    Draft.foldlM_cons_of_accept (Draft.accept_logLevel ..)]
  cases limit <;> cases truncate <;> rfl

theorem finish_toDraft (h : Expressible s) : s.toDraft.finish = .ok s := by
  have hcheck : Draft.finish.check s = .ok s := by rw [Draft.finish.check, h.accepted]
  obtain ⟨feeds, storages, limit, workers, timeout, agent, truncate, level, help⟩ := s
  cases limit <;> exact hcheck

theorem plain_of_feed {f : Feed} {text : String} (h : Expressible s) (hf : f ∈ s.feeds)
    (htext : text ∈ feedTexts f) : Plain text :=
  h.plain text <| List.mem_append_left _ <| List.mem_append_left _ <|
    List.mem_flatMap.mpr ⟨f, hf, htext⟩

theorem plain_toString (n : ℤ) : Plain (toString n) :=
  fun hmem => absurd (Whole.isNumeral_toString n _ hmem) (by decide)

theorem plain_line {h : String × String} (hname : Plain h.1) (hvalue : Plain h.2) :
    Plain (Http.Headers.line h) := by
  have hcolon : Plain ": " := by decide
  simp only [Plain, Http.Headers.line, String.toList_append, List.mem_append, not_or]
  exact ⟨⟨hname, hcolon⟩, hvalue⟩

/-- Each phrase is read as it is written, and no argument has a character with code 0. -/
theorem spelled (h : Expressible s) : ∀ g ∈ s.phrases, g.Proper ∧ ∀ a ∈ g.arguments, Plain a := by
  have hoption : ∀ flag ∈ ["--url", "--database", "--table", "--method", "--header", "--storage",
      "--rate", "--interval-ms", "--burst", "--workers", "--timeout", "--user-agent",
      "--log-level"],
      (Draft.isHelp flag = false ∧ flag ≠ "--truncate") ∧ Plain flag := by
    decide
  have hvalued : ∀ {flag value : String}, flag ∈ _ → Plain value →
      (valued flag value).Proper ∧ ∀ a ∈ (valued flag value).arguments, Plain a :=
    fun hflag hvalue =>
      ⟨(hoption _ hflag).1, by simp [Phrase.arguments, (hoption _ hflag).2, hvalue]⟩
  intro g hg
  simp only [phrases, feedPhrases, limitPhrases, List.mem_append, List.mem_flatMap, List.mem_map,
    List.mem_cons, List.not_mem_nil, or_false] at hg
  rcases hg with (((⟨f, hf, hfeed⟩ | ⟨storage, hstorage, rfl⟩) | ⟨r, -, hlimit⟩) | hglobal)
    | htruncate
  · have hplain : ∀ {text}, text ∈ feedTexts f → Plain text := h.plain_of_feed hf
    rcases hfeed with (rfl | rfl | rfl | rfl) | ⟨header, hheader, rfl⟩
    · exact hvalued (by simp) (hplain (by simp [feedTexts]))
    · exact hvalued (by simp) (hplain (by simp [feedTexts]))
    · exact hvalued (by simp) (hplain (by simp [feedTexts]))
    · exact hvalued (by simp) (hplain (by simp [feedTexts]))
    · refine hvalued (by simp) (plain_line (hplain ?_) (hplain ?_)) <;>
        exact List.mem_append_right _ (List.mem_flatMap.mpr ⟨header, hheader, by simp⟩)
  · exact hvalued (by simp) (h.plain storage (by simp [texts, hstorage]))
  · rcases hlimit with rfl | rfl | rfl <;> exact hvalued (by simp) (plain_toString _)
  · rcases hglobal with rfl | rfl | rfl | rfl
    · exact hvalued (by simp) (plain_toString _)
    · exact hvalued (by simp) (plain_toString _)
    · exact hvalued (by simp) (h.plain _ (by simp [texts]))
    · exact hvalued (by simp) (h.plain _ (by simp [texts]))
  · split_ifs at htruncate
    · obtain rfl := List.mem_singleton.mp htruncate
      exact ⟨trivial, by decide⟩
    · cases htruncate

end Expressible

/-- Settings that arguments can say are read from the arguments that spell them, whatever their
texts look like. -/
theorem ofArguments_arguments {s : Settings} (h : Expressible s) (program : String) :
    ofArguments (program :: s.arguments) = .ok s := by
  have hplain : s.arguments.map untilNul = s.arguments := by
    refine (List.map_congr_left fun a ha => ?_).trans (List.map_id _)
    obtain ⟨g, hg, hmem⟩ := List.mem_flatMap.mp ha
    exact ((h.spelled g hg).2 a hmem).untilNul
  have hproper : ∀ g ∈ s.phrases, g.Proper := fun g hg => (h.spelled g hg).1
  change ({} : Draft).read (s.arguments.map untilNul) = .ok s
  rw [hplain, arguments, Draft.read_written hproper, h.foldlM_phrases]
  exact h.finish_toDraft

/-- The address calls for help, the table is an option, a header has no name and another no
value. -/
theorem ofArguments_arguments_alike :
    let feed : Feed :=
      { request :=
          { method := "", url := "--help", headers := [("", "a: b"), ("X", ""), ("X", "\t -h")] }
        database := "--url", table := "--truncate" }
    let s : Settings :=
      { feeds := [feed, { request := { url := "u" } }], storages := ["", "--storage"],
        rateLimit := some ⟨2147483647, 1, 0⟩, workers := 3, userAgent := "-h", truncate := true,
        logLevel := "off" }
    Expressible s ∧ ofArguments ("p" :: s.arguments) = .ok s := by
  intro feed s
  have h : Expressible s := {
    help := rfl
    accepted := by decide +kernel
    fits := by decide
    plain := by decide
    bodies := by decide
    headers := by
      have hall : ∀ f ∈ s.feeds, ∀ h ∈ f.request.headers,
          ':' ∉ h.1.toList ∧ h.2.toList.head? ≠ some ' ' := by decide
      exact fun f hf h hh => ⟨(hall f hf h hh).1, (hall f hf h hh).2⟩ }
  exact ⟨h, ofArguments_arguments h "p"⟩

end Settings

end Ingest

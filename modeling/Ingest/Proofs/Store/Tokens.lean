import Mathlib
import Ingest.Store.Postgres.Statement

/-!
# Statements as tokens

`lex?` reads a text by the rules of SQL, one character after the other: words, names between double
quotes, literals between single quotes, parameters and some signs. A quote that stands twice within
its like is one character of the name or literal. What the statements of a storage have no use for is
refused: numbers, comments, other signs, and whatever gives a quote another meaning, such as a letter
directly in front of it.

A text in pieces is read piece by piece (`Settles`). A name is the one piece that another character
could belong to, a double quote, so that what follows it must not begin with one (`Reads`).
-/

namespace Ingest.Store.Postgres

inductive Token where
  | word (s : String)
  /-- A name between double quotes. -/
  | name (s : String)
  /-- A text between single quotes. -/
  | literal (s : String)
  | param (n : ℕ)
  | sign (s : String)
  deriving DecidableEq, Repr

namespace Token

/-- Where a reader is. -/
inductive Mode where
  | between
  | word (s : List Char)
  | name (s : List Char)
  /-- After a double quote in a name: its end, or the first half of a doubled one. -/
  | nameQuote (s : List Char)
  | literal (s : List Char)
  | literalQuote (s : List Char)
  | dollar
  | param (n : ℕ)
  | colon
  deriving DecidableEq

def doubleQuote : Char := '\x22'

def singleQuote : Char := '\x27'

def isWordPart (c : Char) : Bool :=
  c.isAlphanum || c == '_' || c == '$'

/-- What a character begins: the tokens that it is, and what may go on after it. -/
def begin? (c : Char) : Option (List Token × Mode) :=
  if c = ' ' then some ([], .between)
  else if c = doubleQuote then some ([], .name [])
  else if c = singleQuote then some ([], .literal [])
  else if c = '$' then some ([], .dollar)
  else if c = ':' then some ([], .colon)
  else if c ∈ ['(', ')', ',', '.', '='] then some ([.sign (String.singleton c)], .between)
  else if c.isAlpha || c == '_' then some ([], .word [c])
  else none

/-- The token is over, and the character begins another one. -/
def beginAfter? (t : Token) (c : Char) : Option (List Token × Mode) :=
  (begin? c).map fun p => (t :: p.1, p.2)

/-- What a character makes of what was read so far: the tokens that are complete now, and how it goes
on. -/
def step? : Mode → Char → Option (List Token × Mode)
  | .between, c => begin? c
  | .word s, c =>
    if isWordPart c then some ([], .word (s ++ [c]))
    else if c = doubleQuote ∨ c = singleQuote then none
    else beginAfter? (.word (String.ofList s)) c
  | .name s, c => some ([], if c = doubleQuote then .nameQuote s else .name (s ++ [c]))
  | .nameQuote s, c =>
    if c = doubleQuote then some ([], .name (s ++ [c])) else beginAfter? (.name (String.ofList s)) c
  | .literal s, c => some ([], if c = singleQuote then .literalQuote s else .literal (s ++ [c]))
  | .literalQuote s, c =>
    if c = singleQuote then some ([], .literal (s ++ [c]))
    else beginAfter? (.literal (String.ofList s)) c
  | .dollar, c => if c.isDigit then some ([], .param (c.toNat - '0'.toNat)) else none
  | .param n, c =>
    if c.isDigit then some ([], .param (10 * n + (c.toNat - '0'.toNat)))
    else if isWordPart c then none
    else beginAfter? (.param n) c
  | .colon, c => if c = ':' then some ([.sign "::"], .between) else none

/-- What is complete at the end of a text. -/
def Mode.ended? : Mode → Option (List Token)
  | between => some []
  | word s => some [.word (String.ofList s)]
  | nameQuote s => some [.name (String.ofList s)]
  | literalQuote s => some [.literal (String.ofList s)]
  | param n => some [.param n]
  | name _ | literal _ | dollar | colon => none

def run? : Mode → List Char → Option (List Token × Mode)
  | m, [] => some ([], m)
  | m, c :: s => (step? m c).bind fun p => (run? p.2 s).map fun q => (p.1 ++ q.1, q.2)

/-- The tokens of a text that goes on where a reader is. -/
def lexFrom? (m : Mode) (s : List Char) : Option (List Token) :=
  (run? m s).bind fun p => p.2.ended?.map (p.1 ++ ·)

/-- The tokens of a text. -/
def lex? (s : String) : Option (List Token) :=
  lexFrom? .between s.toList

variable {m m' : Mode} {s s' : List Char} {ts ts' : List Token}

theorem run?_append (m : Mode) (s s' : List Char) : run? m (s ++ s')
    = (run? m s).bind fun p => (run? p.2 s').map fun q => (p.1 ++ q.1, q.2) := by
  induction s generalizing m with
  | nil => simp [run?]
  | cons c s ih =>
    simp only [List.cons_append, run?, ih]
    rcases step? m c with _ | p
    · rfl
    rcases hs : run? p.2 s with _ | q
    · simp [hs]
    · simp [hs, Function.comp_def]

theorem lexFrom?_append (h : run? m s = some (ts, m')) (rest : List Char) :
    lexFrom? m (s ++ rest) = (lexFrom? m' rest).map (ts ++ ·) := by
  simp only [lexFrom?, run?_append, h, Option.bind_some]
  rcases run? m' rest with _ | q
  · rfl
  · simp [Function.comp_def]

/-- The text is read as these tokens, whatever follows. -/
def Settles (s : String) (ts : List Token) : Prop :=
  ∀ rest, lexFrom? .between (s.toList ++ rest) = (lexFrom? .between rest).map (ts ++ ·)

/-- The text is read as these tokens, if it is not followed by a double quote. -/
def Reads (s : String) (ts : List Token) : Prop :=
  ∀ rest, rest.head? ≠ some doubleQuote →
    lexFrom? .between (s.toList ++ rest) = (lexFrom? .between rest).map (ts ++ ·)

theorem settles_of_run? {s : String} (h : run? .between s.toList = some (ts, .between)) :
    Settles s ts :=
  fun rest => lexFrom?_append h rest

theorem settles_empty : Settles "" [] :=
  settles_of_run? rfl

section Pieces

variable {s s' : String}

theorem Settles.reads (h : Settles s ts) : Reads s ts :=
  fun rest _ => h rest

theorem Settles.append (h : Settles s ts) (h' : Reads s' ts') : Reads (s ++ s') (ts ++ ts') := by
  intro rest hrest
  rw [String.toList_append, List.append_assoc, h, h' rest hrest, Option.map_map]
  congr 1
  funext us
  exact (List.append_assoc ts ts' us).symm

/-- A piece after a name that does not begin with a double quote ends the name. -/
theorem Reads.append (h : Reads s ts) (h' : Settles s' ts')
    (hne : s'.toList.head?.any (· != doubleQuote) = true) : Settles (s ++ s') (ts ++ ts') := by
  intro rest
  obtain ⟨c, hc, hne⟩ := (Option.any_eq_true ..).mp hne
  have hhead : (s'.toList ++ rest).head? ≠ some doubleQuote := by
    rw [List.head?_append, hc]
    simpa using hne
  rw [String.toList_append, List.append_assoc, h _ hhead, h', Option.map_map]
  congr 1
  funext us
  exact (List.append_assoc ts ts' us).symm

theorem Settles.lex?_append (h : Settles s ts) (h' : Token.lex? s' = some ts') :
    Token.lex? (s ++ s') = some (ts ++ ts') := by
  rw [Token.lex?, String.toList_append, h, ← Token.lex?, h']
  rfl

theorem Reads.lex? (h : Reads s ts) : Token.lex? s = some ts := by
  have hend := h [] (by simp)
  rw [List.append_nil] at hend
  rw [Token.lex?, hend]
  show some (ts ++ []) = some ts
  rw [List.append_nil]

end Pieces

/-! ### Names -/

theorem run?_doubled (acc s : List Char) :
    run? (.name acc) (doubled s) = some ([], .name (acc ++ s)) := by
  induction s generalizing acc with
  | nil => simp [doubled, run?]
  | cons c s ih =>
    rw [doubled, List.flatMap_cons, ← doubled, run?_append]
    by_cases hc : c = '\x22'
    · subst hc
      simp [run?, step?, doubleQuote, ih]
    · simp [run?, step?, doubleQuote, hc, ih]

/-- A name between quotes is read as this name, whatever its characters are. -/
theorem reads_quoted (name : String) : Reads (quoted name) [.name name] := by
  have hrun : run? .between (quoted name).toList = some ([], .nameQuote name.toList) := by
    have htext : (quoted name).toList = doubleQuote :: (doubled name.toList ++ [doubleQuote]) := by
      simp [quoted, doubleQuote]
    rw [htext, run?, step?]
    simp [begin?, run?_append, run?_doubled, run?, step?, doubleQuote]
  intro rest hrest
  rw [lexFrom?_append hrun]
  cases rest with
  | nil => simp [lexFrom?, run?, Mode.ended?]
  | cons c rest =>
    have hc : c ≠ doubleQuote := by simpa using hrest
    simp only [lexFrom?, run?, step?, hc, if_false, beginAfter?]
    rcases begin? c with _ | p
    · rfl
    rcases hp : run? p.2 rest with _ | q
    · simp [hp]
    · simp [hp, Function.comp_def]

/-- Pieces with commas between are read as their tokens with commas between. -/
theorem reads_commas {α : Type} {text : α → String} {tokens : α → List Token}
    (h : ∀ x, Reads (text x) (tokens x)) (xs : List α) :
    Reads (", ".intercalate (xs.map text)) ([.sign ","].intercalate (xs.map tokens)) := by
  have hcomma : Settles ", " [.sign ","] := settles_of_run? (by decide +kernel)
  induction xs with
  | nil => exact settles_empty.reads
  | cons x xs ih =>
    cases xs with
    | nil => simpa using h x
    | cons y ys =>
      have hx := ((h x).append hcomma (by decide +kernel)).append ih
      simpa [List.intercalate, String.append_assoc] using hx

end Token

end Ingest.Store.Postgres

/-!
# Text with ASCII rules

Case and blanks are those of ASCII, whatever the language of the text: a letter outside `A` to `Z`
has no other case, and a blank is a space or one of the five controls from tab to carriage return.

`cut` splits a text around the first place where a separator stands, and `beforeNul` is what a
reader sees that stops at the character with code 0.
-/

namespace Ingest.Text

/-- A space, or a control from tab (9) to carriage return (13). -/
def isBlank (c : Char) : Bool :=
  c == ' ' || (9 ≤ c.toNat && c.toNat ≤ 13)

def trimStart (s : List Char) : List Char :=
  s.dropWhile isBlank

/-- Drops the longest stretch at the end all of whose characters satisfy `p`. -/
def dropEndWhile (p : Char → Bool) (s : List Char) : List Char :=
  (s.reverse.dropWhile p).reverse

def trim (s : List Char) : List Char :=
  dropEndWhile isBlank (trimStart s)

def lower (s : List Char) : List Char :=
  s.map Char.toLower

/-- Two texts that differ in the case of ASCII letters only. -/
def sameIgnoringCase (s t : List Char) : Bool :=
  lower s == lower t

/-- What stands before the first character with code 0. -/
def beforeNul (s : List Char) : List Char :=
  s.takeWhile (· != '\x00')

/-- The text before and the text after the first place where `sep` stands. -/
def cut (sep : List Char) : List Char → Option (List Char × List Char)
  | [] => if sep.isEmpty then some ([], []) else none
  | c :: s =>
    if sep.isPrefixOf (c :: s) then some ([], (c :: s).drop sep.length)
    else (cut sep s).map fun p => (c :: p.1, p.2)

end Ingest.Text

namespace Ingest

/-- The part of a text that a reader sees that stops at the character with code 0. -/
def untilNul (s : String) : String :=
  String.ofList (Text.beforeNul s.toList)

end Ingest

import Ingest.Text.Ascii
import Ingest.Number.Binary64

/-!
# Reading numbers

`Binary64.read?` reads a whole text as a floating point number: blanks, a sign, and then a decimal
or a hexadecimal number with an optional exponent, the word `inf` or `infinity`, or `nan`, which
letters, digits and underscores in brackets may follow. The empty text reads as zero.

`Whole.read?` reads a whole text as an integer of 32 bits, by way of the 64 bits that `Whole.convert`
makes of it, and `Whole.readCount` reads the digits that a text starts with.
-/

namespace Ingest

namespace Digits

/-- The value of a decimal digit. -/
def decimal? (c : Char) : Option Nat :=
  if '0' ≤ c ∧ c ≤ '9' then some (c.toNat - '0'.toNat) else none

/-- The value of a hexadecimal digit of either case. -/
def hex? (c : Char) : Option Nat :=
  if '0' ≤ c ∧ c ≤ '9' then some (c.toNat - '0'.toNat)
  else if 'a' ≤ c ∧ c ≤ 'f' then some (c.toNat - 'a'.toNat + 10)
  else if 'A' ≤ c ∧ c ≤ 'F' then some (c.toNat - 'A'.toNat + 10)
  else none

/-- The digits at the start of a text, and what follows them. -/
def span (digit? : Char → Option Nat) : List Char → List Nat × List Char
  | [] => ([], [])
  | c :: s =>
    match digit? c with
    | some d => let p := span digit? s; (d :: p.1, p.2)
    | none => ([], c :: s)

def value (base : Nat) (ds : List Nat) : Nat :=
  ds.foldl (fun n d => n * base + d) 0

/-- A sign at the start of a text: whether it is a minus, and what follows it. -/
def sign : List Char → Bool × List Char
  | '-' :: s => (true, s)
  | '+' :: s => (false, s)
  | s => (false, s)

end Digits

namespace Binary64

/-- Digits with at most one point among them: the digits on both sides, how many stand after the
point, and what follows. At least one digit is needed. -/
def significand? (digit? : Char → Option Nat) (s : List Char) :
    Option (List Nat × Nat × List Char) :=
  let (whole, rest) := Digits.span digit? s
  let (fraction, rest) :=
    match rest with
    | '.' :: after => Digits.span digit? after
    | _ => ([], rest)
  if whole.isEmpty && fraction.isEmpty then none
  else some (whole ++ fraction, fraction.length, rest)

/-- The exponent that ends a text: nothing, or one of `marks`, a sign and digits. -/
def exponent? (marks : List Char) : List Char → Option Int
  | [] => some 0
  | c :: s =>
    if marks.contains c then
      let (negative, s) := Digits.sign s
      match Digits.span Digits.decimal? s with
      | (d :: ds, []) =>
        let n : Int := Digits.value 10 (d :: ds)
        some (if negative then -n else n)
      | _ => none
    else none

def decimalMagnitude? (s : List Char) : Option Nat := do
  let (digits, places, rest) ← significand? Digits.decimal? s
  let e ← exponent? ['e', 'E'] rest
  some (ofDecimal (Digits.value 10 digits) (e - places))

def hexMagnitude? (s : List Char) : Option Nat := do
  let (digits, places, rest) ← significand? Digits.hex? s
  let e ← exponent? ['p', 'P'] rest
  some (ofBinary (Digits.value 16 digits) (e - 4 * places))

/-- What may follow `nan`: nothing, or a word of letters, digits and underscores in brackets. -/
def isNanTail : List Char → Bool
  | [] => true
  | '(' :: s =>
    match s.reverse with
    | ')' :: inner => inner.all fun c => c.isAlphanum || c == '_'
    | _ => false
  | _ => false

/-- A number without its sign. -/
def readUnsigned? (negative : Bool) (s : List Char) : Option Binary64 :=
  let low := s.map Char.toLower
  if low = "inf".toList ∨ low = "infinity".toList then some (.number negative infiniteMagnitude)
  else if "nan".toList.isPrefixOf low then if isNanTail (s.drop 3) then some .nan else none
  else
    match low with
    | '0' :: 'x' :: _ => (hexMagnitude? (s.drop 2)).map (.number negative)
    | _ => (decimalMagnitude? s).map (.number negative)

def read? (s : List Char) : Option Binary64 :=
  if s.isEmpty then some zero
  else
    let (negative, rest) := Digits.sign (Text.trimStart s)
    readUnsigned? negative rest

end Binary64

namespace Whole

/-- The integer that a text starts with, of whatever size, and what follows it: blanks, at most one
sign, and one or more digits. -/
def leading? (s : List Char) : Option (Int × List Char) :=
  let (negative, rest) := Digits.sign (Text.trimStart s)
  match Digits.span Digits.decimal? rest with
  | ([], _) => none
  | (d :: ds, rest) =>
    let n : Int := Digits.value 10 (d :: ds)
    some (if negative then -n else n, rest)

/-- The least integer of 64 bits with a sign. -/
def least64 : Int := -0x8000000000000000

/-- The greatest integer of 64 bits with a sign. -/
def greatest64 : Int := 0x7fffffffffffffff

/-- What a text gives as an integer of 64 bits. -/
structure Conversion where
  value : Int
  /-- What follows the integer in the text. -/
  rest : List Char
  /-- The integer that is spelled is not one of 64 bits. -/
  outOfRange : Bool

/-- Converts the integer that a text starts with. One that is out of range gives the bound on its side,
and a text that starts with none gives zero, with all of the text left. -/
def convert (s : List Char) : Conversion :=
  match leading? s with
  | none => ⟨0, s, false⟩
  | some (n, rest) =>
    if n < least64 then ⟨least64, rest, true⟩
    else if greatest64 < n then ⟨greatest64, rest, true⟩
    else ⟨n, rest, false⟩

/-- Whether an integer fits 32 bits with a sign. -/
def fits32 (n : Int) : Bool :=
  -2147483648 ≤ n && n < 2147483648

/-- The integer of 32 bits that a whole text spells. It is refused if it is out of range for 64 bits,
if nothing was converted or something is left, and if it does not fit. -/
def read? (s : List Char) : Option Int :=
  let c := convert s
  if c.outOfRange || c.rest == s || !c.rest.isEmpty || !fits32 c.value then none else some c.value

/-- How many numbers 64 bits can spell. -/
def words64 : Nat := 0x10000000000000000

/-- The number that a text starts with, after blanks and a sign, in 64 bits without a sign: a minus
counts down from `words64`. A text without digits reads as zero. -/
def readCount (s : List Char) : Nat :=
  let (negative, rest) := Digits.sign (Text.trimStart s)
  let n := Digits.value 10 (Digits.span Digits.decimal? rest).1
  if negative then (words64 - n % words64) % words64 else n % words64

end Whole

end Ingest

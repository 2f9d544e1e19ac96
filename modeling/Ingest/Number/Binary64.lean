/-!
# Numbers of 64 bits

A `Binary64` is a floating point number with 53 significant bits. Its magnitude is kept as the
number that its lower 63 bits spell, so magnitudes compare as natural numbers do: `1.0` is
`0x3ff0000000000000` and the infinite magnitude is `0x7ff0000000000000`.

`Binary64.ofRatio` rounds an exact ratio to the nearest magnitude, a half to the even neighbour.
-/

namespace Ingest

inductive Binary64 where
  | nan
  | number (negative : Bool) (magnitude : Nat)
  deriving DecidableEq, Repr

namespace Binary64

def infiniteMagnitude : Nat := 0x7ff0000000000000

def oneMagnitude : Nat := 0x3ff0000000000000

def zero : Binary64 := .number false 0

def one : Binary64 := .number false oneMagnitude

/-- The nearest natural number to `a / b`, a half going to the even one. -/
def roundDiv (a b : Nat) : Nat :=
  let q := a / b
  let r := a % b
  if 2 * r < b then q
  else if b < 2 * r then q + 1
  else if q % 2 = 0 then q else q + 1

/-- The greatest `k` with `2 ^ k ≤ a / b`, for positive `a` and `b`. -/
def floorLog2 (a b : Nat) : Int :=
  let l : Int := (a.log2 : Int) - (b.log2 : Int)
  let reached : Bool :=
    if 0 ≤ l then decide (b * Nat.pow 2 l.toNat ≤ a)
    else decide (b ≤ a * Nat.pow 2 (-l).toNat)
  if reached then l else l - 1

/-- The magnitude nearest to `a / b`. The unit in the last place is `2 ^ k` with 53 digits before
it, but never below `2 ^ (-1074)`, the least positive magnitude. -/
def ofRatio (a b : Nat) : Nat :=
  if a = 0 then 0
  else
    let k : Int := max (floorLog2 a b - 52) (-1074)
    let digits :=
      if 0 ≤ k then roundDiv a (b * Nat.pow 2 k.toNat) else roundDiv (a * Nat.pow 2 (-k).toNat) b
    min infiniteMagnitude ((k + 1074).toNat * 0x10000000000000 + digits)

/-- The magnitude nearest to `m * 10 ^ e`. Where the decimal point lies so far out that every such
number is beyond the greatest or below half the least magnitude, the power is not formed. -/
def ofDecimal (m : Nat) (e : Int) : Nat :=
  if m = 0 then 0
  else
    let point : Int := ((Nat.toDigits 10 m).length : Int) + e
    if 320 < point then infiniteMagnitude
    else if point < -340 then 0
    else if 0 ≤ e then ofRatio (m * Nat.pow 10 e.toNat) 1
    else ofRatio m (Nat.pow 10 (-e).toNat)

/-- The magnitude nearest to `m * 2 ^ e`, with the same care for far exponents. -/
def ofBinary (m : Nat) (e : Int) : Nat :=
  if m = 0 then 0
  else
    let point : Int := (m.log2 : Int) + e
    if 1100 < point then infiniteMagnitude
    else if point < -1200 then 0
    else if 0 ≤ e then ofRatio (m * Nat.pow 2 e.toNat) 1
    else ofRatio m (Nat.pow 2 (-e).toNat)

def isNan : Binary64 → Bool
  | nan => true
  | number _ _ => false

/-- Below zero; a negative zero is not. -/
def isNegative : Binary64 → Bool
  | nan => false
  | number n m => n && m != 0

def exceedsOne : Binary64 → Bool
  | nan => false
  | number n m => !n && oneMagnitude < m

/-- At most zero, zeros of either sign included. -/
def isAtMostZero : Binary64 → Bool
  | nan => false
  | number n m => n || m == 0

/-- Numeric order. Nothing is below or above `nan`, and the two zeros are equal. -/
def lt : Binary64 → Binary64 → Bool
  | number n m, number n' m' =>
    match n, n' with
    | false, false => m < m'
    | true, true => m' < m
    | true, false => m != 0 || m' != 0
    | false, true => false
  | _, _ => false

/-- Numeric equality. `nan` equals nothing, itself included. -/
def eq : Binary64 → Binary64 → Bool
  | number n m, number n' m' => (n == n' && m == m') || (m == 0 && m' == 0)
  | _, _ => false

/-- The 64 bits as a number; none for `nan`, which has many. -/
def bits? : Binary64 → Option Nat
  | nan => none
  | number n m => some ((if n then 0x8000000000000000 else 0) + m)

end Binary64

end Ingest

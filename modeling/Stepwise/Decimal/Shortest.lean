import Stepwise.Decimal.Binary64

/-!
# Decimal digits of binary numbers

`shortestDigits` finds the fewest digits that read back as the same number, and among those the
nearest ones. `roundedDigits` rounds to a given count of digits and `fixedDigits` to a given place.
All arithmetic is exact.
-/

namespace Stepwise

/-- A positive decimal number `0.d₁d₂d₃… * 10 ^ point`, with `digits` free of leading and trailing
zeros; zero has no digits. -/
structure Decimal where
  digits : List Char
  point : Int
  deriving Repr, BEq

/-- The digits of `n` in base ten; zero has the digit `0`. -/
def decimalDigits (n : Nat) : List Char := Nat.toDigits 10 n

/-- `coefficient * 10 ^ exponent` in normal form. -/
def Decimal.ofScaled (coefficient : Nat) (exponent : Int) : Decimal :=
  if coefficient = 0 then ⟨[], 0⟩
  else
    let all := decimalDigits coefficient
    ⟨(all.reverse.dropWhile (· == '0')).reverse, all.length + exponent⟩

/-- `n * Nat.pow 10 k` as a fraction. -/
def scaleByTen (n : Nat) (k : Int) : Nat × Nat :=
  match k with
  | .ofNat k => (n * Nat.pow 10 k, 1)
  | .negSucc k => (n, Nat.pow 10 (k + 1))

/-- The largest `e` with `10 ^ e ≤ numerator / denominator`, for a positive fraction that is no
negative power of ten. -/
def decimalExponent (numerator denominator : Nat) : Int :=
  if denominator ≤ numerator then ((decimalDigits (numerator / denominator)).length : Int) - 1
  else -((decimalDigits (denominator / numerator)).length : Int)

/-- A positive fraction rounded at the place `10 ^ place`, a tie going to the even digit. -/
def roundAtPlace (numerator denominator : Nat) (place : Int) : Decimal :=
  let (p, q) := scaleByTen numerator (-place)
  .ofScaled (roundQuotient p (denominator * q)) place

/-- The exact fraction `mantissa * 2 ^ exponent` and the ends of the interval of fractions that are
rounded to it, over a common denominator. -/
structure RoundingInterval where
  denominator : Nat
  lower : Nat
  value : Nat
  upper : Nat
  /-- Whether the ends are rounded to the value as well. -/
  closed : Bool

/-- Below a power of two numbers lie twice as close as above it. -/
def RoundingInterval.of (mantissa : Nat) (exponent : Int) : RoundingInterval :=
  let (unit, denominator) := scaleByTwo 1 (exponent - 2)
  let below := if mantissa = Nat.pow 2 52 ∧ minExponent < exponent then 1 else 2
  { denominator
    lower := (4 * mantissa - below) * unit
    value := 4 * mantissa * unit
    upper := (4 * mantissa + 2) * unit
    closed := mantissa % 2 = 0 }

/-- Whether `n / d` lies in the interval. -/
def RoundingInterval.contains (i : RoundingInterval) (n d : Nat) : Bool :=
  let x := n * i.denominator
  if i.closed then i.lower * d ≤ x && x ≤ i.upper * d
  else i.lower * d < x && x < i.upper * d

/-- The nearest multiple of `10 ^ place` in the interval, if one of the two neighbours of the value
lies in it. -/
def RoundingInterval.multiple? (i : RoundingInterval) (place : Int) : Option Nat :=
  let (p, q) := scaleByTen i.value (-place)
  let d := i.denominator * q
  let c := p / d
  let inside (n : Nat) : Bool :=
    let (a, b) := scaleByTen n place
    i.contains a b
  match inside c, inside (c + 1) with
  | true, true =>
    let twice := 2 * (p % d)
    some (if twice < d then c else if d < twice then c + 1 else if c % 2 = 0 then c else c + 1)
  | true, false => some c
  | false, true => some (c + 1)
  | false, false => none

/-- Tries `count` digits, then one more, as long as `tries` lasts. -/
def RoundingInterval.search (i : RoundingInterval) (exponent : Int) (count : Nat) :
    (tries : Nat) → Decimal
  | 0 => roundAtPlace i.value i.denominator (exponent + 1 - count)
  | tries + 1 =>
    let place := exponent + 1 - count
    match i.multiple? place with
    | some c => .ofScaled c place
    | none => i.search exponent (count + 1) tries

/-- The fewest digits that read back as the finite number `mantissa * 2 ^ exponent`; an integer of at
most 53 bits has its own digits. -/
def shortestDigits (mantissa : Nat) (exponent : Int) : Decimal :=
  if mantissa = 0 then ⟨[], 0⟩
  else
    let (p, q) := scaleByTwo mantissa exponent
    if p % q = 0 ∧ p / q < Nat.pow 2 53 then .ofScaled (p / q) 0
    else
      let i := RoundingInterval.of mantissa exponent
      i.search (decimalExponent i.value i.denominator) 1 16

/-- The finite number `mantissa * 2 ^ exponent` rounded to `count` digits. -/
def roundedDigits (mantissa : Nat) (exponent : Int) (count : Nat) : Decimal :=
  if mantissa = 0 then ⟨[], 0⟩
  else
    let (p, q) := scaleByTwo mantissa exponent
    roundAtPlace p q (decimalExponent p q + 1 - count)

/-- The finite number `mantissa * 2 ^ exponent` with `places` digits after the point. -/
def fixedDigits (mantissa : Nat) (exponent : Int) (places : Nat) : List Char :=
  let (p, q) := scaleByTwo mantissa exponent
  let all := decimalDigits (roundQuotient (p * Nat.pow 10 places) q)
  let padded := List.replicate (places + 1 - all.length) '0' ++ all
  let whole := padded.take (padded.length - places)
  if places = 0 then whole else whole ++ '.' :: padded.drop (padded.length - places)

end Stepwise

import Stepwise.Decimal.Shortest

/-!
# Texts of numbers

A `NumberStyle` says where a decimal number is written positionally, how its exponent looks and
whether minus zero shows its sign. The styles of the program are `NumberStyle.script`, for
conversions of the interpreted language, `NumberStyle.compact`, for snapshots and property names, and
`NumberStyle.json`.
-/

namespace Stepwise

/-- The decisions about the text of a number. -/
structure NumberStyle where
  /-- Exponents from this one on are written positionally. -/
  least : Int
  /-- Exponents from this one on are written with an exponent again. -/
  limit : Int
  /-- The least number of digits of a written exponent. -/
  exponentWidth : Nat
  /-- Whether minus zero is written with its sign. -/
  signedZero : Bool
  nan : String
  positiveInfinity : String
  negativeInfinity : String

/-- Conversion of a number to a string in the interpreted language. -/
def NumberStyle.script : NumberStyle where
  least := -6
  limit := 21
  exponentWidth := 1
  signedZero := false
  nan := "NaN"
  positiveInfinity := "Infinity"
  negativeInfinity := "-Infinity"

/-- Snapshots, numeric property names and the stepping prompt. -/
def NumberStyle.compact : NumberStyle where
  least := -4
  limit := 6
  exponentWidth := 2
  signedZero := true
  nan := "NaN"
  positiveInfinity := "+Inf"
  negativeInfinity := "-Inf"

/-- Number literals of JSON texts. -/
def NumberStyle.json : NumberStyle := { NumberStyle.script with signedZero := true }

/-- Digits with the point at `point`, padded with zeros on the side where it lies outside. -/
def positional (digits : List Char) (point : Int) : List Char :=
  if point ≤ 0 then '0' :: '.' :: (List.replicate (-point).toNat '0' ++ digits)
  else
    let n := point.toNat
    if digits.length ≤ n then digits ++ List.replicate (n - digits.length) '0'
    else digits.take n ++ '.' :: digits.drop n

/-- An exponent with its sign, padded to `width` digits. -/
def exponentText (width : Nat) (e : Int) : List Char :=
  let all := decimalDigits e.natAbs
  (if e < 0 then '-' else '+') :: (List.replicate (width - all.length) '0' ++ all)

/-- Digits with the point after the first one, and the exponent. -/
def scientific (width : Nat) (digits : List Char) (exponent : Int) : List Char :=
  match digits with
  | [] => []
  | [d] => d :: 'e' :: exponentText width exponent
  | d :: rest => d :: '.' :: rest ++ 'e' :: exponentText width exponent

/-- A nonempty digit sequence with the point at `point`, in a style. -/
def NumberStyle.layout (s : NumberStyle) (digits : List Char) (point : Int) : List Char :=
  if s.least ≤ point - 1 ∧ point - 1 < s.limit then positional digits point
  else scientific s.exponentWidth digits (point - 1)

/-- The text of a number in a style, with the fewest digits that read back. -/
def NumberStyle.render (s : NumberStyle) (x : Float) : String :=
  match Magnitude.decode x with
  | .nan => s.nan
  | .infinite negative => if negative then s.negativeInfinity else s.positiveInfinity
  | .finite negative mantissa exponent =>
    if mantissa = 0 then if negative && s.signedZero then "-0" else "0"
    else
      let d := shortestDigits mantissa exponent
      let text := s.layout d.digits d.point
      String.ofList (if negative then '-' :: text else text)

/-- A finite number with a fixed number of places after the point. -/
def renderFixed (x : Float) (places : Nat) : String :=
  match Magnitude.decode x with
  | .finite negative mantissa exponent =>
    let text := fixedDigits mantissa exponent places
    String.ofList (if negative then '-' :: text else text)
  | _ => NumberStyle.compact.render x

/-- A finite number rounded to `count` significant digits. Trailing zeros are dropped, and the
exponent is written when it is below -4 or not below the number of digits asked for, where an integer
with fewer digits counts those. -/
def renderSignificant (x : Float) (count : Nat) : String :=
  match Magnitude.decode x with
  | .finite negative mantissa exponent =>
    let d := roundedDigits mantissa exponent count
    let text :=
      if d.digits.isEmpty then ['0']
      else
        let length : Int := d.digits.length
        let limit : Int := if length < count ∧ d.point ≤ length then length else count
        { NumberStyle.compact with limit }.layout d.digits d.point
    String.ofList (if negative then '-' :: text else text)
  | _ => NumberStyle.compact.render x

end Stepwise

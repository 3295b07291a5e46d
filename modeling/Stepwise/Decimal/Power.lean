import Stepwise.Decimal.Binary64

/-!
# Powers

`power x y` raises the mantissa of `x` to the whole part of `y` by repeated squaring and keeps the
exponent beside it; a fractional part goes through the logarithm.
-/

namespace Stepwise

/-- Whether `x` is an odd integer. -/
def isOddInteger (x : Float) : Bool := x == truncate x && !x.isInf && truncateToInt x % 2 != 0

/-- A positive or negative number as a mantissa between a half and one, and an exponent of two. -/
def splitExponent (x : Float) : Float × Int :=
  match Magnitude.decode x with
  | .finite negative mantissa exponent =>
    if mantissa = 0 then (x, 0)
    else
      let width : Int := mantissa.log2 + 1
      (Magnitude.encode negative mantissa (-width), exponent + width)
  | _ => (x, 0)

/-- `x * 2 ^ e`, rounded once. -/
def scaleByExponent (x : Float) (e : Int) : Float :=
  match Magnitude.decode x with
  | .finite negative mantissa exponent =>
    -- beyond these bounds the result is infinite or zero whatever the mantissa
    if 3000 < e then nearest negative mantissa 3000
    else if e < -3000 then nearest negative mantissa (-3000)
    else nearest negative mantissa (exponent + e)
  | _ => x
where
  nearest (negative : Bool) (mantissa : Nat) (e : Int) : Float :=
    let (p, q) := scaleByTwo mantissa e
    (nearestFloat negative p q).1

/-- Multiplies `acc * 2 ^ accExp` by the `n`-th power of `x * 2 ^ xExp`, squaring `x` in each of at most
`turns` turns. -/
def powerBySquaring (acc : Float) (accExp : Int) (x : Float) (xExp : Int) :
    (turns : Nat) → (n : Nat) → Float × Int
  | 0, _ => (acc, accExp)
  | turns + 1, n =>
    if n = 0 then (acc, accExp)
    else if xExp < -4096 ∨ 4096 < xExp then (acc, accExp + xExp)
    else
      let (acc, accExp) := if n % 2 = 1 then (acc * x, accExp + xExp) else (acc, accExp)
      let square := x * x
      let (x, xExp) := if square < 0.5 then (square + square, xExp * 2 - 1) else (square, xExp * 2)
      powerBySquaring acc accExp x xExp turns (n / 2)

/-- The power of a finite base that is not zero, with a finite exponent. -/
def finitePower (x y : Float) : Float :=
  let size := y.abs
  let whole := size.floor
  let fraction := size - whole
  if !(fraction == 0) && x < 0 then notANumber
  else if 9223372036854775808 ≤ whole then
    if x == -1 then 1 else if (x.abs < 1) == (0 < y) then 0 else infinity
  else
    let (whole, fraction) := if 0.5 < fraction then (whole + 1, fraction - 1) else (whole, fraction)
    let start := if fraction == 0 then 1 else Float.exp (fraction * Float.log x)
    let (mantissa, exponent) := splitExponent x
    let (a, e) := powerBySquaring start 0 mantissa exponent 64 (truncateToInt whole).toNat
    if y < 0 then scaleByExponent (1 / a) (-e) else scaleByExponent a e

/-- `x` to the power of `y`. -/
def power (x y : Float) : Float :=
  if y == 0 || x == 1 then 1
  else if y == 1 then x
  else if x.isNaN || y.isNaN then notANumber
  else if x == 0 then
    let result := if y < 0 then infinity else 0
    if signBit x && isOddInteger y then -result else result
  else if y.isInf then
    if x == -1 then 1 else if (x.abs < 1) == (0 < y) then 0 else infinity
  else if x.isInf then
    let result := if y < 0 then 0 else infinity
    if x < 0 && isOddInteger y then -result else result
  else if y == 0.5 then x.sqrt
  else if y == -0.5 then 1 / x.sqrt
  else finitePower x y

end Stepwise

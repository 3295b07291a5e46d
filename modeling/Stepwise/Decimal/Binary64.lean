/-!
# Binary floating-point numbers as exact fractions

A finite number of the 64-bit format is a mantissa times a power of two. `Magnitude.decode` takes a
number apart, and `nearestFloat` rounds an exact positive fraction to the nearest number, a tie going
to the even mantissa.
-/

namespace Stepwise

/-- What a 64-bit floating-point number stands for. -/
inductive Magnitude where
  | nan
  | infinite (negative : Bool)
  /-- The number `mantissa * 2 ^ exponent`, negated if `negative`. -/
  | finite (negative : Bool) (mantissa : Nat) (exponent : Int)

/-- The exponent of the smallest positive number. -/
def minExponent : Int := -1074

/-- Takes the bits of a number apart. -/
def Magnitude.decode (x : Float) : Magnitude :=
  let bits := x.toBits.toNat
  let negative : Bool := Nat.pow 2 63 ≤ bits
  let biased : Nat := bits / Nat.pow 2 52 % Nat.pow 2 11
  let fraction : Nat := bits % Nat.pow 2 52
  if biased = Nat.pow 2 11 - 1 then
    if fraction = 0 then .infinite negative else .nan
  else if biased = 0 then .finite negative fraction minExponent
  else .finite negative (Nat.pow 2 52 + fraction) (biased + (minExponent - 1))

/-- Whether the sign bit of `x` is set; minus zero has it set. -/
def signBit (x : Float) : Bool := Nat.pow 2 63 ≤ x.toBits.toNat

/-- Positive infinity. -/
def infinity : Float := Float.ofBits 0x7FF0000000000000

/-- The number that stands for "not a number". -/
def notANumber : Float := Float.ofBits 0x7FF8000000000001

/-- `numerator / denominator` rounded to the nearest integer, a tie going to the even one. -/
def roundQuotient (numerator denominator : Nat) : Nat :=
  let q := numerator / denominator
  let twice := 2 * (numerator % denominator)
  if twice < denominator then q
  else if denominator < twice then q + 1
  else if q % 2 = 0 then q else q + 1

/-- `n * 2 ^ e` as a fraction. -/
def scaleByTwo (n : Nat) (e : Int) : Nat × Nat :=
  match e with
  | .ofNat k => (n * Nat.pow 2 k, 1)
  | .negSucc k => (n, Nat.pow 2 (k + 1))

/-- The exponent a positive fraction is rounded at: the mantissa gets 53 bits, or fewer where the
least exponent forbids more. -/
def roundingExponent (numerator denominator : Nat) : Int :=
  let e : Int := (numerator.log2 : Int) - denominator.log2 - 53
  let (p, q) := scaleByTwo numerator (-e)
  let e := if Nat.pow 2 53 ≤ p / (denominator * q) then e + 1 else e
  max e minExponent

/-- The nearest number to a fraction, and whether it is out of range. -/
def nearestFloat (negative : Bool) (numerator denominator : Nat) : Float × Bool :=
  let sign := if negative then Nat.pow 2 63 else 0
  if numerator = 0 then (Float.ofBits (UInt64.ofNat sign), false)
  else
    let e := roundingExponent numerator denominator
    let (p, q) := scaleByTwo numerator (-e)
    let mantissa := roundQuotient p (denominator * q)
    let bits := (e - minExponent).toNat * Nat.pow 2 52 + mantissa
    let largest := (Nat.pow 2 11 - 1) * Nat.pow 2 52
    if largest ≤ bits then (Float.ofBits (UInt64.ofNat (sign + largest)), true)
    else (Float.ofBits (UInt64.ofNat (sign + bits)), false)

/-- The number `mantissa * 2 ^ exponent`, which has to be in range. -/
def Magnitude.encode (negative : Bool) (mantissa : Nat) (exponent : Int) : Float :=
  let (p, q) := scaleByTwo mantissa exponent
  (nearestFloat negative p q).1

/-- Drops the fraction of a finite number, as an integer. -/
def truncateToInt (x : Float) : Int :=
  match Magnitude.decode x with
  | .finite negative mantissa exponent =>
    let (p, q) := scaleByTwo mantissa exponent
    if negative then -((p / q : Nat) : Int) else ((p / q : Nat) : Int)
  | _ => 0

/-- The integer nearest to zero between `x` and zero; infinities and "not a number" are kept. -/
def truncate (x : Float) : Float := if x < 0 then x.ceil else x.floor

/-- The remainder of a truncating division, with the sign of the dividend. -/
def remainder (x y : Float) : Float :=
  match Magnitude.decode x, Magnitude.decode y with
  | .nan, _ | _, .nan | .infinite _, _ => notANumber
  | .finite .., .infinite _ => x
  | .finite negative m e, .finite _ n f =>
    if n = 0 then notANumber
    else
      let g := min e f
      Magnitude.encode negative (m * Nat.pow 2 (e - g).toNat % (n * Nat.pow 2 (f - g).toNat)) g

end Stepwise

import Stepwise.Decimal.Binary64

/-!
# Reading numbers

`Numeral.read?` reads a floating-point literal: decimal digits with an optional point and exponent,
hexadecimal digits with a binary exponent, and the words for infinity and "not a number".
Underscores may stand between digits. `Numeral.value` is the nearest number.
-/

namespace Stepwise

/-- A literal, read exactly. -/
inductive Numeral where
  | nan
  | infinite (negative : Bool)
  /-- The number `mantissa * base ^ exponent`, negated if `negative`. -/
  | scaled (negative : Bool) (mantissa base : Nat) (exponent : Int)

/-- The value of a digit in any base up to 36, letters in either case. -/
def digitValue? (c : Char) : Option Nat :=
  if '0' ≤ c ∧ c ≤ '9' then some (c.toNat - '0'.toNat)
  else if 'a' ≤ c ∧ c ≤ 'z' then some (c.toNat - 'a'.toNat + 10)
  else if 'A' ≤ c ∧ c ≤ 'Z' then some (c.toNat - 'A'.toNat + 10)
  else none

/-- The value of a digit below `base`. -/
def digitBelow? (base : Nat) (c : Char) : Option Nat :=
  (digitValue? c).filter (· < base)

/-- The number that a sequence of digits stands for; other characters are skipped. -/
def digitsValue (base : Nat) (cs : List Char) : Nat :=
  (cs.filterMap (digitBelow? base)).foldl (fun n d => n * base + d) 0

/-- The decimal digits and underscores at the front, and the rest. -/
def spanDigits (base : Nat) (cs : List Char) : List Char × List Char :=
  cs.span fun c => c == '_' || (digitBelow? base c).isSome

/-- The digits after a point, and the rest; without a point there are none. -/
def spanFraction (base : Nat) : List Char → List Char × List Char
  | '.' :: rest => spanDigits base rest
  | rest => ([], rest)

/-- Underscores stand only between digits, or after a base mark. -/
def underscoresSeparate (base : Nat) (afterMark : Bool) : List Char → Bool
  | [] => true
  | '_' :: rest =>
    afterMark && (rest.head?.bind (digitBelow? base)).isSome && underscoresSeparate base false rest
  | c :: rest => underscoresSeparate base (digitBelow? base c).isSome rest

/-- An exponent after its mark; it stops growing where only zero and infinity are left. -/
def readExponent? (cs : List Char) : Option Int :=
  let (negative, digits) := match cs with
    | '+' :: rest => (false, rest)
    | '-' :: rest => (true, rest)
    | rest => (false, rest)
  if (digits.head?.bind (digitBelow? 10)).isNone then none
  else if !digits.all (fun c => c == '_' || c.isDigit) then none
  else if !underscoresSeparate 10 false digits then none
  else
    let e := digits.foldl
      (fun e c => if c.isDigit ∧ e < 10000 then e * 10 + (c.toNat - '0'.toNat) else e) 0
    some (if negative then -(e : Int) else e)

/-- Digits with an optional point, an optional exponent and nothing after it. -/
def readMagnitude? (base : Nat) (afterMark : Bool) (cs : List Char) : Option (Nat × Nat × Option Int) :=
  let (whole, rest) := spanDigits base cs
  let (fraction, rest) := spanFraction base rest
  let digit (c : Char) : Bool := (digitBelow? base c).isSome
  if !(whole.any digit || fraction.any digit) then none
  else if !underscoresSeparate base afterMark whole || !underscoresSeparate base false fraction then none
  else
    let mark := if base = 16 then 'p' else 'e'
    let value := digitsValue base (whole ++ fraction)
    let places := (fraction.filter digit).length
    match rest with
    | [] => some (value, places, none)
    | c :: rest => if c.toLower = mark then (readExponent? rest).map fun e => (value, places, some e) else none

/-- Whether `cs` is the word, in any case. -/
def isWord (word : String) (cs : List Char) : Bool := cs.map Char.toLower == word.toList

/-- A literal without its sign. -/
def Numeral.readUnsigned? (negative : Bool) (cs : List Char) : Option Numeral :=
  match cs with
  | '0' :: x :: c :: rest =>
    if x.toLower = 'x' then
      match readMagnitude? 16 true (c :: rest) with
      | some (value, places, some e) => some (.scaled negative value 2 (e - 4 * places))
      | _ => none
    else decimal
  | _ => decimal
where
  decimal :=
    (readMagnitude? 10 false cs).map fun (value, places, e) =>
      .scaled negative value 10 (e.getD 0 - places)

/-- A floating-point literal that covers the whole text. -/
def Numeral.read? (s : String) : Option Numeral :=
  match s.toList with
  | '+' :: rest => if isInfinity rest then some (.infinite false) else readUnsigned? false rest
  | '-' :: rest => if isInfinity rest then some (.infinite true) else readUnsigned? true rest
  | cs =>
    if isInfinity cs then some (.infinite false)
    else if isWord "nan" cs then some .nan
    else readUnsigned? false cs
where
  isInfinity (cs : List Char) : Bool := isWord "inf" cs || isWord "infinity" cs

/-- The nearest number, and whether it is out of range. Exponents far outside the range of the format
are settled without computing the power. -/
def Numeral.round : Numeral → Float × Bool
  | .nan => (notANumber, false)
  | .infinite negative => (if negative then -infinity else infinity, false)
  | .scaled negative mantissa base exponent =>
    let size : Int := mantissa.log2
    if mantissa = 0 then nearestFloat negative 0 1
    else if 0 ≤ exponent then
      if 1100 < exponent then nearestFloat negative (Nat.pow 2 1100) 1
      else nearestFloat negative (mantissa * Nat.pow base exponent.toNat) 1
    else if 1200 + size < -exponent then nearestFloat negative 1 (Nat.pow 2 1200)
    else nearestFloat negative mantissa (Nat.pow base (-exponent).toNat)

/-- The nearest number of a literal. -/
def Numeral.value (n : Numeral) : Float := n.round.1

/-- The number a literal stands for, if the text is a literal in range. -/
def readFloat? (s : String) : Option Float :=
  match Numeral.read? s with
  | some n => let (x, outOfRange) := n.round; if outOfRange then none else some x
  | none => none

/-- An unsigned 64-bit number in hexadecimal digits. -/
def readHex64? (cs : List Char) : Option Nat :=
  if cs.isEmpty || !cs.all (fun c => (digitBelow? 16 c).isSome) then none
  else
    let n := digitsValue 16 cs
    if n < Nat.pow 2 64 then some n else none

end Stepwise

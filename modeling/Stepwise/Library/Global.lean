import Stepwise.Library.Native

/-!
# Global functions

Reading numbers from the front of a text, and asking what a number is.
-/

namespace Stepwise.Library

open Native

/-- The digits of a base at the front of a text, as their values. -/
def leadingDigits (base : Nat) (cs : List Char) : List Nat :=
  (cs.map (digitBelow? base)).takeWhile Option.isSome |>.filterMap fun d => d

/-- A text without its base mark, and the base. -/
def baseOf (radix : Int) (cs : List Char) : List Char × Int :=
  match cs with
  | '0' :: 'x' :: rest | '0' :: 'X' :: rest => if radix = 0 ∨ radix = 16 then (rest, 16) else (cs, radix)
  | _ => (cs, if radix = 0 then 10 else radix)

/-- The integer at the front of a text without its sign. -/
def leadingInteger (radix : Int) (cs : List Char) : Float :=
  let (cs, base) := baseOf radix cs
  if base < 2 ∨ 36 < base then notANumber
  else
    match leadingDigits base.toNat cs with
    | [] => notANumber
    | digits => digits.foldl (fun n d => n * Float.ofInt base + Float.ofNat d) 0

/-- The integer that a text starts with, in a given base. -/
def parseInt : Native := fun c => do
  let h ← get
  let radix := (toInt32 (h.toNumber (c.arg 1))).toInt
  giveNumber <|
    match trimBlankChars (h.toText (c.arg 0)).toList with
    | '-' :: cs => -leadingInteger radix cs
    | '+' :: cs => leadingInteger radix cs
    | cs => leadingInteger radix cs

/-- What a scan for a decimal numeral has seen. -/
structure NumeralScan where
  /-- The number of characters read. -/
  read : Nat := 0
  /-- The length of the longest numeral so far. -/
  length : Nat := 0
  sawPoint : Bool := false
  sawExponent : Bool := false

/-- The length of the longest front of a text that is a decimal numeral ending in a digit. -/
def scanNumeral (s : NumeralScan) : List Char → Nat
  | [] => s.length
  | c :: cs =>
    if c.isDigit then scanNumeral { s with read := s.read + 1, length := s.read + 1 } cs
    else if c = '.' ∧ !s.sawPoint ∧ !s.sawExponent then
      scanNumeral { s with read := s.read + 1, sawPoint := true } cs
    else if (c = 'e' ∨ c = 'E') ∧ !s.sawExponent ∧ 0 < s.length then
      match cs with
      | d :: rest =>
        if d = '+' ∨ d = '-' then scanNumeral { s with read := s.read + 2, sawExponent := true } rest
        else scanNumeral { s with read := s.read + 1, sawExponent := true } (d :: rest)
      | [] => s.length
    else if (c = '+' ∨ c = '-') ∧ s.read = 0 then scanNumeral { s with read := s.read + 1 } cs
    else s.length

/-- The number at the front of a text. -/
def leadingNumber (cs : List Char) : Float :=
  if "Infinity".toList.isPrefixOf cs ∨ "+Infinity".toList.isPrefixOf cs then infinity
  else if "-Infinity".toList.isPrefixOf cs then -infinity
  else
    match scanNumeral {} cs with
    | 0 => notANumber
    | n => (readFloat? (String.ofList (cs.take n))).getD notANumber

/-- The number that a text starts with. -/
def parseFloat : Native := fun c => do
  giveNumber (leadingNumber (trimBlankChars ((← get).toText (c.arg 0)).toList))

/-- Whether the argument converts to no number. -/
def isNotANumber : Native := fun c => do
  giveBool ((← get).toNumber (c.arg 0)).isNaN

/-- Whether the argument converts to a finite number. -/
def isFinite : Native := fun c => do
  let n := (← get).toNumber (c.arg 0)
  giveBool (!n.isNaN && !n.isInf)

/-- The global functions. -/
def globalMethods : List Method :=
  [⟨"parseInt", 2, parseInt⟩, ⟨"parseFloat", 1, parseFloat⟩, ⟨"isNaN", 1, isNotANumber⟩,
   ⟨"isFinite", 1, isFinite⟩]

end Stepwise.Library

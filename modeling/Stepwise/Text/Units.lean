/-!
# Code units

Texts given as 16-bit units: two units of a surrogate pair are one character, and a unit that has lost
its partner is shown as the replacement character.
-/

namespace Stepwise

/-- The character of a unit outside of pairs. -/
def charOfUnit (n : Nat) : Char := if n.isValidChar then Char.ofNat n else '\uFFFD'

/-- Whether a unit is the first of a pair. -/
def isHighSurrogate (n : Nat) : Bool := 0xD800 ≤ n && n < 0xDC00

/-- Whether a unit is the second of a pair. -/
def isLowSurrogate (n : Nat) : Bool := 0xDC00 ≤ n && n < 0xE000

/-- The character of a pair. -/
def charOfPair (high low : Nat) : Char := Char.ofNat (0x10000 + (high - 0xD800) * 0x400 + (low - 0xDC00))

/-- The characters of a sequence of units. -/
def decodeUnits : List Nat → List Char
  | high :: low :: rest =>
    if isHighSurrogate high && isLowSurrogate low then charOfPair high low :: decodeUnits rest
    else charOfUnit high :: decodeUnits (low :: rest)
  | [unit] => [charOfUnit unit]
  | [] => []

end Stepwise

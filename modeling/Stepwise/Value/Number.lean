import Stepwise.Decimal.Numeral
import Stepwise.Text.Search
import Stepwise.Value.Basic

/-!
# Conversions of numbers

How texts become numbers, and how numbers become integers and 32-bit words.
-/

namespace Stepwise

/-- Whether a character can stand in a decimal literal. -/
def isNumeralChar (c : Char) : Bool :=
  c.isDigit || c == '.' || c == 'e' || c == 'E' || c == '+' || c == '-'

/-- The number a text stands for. Blanks around it do not count, and a text of blanks is zero. -/
def stringToNumber (s : String) : Float :=
  match trimBlankChars s.toList with
  | [] => 0
  | '0' :: 'x' :: c :: rest | '0' :: 'X' :: c :: rest =>
    match readHex64? (c :: rest) with
    | some n => (nearestFloat false n 1).1
    | none => notANumber
  | cs =>
    let t := String.ofList cs
    if t = "Infinity" ∨ t = "+Infinity" then infinity
    else if t = "-Infinity" then -infinity
    else if cs.all isNumeralChar then
      match Numeral.read? t with
      | some n => n.value
      | none => notANumber
    else notANumber

/-- The 32-bit word of a number, its fraction dropped; what is not finite becomes 0. -/
def toInt32 (n : Float) : Int32 := Int32.ofInt (truncateToInt n)

/-- The unsigned 32-bit word of a number. -/
def toUInt32 (n : Float) : UInt32 := (toInt32 n).toUInt32

/-- A number without its fraction; "not a number" becomes 0. -/
def toInteger (n : Float) : Float := if n.isNaN then 0 else truncate n

/-- A 32-bit word as a number. -/
def ofInt32 (w : Int32) : Float := Float.ofInt w.toInt

/-- An unsigned 32-bit word as a number. -/
def ofUInt32 (w : UInt32) : Float := Float.ofNat w.toNat

end Stepwise

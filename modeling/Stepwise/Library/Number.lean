import Stepwise.Decimal.Power
import Stepwise.Library.Native

/-!
# Functions on numbers and truth values
-/

namespace Stepwise.Library

open Native

/-- The receiver, which has to be a number or to wrap one. -/
def thisNumber (c : NativeCall) (method : String) : HeapM Float := do
  match c.this, (← get).deref? c.this with
  | .number n, _ => return n
  | _, some { cls := .number, primitive := some (.number n), .. } => return n
  | _, _ => typeError ("Number.prototype." ++ method ++ " requires that 'this' be a Number")

/-- The argument as a number. -/
def numberConstructor : Native := fun c => do
  let h ← get
  giveWrapped c (.number (c.args.head?.elim 0 h.toNumber))

/-- A number with a given count of decimal places. -/
def numberToFixed : Native := fun c => do
  let n ← thisNumber c "toFixed"
  let places := c.integer (← get) 0
  if places < 0 || 20 < places then rangeError "toFixed() digits argument must be between 0 and 20"
  else if n.isNaN || n.isInf || 1e21 ≤ n.abs then giveText (NumberStyle.script.render n)
  else giveText (renderFixed n (truncateToInt places).toNat)

/-- A number with a given count of significant digits. -/
def numberToPrecision : Native := fun c => do
  let n ← thisNumber c "toPrecision"
  let count := c.integer (← get) 0
  if (c.arg 0).isUndefined || n.isNaN || n.isInf then giveText (NumberStyle.script.render n)
  else if count < 1 || 21 < count then rangeError "toPrecision() argument must be between 1 and 21"
  else giveText (renderSignificant n (truncateToInt count).toNat)

/-- The digit of a value below 36. -/
def digitChar (d : Nat) : Char := if d < 10 then Char.ofNat (48 + d) else Char.ofNat (87 + d)

/-- The digits of a number in a base, `fuel` of them at most. -/
def digitsInBase (base : Nat) : (fuel : Nat) → Nat → List Char → List Char
  | 0, _, acc => acc
  | fuel + 1, n, acc =>
    let acc := digitChar (n % base) :: acc
    if n / base = 0 then acc else digitsInBase base fuel (n / base) acc

/-- An integer in a base. -/
def renderInBase (base : Nat) (n : Int) : String :=
  let digits := digitsInBase base (n.natAbs.log2 + 1) n.natAbs []
  String.ofList (if n < 0 then '-' :: digits else digits)

/-- A number as a text; an integer of 64 bits may be written in another base. -/
def numberToString : Native := fun c => do
  let n ← thisNumber c "toString"
  let h ← get
  let radix := if (c.arg 0).isUndefined then 10 else c.integer h 0
  if radix < 2 || 36 < radix then rangeError "toString() radix must be between 2 and 36"
  else if radix == 10 || n.isNaN || n.isInf || !(n == truncate n) then
    giveText (NumberStyle.script.render n)
  else giveText (renderInBase (truncateToInt radix).toNat (truncateToWord n))

/-- The number of the receiver. -/
def numberValueOf : Native := fun c => do
  giveNumber (← thisNumber c "valueOf")

/-- What every number inherits. -/
def numberMethods : List Method :=
  [⟨"toFixed", 1, numberToFixed⟩, ⟨"toPrecision", 1, numberToPrecision⟩,
   ⟨"toString", 1, numberToString⟩, ⟨"valueOf", 0, numberValueOf⟩]

/-- The receiver, which has to be a truth value or to wrap one. -/
def thisBool (c : NativeCall) : HeapM Bool := do
  match c.this, (← get).deref? c.this with
  | .bool b, _ => return b
  | _, some { cls := .boolean, primitive := some (.bool b), .. } => return b
  | _, _ => typeError "Boolean.prototype method requires that 'this' be a Boolean"

/-- The argument as a truth value. -/
def booleanConstructor : Native := fun c => giveWrapped c (.bool (c.arg 0).truthy)

/-- A truth value as a text. -/
def booleanToString : Native := fun c => do
  giveText (Value.bool (← thisBool c)).text

/-- The truth value of the receiver. -/
def booleanValueOf : Native := fun c => do
  giveBool (← thisBool c)

/-- What every truth value inherits. -/
def booleanMethods : List Method := [⟨"toString", 0, booleanToString⟩, ⟨"valueOf", 0, booleanValueOf⟩]

/-! ## Mathematical functions -/

/-- A function of one number. -/
def unaryMath (f : Float → Float) : Native := fun c => do
  giveNumber (f ((← get).toNumber (c.arg 0)))

/-- A function of two numbers. -/
def binaryMath (f : Float → Float → Float) : Native := fun c => do
  let h ← get
  giveNumber (f (h.toNumber (c.arg 0)) (h.toNumber (c.arg 1)))

/-- The nearest integer, a half going up. -/
def roundHalfUp (n : Float) : Float := if n.isNaN || n.isInf then n else (n + 0.5).floor

/-- The extreme of the arguments, or "not a number" if one of them is none. -/
def extreme (start : Float) (better : Float → Float → Bool) : Native := fun c => do
  let h ← get
  let numbers := c.args.map h.toNumber
  if numbers.any Float.isNaN then giveNumber notANumber
  else giveNumber (numbers.foldl (fun best n => if better n best then n else best) start)

/-- A number from zero up to one, from a source that the program does not see. -/
def random : Native := fun c => giveNumber c.draw

/-- The constants. -/
def mathConstants : List (String × Float) :=
  [("PI", 3.141592653589793), ("E", 2.718281828459045), ("LN2", 0.6931471805599453),
   ("LN10", 2.302585092994046), ("LOG2E", 1.4426950408889634), ("LOG10E", 0.4342944819032518),
   ("SQRT2", 1.4142135623730951), ("SQRT1_2", 0.7071067811865476)]

/-- The functions. -/
def mathMethods : List Method :=
  [⟨"abs", 1, unaryMath Float.abs⟩, ⟨"ceil", 1, unaryMath Float.ceil⟩,
   ⟨"floor", 1, unaryMath Float.floor⟩, ⟨"round", 1, unaryMath roundHalfUp⟩,
   ⟨"sqrt", 1, unaryMath Float.sqrt⟩, ⟨"log", 1, unaryMath Float.log⟩,
   ⟨"exp", 1, unaryMath Float.exp⟩, ⟨"sin", 1, unaryMath Float.sin⟩,
   ⟨"cos", 1, unaryMath Float.cos⟩, ⟨"tan", 1, unaryMath Float.tan⟩,
   ⟨"asin", 1, unaryMath Float.asin⟩, ⟨"acos", 1, unaryMath Float.acos⟩,
   ⟨"atan", 1, unaryMath Float.atan⟩, ⟨"max", 2, extreme (-infinity) fun n best => best < n⟩,
   ⟨"min", 2, extreme infinity fun n best => n < best⟩, ⟨"pow", 2, binaryMath power⟩,
   ⟨"atan2", 2, binaryMath Float.atan2⟩, ⟨"random", 0, random⟩]

end Stepwise.Library

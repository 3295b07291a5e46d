import Stepwise.Heap.Basic
import Stepwise.Value.Number

/-!
# Conversions of objects

Objects become primitives without running any code of the program: wrapped values are unwrapped, arrays
are joined and errors show their name and message.
-/

namespace Stepwise

/-- A name and a message, or the one of them that is not empty. -/
def joinErrorText (name message : String) : String :=
  if message.isEmpty then name
  else if name.isEmpty then message
  else name ++ ": " ++ message

/-- The text of a function. -/
def functionText (name : String) : String := "function " ++ name ++ "() \x7b [native code] \x7d"

namespace Heap

/-- The primitive of a value, if no more than `depth` conversions are inside each other. An array inside itself counts
as empty; `seen` holds the arrays around. The name and message of an error are converted afresh. -/
def primitive? (h : Heap) : (depth : Nat) → (seen : List ObjectId) → Value → Option Value
  | 0, _, _ => none
  | depth + 1, seen, v =>
    match h.deref? v with
    | none => some v
    | some o =>
      match o.primitive, o.cls with
      | some p, _ => some p
      | none, .array =>
        if seen.contains o.id then some (.string "")
        else do
          let parts ← o.elems.toList.mapM fun e =>
            if e.isNullish then some "" else (h.primitive? depth (o.id :: seen) e).map Value.text
          return .string (String.intercalate "," parts)
      | none, .function => some (.string (functionText ((o.func.map FunctionInfo.name).getD "")))
      | none, .error => do
        let name ← h.primitive? depth [] (h.getFrom o "name")
        let message ← h.primitive? depth [] (h.getFrom o "message")
        return .string (joinErrorText name.text message.text)
      | none, .arguments => some (.string "[object Arguments]")
      | none, _ => some (.string "[object Object]")

/-- A depth that no conversion passes that ends: each error occurs once on the way, and each array once between two
errors. Nor does any machine come to the end of one that goes on for ever, inside an error that contains itself. -/
def conversionDepth (h : Heap) : Nat := Nat.pow 2 62 + (h.objects.size + 1) * (h.objects.size + 2)

/-- The primitive of a value. -/
def toPrimitive (h : Heap) (v : Value) : Value := (h.primitive? h.conversionDepth [] v).getD (.string "")

/-- The text of a value. -/
def toText (h : Heap) (v : Value) : String := (h.toPrimitive v).text

/-- The text of an error. -/
def errorText (h : Heap) (o : Object) : String :=
  joinErrorText (h.toText (h.getFrom o "name")) (h.toText (h.getFrom o "message"))

/-- The number of a value. -/
def toNumber (h : Heap) (v : Value) : Float :=
  match h.toPrimitive v with
  | .undefined | .object _ => notANumber
  | .null => 0
  | .bool b => if b then 1 else 0
  | .number n => n
  | .string s => stringToNumber s

/-- The key that a value selects a property by. -/
def toKey (h : Heap) (v : Value) : String := h.toText v

/-- What `typeof` says about a value. -/
def typeOf (h : Heap) (v : Value) : String :=
  match v with
  | .null => "object"
  | .object _ => if h.isCallable v then "function" else "object"
  | v => v.typeName

/-- Equality with conversions; each turn converts one side, and no comparison needs more than five. -/
def looselyEqualWithin (h : Heap) : (turns : Nat) → Value → Value → Bool
  | 0, _, _ => false
  | turns + 1, a, b =>
    if a.typeName = b.typeName then a.strictEquals b
    else if a.isNullish || b.isNullish then a.isNullish && b.isNullish
    else
      match a, b with
      | .number x, .string s => x == stringToNumber s
      | .string s, .number y => stringToNumber s == y
      | .bool _, b => h.looselyEqualWithin turns (.number (h.toNumber a)) b
      | a, .bool _ => h.looselyEqualWithin turns a (.number (h.toNumber b))
      | .object _, b => h.looselyEqualWithin turns (h.toPrimitive a) b
      | a, .object _ => h.looselyEqualWithin turns a (h.toPrimitive b)
      | _, _ => false

/-- Equality with conversions. -/
def looselyEqual (h : Heap) (a b : Value) : Bool := h.looselyEqualWithin 5 a b

end Heap

end Stepwise

import Stepwise.Decimal.Layout

/-!
# Values of the interpreted language

A value is a primitive or the identity of an object in a heap.
-/

namespace Stepwise

/-- The identity of an object; 0 stands for none. -/
abbrev ObjectId := Int

/-- A value of the interpreted language. -/
inductive Value where
  | undefined
  | null
  | bool (b : Bool)
  | number (n : Float)
  | string (s : String)
  | object (id : ObjectId)
  deriving Inhabited

namespace Value

/-- The name of a value's type. -/
def typeName : Value → String
  | undefined => "undefined"
  | null => "null"
  | bool _ => "boolean"
  | number _ => "number"
  | string _ => "string"
  | object _ => "object"

/-- Whether a value refers to an object. -/
def isObject : Value → Bool
  | object _ => true
  | _ => false

/-- Whether a value is undefined. -/
def isUndefined : Value → Bool
  | undefined => true
  | _ => false

/-- Whether a value is undefined or null. -/
def isNullish : Value → Bool
  | undefined | null => true
  | _ => false

/-- Whether a value counts as true in a test. -/
def truthy : Value → Bool
  | bool b => b
  | number n => !(n == 0) && !n.isNaN
  | string s => !s.isEmpty
  | object _ => true
  | undefined | null => false

/-- The text of a primitive; an object has no text of its own. -/
def text : Value → String
  | undefined => "undefined"
  | null => "null"
  | bool b => if b then "true" else "false"
  | number n => NumberStyle.script.render n
  | string s => s
  | object _ => ""

/-- The identity that a value refers to, or 0. -/
def reference : Value → ObjectId
  | object id => id
  | _ => 0

/-- The characters of a string; other values have none. -/
def chars : Value → List Char
  | string s => s.toList
  | _ => []

/-- Equality without conversion. Objects are equal if they are the same object. -/
def strictEquals : Value → Value → Bool
  | undefined, undefined | null, null => true
  | bool a, bool b => a == b
  | number a, number b => a == b
  | string a, string b => a == b
  | object a, object b => a == b
  | _, _ => false

/-- Equality that tells the zeros apart and takes "not a number" for itself. -/
def same : Value → Value → Bool
  | number a, number b =>
    if a.isNaN && b.isNaN then true
    else if a == 0 && b == 0 then signBit a == signBit b
    else a == b
  | a, b => a.strictEquals b

/-- A whole number, as a value. -/
def ofNat (n : Nat) : Value := number (Float.ofNat n)

end Value

end Stepwise

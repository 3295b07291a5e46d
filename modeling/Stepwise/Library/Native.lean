import Stepwise.Heap.Property
import Stepwise.Tree.Basic

/-!
# Functions that are not written in the interpreted language

A native function gets a receiver and arguments. It answers with a value, or asks for another function
to be called in its place.
-/

namespace Stepwise

/-- What a native function is called with. -/
structure NativeCall where
  this : Value
  args : List Value
  /-- Whether the call is made by `new`. -/
  construct : Bool := false
  /-- The call in the source. -/
  site : Option Node := none
  /-- Describes the calls that are running. -/
  trace : Option (Unit → String) := none
  /-- The number that is drawn if the call needs a random one. -/
  draw : Float := 0

/-- What a native function answers. -/
inductive Reply where
  | value (v : Value)
  /-- The answer is that of another call. -/
  | tail (func this : Value) (args : List Value)

/-- A native function of the library. -/
abbrev Native := NativeCall → HeapM Reply

/-- A native function with its name and the number of its parameters. -/
structure Method where
  name : String
  length : Nat
  run : Native

namespace NativeCall

/-- An argument; missing ones are undefined. -/
def arg (c : NativeCall) (i : Nat) : Value := c.args[i]?.getD .undefined

/-- An argument as an integer. -/
def integer (c : NativeCall) (h : Heap) (i : Nat) : Float := toInteger (h.toNumber (c.arg i))

end NativeCall

namespace Native

/-- Answers a value. -/
def give (v : Value) : HeapM Reply := return .value v

/-- Answers a number. -/
def giveNumber (n : Float) : HeapM Reply := give (.number n)

/-- Answers a text. -/
def giveText (s : String) : HeapM Reply := give (.string s)

/-- Answers a truth value. -/
def giveBool (b : Bool) : HeapM Reply := give (.bool b)

/-- Answers an object that is added to the heap. -/
def giveNew (add : Heap → ObjectId × Heap) : HeapM Reply := do
  let id ← modifyGet add
  give (.object id)

/-- Answers a primitive, wrapped if the call is made by `new`. -/
def giveWrapped (c : NativeCall) (v : Value) : HeapM Reply := do
  if c.construct then
    match (← get).box? v with
    | some (id, h) =>
      set h
      give (.object id)
    | none => give v
  else give v

/-- Raises an error of this type. -/
def raise {α : Type} (type : ErrorType) (message : String) : HeapM α := throw ⟨type, message⟩

/-- Raises a type error. -/
def typeError {α : Type} (message : String) : HeapM α := raise .typeError message

/-- Raises a range error. -/
def rangeError {α : Type} (message : String) : HeapM α := raise .rangeError message

end Native

/-- The position that an index means in a sequence; a negative one counts from the end. -/
def relativeIndex (index : Float) (length : Nat) : Nat :=
  if index < 0 then (truncateToInt (Float.ofNat length + index)).toNat
  else if Float.ofNat length ≤ index then length
  else (truncateToInt index).toNat

/-- A number as an integer of 64 bits, its fraction dropped. What does not fit becomes the least of them, as amd64 has
it; machines differ in this. -/
def truncateToWord (n : Float) : Int :=
  let least : Int := -9223372036854775808
  if n.isNaN || n.isInf then least
  else
    let i := truncateToInt n
    if least ≤ i && i < -least then i else least

/-- The nearest position in a sequence. -/
def clampIndex (index : Float) (length : Nat) : Nat :=
  if index ≤ 0 then 0
  else if Float.ofNat length ≤ index then length
  else (truncateToInt index).toNat

end Stepwise

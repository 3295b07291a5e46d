import Stepwise.Library.Object

/-!
# Functions on functions and errors

`call` and `apply` do not call anything themselves: they ask for the receiver to be called.
-/

namespace Stepwise.Library

open Native

/-- Functions are not made from text. -/
def functionConstructor : Native := fun _ => raise .evalError "Function constructor is not supported"

/-- Calls the receiver with a given receiver and arguments. -/
def functionCall : Native := fun c => do
  if (← get).isCallable c.this then return .tail c.this (c.arg 0) (c.args.drop 1)
  else typeError "Function.prototype.call called on non-function"

/-- The elements of an object that has a length. -/
def listElements (h : Heap) (v : Value) : List Value :=
  match h.deref? v with
  | some o =>
    let n := (toUInt32 (h.toNumber (h.getFrom o "length"))).toNat
    (List.range n).map fun i => h.getFrom o (toString i)
  | none => []

/-- Calls the receiver with a given receiver and the elements of an array as arguments. -/
def functionApply : Native := fun c => do
  let h ← get
  if !h.isCallable c.this then typeError "Function.prototype.apply called on non-function"
  else
    match c.arg 1 with
    | .undefined | .null => return .tail c.this (c.arg 0) []
    | .object id => return .tail c.this (c.arg 0) (listElements h (.object id))
    | _ => typeError "CreateListFromArrayLike called on non-object"

/-- A function as a text. -/
def functionToString : Native := fun c => do
  let h ← get
  if h.isCallable c.this then giveText (h.toText c.this)
  else typeError "Function.prototype.toString requires that 'this' be a Function"

/-- What every function inherits. -/
def functionMethods : List Method :=
  [⟨"call", 1, functionCall⟩, ⟨"apply", 2, functionApply⟩, ⟨"toString", 0, functionToString⟩]

/-! ### Errors -/

/-- Makes an error of a type, with or without `new`. It remembers the calls that are running. -/
def errorConstructor (type : ErrorType) : Native := fun c => do
  let h ← get
  let message := if (c.arg 0).isUndefined then "" else h.toText (c.arg 0)
  let (id, h) := h.newError type.name message
  let h := match c.trace with
    | some trace => h.modify id (·.putHidden "stack" (.string (trace ())))
    | none => h
  set h
  give (.object id)

/-- The name and the message of an error. -/
def errorToString : Native := fun c => do
  let o ← thisObject c "Error.prototype.toString"
  giveText ((← get).errorText o)

/-- What every error inherits. -/
def errorMethods : List Method := [⟨"toString", 0, errorToString⟩]

end Stepwise.Library

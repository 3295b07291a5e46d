import Stepwise.Library.Native

/-!
# Functions on objects
-/

namespace Stepwise.Library

open Native

/-- The object of a value; a primitive is wrapped. -/
def toObject (v : Value) (method : String) : HeapM Object := do
  let h ← get
  if v.isNullish then typeError (method ++ " called on null or undefined")
  else
    match h.deref? v with
    | some o => return o
    | none =>
      match h.box? v with
      | some (id, h) =>
        set h
        return (h.object? id).getD { id }
      | none => return { id := v.reference }

/-- The receiver, which has to be an object. -/
def thisObject (c : NativeCall) (method : String) : HeapM Object := do
  match (← get).deref? c.this with
  | some o => return o
  | none => typeError (method ++ " called on non-object")

/-- The argument as an object; a new one in place of null and undefined. -/
def objectConstructor : Native := fun c => do
  let v := c.arg 0
  if v.isNullish then giveNew Heap.newPlain
  else if v.isObject then give v
  else give (.object (← toObject v "Object").id)

/-- Whether the receiver itself has a property. -/
def hasOwnProperty : Native := fun c => do
  let o ← toObject c.this "Object.prototype.hasOwnProperty"
  giveBool (o.ownKeys.contains ((← get).toKey (c.arg 0)))

/-- The class of the receiver as a text. -/
def objectToString : Native := fun c => do
  match c.this with
  | .undefined => giveText "[object Undefined]"
  | .null => giveText "[object Null]"
  | v =>
    let o ← toObject v ""
    giveText ("[object " ++ o.cls.name ++ "]")

/-- The receiver as an object. -/
def objectValueOf : Native := fun c => do
  let o ← toObject c.this "Object.prototype.valueOf"
  give (.object o.id)

/-- Whether the receiver is among the prototypes of the argument. -/
def isPrototypeOf : Native := fun c => do
  let h ← get
  match h.deref? (c.arg 0), c.this with
  | some o, .object id => giveBool ((h.prototypes o).any (·.id == id))
  | _, _ => giveBool false

/-- Whether a loop over the receiver visits a property of its own. -/
def propertyIsEnumerable : Native := fun c => do
  let o ← toObject c.this "Object.prototype.propertyIsEnumerable"
  giveBool (o.enumerableKeys.contains ((← get).toKey (c.arg 0)))

/-- The keys of an object that a loop visits. -/
def objectKeys : Native := fun c => do
  let o ← toObject (c.arg 0) "Object.keys"
  giveNew (·.newTexts o.enumerableKeys)

/-- A new object with a given prototype. -/
def objectCreate : Native := fun c => do
  match c.arg 0, c.arg 1 with
  | .object id, .undefined => giveNew (·.alloc .object id)
  | .null, .undefined => giveNew (·.alloc .object 0)
  | .object _, _ | .null, _ => typeError "Object.create with property descriptors is not supported"
  | _, _ => typeError "Object prototype may only be an Object or null"

/-- The prototype of an object. -/
def getPrototypeOf : Native := fun c => do
  let o ← toObject (c.arg 0) "Object.getPrototypeOf"
  give (if o.proto = 0 then .null else .object o.proto)

/-- All keys of an object. -/
def getOwnPropertyNames : Native := fun c => do
  let o ← toObject (c.arg 0) "Object.getOwnPropertyNames"
  giveNew (·.newTexts o.ownKeys)

/-- Whether two values are the same; the two zeros differ, and not-a-number is itself. -/
def objectIs : Native := fun c => giveBool ((c.arg 0).same (c.arg 1))

/-- What every object inherits. -/
def objectMethods : List Method :=
  [⟨"hasOwnProperty", 1, hasOwnProperty⟩, ⟨"toString", 0, objectToString⟩,
   ⟨"valueOf", 0, objectValueOf⟩, ⟨"isPrototypeOf", 1, isPrototypeOf⟩,
   ⟨"propertyIsEnumerable", 1, propertyIsEnumerable⟩]

/-- Functions of the constructor. -/
def objectStatics : List Method :=
  [⟨"keys", 1, objectKeys⟩, ⟨"create", 2, objectCreate⟩, ⟨"getPrototypeOf", 1, getPrototypeOf⟩,
   ⟨"getOwnPropertyNames", 1, getOwnPropertyNames⟩, ⟨"is", 2, objectIs⟩]

end Stepwise.Library

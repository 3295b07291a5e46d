import Stepwise.Heap.Object
import Stepwise.Heap.Throw

/-!
# The heap

Objects and scopes, each under its own identity. Identities are handed out in order and never reused.
The intrinsic objects are those the language itself refers to.
-/

namespace Stepwise

/-- A function's or the program's variables; the bindings are the object of the same identity. -/
structure Scope where
  id : ObjectId
  /-- Where to look for names that this scope does not bind. -/
  parent : ObjectId := 0
  strict : Bool := false
  deriving DecidableEq, Repr, Inhabited

/-- The objects and scopes of a run. -/
structure Heap where
  objects : Std.ExtTreeMap ObjectId Object := {}
  scopes : Std.ExtTreeMap ObjectId Scope := {}
  /-- The identity of the next object. -/
  next : ObjectId := 1
  intrinsics : Std.ExtTreeMap String ObjectId := {}
  deriving Inhabited

namespace Intrinsic

/-- The object whose properties are the global variables. -/
def global : String := "global"

def objectPrototype : String := "Object.prototype"
def functionPrototype : String := "Function.prototype"
def arrayPrototype : String := "Array.prototype"
def stringPrototype : String := "String.prototype"
def numberPrototype : String := "Number.prototype"
def booleanPrototype : String := "Boolean.prototype"
def errorPrototype : String := "Error.prototype"

/-- The prototype of the errors of a type. -/
def prototypeOf (errorType : String) : String := errorType ++ ".prototype"

end Intrinsic

namespace Heap

/-- The heap without objects. -/
def empty : Heap := {}

/-- The object of an identity. -/
def object? (h : Heap) (id : ObjectId) : Option Object := h.objects[id]?

/-- The object that a value refers to. -/
def deref? (h : Heap) : Value → Option Object
  | .object id => h.object? id
  | _ => none

/-- Whether a value refers to a function. -/
def isCallable (h : Heap) (v : Value) : Bool := (h.deref? v).any Object.isCallable

/-- Stores an object under its identity. -/
def store (h : Heap) (o : Object) : Heap := { h with objects := h.objects.insert o.id o }

/-- Changes the object of an identity, if there is one. -/
def modify (h : Heap) (id : ObjectId) (f : Object → Object) : Heap :=
  match h.object? id with
  | some o => h.store (f o)
  | none => h

/-- An intrinsic object, or 0. -/
def intrinsic (h : Heap) (name : String) : ObjectId := h.intrinsics[name]?.getD 0

/-- Names an intrinsic object. -/
def setIntrinsic (h : Heap) (name : String) (id : ObjectId) : Heap :=
  { h with intrinsics := h.intrinsics.insert name id }

/-- Adds an object, which gets the next identity. -/
def add (h : Heap) (o : Object) : ObjectId × Heap :=
  (h.next, { h.store { o with id := h.next } with next := h.next + 1 })

/-- Adds an object without properties. -/
def alloc (h : Heap) (cls : Class) (proto : ObjectId) : ObjectId × Heap := h.add { id := 0, cls, proto }

/-- Adds an object of no special class. -/
def newPlain (h : Heap) : ObjectId × Heap := h.alloc .object (h.intrinsic Intrinsic.objectPrototype)

/-- Adds an array. -/
def newArray (h : Heap) (elems : Array Value) : ObjectId × Heap :=
  h.add { id := 0, cls := .array, proto := h.intrinsic Intrinsic.arrayPrototype, elems }

/-- Adds an array of texts. -/
def newTexts (h : Heap) (texts : List String) : ObjectId × Heap :=
  h.newArray (texts.map Value.string).toArray

/-- Adds a function. One of the source gets a prototype object that points back to it. -/
def newFunction (h : Heap) (f : FunctionInfo) : ObjectId × Heap :=
  let (id, h) := h.add
    { id := 0, cls := .function, proto := h.intrinsic Intrinsic.functionPrototype, func := some f }
  match f.code with
  | .native _ => (id, h)
  | .closure .. =>
    let (proto, h) := h.newPlain
    let h := h.modify proto (·.putHidden "constructor" (.object id))
    (id, h.modify id (·.putHidden "prototype" (.object proto)))

/-- Adds an error. An unknown type gets the most general prototype. -/
def newError (h : Heap) (type message : String) : ObjectId × Heap :=
  let own := h.intrinsic (Intrinsic.prototypeOf type)
  let proto := if own = 0 then h.intrinsic Intrinsic.errorPrototype else own
  h.add (Object.putHidden { id := 0, cls := .error, proto } "message" (.string message))

/-- Adds an object that wraps a primitive; undefined, null and objects cannot be wrapped. -/
def box? (h : Heap) (v : Value) : Option (ObjectId × Heap) :=
  let wrap (cls : Class) (proto : String) : Option (ObjectId × Heap) :=
    some (h.add { id := 0, cls, proto := h.intrinsic proto, primitive := some v })
  match v with
  | .string _ => wrap .string Intrinsic.stringPrototype
  | .number _ => wrap .number Intrinsic.numberPrototype
  | .bool _ => wrap .boolean Intrinsic.booleanPrototype
  | _ => none

/-- An object and its prototypes, at most `limit` of them. -/
def chain (h : Heap) : (limit : Nat) → Object → List Object
  | 0, _ => []
  | limit + 1, o =>
    o :: match h.object? o.proto with
      | some p => h.chain limit p
      | none => []

/-- How many prototypes a search looks at. -/
def chainLimit : Nat := 1000

/-- A property of an object or of its prototypes. -/
def find? (h : Heap) (o : Object) (key : String) : Option Value :=
  (h.chain chainLimit o).findSome? (·.getOwn? key)

/-- A property of an object or of its prototypes, or undefined. -/
def getFrom (h : Heap) (o : Object) (key : String) : Value := (h.find? o key).getD .undefined

/-- The prototypes of an object, its own one first. -/
def prototypes (h : Heap) (o : Object) : List Object :=
  match h.object? o.proto with
  | some p => h.chain h.objects.size p
  | none => []

end Heap

/-- Changes the heap or raises an exception, which leaves the heap as it was. -/
abbrev HeapM := StateT Heap (Except Throw)

end Stepwise

import Stepwise.Heap.Scope
import Stepwise.Library.Array
import Stepwise.Library.Function
import Stepwise.Library.Global
import Stepwise.Library.Number
import Stepwise.Library.Object
import Stepwise.Library.Text

/-!
# The objects of the library

`Library.install` puts the objects that exist before a program runs on an empty heap. A function object
holds the full name of its native function, and `Library.native?` finds it again.
-/

namespace Stepwise.Library

/-- Changes a heap. -/
abbrev Build := StateM Heap

/-- The full name of a function, from the object it belongs to. -/
def fullName (path name : String) : String := if path.isEmpty then name else path ++ "." ++ name

/-- Adds an object. -/
def allocate (cls : Class) (proto : ObjectId) : Build ObjectId := modifyGet (·.alloc cls proto)

/-- Stores a hidden property. -/
def hide (id : ObjectId) (key : String) (v : Value) : Build Unit := modify (·.modify id (·.putHidden key v))

/-- Names an intrinsic object. -/
def nameIntrinsic (name : String) (id : ObjectId) : Build Unit := modify (·.setIntrinsic name id)

/-- Adds a native function. -/
def addFunction (path name : String) (length : Nat) : Build ObjectId :=
  modifyGet (·.newFunction ⟨name, .native (fullName path name), length⟩)

/-- Adds native functions as hidden properties. -/
def addMethods (id : ObjectId) (path : String) (methods : List Method) : Build Unit :=
  methods.forM fun m => do
    hide id m.name (.object (← addFunction path m.name m.length))

/-- Adds a constructor and links it with the prototype of its objects. -/
def addConstructor (name : String) (proto : ObjectId) : Build ObjectId := do
  let constructor ← addFunction "" name 1
  hide constructor "prototype" (.object proto)
  hide proto "constructor" (.object constructor)
  return constructor

/-- A prototype that wraps a primitive. -/
def wrappingPrototype (cls : Class) (parent : ObjectId) (v : Value) (name : String) : Build ObjectId := do
  let proto ← modifyGet (·.add { id := 0, cls, proto := parent, primitive := some v })
  nameIntrinsic name proto
  return proto

/-- Adds the constructor of objects. -/
def installObject (proto : ObjectId) : Build ObjectId := do
  addMethods proto "Object.prototype" objectMethods
  let constructor ← addConstructor "Object" proto
  addMethods constructor "Object" objectStatics
  return constructor

/-- Adds the constructor of functions. -/
def installFunction (proto : ObjectId) : Build ObjectId := do
  addMethods proto "Function.prototype" functionMethods
  addConstructor "Function" proto

/-- Adds the constructor of arrays and what arrays inherit. -/
def installArray (root : ObjectId) : Build ObjectId := do
  let proto ← allocate .object root
  nameIntrinsic Intrinsic.arrayPrototype proto
  addMethods proto "Array.prototype" arrayMethods
  let constructor ← addConstructor "Array" proto
  addMethods constructor "Array" [⟨"isArray", 1, isArray⟩]
  return constructor

/-- Adds the constructor of strings and what strings inherit. -/
def installString (root : ObjectId) : Build ObjectId := do
  let proto ← wrappingPrototype .string root (.string "") Intrinsic.stringPrototype
  addMethods proto "String.prototype" stringMethods
  let constructor ← addConstructor "String" proto
  addMethods constructor "String" [⟨"fromCharCode", 1, fromCharCode⟩]
  return constructor

/-- The constants of the number constructor. -/
def numberConstants : List (String × Float) :=
  [("MAX_VALUE", 1.7976931348623157e308), ("MIN_VALUE", 5e-324), ("NaN", notANumber),
   ("POSITIVE_INFINITY", infinity), ("NEGATIVE_INFINITY", -infinity)]

/-- Adds the constructor of numbers and what numbers inherit. -/
def installNumber (root : ObjectId) : Build ObjectId := do
  let proto ← wrappingPrototype .number root (.number 0) Intrinsic.numberPrototype
  addMethods proto "Number.prototype" numberMethods
  let constructor ← addConstructor "Number" proto
  numberConstants.forM fun (name, n) => hide constructor name (.number n)
  return constructor

/-- Adds the constructor of truth values and what they inherit. -/
def installBoolean (root : ObjectId) : Build ObjectId := do
  let proto ← wrappingPrototype .boolean root (.bool false) Intrinsic.booleanPrototype
  addMethods proto "Boolean.prototype" booleanMethods
  addConstructor "Boolean" proto

/-- The prototype of all errors. -/
def installErrorPrototype (root : ObjectId) : Build ObjectId := do
  let proto ← allocate .object root
  nameIntrinsic Intrinsic.errorPrototype proto
  hide proto "name" (.string "Error")
  hide proto "message" (.string "")
  addMethods proto "Error.prototype" errorMethods
  return proto

/-- A type of errors below the general one. -/
def installErrorType (parent : ObjectId) (type : ErrorType) : Build ObjectId := do
  let proto ← allocate .object parent
  hide proto "name" (.string type.name)
  hide proto "message" (.string "")
  nameIntrinsic (Intrinsic.prototypeOf type.name) proto
  addConstructor type.name proto

/-- Adds the object of mathematical functions. -/
def installMath (root : ObjectId) : Build ObjectId := do
  let object ← allocate .object root
  mathConstants.forM fun (name, n) => hide object name (.number n)
  addMethods object "Math" mathMethods
  return object

/-- The first objects. -/
structure Roots where
  /-- What all objects inherit. -/
  object : ObjectId
  /-- What all functions inherit. -/
  function : ObjectId
  /-- The global object, which is a scope too. -/
  global : ObjectId

/-- Adds the first objects. -/
def allocateRoots : Build Roots := do
  let object ← allocate .object 0
  nameIntrinsic Intrinsic.objectPrototype object
  let function ← allocate .object object
  nameIntrinsic Intrinsic.functionPrototype function
  let global ← allocate .object object
  nameIntrinsic Intrinsic.global global
  return { object, function, global }

/-- Binds the library's objects in the global scope. -/
def installGlobals (roots : Roots) : Build Unit := do
  let { object, function, global } := roots
  let declare (name : String) (id : ObjectId) : Build Unit := hide global name (.object id)
  declare "this" global
  declare "Object" (← installObject object)
  declare "Function" (← installFunction function)
  declare "Array" (← installArray object)
  declare "String" (← installString object)
  declare "Number" (← installNumber object)
  declare "Boolean" (← installBoolean object)
  let errorProto ← installErrorPrototype object
  declare "Error" (← addConstructor "Error" errorProto)
  (ErrorType.all.drop 1).forM fun type => do
    declare type.name (← installErrorType errorProto type)
  declare "Math" (← installMath object)
  addMethods global "" globalMethods
  hide global "undefined" .undefined
  hide global "NaN" (.number notANumber)
  hide global "Infinity" (.number infinity)

/-- The library's objects; the result is the global scope. -/
def installAll : Build ObjectId := do
  let roots ← allocateRoots
  modify (·.addScope ⟨roots.global, 0, true⟩)
  installGlobals roots
  return roots.global

/-- The global scope and the heap with the library's objects. -/
def install : ObjectId × Heap := installAll.run .empty

/-- The constructors. -/
def constructors : List Method :=
  [⟨"Object", 1, objectConstructor⟩, ⟨"Function", 1, functionConstructor⟩,
   ⟨"Array", 1, arrayConstructor⟩, ⟨"String", 1, stringConstructor⟩,
   ⟨"Number", 1, numberConstructor⟩, ⟨"Boolean", 1, booleanConstructor⟩] ++
    ErrorType.all.map fun type => ⟨type.name, 1, errorConstructor type⟩

/-- Every native function of the library, by the object it belongs to. -/
def families : List (String × List Method) :=
  [("", constructors), ("", globalMethods), ("Object.prototype", objectMethods),
   ("Object", objectStatics), ("Function.prototype", functionMethods),
   ("Array.prototype", arrayMethods), ("Array", [⟨"isArray", 1, isArray⟩]),
   ("String.prototype", stringMethods), ("String", [⟨"fromCharCode", 1, fromCharCode⟩]),
   ("Number.prototype", numberMethods), ("Boolean.prototype", booleanMethods),
   ("Error.prototype", errorMethods), ("Math", mathMethods)]

/-- Every native function of the library, by its full name. -/
def natives : List (String × Native) :=
  families.flatMap fun (path, methods) => methods.map fun m => (fullName path m.name, m.run)

/-- The native function of a full name. -/
def native? (name : String) : Option Native := (natives.find? (·.1 == name)).map (·.2)

end Stepwise.Library

import Std.Data.ExtTreeMap
import Stepwise.Value.Basic

/-!
# Objects

An object has properties in the order of their insertion, and an array has its elements beside them.
Hidden properties are skipped by loops over keys and by displays.
-/

namespace Stepwise

/-- What an object is. -/
inductive Class where
  | object | array | function | error | boolean | number | string | arguments
  deriving DecidableEq, Repr, Inhabited

namespace Class

/-- Every class, in the order of their codes. -/
def all : List Class := [object, array, function, error, boolean, number, string, arguments]

/-- The name of a class. -/
def name : Class → String
  | object => "Object"
  | array => "Array"
  | function => "Function"
  | error => "Error"
  | boolean => "Boolean"
  | number => "Number"
  | string => "String"
  | arguments => "Arguments"

/-- The number that stands for a class in snapshots. -/
def code : Class → Nat
  | object => 0
  | array => 1
  | function => 2
  | error => 3
  | boolean => 4
  | number => 5
  | string => 6
  | arguments => 7

/-- Whether objects of the class store elements. -/
def hasElements : Class → Bool
  | array | arguments => true
  | _ => false

end Class

/-- What a function runs. -/
inductive FunctionCode where
  /-- A function of the library or of the host. -/
  | native (name : String)
  /-- A function of the source, with the scope it was created in. -/
  | closure (node : Int) (scope : ObjectId)
  deriving DecidableEq, Repr, Inhabited

/-- What is needed to call a function. -/
structure FunctionInfo where
  name : String
  code : FunctionCode
  length : Int
  deriving DecidableEq, Repr, Inhabited

/-- An object of the heap. -/
structure Object where
  id : ObjectId
  cls : Class := .object
  /-- The object to look in for properties that this one lacks. -/
  proto : ObjectId := 0
  /-- The names of the properties in the order of their insertion. -/
  keys : List String := []
  props : Std.ExtTreeMap String Value := {}
  elems : Array Value := #[]
  func : Option FunctionInfo := none
  /-- The value that the object wraps. -/
  primitive : Option Value := none
  hidden : List String := []
  deriving Inhabited

/-- The index a key stands for: digits without a leading zero, perhaps after a sign. -/
def arrayIndex? (key : String) : Option Nat :=
  match key.toList with
  | [] | '0' :: _ :: _ => none
  | '+' :: ds => digits ds
  | '-' :: ds => (digits ds).filter (· == 0)
  | ds => digits ds
where
  digits (ds : List Char) : Option Nat :=
    if ds.isEmpty || !ds.all Char.isDigit then none
    else
      let n := ds.foldl (fun n c => n * 10 + (c.toNat - '0'.toNat)) 0
      if n < Nat.pow 2 31 then some n else none

/-- A property that every string has: its length or a character. -/
def stringProperty? (s : List Char) (key : String) : Option Value :=
  if key = "length" then some (.ofNat s.length)
  else
    match arrayIndex? key with
    | some i => s[i]?.map fun c => .string (String.singleton c)
    | none => none

namespace Object

/-- Whether an object can be called. -/
def isCallable (o : Object) : Bool := o.func.isSome

/-- A property stored in the object itself. -/
def own? (o : Object) (key : String) : Option Value := o.props[key]?

/-- Stores a property; a new one comes after the others. -/
def put (o : Object) (key : String) (v : Value) : Object :=
  { o with
    keys := if o.props.contains key then o.keys else o.keys ++ [key]
    props := o.props.insert key v }

/-- Whether a key is hidden. -/
def isHidden (o : Object) (key : String) : Bool := o.hidden.contains key

/-- Stores a property and hides it. -/
def putHidden (o : Object) (key : String) (v : Value) : Object :=
  let o := o.put key v
  if o.isHidden key then o else { o with hidden := o.hidden ++ [key] }

/-- Removes a property; a hidden key stays hidden. -/
def delete (o : Object) (key : String) : Object :=
  if o.props.contains key then { o with keys := o.keys.erase key, props := o.props.erase key } else o

/-- The keys that are not hidden, in insertion order. -/
def visibleKeys (o : Object) : List String := o.keys.filter fun k => !o.isHidden k

/-- The indices of the characters that an object wraps. -/
def wrappedIndices (o : Object) : List String :=
  match o.cls, o.primitive with
  | .string, some p => (List.range p.chars.length).map fun i => toString i
  | _, _ => []

/-- The keys that a loop visits: indices first, then the visible keys. -/
def enumerableKeys (o : Object) : List String :=
  (List.range o.elems.size).map (fun i => toString i) ++ o.wrappedIndices ++ o.visibleKeys

/-- Every key of the object itself, hidden ones last. -/
def ownKeys (o : Object) : List String :=
  o.enumerableKeys ++ (match o.cls with | .array | .string => ["length"] | _ => []) ++
    o.keys.filter o.isHidden

/-- A property of the object itself, with those that follow from its class. -/
def getOwn? (o : Object) (key : String) : Option Value :=
  match o.cls with
  | .array | .arguments =>
    if key = "length" then some (.ofNat o.elems.size)
    else
      match arrayIndex? key with
      | some i => o.elems[i]?
      | none => o.own? key
  | .string =>
    match o.primitive with
    | some p => (stringProperty? p.chars key).or (o.own? key)
    | none => o.own? key
  | .function =>
    match o.own? key, o.func with
    | some v, _ => some v
    | none, some f =>
      if key = "name" then some (.string f.name)
      else if key = "length" then some (.number (Float.ofInt f.length))
      else none
    | none, none => none
  | _ => o.own? key

/-- Elements cut to `n`, or filled up to `n` with undefined. -/
def resize (elems : Array Value) (n : Nat) : Array Value :=
  if n ≤ elems.size then elems.take n else elems ++ Array.replicate (n - elems.size) .undefined

/-- Stores an element, filling the gap before it. -/
def setElement (o : Object) (i : Nat) (v : Value) : Object :=
  let elems := if i < o.elems.size then o.elems else resize o.elems (i + 1)
  { o with elems := elems.setIfInBounds i v }

end Object

end Stepwise

import Stepwise.Heap.Convert

/-!
# Properties of values

Reading, writing and deleting properties, and the questions that `in` and `instanceof` ask.
-/

namespace Stepwise

namespace Heap

/-- A property of an intrinsic object or of its prototypes. -/
def getFromIntrinsic (h : Heap) (name key : String) : Value :=
  match h.object? (h.intrinsic name) with
  | some o => h.getFrom o key
  | none => .undefined

/-- A property of a value. -/
def get (h : Heap) (v : Value) (key : String) : Except Throw Value :=
  match v with
  | .undefined | .null => .error (.cannotRead key v.text)
  | .string s =>
    .ok ((stringProperty? s.toList key).getD (h.getFromIntrinsic Intrinsic.stringPrototype key))
  | .number _ => .ok (h.getFromIntrinsic Intrinsic.numberPrototype key)
  | .bool _ => .ok (h.getFromIntrinsic Intrinsic.booleanPrototype key)
  | .object id =>
    match h.object? id with
    | some o => .ok (h.getFrom o key)
    | none => .ok .undefined

/-- The length of an array that a number asks for. -/
def arrayLength? (n : Float) : Option Nat :=
  if n < 0 || !(n == truncate n) || 4294967295 < n then none else some (truncateToInt n).toNat

/-- An object with a property stored, arrays by index and length. -/
def putOn (h : Heap) (o : Object) (key : String) (v : Value) : Except Throw Object :=
  match o.cls, o.primitive with
  | .array, _ | .arguments, _ =>
    if key = "length" then
      match arrayLength? (h.toNumber v) with
      | some n => .ok { o with elems := Object.resize o.elems n }
      | none => .error .arrayLength
    else
      match arrayIndex? key with
      | some i => .ok (o.setElement i v)
      | none => .ok (o.put key v)
  | .string, some p => if (stringProperty? p.chars key).isSome then .error (.readOnly key) else .ok (o.put key v)
  | _, _ => .ok (o.put key v)

/-- The heap with a property of a value stored. -/
def put (h : Heap) (target : Value) (key : String) (v : Value) : Except Throw Heap :=
  match h.deref? target with
  | some o => h.store <$> h.putOn o key v
  | none =>
    if target.isNullish then .error (.cannotSet key target.text)
    else .error (.cannotCreate key target.typeName target.text)

/-- Whether an object or one of its prototypes has a property. -/
def has (h : Heap) (o : Object) (key : String) : Bool := (h.find? o key).isSome

/-- An object without a property, and whether it could be deleted. A deleted element becomes
undefined. -/
def remove (o : Object) (key : String) : Object × Bool :=
  if o.cls.hasElements then
    if key = "length" then (o, false)
    else
      match arrayIndex? key with
      | some i => ({ o with elems := o.elems.setIfInBounds i .undefined }, true)
      | none => (o.delete key, true)
  else (o.delete key, true)

/-- Whether the prototypes of a value include the prototype of a constructor. -/
def instanceOf (h : Heap) (v constructor : Value) : Except Throw Bool :=
  match h.deref? constructor with
  | none => .error .instanceOfNonFunction
  | some c =>
    if !c.isCallable then .error .instanceOfNonFunction
    else
      match h.deref? v with
      | none => .ok false
      | some o =>
        match h.getFrom c "prototype" with
        | .object id => .ok ((h.prototypes o).any (·.id == id))
        | _ => .error .instanceOfNoPrototype

/-- The keys that a loop over an object visits: its own and those of its prototypes, each once. -/
def loopKeys (h : Heap) (o : Object) : List String :=
  ((h.chain chainLimit o).flatMap fun o =>
    if o.cls = .string ∧ o.primitive.isSome then o.wrappedIndices else o.enumerableKeys).eraseDups

end Heap

end Stepwise

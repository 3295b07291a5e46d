import Stepwise.Heap.Property

/-!
# Values of the host

What functions of the host receive and give: trees without identities. Going to the host, an object
that contains itself is cut where it comes back to itself; coming from the host, arrays and objects are
added to the heap.
-/

namespace Stepwise

/-- A value outside of the interpreted program. -/
inductive HostValue where
  | undefined
  | null
  | bool (b : Bool)
  | number (n : Float)
  | string (s : String)
  | list (items : List HostValue)
  /-- An object, with its fields in order. -/
  | object (fields : List (String × HostValue))
  /-- A function of the program. -/
  | function (name : String)
  | int (n : Int)
  | single (n : Float32)
  /-- Fields without an order of their own, sorted by name. -/
  | record (fields : List (String × HostValue))
  /-- A value of a type that no program can receive. -/
  | foreign (type : String)
  deriving Inhabited

namespace Heap

/-- The value as the host sees it. `open_` are the objects that are being converted; a reference back to
one of them becomes undefined. -/
def toHostWithin (h : Heap) : (depth : Nat) → (open_ : List ObjectId) → Value → HostValue
  | 0, _, _ => .undefined
  | depth + 1, open_, v =>
    match v with
    | .undefined => .undefined
    | .null => .null
    | .bool b => .bool b
    | .number n => .number n
    | .string s => .string s
    | .object id =>
      match h.object? id with
      | none => .undefined
      | some o =>
        if open_.contains o.id then .undefined
        else
          match o.primitive, o.func with
          | some p, _ => toHostWithin h depth open_ p
          | none, some f => .function f.name
          | none, none =>
            let inner (v : Value) : HostValue := toHostWithin h depth (o.id :: open_) v
            if o.cls.hasElements then .list (o.elems.toList.map inner)
            else if o.cls = .error then
              .object (["name", "message"].map fun k => (k, .string (h.toText (h.getFrom o k))))
            else .object (o.visibleKeys.map fun k => (k, inner ((o.own? k).getD .undefined)))

/-- The value as the host sees it. Objects nest at most as deep as there are objects. -/
def toHost (h : Heap) (v : Value) : HostValue := h.toHostWithin (h.objects.size + 2) [] v

end Heap

/-- The complaint about a host value that no program can receive. -/
def foreignMessage (type : String) : String :=
  "host value of type " ++ type ++ " cannot be passed to the program"

/-- Adds values to a heap; what was added stays if a later part fails. -/
abbrev Intake := EStateM String Heap

namespace HostValue

mutual

/-- The value of the program for a host value. -/
def intake : HostValue → Intake Value
  | .undefined => return .undefined
  | .null => return .null
  | .bool b => return .bool b
  | .number n => return .number n
  | .string s => return .string s
  | .int n => return .number (Float.ofInt n)
  | .single n => return .number n.toFloat
  | .function _ => throw (foreignMessage "visualizer.Function")
  | .foreign type => throw (foreignMessage type)
  | .list items => do
    let elems ← intakeAll items
    return .object (← modifyGet (·.newArray elems.toArray))
  | .object fields | .record fields => do
    let id ← modifyGet (·.newPlain)
    intakeFields id fields
    return .object id

/-- The values of a list, in order. -/
def intakeAll : List HostValue → Intake (List Value)
  | [] => return []
  | x :: xs => return (← intake x) :: (← intakeAll xs)

/-- Stores fields in an object, in order. -/
def intakeFields (id : ObjectId) : List (String × HostValue) → Intake Unit
  | [] => return
  | (key, x) :: fields => do
    let v ← intake x
    modify (·.modify id (·.put key v))
    intakeFields id fields

end

end HostValue

end Stepwise

import Stepwise.Heap.Basic
import Stepwise.Json.Basic
import Stepwise.Decimal.Numeral

/-!
# Heaps as JSON

A value is a tagged array, so that every number survives. A heap lists its objects and scopes in the
order of their identities, so equal heaps have equal texts.
-/

namespace Stepwise

namespace Value

/-- A value as a tagged array. -/
def toJson : Value → Json
  | undefined => .arr [.str "u"]
  | null => .arr [.str "z"]
  | bool b => .arr [.str "b", .bool b]
  | number n => .arr [.str "n", .str (NumberStyle.compact.render n)]
  | string s => .arr [.str "s", .str s]
  | object id => .arr [.str "o", .int id]

/-- The value of a tagged array. -/
def ofJson? : Json → Option Value
  | .arr (.str "u" :: _) => some undefined
  | .arr (.str "z" :: _) => some null
  | .arr [.str "b", j] => bool <$> j.flag?
  | .arr [.str "n", .str s] => number <$> readFloat? s
  | .arr [.str "s", j] => string <$> j.text?
  | .arr [.str "o", .null] => some (object 0)
  | .arr [.str "o", j] => object <$> j.int64?
  | _ => none

end Value

/-- The class of a code. -/
def Class.ofCode? (n : Nat) : Option Class := Class.all[n]?

namespace FunctionInfo

/-- A function as a record; empty fields are left out. -/
def toJson (f : FunctionInfo) : Json :=
  let (node, scope, native) := match f.code with
    | .native name => (0, 0, name)
    | .closure node scope => (node, scope, "")
  .record [("name", Json.optional (!f.name.isEmpty) (.str f.name)),
    ("node", Json.optional (node != 0) (.int node)),
    ("scope", Json.optional (scope != 0) (.int scope)),
    ("native", Json.optional (!native.isEmpty) (.str native)),
    ("length", Json.optional (f.length != 0) (.int f.length))]

/-- The function of a record. -/
def ofJson? (j : Json) : Option FunctionInfo := do
  let fields ← j.members?
  let name ← Json.fieldD fields "name" "" Json.text?
  let node ← Json.fieldD fields "node" 0 Json.int64?
  let scope ← Json.fieldD fields "scope" 0 Json.int64?
  let native ← Json.fieldD fields "native" "" Json.text?
  let length ← Json.fieldD fields "length" 0 Json.int64?
  return ⟨name, if native.isEmpty then .closure node scope else .native native, length⟩

end FunctionInfo

namespace Object

/-- An object as a record; empty fields are left out. -/
def toJson (o : Object) : Json :=
  .record [("id", some (.int o.id)),
    ("class", Json.optional (o.cls.code != 0) (.nat o.cls.code)),
    ("proto", Json.optional (o.proto != 0) (.int o.proto)),
    ("keys", Json.optional (!o.keys.isEmpty) (.strs o.keys)),
    ("props", Json.optional (!o.props.isEmpty) (.obj (o.props.toList.map fun e => (e.1, e.2.toJson)))),
    ("elems", Json.optional (!o.elems.isEmpty) (.arr (o.elems.toList.map Value.toJson))),
    ("func", o.func.map FunctionInfo.toJson),
    ("prim", o.primitive.map Value.toJson),
    ("hidden", Json.optional (!o.hidden.isEmpty) (.strs o.hidden))]

/-- Properties of a record. -/
def propsOfJson? : Json → Option (Std.ExtTreeMap String Value)
  | .obj members => members.foldlM (fun props m => (Value.ofJson? m.2).map (props.insert m.1)) {}
  | _ => none

/-- The object of a record. -/
def ofJson? (j : Json) : Option Object := do
  let fields ← j.members?
  let code ← Json.fieldD fields "class" 0 Json.uint64?
  return {
    id := ← Json.fieldD fields "id" 0 Json.int64?
    cls := ← Class.ofCode? code
    proto := ← Json.fieldD fields "proto" 0 Json.int64?
    keys := ← Json.fieldD fields "keys" [] (Json.items? Json.text?)
    props := ← Json.fieldD fields "props" {} propsOfJson?
    elems := (← Json.fieldD fields "elems" [] (Json.items? Value.ofJson?)).toArray
    func := ← Json.fieldD fields "func" none fun j => some <$> FunctionInfo.ofJson? j
    primitive := ← Json.fieldD fields "prim" none fun j => some <$> Value.ofJson? j
    hidden := ← Json.fieldD fields "hidden" [] (Json.items? Json.text?) }

end Object

namespace Scope

/-- A scope as a record; empty fields are left out. -/
def toJson (s : Scope) : Json :=
  .record [("id", some (.int s.id)), ("parent", Json.optional (s.parent != 0) (.int s.parent)),
    ("strict", Json.optional s.strict (.bool true))]

/-- The scope of a record. -/
def ofJson? (j : Json) : Option Scope := do
  let fields ← j.members?
  return ⟨← Json.fieldD fields "id" 0 Json.int64?, ← Json.fieldD fields "parent" 0 Json.int64?,
    ← Json.fieldD fields "strict" false Json.flag?⟩

end Scope

namespace Heap

/-- The intrinsic objects as a record. -/
def intrinsicsToJson (h : Heap) : Json := .obj (h.intrinsics.toList.map fun e => (e.1, .int e.2))

/-- A heap as a record. -/
def toJson (h : Heap) : Json :=
  .record [("next", some (.int h.next)), ("objects", some (.arr ((h.objects.toList.map Prod.snd).map Object.toJson))),
    ("scopes", some (.arr ((h.scopes.toList.map Prod.snd).map Scope.toJson))),
    ("intrinsics", some h.intrinsicsToJson)]

/-- Adds an object that was read, if its identity is in range. -/
def addRead? (h : Heap) (o : Object) : Option Heap :=
  if 0 < o.id ∧ o.id < h.next then some (h.store o) else none

/-- Adds a scope that was read, if its bindings are there. -/
def addScopeRead? (h : Heap) (s : Scope) : Option Heap :=
  if (h.object? s.id).isSome then some { h with scopes := h.scopes.insert s.id s } else none

/-- Intrinsic objects of a record. -/
def intrinsicsOfJson? : Json → Option (Std.ExtTreeMap String ObjectId)
  | .obj members => members.foldlM (fun ids m => (Json.int64? m.2).map (ids.insert m.1)) {}
  | _ => none

/-- The heap of a record, if identities are in range and every scope has its bindings. -/
def ofJson? (j : Json) : Option Heap := do
  let fields ← j.members?
  let next ← Json.fieldD fields "next" 0 Json.int64?
  let objects ← Json.fieldD fields "objects" [] (Json.items? Object.ofJson?)
  let scopes ← Json.fieldD fields "scopes" [] (Json.items? Scope.ofJson?)
  let intrinsics ← Json.fieldD fields "intrinsics" {} intrinsicsOfJson?
  let h ← objects.foldlM addRead? ({ next, intrinsics } : Heap)
  scopes.foldlM addScopeRead? h

end Heap

end Stepwise

import Stepwise.Heap.Codec
import Stepwise.Json.Printer
import Stepwise.Json.Reader
import Stepwise.Machine.Start

/-!
# Machines as JSON

A machine is written as its heap and its stack, the bottom first. Nodes are written as their numbers, so
reading needs the program again.
-/

namespace Stepwise

variable {ω : Type}

namespace Reference

/-- A place as a record; empty fields are left out. -/
def toJson (r : Reference) : Json :=
  let (base, scope, name, isScope) := match r with
    | .variable scope name => (Value.undefined, scope, name, true)
    | .property base name => (base, 0, name, false)
  .record [("base", some base.toJson), ("scope", Json.optional (scope != 0) (.int scope)),
    ("name", some (.str name)), ("isScope", Json.optional isScope (.bool true))]

/-- The place of a record. -/
def ofJson? (j : Json) : Option Reference := do
  let fields ← j.members?
  let base ← Json.fieldD fields "base" .undefined Value.ofJson?
  let scope ← Json.fieldD fields "scope" 0 Json.int64?
  let name ← Json.fieldD fields "name" "" Json.text?
  let isScope ← Json.fieldD fields "isScope" false Json.flag?
  return if isScope then .variable scope name else .property base name

end Reference

namespace State

/-- A state as a record; empty fields are left out. -/
def toJson (s : State) : Json :=
  .record [("id", some (.nat s.id)), ("node", some (.int s.node.id)), ("scope", some (.int s.scope)),
    ("phase", Json.optional (s.phase != 0) (.nat s.phase)),
    ("n", Json.optional (s.n != 0) (.nat s.n)),
    ("m", Json.optional (s.m != 0) (.nat s.m)),
    ("done", Json.optional s.done (.bool true)),
    ("hasValue", Json.optional s.hasValue (.bool true)),
    ("value", some s.value.toJson),
    ("left", some s.left.toJson),
    ("ref", s.ref.map Reference.toJson),
    ("values", Json.optional (!s.values.isEmpty) (.arr (s.values.map Value.toJson))),
    ("func", some s.func.toJson),
    ("this", some s.this.toJson),
    ("keys", Json.optional (!s.keys.isEmpty) (.strs s.keys)),
    ("components", Json.optional s.components (.bool true)),
    ("labels", Json.optional (!s.labels.isEmpty) (.strs s.labels)),
    ("default", Json.optional (s.default != 0) (.int s.default))]

/-- The state of a record, if its node is known. -/
def ofJson? (c : Setting ω) : Json → Option State
  | .null => none
  | j => do
    let fields ← j.members?
    return {
      id := ← Json.fieldD fields "id" 0 Json.uint64?
      node := ← c.node? (← Json.fieldD fields "node" 0 Json.int64?)
      scope := ← Json.fieldD fields "scope" 0 Json.int64?
      phase := ← Json.fieldD fields "phase" 0 Json.uint64?
      n := ← Json.fieldD fields "n" 0 Json.uint64?
      m := ← Json.fieldD fields "m" 0 Json.uint64?
      done := ← Json.fieldD fields "done" false Json.flag?
      hasValue := ← Json.fieldD fields "hasValue" false Json.flag?
      value := ← Json.fieldD fields "value" .undefined Value.ofJson?
      left := ← Json.fieldD fields "left" .undefined Value.ofJson?
      ref := ← Json.fieldD fields "ref" none fun j => some <$> Reference.ofJson? j
      values := ← Json.fieldD fields "values" [] (Json.items? Value.ofJson?)
      func := ← Json.fieldD fields "func" .undefined Value.ofJson?
      this := ← Json.fieldD fields "this" .undefined Value.ofJson?
      keys := ← Json.fieldD fields "keys" [] (Json.items? Json.text?)
      components := ← Json.fieldD fields "components" false Json.flag?
      labels := ← Json.fieldD fields "labels" [] (Json.items? Json.text?)
      default := ← Json.fieldD fields "default" 0 Json.int64? }

end State

namespace Machine

/-- A machine as a record. -/
def toJson (m : Machine) : Json :=
  .record [("heap", some m.heap.toJson), ("global", some (.int m.global)),
    ("stack", some (.arr (m.stack.reverse.map State.toJson))), ("nextId", some (.nat m.lastId))]

/-- The machine of a record, if its states have known nodes and scopes. -/
def ofJson? (c : Setting ω) (j : Json) : Option Machine := do
  let fields ← j.members?
  let heap ← Json.fieldD fields "heap" {} Heap.ofJson?
  let stack ← Json.fieldD fields "stack" [] (Json.items? (State.ofJson? c))
  if stack.any fun s => (heap.scope? s.scope).isNone then none
  return {
    global := ← Json.fieldD fields "global" 0 Json.int64?
    heap
    stack := stack.reverse
    lastId := ← Json.fieldD fields "nextId" 0 Json.uint64? }

/-- The text of a machine. Equal machines have equal texts. -/
def serialize (m : Machine) : String := m.toJson.compact

/-- The machine of a text. -/
def restore? (c : Setting ω) (text : String) : Option Machine := (Json.parse? text).bind (ofJson? c)

end Machine

end Stepwise

import Stepwise.Machine.Step
import Stepwise.Trace.Basic

/-!
# What is visible at a stop

`Machine.collect` describes the machine as a step of a trace: a frame for every scope on the stack, and
the objects that can be reached from the variables of the frames.
-/

namespace Stepwise

variable {ω : Type}

/-- Describes a thrown value: an object by name, message and calls, anything else by its text. -/
def Heap.describeThrown (h : Heap) (v : Value) : String :=
  match h.deref? v with
  | none => h.toText v
  | some o =>
    let part (key otherwise before after : String) : String :=
      match h.find? o key with
      | some v => before ++ h.toText v ++ after
      | none => otherwise
    part "name" "<Unknown Error>: " "" ": " ++ part "message" "<no message>" "" "" ++
      part "stack" "\n<no stack>" "\n" ""

/-- The node of a function of the source. -/
def Setting.functionNode? (c : Setting ω) (o : Object) : Option (Node × Callable) := do
  let f ← o.func
  match f.code with
  | .native _ => none
  | .closure id _ =>
    let n ← c.node? id
    return (n, ← n.callable?)

/-- Gathers the objects that can be reached. -/
abbrev Reach := StateM (Std.TreeMap String HeapElement)

/-- A value as the trace shows it, with everything that can be reached from it gathered. An object is
entered before its parts are looked at, so that cycles end. -/
def reach (c : Setting ω) (h : Heap) : (depth : Nat) → Value → Reach TraceValue
  | 0, _ => return .undefined
  | depth + 1, v => do
    match v with
    | .undefined => return .undefined
    | .null => return .null
    | .bool b => return .boolean b
    | .number n => return .ofNumber n
    | .string s => return .string s
    | .object id =>
      match h.object? id with
      | none => return .undefined
      | some o =>
        match if o.cls = .object then none else o.primitive with
        | some p => reach c h depth p
        | none =>
          let key := toString o.id
          if (← get).contains key then return .pointer key
          modify (·.insert key (.object key []))
          let visible := o.visibleKeys.map fun k => (k, (o.own? k).getD .undefined)
          let element ← match o.func with
            | some f => do
              visible.forM fun (_, v) => discard (reach c h depth v)
              let code := ((c.functionNode? o).map fun (n, _) => c.text n).getD nativeCode
              pure (.function key f.name code)
            | none =>
              if o.cls = .error || o.primitive.isSome then pure (.object key [])
              else if o.cls.hasElements then do
                pure (.array key (← o.elems.toList.mapM (reach c h depth)))
              else do
                pure (.object key (← visible.mapM fun (k, v) => return (k, ← reach c h depth v)))
          modify (·.insert key element)
          return .pointer key

/-- The function that a scope belongs to: its name, its variables and its node. A scope other than the
global one belongs to the nearest call below its first state. -/
def Machine.scopeOwner (m : Machine) (c : Setting ω) (states : List State) (scope : ObjectId) :
    Except Fault (String × List String × Node) :=
  if scope = m.global then .ok ("<global>", c.program.locals, .program c.program)
  else
    let below := (states.takeWhile (·.scope != scope)).reverse
    match below.find? fun s => s.node.kind = .callExpression ∨ s.node.kind = .newExpression with
    | none => .error (.noCallBelow scope)
    | some call =>
      match (m.heap.deref? call.func).bind c.functionNode? with
      | none => .error (.noFunctionBelow scope)
      | some (n, f) =>
        .ok (m.heap.functionName call.func,
          "this" :: f.params.map Identifier.name ++ f.body.locals, n)

/-- Whether the state is a `return` whose argument has been started. -/
def State.isReturning (s : State) : Bool := s.done && s.node.kind = .returnStatement

/-- The values of variables, in order. -/
def Machine.localValues (m : Machine) (scope : ObjectId) (names : List String) :
    Except Fault (List (String × Value)) :=
  names.mapM fun name =>
    match m.heap.binding? scope name with
    | some v => .ok (name, v)
    | none => .error (.unbound name scope)

/-- The frame of a scope, from the innermost state of the scope. -/
def Machine.frame (m : Machine) (c : Setting ω) (states : List State) (s : State) :
    StateT (Std.TreeMap String HeapElement) (Except Fault) StackFrame := do
  let depth := m.heap.objects.size + 2
  let show_ (v : Value) : StateT (Std.TreeMap String HeapElement) (Except Fault) TraceValue :=
    fun elements => .ok ((reach c m.heap depth v).run elements)
  let (name, names, n) ← m.scopeOwner c states s.scope
  if (m.heap.object? s.scope).isNone then throw (.noBindings s.scope)
  let locals ← (← m.localValues s.scope names).foldlM
    (fun locals (name, v) => return locals.insert name (← show_ v)) {}
  let returning : Option Value := if s.isReturning && s.hasValue then some s.value else none
  let returnValue ← returning.mapM show_
  return {
    frameId := s.scope
    functionName := name
    functionCode := c.text n
    code := .ofLoc n.loc
    state := .ofLoc s.node.loc
    locals := some locals
    orderedLocals := if names.isEmpty then none else some names
    returnValue }

/-- The states that stand for a frame: the innermost of each run of states in one scope, unless it
belongs to the library. The bottom comes first. -/
def frameStates : List State → List State
  | [] => []
  | [s] => if s.node.isInternal then [] else [s]
  | s :: t :: rest =>
    if t.scope = s.scope || s.node.isInternal then frameStates (t :: rest)
    else s :: frameStates (t :: rest)

/-- What is thrown at a state: the argument of a `throw`, or else what ended the program. -/
def State.thrown? (s : State) (exception : Option Value) : Option Value :=
  if s.node.kind = .throwStatement && s.done && s.hasValue then some s.value else exception

/-- What is visible of a machine, given what was logged and what ended the program. -/
def Machine.collect (m : Machine) (c : Setting ω) (console : Console) (exception : Option Value) :
    Except Fault TraceStep := do
  match m.stack with
  | [] => throw .emptyStack
  | top :: _ =>
    let states := m.stack.reverse
    let thrown := top.thrown? exception
    let (frames, heap) ← ((frameStates states).mapM (m.frame c states)).run {}
    return {
      stdout := some console.all
      range := .ofLoc top.node.loc
      functionName := (frames.getLast?.map StackFrame.functionName).getD ""
      event := if thrown.isSome then .exception else if top.isReturning then .return_ else .stepLine
      frames := if frames.isEmpty then none else some frames
      heap := some heap
      exceptionMessage := thrown.map m.heap.describeThrown }

end Stepwise

import Stepwise.Library.Install
import Stepwise.Machine.Rule

/-!
# Calls

A call evaluates its function, then its arguments, and then runs the function: a native one at once, one
of the source by pushing its body.
-/

namespace Stepwise

open RuleM

variable {ω : Type}

/-- A bound on calls that natives ask for one after the other; no run comes near it. -/
def tailLimit : Nat := Nat.pow 2 62

/-- Calls a native function of the library. -/
def callNative (native : Native) (call : NativeCall) : RuleM Reply := do
  match (native call).run (← heap) with
  | .ok (r, h) =>
    setHeap h
    return r
  | .error t => raise t

/-- The object that `new` makes for a function of the source. -/
def newReceiver (h : Heap) (function : Object) : Value × Heap :=
  let proto := match h.getFrom function "prototype" with
    | .object id => id
    | _ => h.intrinsic Intrinsic.objectPrototype
  let (id, h) := h.alloc .object proto
  (.object id, h)

/-- Starts the body of a function that closes over a scope. -/
def enterBody (scope : ObjectId) (callable : Callable) : RuleM Move := do
  let s ← top
  let inner ← onHeap (·.bindCall scope callable s.this s.values)
  setPhase CallPhase.body
  return .push (.stmt (.block callable.body)) inner false []

/-- Calls a function of the source; `new` makes its receiver first. -/
def enterClosure (c : Setting ω) (function : Object) (node : Int) (scope : ObjectId)
    (construct : Bool) : RuleM Move := do
  match (c.node? node).bind Node.callable? with
  | none => fault (.missingFunction node)
  | some callable =>
    if construct then
      let this ← onHeap (newReceiver · function)
      modifyTop fun s => { s with this }
    enterBody scope callable

/-- Calls the function of the state with its receiver and arguments. A function of the host is left to the
machine. -/
def invoke (c : Setting ω) (below : List State) (callee : Expr) :
    (turns : Nat) → (construct : Bool) → RuleM Move
  | 0, _ => fault .endlessCalls
  | turns + 1, construct => do
    let s ← top
    let h ← heap
    match (h.deref? s.func).bind fun o => o.func.map (o, ·) with
    | none =>
      let what := c.text (.expr callee)
      raise (if construct then .notConstructor what else .notFunction what)
    | some (function, f) =>
      match f.code with
      | .closure node scope => enterClosure c function node scope construct
      | .native name =>
        let call : NativeCall :=
          { this := s.this, args := s.values, construct, site := some s.node,
            trace := some fun _ => stackTrace h (s :: below), draw := c.draws s.id }
        match Library.native? name with
        | none => return .host name call
        | some native =>
          match ← callNative native call with
          | .value v => give v
          | .tail func this args =>
            modifyTop fun s => { s with func, this, values := args }
            invoke c below callee turns false

/-- Goes on with what a function of the host has answered: its value ends the state, and the call that it asks for is
made in its place. -/
def resume (c : Setting ω) (below : List State) : Except Failure Reply → RuleM Move
  | .error failure => throw failure
  | .ok (.value v) => give v
  | .ok (.tail func this args) => do
    modifyTop fun s => { s with func, this, values := args }
    match (← top).node with
    | .expr (.call _ callee _) | .expr (.new _ callee _) => invoke c below callee tailLimit false
    | n => fault (.unexpectedNode n.kind)

/-- Evaluates the next argument, or calls the function if there is none. -/
def stepArguments (c : Setting ω) (below : List State) (callee : Expr) (args : List Expr)
    (construct : Bool) : RuleM Move := do
  if (← top).hasValue then
    let v ← take
    modifyTop fun s => { s with values := s.values ++ [v] }
  match args[(← top).n]? with
  | some e =>
    modifyTop fun s => { s with n := s.n + 1 }
    pushExpr e
  | none =>
    setPhase CallPhase.invoke
    invoke c below callee tailLimit construct

/-- Takes the function that was evaluated, and its receiver if it was a property. -/
def takeFunction : RuleM Unit := do
  match (← top).ref with
  | some r =>
    let func ← getRef r
    modifyTop fun s =>
      { s with
        func
        this := match r with | .property base _ => base | .variable .. => s.this
        ref := none }
  | none => modifyTop fun s => { s with func := s.value }
  modifyTop fun s => { s with hasValue := false, phase := CallPhase.arguments, n := 0 }

/-- Ends a call with the value of the function; `new` gives its object unless the value is one. -/
def endCall (construct : Bool) : RuleM Move := do
  let v ← take
  if construct && !v.isObject then give (← top).this else give v

/-- A step of a call. -/
def stepCall (c : Setting ω) (below : List State) (callee : Expr) (args : List Expr)
    (construct : Bool) : RuleM Move := do
  match (← top).phase with
  | 0 =>
    setPhase CallPhase.target
    if construct then pushExpr callee else pushTarget callee
  | 1 =>
    takeFunction
    stepArguments c below callee args construct
  | 2 => stepArguments c below callee args construct
  | 3 => invoke c below callee tailLimit construct
  | 4 =>
    modifyTop fun s => { s with value := .undefined }
    endCall construct
  | _ => endCall construct

end Stepwise

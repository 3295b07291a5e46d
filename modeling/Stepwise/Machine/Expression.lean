import Stepwise.Machine.Call
import Stepwise.Machine.Operator

/-!
# Evaluation of expressions

One rule for each kind of expression. A rule that needs a part pushes it, and finds its result in the
state when the part is done.
-/

namespace Stepwise

open RuleM

variable {ω : Type}

/-- A name gives its place if that is wanted, and its value otherwise. -/
def evalIdentifier (name : String) : RuleM Move := do
  let s ← top
  if s.components then return .giveRef (.variable s.scope name)
  else give (← getRef (.variable s.scope name))

/-- The value of `this`. -/
def evalThis : RuleM Move := do
  give (((← heap).lookup? (← top).scope "this").getD .undefined)

/-- Keeps the element that has just been evaluated. -/
def keepElement : RuleM Unit := do
  if (← top).hasValue then
    let v ← take
    modifyTop fun s => { s with values := s.values ++ [v], n := s.n + 1 }

/-- Evaluates the elements of an array literal one by one. A hole is an undefined element. -/
def evalArray (elements : List (Option Expr)) : RuleM Move := do
  keepElement
  let rest := elements.drop (← top).n
  let holes := (rest.takeWhile Option.isNone).length
  modifyTop fun s =>
    { s with values := s.values ++ List.replicate holes .undefined, n := s.n + holes }
  match rest[holes]? with
  | some (some e) => pushExpr e
  | _ => give (.object (← onHeap (·.newArray (← top).values.toArray)))

/-- Adds an object with given properties. -/
def Heap.newRecord (h : Heap) (properties : List (String × Value)) : ObjectId × Heap :=
  let (id, h) := h.newPlain
  (id, h.modify id fun o => properties.foldl (fun o (k, v) => o.put k v) o)

/-- Evaluates the properties of an object literal one by one. -/
def evalObject (properties : List Property) : RuleM Move := do
  keepElement
  match properties[(← top).n]? with
  | some p => if p.kind = .init then pushExpr p.value else raise (.unsupported "getters and setters are")
  | none =>
    let keys := properties.map (·.name.key)
    give (.object (← onHeap (·.newRecord (keys.zip (← top).values))))

/-- Deletes the property that was evaluated. Anything else can be deleted without effect. -/
def evalDelete : RuleM Move := do
  match (← top).ref with
  | none =>
    let _ ← take
    give (.bool true)
  | some r =>
    let (base, name) := match r with
      | .property base name => (base, name)
      | .variable _ name => (Value.undefined, name)
    if base.isNullish then raise .deleteOfNothing
    match (← heap).deref? base with
    | none => give (.bool true)
    | some o =>
      let (o, deleted) := Heap.remove o name
      setHeap ((← heap).store o)
      give (.bool deleted)

/-- A unary expression. `typeof` of a name that is bound nowhere is no error, and `delete` wants the
place of a property. -/
def evalUnary (op : UnaryOp) (argument : Expr) : RuleM Move := do
  if (← top).phase = 0 then
    setPhase 1
    match op, argument with
    | .typeof, .identifier i =>
      let h ← heap
      match h.lookup? (← top).scope i.name with
      | some v => give (.string (h.typeOf v))
      | none => give (.string "undefined")
    | .delete, .member .. | .delete, .index .. => pushTarget argument
    | _, _ => pushExpr argument
  else if op = .delete then evalDelete
  else
    let v ← take
    give ((← heap).applyUnary op v)

/-- Adds one to a place or takes one from it; the value is the old one if the operator comes last. -/
def evalUpdate (op : UpdateOp) (leading : Bool) (argument : Expr) : RuleM Move := do
  if (← top).phase = 0 then
    setPhase 1
    pushTarget argument
  else
    match (← top).ref with
    | none => raise .updateTarget
    | some r =>
      let old := (← heap).toNumber (← getRef r)
      let new := match op with
        | .increment => old + 1
        | .decrement => old - 1
      putRef r (.number new)
      give (.number (if leading then new else old))

/-- What is assigned: the right side, or what the operator makes of the old value and the right side. -/
def assigned (op : AssignOp) (right : Value) : RuleM Value := do
  match op with
  | .plain => return right
  | .compound b => orRaise ((← heap).applyBinary b (← top).left right)

/-- An assignment: the place, then the old value if the operator needs it, then the right side. -/
def evalAssign (op : AssignOp) (left right : Expr) : RuleM Move := do
  match (← top).phase with
  | 0 =>
    setPhase 1
    pushTarget left
  | 1 =>
    modifyTop fun s => { s with hasValue := false }
    match (← top).ref with
    | none => raise .assignmentTarget
    | some r =>
      if op ≠ .plain then
        let old ← getRef r
        modifyTop fun s => { s with left := old }
      setPhase 2
      pushExpr right
  | _ =>
    let v ← assigned op (← take)
    match (← top).ref with
    | none => raise .assignmentTarget
    | some r =>
      putRef r v
      give v

/-- A binary expression. -/
def evalBinary (op : BinaryOp) (left right : Expr) : RuleM Move := do
  match (← top).phase with
  | 0 =>
    setPhase 1
    pushExpr left
  | 1 =>
    let v ← take
    modifyTop fun s => { s with left := v, phase := 2 }
    pushExpr right
  | _ =>
    let v ← take
    give (← orRaise ((← heap).applyBinary op (← top).left v))

/-- A logical expression. The right side is evaluated only if the left side does not decide. -/
def evalLogical (op : LogicalOp) (left right : Expr) : RuleM Move := do
  match (← top).phase with
  | 0 =>
    setPhase 1
    pushExpr left
  | 1 =>
    let v ← take
    if v.truthy = decide (op = .or) then give v
    else
      setPhase 2
      pushExpr right
  | _ => give (← take)

/-- A conditional expression. -/
def evalConditional (test consequent alternate : Expr) : RuleM Move := do
  match (← top).phase with
  | 0 =>
    setPhase 1
    pushExpr test
  | 1 =>
    setPhase 2
    pushExpr (if (← take).truthy then consequent else alternate)
  | _ => give (← take)

/-- Expressions one after the other; the value is the last one's. -/
def evalSequence (expressions : List Expr) : RuleM Move := do
  match expressions[(← top).n]? with
  | some e =>
    modifyTop fun s => { s with n := s.n + 1 }
    pushExpr e
  | none => give (← take)

/-- Ends a property access with its place or its value. -/
def giveProperty (key : String) : RuleM Move := do
  let s ← top
  if s.components then return .giveRef (.property s.left key)
  else give (← orRaise ((← heap).get s.left key))

/-- A property access with a name. -/
def evalMember (object : Expr) (name : String) : RuleM Move := do
  if (← top).phase = 0 then
    setPhase 1
    pushExpr object
  else
    let v ← take
    modifyTop fun s => { s with left := v }
    giveProperty name

/-- A property access with an expression in brackets. -/
def evalIndex (object key : Expr) : RuleM Move := do
  match (← top).phase with
  | 0 =>
    setPhase 1
    pushExpr object
  | 1 =>
    let v ← take
    modifyTop fun s => { s with left := v, phase := 2 }
    pushExpr key
  | _ =>
    let v ← take
    giveProperty ((← heap).toKey v)

/-- A step of an expression. -/
def stepExpr (c : Setting ω) (below : List State) : Expr → RuleM Move
  | .identifier i => evalIdentifier i.name
  | .number _ value _ => give (.number value)
  | .string _ value => give (.string value)
  | .boolean _ value => give (.bool value)
  | .null _ => give .null
  | .regexp .. => raise (.unsupported "regular expressions are")
  | .this _ => evalThis
  | .function loc name params body => do
    let scope := (← top).scope
    give (← onHeap (·.evalFunction ⟨loc, name, params, body⟩ scope))
  | .array _ elements => evalArray elements
  | .object _ properties => evalObject properties
  | .unary _ op argument => evalUnary op argument
  | .update _ op leading argument => evalUpdate op leading argument
  | .binary _ op left right => evalBinary op left right
  | .logical _ op left right => evalLogical op left right
  | .assign _ op left right => evalAssign op left right
  | .conditional _ test consequent alternate => evalConditional test consequent alternate
  | .sequence _ expressions => evalSequence expressions
  | .member _ object name => evalMember object name.name
  | .index _ object key => evalIndex object key
  | .call _ callee arguments => stepCall c below callee arguments false
  | .new _ callee arguments => stepCall c below callee arguments true

end Stepwise

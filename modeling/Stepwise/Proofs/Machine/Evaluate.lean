import Stepwise.Proofs.Machine.Rule

/-!
# Evaluation by recursion

The value of an expression, computed from the values of its parts.

* `Expr.value` and `Expr.place`: the value of an expression, and its place if it has one.
* `Expr.deliver`: the one that is wanted.
* `Raised`: what an evaluation raises, and where.
* `Node.CallFree`: an expression that calls nothing, except in functions that it makes.
-/

namespace Stepwise

/-- What an evaluation raised, and the node that raised it. -/
structure Raised where
  exception : Throw
  node : Node

/-- A computation that changes the heap and may raise an exception. -/
abbrev EvalM := EStateM Raised Heap

namespace EvalM

variable {α : Type}

def raise (n : Node) (t : Throw) : EvalM α := throw ⟨t, n⟩

/-- The result of an operation of a node, or its exception. -/
def orRaise (n : Node) : Except Throw α → EvalM α
  | .ok a => return a
  | .error t => raise n t

/-- Changes the heap and gives a result. -/
def onHeap (f : Heap → α × Heap) : EvalM α := modifyGet f

/-- The value at a place. -/
def read (n : Node) (r : Reference) : EvalM Value := do orRaise n (RuleM.readRef (← get) r)

/-- Stores a value at a place. -/
def write (n : Node) (r : Reference) (v : Value) : EvalM Unit := do set (← orRaise n (RuleM.writeRef (← get) r v))

/-- Deletes a property. -/
def delete (n : Node) (r : Reference) : EvalM Value := do
  let (base, name) := match r with
    | .property base name => (base, name)
    | .variable _ name => (Value.undefined, name)
  if base.isNullish then raise n .deleteOfNothing
  match (← get).deref? base with
  | none => return .bool true
  | some o =>
    let (o, deleted) := Heap.remove o name
    modify (·.store o)
    return .bool deleted

/-! ### Running computations -/

variable {β : Type} (h : Heap)

@[simp] theorem bind_run (x : EvalM α) (k : α → EvalM β) :
    (x >>= k) h = match x h with
      | .ok a h' => k a h'
      | .error e h' => .error e h' := by
  show EStateM.bind x k h = _
  unfold EStateM.bind
  cases x h <;> rfl

@[simp] theorem map_run (g : α → β) (x : EvalM α) :
    (g <$> x) h = match x h with
      | .ok a h' => .ok (g a) h'
      | .error e h' => .error e h' := by
  show EStateM.map g x h = _
  unfold EStateM.map
  cases x h <;> rfl

@[simp] theorem pure_run (a : α) : (pure a : EvalM α) h = .ok a h := rfl

@[simp] theorem get_run : (get : EvalM Heap) h = .ok h h := rfl

@[simp] theorem onHeap_run (f : Heap → α × Heap) : onHeap f h = .ok (f h).1 (f h).2 := rfl

@[simp] theorem raise_run (n : Node) (t : Throw) : (raise n t : EvalM α) h = .error ⟨t, n⟩ h := rfl

@[simp] theorem orRaise_run (n : Node) (x : Except Throw α) :
    orRaise n x h = match x with
      | .ok a => .ok a h
      | .error t => .error ⟨t, n⟩ h := by
  cases x <;> rfl

@[simp] theorem read_run (n : Node) (r : Reference) : read n r h = orRaise n (RuleM.readRef h r) h := rfl

@[simp] theorem write_run (n : Node) (r : Reference) (v : Value) :
    write n r v h = match RuleM.writeRef h r v with
      | .ok h' => .ok () h'
      | .error t => .error ⟨t, n⟩ h := by
  unfold write
  simp only [bind_run, get_run, orRaise_run]
  cases RuleM.writeRef h r v <;> rfl

end EvalM

open EvalM

/-- A unary expression, given the computations of its argument's value and place. -/
def unaryValue (n : Node) (scope : ObjectId) (op : UnaryOp) (argument : Expr) (value : EvalM Value)
    (place : EvalM Reference) : EvalM Value :=
  match op, argument with
  | .typeof, .identifier i => do
    let h ← get
    match h.lookup? scope i.name with
    | some v => return .string (h.typeOf v)
    | none => return .string "undefined"
  | .delete, .member .. | .delete, .index .. => do delete n (← place)
  | .delete, _ => do
    let _ ← value
    return .bool true
  | _, _ => do
    let v ← value
    return (← get).applyUnary op v

/-- The place of an expression, if it has one; otherwise its value is computed in vain. -/
def placeOr (e : Expr) (value : EvalM Value) (place : EvalM Reference) : EvalM (Option Reference) :=
  if e.isTarget then some <$> place else do
    let _ ← value
    return none

/-- Adds one to a place or takes one from it. -/
def updateValue (n : Node) (op : UpdateOp) (leading : Bool) (place : EvalM (Option Reference)) : EvalM Value := do
  match ← place with
  | none => raise n .updateTarget
  | some r =>
    let old := (← get).toNumber (← read n r)
    let new := match op with
      | .increment => old + 1
      | .decrement => old - 1
    write n r (.number new)
    return .number (if leading then new else old)

/-- What an assignment stores, given the old value if it is needed and the value of the right side. -/
def assignedValue (h : Heap) (op : AssignOp) (old right : Value) : Except Throw Value :=
  match op with
  | .plain => .ok right
  | .compound b => h.applyBinary b old right

/-- The old value at a place, if an assignment needs it. -/
def oldValue (n : Node) (op : AssignOp) (r : Reference) : EvalM Value :=
  if op = .plain then return .undefined else read n r

/-- Assigns a value to a place: first the place, then the old value if it is needed, then the right side. -/
def assignValue (n : Node) (op : AssignOp) (place : EvalM (Option Reference)) (right : EvalM Value) : EvalM Value := do
  match ← place with
  | none => raise n .assignmentTarget
  | some r =>
    let old ← oldValue n op r
    let new ← right
    let v ← orRaise n (assignedValue (← get) op old new)
    write n r v
    return v

mutual

/-- The value of an expression. Calls have none. -/
def Expr.value (scope : ObjectId) : Expr → EvalM Value
  | .identifier i => read (.expr (.identifier i)) (.variable scope i.name)
  | .number _ value _ => return .number value
  | .string _ value => return .string value
  | .boolean _ value => return .bool value
  | .null _ => return .null
  | .regexp l raw => raise (.expr (.regexp l raw)) (.unsupported "regular expressions are")
  | .this _ => return ((← get).lookup? scope "this").getD .undefined
  | .array _ elements => do
    let vs ← elementValues scope elements
    return .object (← onHeap (·.newArray vs.toArray))
  | .object l properties => do
    let vs ← propertyValues scope (.expr (.object l properties)) properties
    return .object (← onHeap (·.newRecord ((properties.map (·.name.key)).zip vs)))
  | .function l name params body => onHeap (·.evalFunction ⟨l, name, params, body⟩ scope)
  | .unary l op argument =>
    unaryValue (.expr (.unary l op argument)) scope op argument (argument.value scope) (argument.place scope)
  | .update l op leading argument =>
    updateValue (.expr (.update l op leading argument)) op leading
      (placeOr argument (argument.value scope) (argument.place scope))
  | .binary l op left right => do
    let a ← left.value scope
    let b ← right.value scope
    orRaise (.expr (.binary l op left right)) ((← get).applyBinary op a b)
  | .logical _ op left right => do
    let a ← left.value scope
    if a.truthy = decide (op = .or) then return a
    right.value scope
  | .assign l op left right =>
    assignValue (.expr (.assign l op left right)) op (placeOr left (left.value scope) (left.place scope))
      (right.value scope)
  | .conditional _ test consequent alternate => do
    if (← test.value scope).truthy then consequent.value scope else alternate.value scope
  | .call .. | .new .. => return .undefined
  | .member l object name => do
    let base ← object.value scope
    orRaise (.expr (.member l object name)) ((← get).get base name.name)
  | .index l object key => do
    let base ← object.value scope
    let k ← key.value scope
    orRaise (.expr (.index l object key)) ((← get).get base ((← get).toKey k))
  | .sequence _ expressions => lastValue scope .undefined expressions
termination_by structural e => e

/-- The place of an expression that has one. -/
def Expr.place (scope : ObjectId) : Expr → EvalM Reference
  | .identifier i => return .variable scope i.name
  | .member _ object name => return .property (← object.value scope) name.name
  | .index _ object key => do
    let base ← object.value scope
    let k ← key.value scope
    return .property base ((← get).toKey k)
  | _ => return default
termination_by structural e => e

/-- The values of the elements of an array; a hole is undefined. -/
def elementValues (scope : ObjectId) : List (Option Expr) → EvalM (List Value)
  | [] => return []
  | e :: es => do
    let v ← elementValue scope e
    return v :: (← elementValues scope es)
termination_by structural es => es

def elementValue (scope : ObjectId) : Option Expr → EvalM Value
  | none => return .undefined
  | some e => e.value scope
termination_by structural e => e

/-- The values of the properties of an object literal, which is the node `n`. -/
def propertyValues (scope : ObjectId) (n : Node) : List Property → EvalM (List Value)
  | [] => return []
  | p :: ps => do
    let v ← propertyValue scope n p
    return v :: (← propertyValues scope n ps)
termination_by structural ps => ps

def propertyValue (scope : ObjectId) (n : Node) : Property → EvalM Value
  | ⟨_, _, value, kind⟩ =>
    if kind = .init then value.value scope else raise n (.unsupported "getters and setters are")
termination_by structural p => p

/-- The value of the last of some expressions, or `v` if there is none. -/
def lastValue (scope : ObjectId) (v : Value) : List Expr → EvalM Value
  | [] => return v
  | e :: es => do lastValue scope (← e.value scope) es
termination_by structural es => es

end

attribute [simp] Expr.value Expr.place elementValues elementValue propertyValues propertyValue lastValue

/-- What an expression does to the state below it: it delivers its place if that is wanted, and otherwise its value. -/
def Expr.deliver (scope : ObjectId) (components : Bool) (e : Expr) : EvalM (State → State) :=
  if components then (fun r s => s.receiveRef r) <$> e.place scope else (fun v s => s.receive v) <$> e.value scope

/-- A node that calls nothing, nor does anything that it evaluates. -/
inductive Node.CallFree : Node → Prop where
  | mk {n : Node} (hn : ¬n.isCall) (hparts : ∀ part ∈ n.operands, CallFree part) : CallFree n

end Stepwise

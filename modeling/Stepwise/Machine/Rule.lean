import Std.Data.TreeMap
import Stepwise.Heap.Scope
import Stepwise.Machine.State
import Stepwise.Tree.Declaration
import Stepwise.Tree.Walk

/-!
# Rules

A rule looks at the state on top of the stack, changes it and the heap, and answers with a move of the
stack. What it changed stays changed if it fails.
-/

namespace Stepwise

/-- What a rule does to the stack. -/
inductive Move where
  /-- Goes on with the same state. -/
  | stay
  /-- Starts a part. -/
  | push (node : Node) (scope : ObjectId) (components : Bool) (labels : List String)
  /-- Ends the state. -/
  | drop
  /-- Ends the state and delivers its value to the state below. -/
  | give (v : Value)
  /-- Ends the state and delivers a place to the state below. -/
  | giveRef (r : Reference)
  /-- Calls a function of the host, which ends the state with its value. -/
  | host (name : String) (call : NativeCall)
  /-- Leaves statements up to the target of a `break`, or goes on with the target of a `continue`. -/
  | jump (label : Option String) (isContinue : Bool)
  /-- Leaves everything up to the running call, which gets the value. -/
  | return_ (v : Value)

/-- The nodes of a program by their numbers. -/
abbrev NodeIndex := Std.TreeMap Int Node

/-- The nodes of a program by their numbers. -/
def Program.index (p : Program) : NodeIndex := .ofList (p.nodes.map fun n => (n.id, n))

/-- What does not change while a program runs. -/
structure Setting (ω : Type) where
  program : Program
  nodes : NodeIndex
  /-- The library's own code. -/
  library : Program
  libraryNodes : NodeIndex
  host : List (HostFunction ω)
  maxDepth : Nat
  /-- The random numbers, by the identity of the state that draws one. No snapshot holds them. -/
  draws : Nat → Float

namespace Setting

variable {ω : Type}

/-- The node of a number, of the library or of the program. -/
def node? (c : Setting ω) (id : Int) : Option Node := (c.libraryNodes[id]?).or c.nodes[id]?

/-- The node that is found under the number of a node. -/
def resolve (c : Setting ω) (n : Node) : Node := (c.node? n.id).getD n

/-- The source text of a node. -/
def text (c : Setting ω) (n : Node) : String :=
  if n.isInternal then c.library.text n else c.program.text n

/-- The host's function of a full name. -/
def host? (c : Setting ω) (name : String) : Option (HostFunction ω) :=
  c.host.find? fun f => "host." ++ f.name == name

end Setting

/-- What a rule works on. -/
structure Frame where
  top : State
  heap : Heap

/-- A rule. -/
abbrev RuleM := EStateM Failure Frame

namespace RuleM

/-- The state on top. -/
def top : RuleM State := return (← get).top

/-- Changes the state on top. -/
def modifyTop (f : State → State) : RuleM Unit := modify fun s => { s with top := f s.top }

/-- The heap. -/
def heap : RuleM Heap := return (← get).heap

/-- Replaces the heap. -/
def setHeap (h : Heap) : RuleM Unit := modify fun s => { s with heap := h }

/-- Changes the heap and gives a result. -/
def onHeap {α : Type} (f : Heap → α × Heap) : RuleM α :=
  modifyGet fun s => let (a, h) := f s.heap; (a, { s with heap := h })

/-- Raises an exception. -/
def raise {α : Type} (t : Throw) : RuleM α := throw (.raised t)

/-- The result of an operation, or its exception. -/
def orRaise {α : Type} : Except Throw α → RuleM α
  | .ok a => return a
  | .error t => raise t

/-- Stops with a fault. -/
def fault {α : Type} (f : Fault) : RuleM α := throw (.fault f)

/-- Takes the value that a part delivered. -/
def take : RuleM Value := do
  modifyTop fun s => { s with hasValue := false }
  return (← top).value

/-- Sets how far the node has come. -/
def setPhase (phase : Nat) : RuleM Unit := modifyTop fun s => { s with phase }

/-- Starts a part in the same scope. -/
def push (n : Node) : RuleM Move := return .push n (← top).scope false []

/-- Starts an expression. -/
def pushExpr (e : Expr) : RuleM Move := push (.expr e)

/-- Starts a statement. -/
def pushStmt (s : Stmt) : RuleM Move := push (.stmt s)

/-- Starts an expression whose place is wanted, if it has one. -/
def pushTarget (e : Expr) : RuleM Move := return .push (.expr e) (← top).scope e.isTarget []

/-- Ends the state with a value. -/
def give (v : Value) : RuleM Move := return .give v

/-- The value at a place. -/
def readRef (h : Heap) : Reference → Except Throw Value
  | .variable scope name =>
    match h.lookup? scope name with
    | some v => .ok v
    | none => .error (.notDefined name)
  | .property base name => h.get base name

/-- The heap with a value stored at a place. -/
def writeRef (h : Heap) (r : Reference) (v : Value) : Except Throw Heap :=
  match r with
  | .variable scope name => h.assign scope name v
  | .property base name => h.put base name v

/-- The value at a place, in a rule. -/
def getRef (r : Reference) : RuleM Value := do
  orRaise (readRef (← heap) r)

/-- Stores a value at a place. -/
def putRef (r : Reference) (v : Value) : RuleM Unit := do
  setHeap (← orRaise (writeRef (← heap) r v))

/-- Assigns a value to a variable. -/
def assign (name : String) (v : Value) : RuleM Unit := do
  putRef (.variable (← top).scope name) v

end RuleM

namespace Heap

/-- Adds a function that closes over a scope. -/
def newClosure (h : Heap) (c : Callable) (scope : ObjectId) : ObjectId × Heap :=
  h.newFunction ⟨(c.name.map Identifier.name).getD "", .closure c.loc.id scope, c.params.length⟩

/-- Binds a name to undefined unless it is bound. -/
def declareMissing (h : Heap) (scope : ObjectId) (name : String) : Heap :=
  if (h.binding? scope name).isSome then h else h.declare scope name .undefined

/-- Binds the name of a declared function to a closure over the scope. -/
def declareFunction (h : Heap) (scope : ObjectId) (c : Callable) : Heap :=
  let (id, h) := h.newClosure c scope
  h.declare scope ((c.name.map Identifier.name).getD "") (.object id)

/-- Binds what is declared in a program or function body: variables to undefined unless they are bound,
then functions. -/
def hoist (h : Heap) (declarations : List Declaration) (scope : ObjectId) : Heap :=
  let h := (localNames declarations).foldl (·.declareMissing scope ·) h
  (declaredFunctions declarations).foldl (·.declareFunction scope ·) h

/-- The value of a function expression. One with a name gets a scope that binds the name. -/
def evalFunction (h : Heap) (c : Callable) (scope : ObjectId) : Value × Heap :=
  match c.name with
  | none =>
    let (id, h) := h.newClosure c scope
    (.object id, h)
  | some name =>
    let (own, h) := h.newScope scope true
    let (id, h) := h.newClosure c own
    (.object id, h.declare own name.name (.object id))

/-- Binds parameters to arguments; those without one are undefined. -/
def bindParams (h : Heap) (scope : ObjectId) : List Identifier → List Value → Heap
  | [], _ => h
  | p :: ps, [] => (h.declare scope p.name .undefined).bindParams scope ps []
  | p :: ps, v :: vs => (h.declare scope p.name v).bindParams scope ps vs

/-- Adds the scope of a call to a function that closes over `closure`. -/
def bindCall (h : Heap) (closure : ObjectId) (c : Callable) (this : Value) (args : List Value) :
    ObjectId × Heap :=
  let (scope, h) := h.newScope closure true
  let h := h.declare scope "this" this
  let (arguments, h) := h.add
    { id := 0, cls := .arguments, proto := h.intrinsic Intrinsic.objectPrototype, elems := args.toArray }
  let h := h.declare scope "arguments" (.object arguments)
  let h := h.bindParams scope c.params args
  (scope, h.hoist c.body.declarations scope)

end Heap

end Stepwise

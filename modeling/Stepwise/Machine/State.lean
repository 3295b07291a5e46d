import Stepwise.Library.Native
import Stepwise.Library.Script
import Stepwise.Text.Quoted
import Stepwise.Tree.Kind

/-!
# States of the machine

The machine evaluates a program in small steps. Its stack holds one state for each node that is being
evaluated, with what the node has gathered so far.
-/

namespace Stepwise

/-- A place that a value can be assigned to. -/
inductive Reference where
  | variable (scope : ObjectId) (name : String)
  | property (base : Value) (name : String)
  deriving Inhabited

/-- A node that is being evaluated. -/
structure State where
  /-- Grows from push to push. -/
  id : Nat
  node : Node
  scope : ObjectId
  /-- How far the node has come. -/
  phase : Nat := 0
  /-- The next part of the node. -/
  n : Nat := 0
  /-- The next statement of a case. -/
  m : Nat := 0
  /-- Whether the argument of a `return` or `throw` has been started. -/
  done : Bool := false
  /-- Whether a part has just delivered its result. -/
  hasValue : Bool := false
  /-- The result of a part. -/
  value : Value := .undefined
  /-- The first operand, or the subject of a loop or `switch`. -/
  left : Value := .undefined
  /-- The place that a part delivered. -/
  ref : Option Reference := none
  /-- The arguments or elements so far. -/
  values : List Value := []
  /-- The function that is called. -/
  func : Value := .undefined
  /-- The receiver of the call. -/
  this : Value := .undefined
  /-- The keys that a loop visits. -/
  keys : List String := []
  /-- Whether the node delivers a place instead of a value. -/
  components : Bool := false
  /-- The labels of the statement. -/
  labels : List String := []
  /-- The position of the default of a `switch`; -1 if none was met. -/
  default : Int := 0
  deriving Inhabited

/-! ### Phases of a call -/

namespace CallPhase

def callee : Nat := 0
def target : Nat := 1
def arguments : Nat := 2
def invoke : Nat := 3

/-- The body of the function is on the stack above the call. -/
def body : Nat := 4

/-- A `return` has delivered the value of the call. -/
def returned : Nat := 5

end CallPhase

namespace State

/-- Whether the state is a call whose function is running. -/
def isActiveCall (s : State) : Bool :=
  s.phase == CallPhase.body &&
    match s.node with
    | .expr (.call ..) | .expr (.new ..) => true
    | _ => false

/-- Whether the state is a loop. -/
def isLoop (s : State) : Bool :=
  match s.node with
  | .stmt (.while_ ..) | .stmt (.doWhile ..) | .stmt (.for_ ..) | .stmt (.forIn ..) => true
  | _ => false

/-- Whether the state is a `switch`. -/
def isSwitch (s : State) : Bool :=
  match s.node with
  | .stmt (.switch ..) => true
  | _ => false

/-- The state with the result of a part. -/
def receive (s : State) (v : Value) : State := { s with value := v, hasValue := true }

/-- The state with a place that a part delivered. -/
def receiveRef (s : State) (r : Reference) : State := { s with ref := some r, hasValue := true }

end State

/-- Failures of the machine itself or of the host. -/
inductive Fault where
  | stackOverflow
  | jumpWithoutTarget
  | returnOutsideFunction
  | endlessCalls
  | emptyStack
  /-- A scope has no call that made it. -/
  | noCallBelow (scope : ObjectId)
  /-- The call that made a scope has no function of the source. -/
  | noFunctionBelow (scope : ObjectId)
  | noBindings (scope : ObjectId)
  | unbound (name : String) (scope : ObjectId)
  | unregisteredNative (name : String)
  | missingFunction (node : Int)
  | unexpectedNode (kind : Kind)
  | libraryFailed (outcome : String)
  | unnamedHostFunction
  /-- A failure of a host function, with its text. -/
  | host (message : String)
  deriving DecidableEq, Repr

/-- The wording of a fault. -/
def Fault.message : Fault → String
  | stackOverflow => "interpreter fault: maximum call depth exceeded"
  | jumpWithoutTarget => "interpreter fault: break or continue outside of its target"
  | returnOutsideFunction => "interpreter fault: return outside of a function"
  | endlessCalls => "interpreter fault: endless chain of calls"
  | emptyStack => "interpreter fault: empty state stack"
  | noCallBelow scope => "interpreter fault: no call expression below scope " ++ toString scope
  | noFunctionBelow scope =>
    "interpreter fault: call below scope " ++ toString scope ++ " has no interpreted function"
  | noBindings scope => "interpreter fault: scope " ++ toString scope ++ " has no bindings"
  | unbound name scope =>
    "interpreter fault: " ++ quoted name ++ " is not bound in scope " ++ toString scope
  | unregisteredNative name => "interpreter fault: native " ++ quoted name ++ " is not registered"
  | missingFunction node => "interpreter fault: function node " ++ toString node ++ " not found"
  | unexpectedNode kind => "interpreter fault: unexpected " ++ kind.name ++ " node"
  | libraryFailed outcome => "interpreter fault: polyfills did not complete: " ++ outcome
  | unnamedHostFunction => "interpreter fault: host function without a name"
  | host message => "interpreter fault: " ++ message

/-- Why a rule did not complete. -/
inductive Failure where
  /-- An exception that has to become an object. -/
  | raised (t : Throw)
  /-- A value that the program throws. -/
  | thrown (v : Value)
  | fault (f : Fault)

/-- A function of the host over a world of its own. It gets the heap and the world, and what it did to
them counts whether or not it succeeds. Like a function of the library it may ask for another call. -/
structure HostFunction (ω : Type) where
  name : String
  run : NativeCall → Heap → ω → Except Failure Reply × Heap × ω

/-- Whether a node belongs to the library's own code. -/
def Node.isInternal (n : Node) : Bool := n.loc.source == Library.scriptName

/-- The name of a function, for traces. -/
def Heap.functionName (h : Heap) (v : Value) : String :=
  match (h.deref? v).bind Object.func with
  | some f => if f.name.isEmpty then "<anon>" else f.name
  | none => "<anon>"

/-- A line of a trace: a function and where it was. -/
def traceLine (name : String) (position : Option Node) : String :=
  match position with
  | some n =>
    if n.isInternal then "    at " ++ name ++ " (native)"
    else "    at " ++ name ++ " (" ++ n.loc.start.text ++ ")"
  | none => "    at " ++ name ++ " (native)"

/-- The lines of a trace from the innermost call on; `position` is where the program is inside it. -/
def traceLines (h : Heap) (position : Option Node) : List State → List String
  | [] => [traceLine "<global>" position]
  | s :: below =>
    if s.isActiveCall then traceLine (h.functionName s.func) position :: traceLines h (some s.node) below
    else traceLines h position below

/-- Describes the calls that are running, innermost first. -/
def stackTrace (h : Heap) (stack : List State) : String :=
  String.intercalate "\n" (traceLines h (stack.head?.map State.node) stack)

end Stepwise

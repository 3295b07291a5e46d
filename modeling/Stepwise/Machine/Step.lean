import Stepwise.Machine.Statement

/-!
# Steps

A step applies the rule of the state on top and then moves the stack.
-/

namespace Stepwise

variable {ω : Type}

/-- The machine: everything that changes while a program runs, except the world of the host. -/
structure Machine where
  global : ObjectId
  heap : Heap
  /-- The states, the top first. -/
  stack : List State
  /-- The identity of the state that was pushed last. -/
  lastId : Nat
  deriving Inhabited

/-- How a step ended. -/
inductive Outcome where
  | advanced
  | ended
  /-- A value was thrown. -/
  | exception (v : Value)
  | fault (f : Fault)

/-- The name of an outcome. -/
def Outcome.name : Outcome → String
  | advanced => "advanced"
  | ended => "ended"
  | exception _ => "exception"
  | fault _ => "fault"

/-- Whether there may be a further step. -/
def Outcome.isAdvanced : Outcome → Bool
  | advanced => true
  | _ => false

/-- The stack after the state on top has delivered a result to the one below. -/
def deliver (f : State → State) : List State → List State
  | [] => []
  | s :: below => f s :: below

/-- Whether a state is the target of a `break` or `continue`. -/
def State.isTarget (s : State) (label : Option String) (isContinue : Bool) : Bool :=
  match label with
  | some l => s.labels.contains l && (!isContinue || s.isLoop)
  | none => s.isLoop || (!isContinue && s.isSwitch)

/-- The stack after a `break` or `continue`, and whether its target was found. A `break` leaves the
target too. -/
def leaveTo (label : Option String) (isContinue : Bool) : List State → List State × Bool
  | [] => ([], false)
  | s :: below =>
    if s.isActiveCall then (s :: below, false)
    else if s.isTarget label isContinue then (if isContinue then s :: below else below, true)
    else leaveTo label isContinue below

/-- The stack after a `return`: the innermost running call gets the value. -/
def returnTo (v : Value) : List State → List State × Bool
  | [] => ([], false)
  | s :: below =>
    if s.isActiveCall then ({ s.receive v with phase := CallPhase.returned } :: below, true)
    else returnTo v below

namespace Machine

/-- Starts a node. The stack holds what is found under its number. -/
def push (m : Machine) (c : Setting ω) (node : Node) (scope : ObjectId) (components : Bool)
    (labels : List String) : Machine :=
  { m with
    lastId := m.lastId + 1
    stack := { id := m.lastId + 1, node := c.resolve node, scope, components, labels } :: m.stack }

/-- Moves the stack `top :: below`, and says what went wrong. A call of the host moves nothing by itself. -/
def apply (m : Machine) (c : Setting ω) (top : State) (below : List State) : Move → Machine × Option Fault
  | .stay | .host .. => ({ m with stack := top :: below }, none)
  | .push node scope components labels =>
    ({ m with stack := top :: below }.push c node scope components labels, none)
  | .drop => ({ m with stack := below }, none)
  | .give v => ({ m with stack := deliver (·.receive v) below }, none)
  | .giveRef r => ({ m with stack := deliver (·.receiveRef r) below }, none)
  | .jump label isContinue =>
    let (stack, found) := leaveTo label isContinue below
    ({ m with stack }, if found then none else some .jumpWithoutTarget)
  | .return_ v =>
    let (stack, found) := returnTo v (top :: below)
    ({ m with stack }, if found then none else some .returnOutsideFunction)

/-- Makes an exception an object that knows the calls that are running. -/
def raise (m : Machine) (t : Throw) : Outcome × Machine :=
  let (id, heap) := m.heap.newError t.type.name t.message
  let trace := stackTrace heap m.stack
  (.exception (.object id), { m with heap := heap.modify id (·.putHidden "stack" (.string trace)) })

/-- What a failed rule means. -/
def fail (m : Machine) : Failure → Outcome × Machine
  | .raised t => m.raise t
  | .thrown v => (.exception v, m)
  | .fault f => (.fault f, m)

/-- Whether the program has come to its end. -/
def isEnded (m : Machine) : Bool :=
  match m.stack with
  | [] => true
  | s :: _ =>
    match s.node with
    | .program p => p.body.length ≤ s.n
    | _ => false

/-- Moves the stack, and says how the step ended. -/
def move (m : Machine) (c : Setting ω) (top : State) (below : List State) (move : Move) :
    Outcome × Machine :=
  let (m, fault) := m.apply c top below move
  match fault with
  | some f => (.fault f, m)
  | none => if c.maxDepth < m.stack.length then (.fault .stackOverflow, m) else (.advanced, m)

/-- Makes the calls of the host that a rule leaves to the machine, one after the other if they ask for more. -/
def settle (c : Setting ω) (below : List State) : (turns : Nat) → EStateM.Result Failure Frame Move → ω →
    EStateM.Result Failure Frame Move × ω
  | 0, .ok (.host ..) frame, world => (.error (.fault .endlessCalls) frame, world)
  | turns + 1, .ok (.host name call) frame, world =>
    match c.host? name with
    | none => (.error (.fault (.unregisteredNative name)) frame, world)
    | some f =>
      let (answer, heap, world) := f.run call frame.heap world
      settle c below turns (resume c below answer { frame with heap }) world
  | _, result, world => (result, world)

/-- Ends a step with the result of its rule: the stack is moved, or the step fails. -/
def finish (c : Setting ω) (m : Machine) (below : List State) : EStateM.Result Failure Frame Move → Outcome × Machine
  | .ok move frame => { m with heap := frame.heap }.move c frame.top below move
  | .error failure frame => { m with heap := frame.heap, stack := frame.top :: below }.fail failure

/-- One step. -/
def step (c : Setting ω) (m : Machine) (world : ω) : Outcome × Machine × ω :=
  match m.stack with
  | [] => (.ended, m, world)
  | s :: below =>
    if m.isEnded then (.ended, m, world)
    else
      let (result, world) := settle c below tailLimit (stepNode c below s.node ⟨s, m.heap⟩) world
      let (outcome, m) := m.finish c below result
      (outcome, m, world)

/-- The machine after some steps, and how many of them advanced it. -/
structure Run (ω : Type) where
  outcome : Outcome
  steps : Nat
  machine : Machine
  world : ω

/-- Takes steps until one does not advance, at most `limit`. -/
def run (c : Setting ω) (limit : Nat) (m : Machine) (world : ω) : Run ω :=
  go limit 0 m world
where
  /-- Counts the steps in `done`. -/
  go : Nat → Nat → Machine → ω → Run ω
    | 0, done, m, world => ⟨.advanced, done, m, world⟩
    | limit + 1, done, m, world =>
      match m.step c world with
      | (.advanced, m, world) => go limit (done + 1) m world
      | (outcome, m, world) => ⟨outcome, done, m, world⟩

/-- A number of steps that no run takes. -/
def endless : Nat := Nat.pow 2 62

/-- The running calls, innermost first. -/
def trace (m : Machine) : String := stackTrace m.heap m.stack

end Machine

end Stepwise

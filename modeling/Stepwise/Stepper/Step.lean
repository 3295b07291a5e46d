import Stepwise.Machine.Codec
import Stepwise.Stepper.Stop

/-!
# The stepper

Drives the machine from stop to stop. A snapshot holds all that is needed to go on from a stop later.
-/

namespace Stepwise

variable {ω : Type}

/-- The depth of the stack and the scope on top of it. -/
structure Top where
  depth : Int
  scope : ObjectId
  deriving DecidableEq, Repr, Inhabited

/-- A machine with what is needed to find the next stop. -/
structure Stepper where
  machine : Machine
  /-- The stack after the latest step of the machine in the program's own code. -/
  prev : Top := ⟨-1, -1⟩
  /-- The innermost anchor comes first. -/
  anchors : List Anchor := []
  /-- The latest stop. -/
  last : Option Stop := none

/-- Why the stepper cannot do what was asked. -/
inductive StepperError where
  | notStarted
  | finished
  /-- The text of a snapshot is no machine of the program. -/
  | corrupt
  /-- An anchor of a snapshot names a state that is not on the stack. -/
  | anchorMismatch (index : Int)
  | fault (f : Fault)

/-- The wording of an error. -/
def StepperError.message : StepperError → String
  | notStarted => "stepper not started"
  | finished => "stepper already finished"
  | corrupt => "corrupt interpreter snapshot"
  | anchorMismatch index =>
    "restore stepper: anchor " ++ toString index ++ " does not match the state stack"
  | fault f => f.message

/-- Whether the state is a `return` or `throw` whose argument has been evaluated. -/
def State.isLeaving (s : State) : Bool :=
  s.done && match s.node with
    | .stmt (.return_ ..) | .stmt (.throw ..) => true
    | _ => false

/-- What a snapshot keeps beside the machine. -/
structure Bookmark where
  prev : Top
  kind : StopKind
  anchors : List Anchor

/-- A stepper between two stops, with its machine as a text. -/
structure Snapshot extends Bookmark where
  machine : String

namespace Stepper

/-- A stepper at the start of a program. -/
def start (c : Setting ω) : Except Fault Stepper := return { machine := ← Machine.start c }

/-- Whether a stop has been made. -/
def isStarted (s : Stepper) : Bool := s.last.isSome

/-- Whether the program has ended or thrown. -/
def isFinished (s : Stepper) : Bool := s.last.any (·.kind.isFinal)

/-- Decides about a stop at a node that was entered, given whether coarse stops are hidden. -/
def stopAt? (kind : Kind) (hidden : Bool) : Option StopKind :=
  if !kind.isPassedCoarsely && !hidden then some .coarse
  else if !kind.isPassed then some .micro
  else none

/-- Decides about a stop at a state deeper than the one before. -/
def enter (s : Stepper) (top : State) (stack : List State) : Option StopKind × Stepper :=
  let anchors := liveAnchors s.anchors stack
  let cover := hidingAnchor? anchors stack top.node
  if cover.any (·.mode = .micro) then (none, { s with anchors })
  else
    let kind := top.node.kind
    let own : List Anchor :=
      if kind.hidesParts then [⟨stack.length - 1, stack.length, .coarse, top.id⟩] else []
    (stopAt? kind cover.isSome, { s with anchors := own ++ anchors })

/-- Decides about a stop after a step of the machine. The last step of a `return` or `throw` and the step
that goes on with a caller are stops although they lead back; other steps that lead back are not. -/
def look (s : Stepper) (top : State) (stack : List State) : Option StopKind × Stepper :=
  if top.node.isInternal then (none, s)
  else
    let before := s.prev
    let s := { s with prev := ⟨stack.length, top.scope⟩ }
    if top.isLeaving || (stack.length ≤ before.depth && top.scope != before.scope) then (some .coarse, s)
    else if stack.length ≤ before.depth then (none, s)
    else s.enter top stack

/-- Steps the machine until there is a stop, at most `limit` times. -/
def advance (c : Setting ω) : (limit : Nat) → Stepper → ω → Except StepperError Stop × Stepper × ω
  | 0, s, world => (.error (.fault .endlessCalls), s, world)
  | limit + 1, s, world =>
    let (outcome, machine, world) := s.machine.step c world
    let s := { s with machine }
    let stop (r : Stop) : Except StepperError Stop × Stepper × ω := (.ok r, { s with last := some r }, world)
    match outcome with
    | .ended => stop { kind := .ended }
    | .exception v => stop { kind := .uncaught, exception := v }
    | .fault f => (.error (.fault f), s, world)
    | .advanced =>
      match machine.stack with
      | [] => (.error (.fault .emptyStack), s, world)
      | top :: _ =>
        match s.look top machine.stack with
        | (some kind, s) => (.ok { kind }, { s with last := some { kind } }, world)
        | (none, s) => advance c limit s world

/-- Goes on to the next stop. -/
def step (c : Setting ω) (s : Stepper) (world : ω) : Except StepperError Stop × Stepper × ω :=
  if s.isFinished then (.error .finished, s, world) else s.advance c Machine.endless world

/-- A snapshot, once a stop has been made. -/
def save (s : Stepper) : Except StepperError Snapshot :=
  match s.last with
  | none => .error .notStarted
  | some stop =>
    .ok {
      prev := s.prev
      kind := stop.kind
      anchors := liveAnchors s.anchors s.machine.stack
      machine := s.machine.serialize }

/-- The stepper of a snapshot. Anchors on top that have left the stack are dropped, and all others have
to match it. The value that was thrown is not kept. -/
def restore (c : Setting ω) (snapshot : Snapshot) : Except StepperError Stepper :=
  match Machine.restore? c snapshot.machine with
  | none => .error .corrupt
  | some machine =>
    let anchors := liveAnchors snapshot.anchors machine.stack
    match anchors.reverse.find? (!·.isOn machine.stack) with
    | some a => .error (.anchorMismatch a.index)
    | none => .ok ⟨machine, snapshot.prev, anchors, some { kind := snapshot.kind }⟩

end Stepper

end Stepwise

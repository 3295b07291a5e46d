import Stepwise.History.Basic
import Stepwise.Lint.Check
import Stepwise.Parse.Program
import Stepwise.Session.Collect
import Stepwise.Session.Function
import Stepwise.Stepper.Step

/-!
# Sessions

A session steps through a program forward and backward and describes every stop. Going back restores
the stepper and drops the output of the steps that are undone; the state of the host stays as it is.
-/

namespace Stepwise

variable {σ δ : Type}

/-- How far a step goes. -/
inductive Mode where
  | micro
  | coarse
  deriving DecidableEq, Repr, Inhabited

namespace Mode

/-- The name of a mode. -/
def name : Mode → String
  | micro => "micro"
  | coarse => "macro"

/-- The mode of a name. -/
def ofName? (s : String) : Option Mode :=
  match s with
  | "micro" => some micro
  | "macro" => some coarse
  | _ => none

/-- The complaint about a name of no mode. -/
def unknown (s : String) : String := "unknown step mode " ++ quoted s

end Mode

/-- Whether a program is running. -/
inductive Execution where
  | notStarted
  | started
  | finished
  deriving DecidableEq, Repr, Inhabited

/-- Whether a program is running, or how it ended. -/
inductive Status where
  | started
  | ended
  /-- It threw a value, which is described. -/
  | threw (description : String)
  deriving DecidableEq, Repr

namespace Status

/-- The name of a status. -/
def name : Status → String
  | started => "started"
  | ended => "finished ok"
  | threw _ => "finished exception"

/-- The description of what was thrown. -/
def description? : Status → Option String
  | threw d => some d
  | _ => none

end Status

/-- Why a session cannot do what was asked. -/
inductive SessionError where
  | unnamedFunction
  | parse (e : ParseError)
  | restricted (f : Finding)
  /-- The program could not be started, or a stop could not be described. -/
  | fault (f : Fault)
  | lastStep
  | firstStep
  | noBin
  | history (e : HistoryError)
  | unsaved (e : StepperError)
  | cannotSave (kind : StopKind)
  | forward (e : StepperError)
  | backward (e : StepperError)
  /-- The first step of a session failed. -/
  | first (e : SessionError)

/-- The wording of an error. -/
def SessionError.message : SessionError → String
  | unnamedFunction => "host functions must have a name"
  | parse e => "parse: " ++ e.text
  | restricted f =>
    "restricted syntax: " ++ toString f.line ++ ":" ++ toString f.column ++ ": " ++ f.message
  | fault f => f.message
  | lastStep => "execution already ended"
  | firstStep => "there is no previous step"
  | noBin => Console.noBin
  | history e => e.message
  | unsaved e => e.message
  | cannotSave kind => "save state: cannot save a " ++ kind.name ++ " step"
  | forward e => "step forward: " ++ e.message
  | backward e => "step backward: " ++ e.message
  | first e => "first step: " ++ e.message

/-- What is kept of a stop beside the text of the machine. -/
structure SavedState extends Bookmark where
  exception : Option Value
  state : Execution

/-- A program that is stepped through. The texts of earlier stops are kept as differences. -/
structure Session (σ δ : Type) where
  source : String
  setting : Setting (World σ)
  stepper : Stepper
  /-- What ended the program. -/
  exception : Option Value := none
  state : Execution := .notStarted
  scheme : DeltaScheme String δ
  history : History String δ SavedState := {}
  world : World σ

/-- Changes a session; what was changed stays changed if it fails. -/
abbrev SessionM (σ δ : Type) := EStateM SessionError (Session σ δ)

namespace Session

/-- Whether there is no step to go back to. -/
def isFirst (s : Session σ δ) : Bool := s.history.isEmpty

/-- Whether the program has ended. -/
def isLast (s : Session σ δ) : Bool := s.state = .finished

/-- Keeps the current stop. -/
def save : SessionM σ δ Unit := do
  let s ← get
  match s.stepper.save with
  | .error e => throw (.unsaved e)
  | .ok snapshot =>
    if snapshot.kind.isFinal then throw (.cannotSave snapshot.kind)
    let saved : SavedState := { snapshot.toBookmark with exception := s.exception, state := s.state }
    set { s with history := s.history.push s.scheme snapshot.machine saved }

/-- Opens a bin for the output of the next step. -/
def openBin : SessionM σ δ Unit := modify fun s => { s with world.console := s.world.console.open_ }

/-- Goes on to the next stop. -/
def advance : SessionM σ δ Stop := do
  let s ← get
  let (result, stepper, world) := s.stepper.step s.setting s.world
  set { s with stepper, world }
  match result with
  | .ok stop => return stop
  | .error e => throw (.forward e)

/-- Goes on to the next stop of a mode, keeping the stops on the way. -/
def advanceTo (mode : Mode) : (limit : Nat) → SessionM σ δ Stop
  | 0 => throw (.forward (.fault .endlessCalls))
  | limit + 1 => do
    let stop ← advance
    if mode = .coarse ∧ stop.kind = .micro then
      save
      openBin
      advanceTo mode limit
    else return stop

/-- Steps forward. -/
def forward (mode : Mode) : SessionM σ δ Unit := do
  if (← get).isLast then throw .lastStep
  if (← get).state = .started then save
  openBin
  modify fun s => { s with state := .started, exception := none }
  let stop ← advanceTo mode Machine.endless
  match stop.kind with
  | .ended => modify fun s => { s with state := .finished }
  | .uncaught => modify fun s => { s with state := .finished, exception := some stop.exception }
  | .micro | .coarse => return

/-- Goes back to the stop before, and gives what it was. -/
def undo : SessionM σ δ StopKind := do
  let s ← get
  match s.world.console.drop? with
  | none => throw .noBin
  | some console =>
    let s := { s with world.console := console }
    set s
    match s.history.pop s.scheme with
    | .error e => throw (.history e)
    | .ok (machine, saved, history) =>
      let s := { s with history }
      set s
      match Stepper.restore s.setting { saved.toBookmark with machine } with
      | .error e => throw (.backward e)
      | .ok stepper =>
        set { s with stepper, exception := saved.exception, state := saved.state }
        return saved.kind

/-- Goes back to a stop of a mode, or to the first stop. There are at most `stops` stops to go back. -/
def undoTo (mode : Mode) : (stops : Nat) → SessionM σ δ Unit
  | 0 => return
  | stops + 1 => do
    let kind ← undo
    if mode = .coarse ∧ !(← get).isFirst ∧ kind ≠ .coarse then undoTo mode stops

/-- Steps backward. -/
def backward (mode : Mode) : SessionM σ δ Unit := do
  let s ← get
  if s.isFirst then throw .firstStep
  undoTo mode s.history.size

/-- Describes the current stop. -/
def collect (s : Session σ δ) : Except Fault TraceStep :=
  s.stepper.machine.collect s.setting s.world.console s.exception

/-- Describes the current stop and every stop up to the end. -/
def runToEnd (mode : Mode) : SessionM σ δ (List TraceStep) :=
  go Machine.endless []
where
  /-- Keeps the stops so far in `done`, the last first. -/
  go : Nat → List TraceStep → SessionM σ δ (List TraceStep)
    | 0, done => return done.reverse
    | limit + 1, done => do
      match (← get).collect with
      | .error f => throw (.fault f)
      | .ok step =>
        if (← get).isLast then return (step :: done).reverse
        forward mode
        go limit (step :: done)

/-- Whether the program is running, or how it ended. -/
def status (s : Session σ δ) : Status :=
  if !s.isLast then .started
  else
    match s.exception with
    | none => .ended
    | some v => .threw (s.stepper.machine.heap.describeThrown v)

/-- Reads a program that runs over a library and steps into it. -/
def startOver (library : Program) (scheme : DeltaScheme String δ) (source : String)
    (functions : List (SessionFunction σ)) (host : σ) (draws : Nat → Float) :
    Except SessionError (Session σ δ) := do
  if functions.any (·.name.isEmpty) then throw .unnamedFunction
  let program ← (Program.ofSource source).mapError .parse
  match program.checkRestricted with
  | f :: _ => throw (.restricted f)
  | [] =>
    let table := (SessionFunction.table functions).map SessionFunction.toHost
    let setting := Setting.ofPrograms library program table Setting.defaultDepth draws
    let stepper ← (Stepper.start setting).mapError .fault
    match (forward .micro).run { source, setting, stepper, scheme, world := ⟨{}, host⟩ } with
    | .ok _ s => return s
    | .error e _ => throw (.first e)

/-- Reads a program and steps into it. -/
def start (source : String) (functions : List (SessionFunction σ)) (host : σ) :
    Except SessionError (Session σ String) :=
  startOver Library.script (.whole String) source functions host Setting.spread

end Session

end Stepwise

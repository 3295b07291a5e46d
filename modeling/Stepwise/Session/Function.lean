import Stepwise.Host.Inspect
import Stepwise.Machine.State
import Stepwise.Session.Console

/-!
# Functions of a session

A session gives the program functions of its host. They see host values, log lines and may keep a state
of their own, which is not undone when the session goes back.
-/

namespace Stepwise

variable {σ : Type}

/-- What a function of the host answers. What it logged counts even if it fails. -/
structure HostReply (σ : Type) where
  logged : List String
  /-- The value, or what went wrong. -/
  result : Except String HostValue
  state : σ

/-- A function of the host with a state of its own. -/
structure SessionFunction (σ : Type) where
  name : String
  call : List HostValue → σ → HostReply σ

/-- The world of a session: what was logged, and the state of the host. -/
structure World (σ : Type) where
  console : Console
  host : σ

/-- Logs lines as long as a bin is open, and says whether one was. -/
def Console.logAll (c : Console) (lines : List String) (line : Int) : Console × Bool :=
  lines.foldl (fun (c, ok) content =>
    match c.log? content line with
    | some c => (c, ok)
    | none => (c, false)) (c, true)

namespace SessionFunction

/-- The value that the program gets. -/
def accept (name : String) (h : Heap) (logged : Bool) : Except String HostValue → Except Failure Reply × Heap
  | .error e => (.error (.fault (.host ("host function " ++ name ++ ": " ++ e))), h)
  | .ok x =>
    if !logged then (.error (.fault (.host ("host function " ++ name ++ ": " ++ Console.noBin))), h)
    else
      match x.intake h with
      | .ok v h => (.ok (.value v), h)
      | .error e h => (.error (.fault (.host e)), h)

/-- The function as the machine calls it. Lines are logged for the line of the call. -/
def toHost (f : SessionFunction σ) : HostFunction (World σ) where
  name := f.name
  run call h world :=
    let line : Int := (call.site.map (·.loc.start.line)).getD 0
    let reply := f.call (call.args.map h.toHost) world.host
    let (console, logged) := world.console.logAll reply.logged line
    let (result, h) := accept f.name h logged reply.result
    (result, h, { console, host := reply.state })

/-- Functions by name; a later one replaces an earlier one of the same name. -/
def table (fs : List (SessionFunction σ)) : List (SessionFunction σ) :=
  fs.foldl (fun kept f => kept.filter (·.name != f.name) ++ [f]) []

/-- Logs its first argument. -/
def output : SessionFunction σ where
  name := "output"
  call args state := ⟨[(args.headD .undefined).outputText], .ok .undefined, state⟩

/-- The question that `input` asks. -/
def inputQuestion : String := "Enter a number:"

/-- Asks the host for a number. What is no number becomes NaN. -/
def input (ask : String → σ → Except String String × σ) : SessionFunction σ where
  name := "input"
  call _ state :=
    let (answer, state) := ask inputQuestion state
    ⟨[], answer.map fun a => .number (stringToNumber a), state⟩

end SessionFunction

end Stepwise

import Stepwise.Json.Printer
import Stepwise.Session.Basic
import Stepwise.Session.Excerpt
import Stepwise.Trace.Printer

/-!
# The stepping prompt

Lines that a user types move a session, and each answer shows where the program is.
-/

namespace Stepwise

variable {σ : Type}

/-- The name of a value without further content. -/
def TraceValue.kindName : TraceValue → String
  | number _ => "number"
  | string _ => "string"
  | boolean _ => "boolean"
  | null => "null"
  | undefined => "undefined"
  | nan => "NaN"
  | infinity => "Infinity"
  | negativeInfinity => "-Infinity"
  | pointer _ => "pointer"

/-- The kind of an element of the heap. -/
def HeapElement.kindName : HeapElement → String
  | array .. => "array"
  | object .. => "object"
  | function .. => "function"

/-- A value on one line. Pointers are followed through `levels` objects. -/
def describeValue (heap : Std.TreeMap String HeapElement) : (levels : Nat) → TraceValue → String
  | _, .string s => quoted s
  | _, .number n => NumberStyle.compact.render n
  | _, .boolean b => if b then "true" else "false"
  | levels, .pointer ref =>
    match heap[ref]?, levels with
    | none, _ => "#" ++ ref
    | some e, 0 => e.kindName ++ "#" ++ ref
    | some (.function _ name _), _ => if name.isEmpty then "function#" ++ ref else "function " ++ name
    | some (.array _ values), levels + 1 =>
      "[" ++ String.intercalate ", " (values.map (describeValue heap levels)) ++ "]"
    | some (.object _ entries), levels + 1 =>
      "\x7b" ++ String.intercalate ", " (entries.map fun (k, v) => k ++ ": " ++ describeValue heap levels v)
        ++ "\x7d"
  | _, v => v.kindName

/-- A session that is moved by commands. -/
structure Prompt (σ : Type) where
  session : Session σ String
  mode : Mode
  colored : Bool := false
  /-- How many lines of output have been shown. -/
  printed : Nat := 0

/-- What a command does. -/
inductive PromptCommand where
  | quit | help | micro | coarse | next | back | run | state
  deriving DecidableEq, Repr

/-- The command of a line. -/
def PromptCommand.ofLine? (line : String) : Option PromptCommand :=
  match line with
  | "q" | "quit" | "exit" => some quit
  | "h" | "help" => some help
  | "m" | "micro" => some micro
  | "M" | "macro" => some coarse
  | "n" | "next" => some next
  | "b" | "back" => some back
  | "r" | "run" => some run
  | "s" | "state" => some state
  | _ => none

/-- What a command answers. -/
structure PromptReply where
  printed : String := ""
  quit : Bool := false
  error : Option String := none

namespace Prompt

/-- The list of commands. -/
def helpText : String :=
  String.intercalate "\n"
    ["commands:",
     "  n, next     step forward",
     "  b, back     step backward",
     "  m, micro    switch to micro steps",
     "  M, macro    switch to macro steps",
     "  s, state    print the current step as JSON",
     "  r, run      run to the end",
     "  h, help     show this help",
     "  q, quit     leave",
     "an empty line repeats the last command"]

/-- The variables of a frame, and the value it is about to return. -/
def frameLines (colored : Bool) (heap : Std.TreeMap String HeapElement) (f : StackFrame) : List String :=
  let locals := f.locals.getD {}
  (f.orderedLocals.getD []).map (fun name =>
    "  " ++ name ++ " = " ++ describeValue heap 2 ((locals[name]?).getD .undefined)) ++
  f.returnValue.toList.map fun v =>
    "  " ++ Ink.faint.paint colored "returns" ++ " " ++ describeValue heap 2 v

/-- How the program ended. -/
def endLines (p : Prompt σ) : List String :=
  match p.session.status with
  | .started => []
  | .ended => [Ink.faint.paint p.colored "program finished"]
  | .threw _ => [Ink.red.paint p.colored "program finished with an uncaught exception"]

/-- The lines that show a step: new output, the place, the source, the innermost frame and how the
program ended. -/
def stepLines (p : Prompt σ) (s : TraceStep) : List String :=
  let faint := Ink.faint.paint p.colored
  let output := (s.stdout.getD []).drop p.printed
  let lines := excerpt p.session.source s.range
  output.map (fun o => faint ("[out:" ++ toString o.line ++ "]") ++ " " ++ Ink.cyan.paint p.colored o.content) ++
  [faint (toString s.range.lineStart ++ ":" ++ toString s.range.colStart) ++ " " ++ s.event.name ++ " " ++
    s.functionName] ++
  [String.intercalate "\n" (lines.map (·.text p.colored))] ++
  ((s.frames.getD []).getLast?.toList.flatMap (frameLines p.colored (s.heap.getD {}))) ++
  s.exceptionMessage.toList.map (Ink.red.paint p.colored) ++
  p.endLines

/-- Lines, each with its line break. -/
def unlines (lines : List String) : String := String.join (lines.map (· ++ "\n"))

/-- Shows the current step. Output that was shown before is not shown again. -/
def show_ (p : Prompt σ) : PromptReply × Prompt σ :=
  match p.session.collect with
  | .error f => ({ error := some f.message }, p)
  | .ok s =>
    let count := (s.stdout.getD []).length
    let p := { p with printed := min p.printed count }
    ({ printed := unlines (p.stepLines s) }, { p with printed := count })

/-- Moves the session and shows where it is then. -/
def move (p : Prompt σ) (m : SessionM σ String Unit) : PromptReply × Prompt σ :=
  match m.run p.session with
  | .ok _ session => { p with session }.show_
  | .error e session => ({ error := some e.message }, { p with session })

/-- Steps forward up to the end. -/
def runOn (mode : Mode) : (limit : Nat) → SessionM σ String Unit
  | 0 => return
  | limit + 1 => do
    if !(← get).isLast then
      Session.forward mode
      runOn mode limit

/-- Switches to another mode. -/
def switchTo (p : Prompt σ) (mode : Mode) : PromptReply × Prompt σ :=
  ({ printed := Ink.faint.paint p.colored ("mode " ++ mode.name) ++ "\n" }, { p with mode })

/-- Carries out a line. -/
def exec (p : Prompt σ) (line : String) : PromptReply × Prompt σ :=
  match PromptCommand.ofLine? line with
  | none => ({ error := some ("unknown command " ++ quoted line ++ ", type h for help") }, p)
  | some .quit => ({ quit := true }, p)
  | some .help => ({ printed := helpText ++ "\n" }, p)
  | some .micro => p.switchTo .micro
  | some .coarse => p.switchTo .coarse
  | some .next => p.move (Session.forward p.mode)
  | some .back => p.move (Session.backward p.mode)
  | some .run => p.move (runOn p.mode Machine.endless)
  | some .state =>
    match p.session.collect with
    | .error f => ({ error := some f.message }, p)
    | .ok s => ({ printed := s.toJson.indented ++ "\n" }, p)

end Prompt

end Stepwise

import Stepwise.Command.Invocation
import Stepwise.Command.Report
import Stepwise.Command.Workspace
import Stepwise.Settings.Basic
import Stepwise.Trace.Printer

/-!
# Carrying out commands

A command reads a workspace. It prints a text, may write a file, and may fail after that.
-/

namespace Stepwise

/-- Why a command fails. -/
inductive CommandError where
  | usage (e : UsageError)
  | settings (e : SettingsError)
  | settingsFile (path : String) (e : FileError)
  | variablesFile (e : VariablesError)
  | source (path : String) (e : FileError)
  | file (e : FileError)
  | parse (e : ParseError)
  | session (e : SessionError)
  | unknownFormat (name : String)
  | findings (path : String) (errors : Nat)
  | discovery (directory : String) (e : FileError)
  | examples (failed errors : Nat)

/-- The wording of an error. -/
def CommandError.message : CommandError → String
  | usage e => e.message
  | settings e => e.message
  | settingsFile path e => "reading config " ++ path ++ ": " ++ e.message
  | variablesFile e => "loading .env: " ++ e.message
  | source path e => "reading " ++ path ++ ": " ++ e.message
  | file e => e.message
  | parse e => e.text
  | session e => e.message
  | unknownFormat name => "unknown format " ++ quoted name
  | findings path errors => path ++ ": " ++ toString errors ++ " error(s)"
  | discovery directory e => "discovering examples in " ++ directory ++ ": " ++ e.message
  | examples failed errors => toString failed ++ " failed, " ++ toString errors ++ " errors"

/-- What a command does. -/
structure CommandResult where
  /-- The text that is printed, given the text of the time that passed. -/
  printed : String → String := fun _ => ""
  /-- The path and contents of the file that is written. -/
  written : Option (String × String) := none
  failure : Option CommandError := none
  /-- Whether a program asked for more answers than there were. -/
  lacking : Bool := false

/-- Answers to the questions of a program. -/
structure Answers where
  lines : List String := []
  /-- Whether a question found no answer. -/
  lacking : Bool := false

namespace Answers

/-- The lines of a text, each without the blanks around it. -/
def ofText (text : String) : Answers where
  lines :=
    let pieces := (splitText ['\n'] text.toList).map fun line => String.ofList (trimBlankChars line)
    if text.isEmpty || text.endsWith "\n" then pieces.dropLast else pieces

/-- Answers a question. -/
def next (question : String) (a : Answers) : Except String String × Answers :=
  match a.lines with
  | line :: lines => (.ok line, { a with lines })
  | [] => (.error ("no answer to " ++ quoted question ++ ": EOF"), { a with lacking := true })

end Answers

namespace Invocation

/-- The file of settings that is read if no other is named. -/
def settingsFile : String := "jsviz.yaml"

/-- The settings of a file. -/
def fileSettings (i : Invocation) (w : Workspace) : Except CommandError Settings := do
  let path :=
    if !i.config.isEmpty then some i.config
    else if (w.file? settingsFile).isSome || w.isDirectory settingsFile then some settingsFile
    else none
  match path with
  | none => return {}
  | some path =>
    let text ← (w.read path).mapError (.settingsFile path)
    (({} : Settings).withFile path text).mapError .settings

/-- The variables of the environment, then those of the file of variables. -/
def environment (w : Workspace) : Except CommandError Environment := do
  match w.read ".env" with
  | .ok text => return w.environment ++ (← (Variables.read text).mapError .variablesFile)
  | .error _ => return w.environment

/-- The settings of a command: those of a file, then those of the environment, then those of the command
line, each over the ones before. -/
def settings (i : Invocation) (w : Workspace) : Except CommandError Settings := do
  let s ← i.fileSettings w
  let s ← (s.withEnvironment (← environment w)).mapError .settings
  s.check.mapError .settings
  let s := { s with
    mode := if i.mode.isEmpty then s.mode else i.mode
    logLevel := if i.logLevel.isEmpty then s.logLevel else i.logLevel }
  s.check.mapError .settings
  return s

end Invocation

namespace Task

/-- The text of a program; a dash stands for the standard input. -/
def source (w : Workspace) (path : String) : Except CommandError String :=
  if path = "-" then .ok w.stdin else (w.read path).mapError (.source path)

/-- What is left of the standard input after a program was read. -/
def restOfInput (w : Workspace) (path : String) : String := if path = "-" then "" else w.stdin

/-- Runs a program to its end and prints its steps. -/
def runTrace (w : Workspace) (mode : Mode) (path : String) (compact : Bool) (out input : String) :
    Except CommandError CommandResult := do
  let text ← source w path
  let answers ← if input.isEmpty then pure (restOfInput w path) else (w.read input).mapError .file
  let functions := [SessionFunction.output, SessionFunction.input Answers.next]
  let s ← (Session.start text functions (Answers.ofText answers)).mapError .session
  match (Session.runToEnd mode).run s with
  | .error e s => return { failure := some (.session e), lacking := s.world.host.lacking }
  | .ok steps s =>
    let lacking := s.world.host.lacking
    let j := Trace.toJson { programCode := text, steps := some (steps.map some) }
    let shown := (if compact then j.compact else j.indented) ++ "\n"
    if out.isEmpty then return { printed := fun _ => shown, lacking }
    let target ← (w.writable out).mapError .file
    return { written := some (target, shown), lacking }

/-- Prints what is questionable in a program, and fails if there are errors. -/
def runLint (w : Workspace) (colored : Bool) (path format : String) : Except CommandError CommandResult := do
  let found := Stepwise.lint (← source w path)
  match ReportFormat.ofName? format with
  | none => throw (.unknownFormat format)
  | some f =>
    let errors := found.countP fun d => d.rule.severity == .error
    return { printed := fun _ => findingsText found path colored f
             failure := if errors = 0 then none else some (.findings path errors) }

/-- Prints the tree of a program. -/
def runAst (w : Workspace) (path : String) (withText : Bool) : Except CommandError CommandResult := do
  let p ← (Program.ofSource (← source w path)).mapError .parse
  return { printed := fun _ => (p.toYaml withText).render }

/-- Runs the examples in a directory, and fails if one of them does. -/
def runCheck (w : Workspace) (colored verbose : Bool) (o : CheckOptions) (directory : String) :
    Except CommandError CommandResult := do
  let found ← (w.filesBelow directory).mapError (.discovery directory)
  let examples := (found.filter fun (path, _, _) => Check.isExample path).map fun (_, name, text) => (name, text)
  let results := Check.runAll o examples
  return { printed := Check.resultsText colored verbose results
           failure :=
             if Check.isOk results then none
             else some (.examples (Check.count .fail results) (Check.count .error results)) }

/-- Carries out a task. Stepping is left to who holds the terminal. -/
def run (t : Task) (w : Workspace) (s : Settings) : Except CommandError CommandResult := do
  let mode ← s.stepMode.mapError .settings
  let colored := s.useColor w.terminal
  match t with
  | trace path compact out input => runTrace w mode path compact out input
  | lint path format => runLint w colored path format
  | ast path withText => runAst w path withText
  | check directory filter limit maxSteps verbose =>
    runCheck w colored verbose { mode, filter, limit, maxSteps } directory
  | step _ => return {}

end Task

/-- How the program is called. -/
def usageText : String :=
  String.intercalate "\n"
    ["usage: jsviz [flags] command file",
     "",
     "commands:",
     "  ast     prints the tree of a program",
     "  check   runs the examples in a directory",
     "  lint    reports what is questionable in a program",
     "  step    steps through a program",
     "  trace   prints the steps of a program",
     "",
     "flags:",
     "  -c, --config file     the file of settings",
     "  -m, --mode mode       micro or macro",
     "      --log-level level what is logged"] ++ "\n"

/-- Carries out a command line. -/
def runCommandLine (args : List String) (w : Workspace) : CommandResult :=
  match (Invocation.ofArgs args).mapError CommandError.usage with
  | .error e => { failure := some e }
  | .ok none => { printed := fun _ => usageText }
  | .ok (some i) =>
    match i.settings w >>= i.task.run w with
    | .error e => { failure := some e }
    | .ok r => r

end Stepwise

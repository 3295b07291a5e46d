import Stepwise.Command.Run
import Stepwise.Session.Prompt

/-!
# The program

Reads files, the environment and the terminal, and leaves the rest to `runCommandLine` and `Prompt`.
-/

namespace Stepwise.Terminal

/-- The files below a directory, or the file of that name. -/
partial def filesBelow (path : String) : IO (List String) := do
  try
    let place ← IO.FS.realPath path
    if !(← place.isDir) then return [path]
    let found ← (← place.readDir).toList.mapM fun e => filesBelow (joinPath path e.fileName)
    return found.flatten
  catch _ => return []

/-- A file with its path, if it can be read. -/
def readFile? (path : String) : IO (Option (String × String)) := do
  try return some (path, ← IO.FS.readFile path) catch _ => return none

/-- The files that an invocation may read. -/
def neededFiles (i : Invocation) : IO (List String) := do
  let shared := [i.config, Invocation.settingsFile, ".env"]
  match i.task with
  | .trace file _ _ input => return file :: input :: shared
  | .lint file _ | .ast file _ | .step file => return file :: shared
  | .check directory .. => return (← filesBelow directory) ++ shared

/-- The directories that an invocation may write to or look into. -/
def neededDirectories (i : Invocation) : IO (List String) := do
  let names := match i.task with
    | .trace _ _ out _ => [cleanPath (out ++ "/..")]
    | .check directory .. => [directory]
    | _ => []
  names.filterM fun name => do
    try (← IO.FS.realPath name).isDir catch _ => return false

/-- The variables that settings are taken from. -/
def readEnvironment : IO Environment := do
  let names := ["JSVIZ_MODE", "JSVIZ_DIFF_TIMEOUT", "JSVIZ_LOG_LEVEL", "JSVIZ_COLOR", "JSVIZ_HISTORY_FILE",
    "JSVIZ_PROMPT"]
  names.filterMapM fun name => do return (← IO.getEnv name).map (name, ·)

/-- All that is left of a stream. -/
partial def readRest (stream : IO.FS.Stream) (text : String) : IO String := do
  let line ← stream.getLine
  if line.isEmpty then return text else readRest stream (text ++ line)

/-- What an invocation reads, the standard input apart. -/
def readWorkspace (i : Invocation) : IO Workspace := do
  let files ← (← neededFiles i).filterMapM readFile?
  return { files, directories := ← neededDirectories i, environment := ← readEnvironment,
           terminal := ← (← IO.getStdout).isTty }

/-- Prints a question and reads a line; there is none at the end of the input. -/
def askLine (question : String) : IO (Option String) := do
  let out ← IO.getStdout
  out.putStr question
  out.flush
  let line ← (← IO.getStdin).getLine
  return if line.isEmpty then none else some (trimBlank line)

/-- Carries out an attempt, again with one more answer each time a question finds none. -/
partial def asking {α : Type} (host : α → Answers) (attempt : Answers → α) (lines : List String) : IO α := do
  let result := attempt { lines }
  if !(host result).lacking then return result
  match ← askLine (SessionFunction.inputQuestion ++ " ") with
  | none => return result
  | some line => asking host attempt (lines ++ [line])

/-- Reads lines and carries them out; an empty line repeats the last one. Returns the lines read. -/
partial def promptLoop (prompt : String) (p : Prompt Answers) (last : String) (read : List String) :
    IO (List String) := do
  let some line ← askLine prompt | IO.println ""; return read
  let read := if line.isEmpty then read else read ++ [line]
  let line := if line.isEmpty then last else line
  let (reply, p) ← asking (·.2.session.world.host)
    (fun host => { p with session.world.host := host }.exec line) []
  IO.print reply.printed
  if let some e := reply.error then IO.println (Ink.red.paint p.colored e)
  if reply.quit then return read else promptLoop prompt p line read

/-- Steps through a program. -/
def step (w : Workspace) (s : Settings) (file : String) : IO (Option CommandError) := do
  match Task.source w file, s.stepMode with
  | .error e, _ => return some e
  | _, .error e => return some (.settings e)
  | .ok source, .ok mode =>
    let functions := [SessionFunction.output, SessionFunction.input Answers.next]
    match Session.start source functions ({} : Answers) with
    | .error e => return some (.session e)
    | .ok session =>
      let colored := s.useColor w.terminal
      let (reply, p) := Prompt.show_ { session, mode, colored }
      IO.println (Ink.faint.paint colored ("mode " ++ mode.name ++ ", type h for help"))
      IO.print reply.printed
      let read ← promptLoop s.prompt p "n" []
      let path := s.historyPath ((← IO.getEnv "HOME").getD ".")
      if !path.isEmpty then
        let old := ((← readFile? path).map Prod.snd).getD ""
        try IO.FS.writeFile path (old ++ Prompt.unlines read) catch _ => return none
      return none

/-- Prints and writes what a command does, and returns its failure. -/
def finish (r : CommandResult) (elapsed : Duration) : IO (Option CommandError) := do
  IO.print (r.printed elapsed.text)
  if let some (path, text) := r.written then IO.FS.writeFile path text
  return r.failure

/-- Carries out an invocation. -/
def carryOut (args : List String) (i : Invocation) : IO (Option CommandError) := do
  let w ← readWorkspace i
  let stdin ← IO.getStdin
  match i.task with
  | .step file =>
    let w ← if file == "-" then do pure { w with stdin := ← readRest stdin "" } else pure w
    match i.settings w with
    | .error e => return some e
    | .ok s => step w s file
  | .lint "-" _ | .ast "-" _ | .trace "-" .. =>
    finish (runCommandLine args { w with stdin := ← readRest stdin "" }) ⟨0⟩
  | .trace _ _ _ input =>
    let r := runCommandLine args w
    if r.lacking && input.isEmpty then
      finish (runCommandLine args { w with stdin := ← readRest stdin "" }) ⟨0⟩
    else finish r ⟨0⟩
  | _ =>
    let start ← IO.monoNanosNow
    let r ← IO.lazyPure fun _ => runCommandLine args w
    finish r ⟨(← IO.monoNanosNow) - start⟩

/-- Carries out a command line. -/
def run (args : List String) : IO UInt32 := do
  let failure ← match Invocation.ofArgs args with
    | .error e => pure (some (CommandError.usage e))
    | .ok none => finish (runCommandLine args { files := [] }) ⟨0⟩
    | .ok (some i) => carryOut args i
  match failure with
  | none => return 0
  | some e =>
    IO.eprintln ("Error: " ++ e.message)
    return 1

end Stepwise.Terminal

/-- Carries out the command line. -/
def main (args : List String) : IO UInt32 := Stepwise.Terminal.run args

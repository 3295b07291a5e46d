import Stepwise.Session.Basic
import Stepwise.Settings.Duration
import Stepwise.Settings.Level
import Stepwise.Text.Category
import Stepwise.Text.Path
import Stepwise.Yaml.Reader

/-!
# Settings

Settings come from a YAML file and from variables of the environment, where the latter win. They are
kept as they were written; `Settings.check` says whether they make sense.
-/

namespace Stepwise

/-- Variables and their values. -/
abbrev Environment := List (String × String)

/-- What is set for all commands. -/
structure Settings where
  mode : String := "macro"
  /-- How long the comparison of two snapshots may take. -/
  diffTimeout : Duration := ⟨100000000⟩
  logLevel : String := "info"
  color : String := "auto"
  /-- Where the lines of the prompt are kept; a relative path is taken from the home directory. -/
  historyFile : String := ".jsviz_history"
  prompt : String := "jsviz> "
  deriving DecidableEq, Repr, Inhabited

/-- What is wrong with settings. -/
inductive SettingsError where
  | malformed (file : String)
  | unknownMode (name : String)
  | level (e : LevelError)
  | color (name : String)
  | negativeTimeout (d : Duration)
  /-- A variable that holds no duration. -/
  | variable_ (name : String) (e : DurationError)
  deriving DecidableEq, Repr

/-- The wording of an error. -/
def SettingsError.message : SettingsError → String
  | malformed file => "parsing " ++ file ++ ": yaml: unexpected document"
  | unknownMode name => "mode: " ++ Mode.unknown name
  | level e => "log_level: " ++ e.message
  | color name => "color: must be auto, always or never, got " ++ quoted name
  | negativeTimeout d => "diff_timeout: must not be negative, got " ++ d.text
  | variable_ name e => name ++ ": " ++ e.message

namespace Yaml

/-- A text: any scalar is one, and no value leaves `old` as it is. -/
def textOr? (old : String) (v : Yaml) : Option String := if v.isNull then some old else v.text?

/-- A duration. A plain number has no unit and is none. -/
def durationOr? (old : Duration) : Yaml → Option Duration
  | .scalar text style =>
    if (Yaml.scalar text style).isNull then some old
    else if style = .plain ∧ (decimalInt? text).isSome then none
    else (Duration.read text).toOption
  | _ => none

/-- The entries of a document; one without a value has none. -/
def entries? (v : Yaml) : Option (List (String × Yaml)) :=
  match v with
  | .mapping entries => some entries
  | v => if v.isNull then some [] else none

end Yaml

namespace Settings

/-- The settings with one entry of a file. Entries that mean nothing are skipped. -/
def withEntry? (s : Settings) : String × Yaml → Option Settings
  | ("mode", v) => do return { s with mode := ← v.textOr? s.mode }
  | ("diff_timeout", v) => do return { s with diffTimeout := ← v.durationOr? s.diffTimeout }
  | ("log_level", v) => do return { s with logLevel := ← v.textOr? s.logLevel }
  | ("color", v) => do return { s with color := ← v.textOr? s.color }
  | ("history_file", v) => do return { s with historyFile := ← v.textOr? s.historyFile }
  | ("prompt", v) => do return { s with prompt := ← v.textOr? s.prompt }
  | _ => some s

/-- The settings with the entries of a file. -/
def withFile (s : Settings) (file text : String) : Except SettingsError Settings :=
  let read := do
    let v ← Yaml.parse? text
    (← v.entries?).foldlM withEntry? s
  match read with
  | some s => .ok s
  | none => .error (.malformed file)

/-- The settings with the variables of an environment. -/
def withEnvironment (s : Settings) (env : Environment) : Except SettingsError Settings := do
  let text (name old : String) : String := (env.lookup name).getD old
  let diffTimeout ← match env.lookup "JSVIZ_DIFF_TIMEOUT" with
    | none => pure s.diffTimeout
    | some t => (Duration.read t).mapError (SettingsError.variable_ "JSVIZ_DIFF_TIMEOUT")
  return { mode := text "JSVIZ_MODE" s.mode, diffTimeout, logLevel := text "JSVIZ_LOG_LEVEL" s.logLevel,
           color := text "JSVIZ_COLOR" s.color, historyFile := text "JSVIZ_HISTORY_FILE" s.historyFile,
           prompt := text "JSVIZ_PROMPT" s.prompt }

/-- How far a step goes. -/
def stepMode (s : Settings) : Except SettingsError Mode :=
  let name := toLowerCase s.mode
  match Mode.ofName? name with
  | some m => .ok m
  | none => .error (.unknownMode name)

/-- What is logged. -/
def level (s : Settings) : Except SettingsError LogLevel := (LogLevel.read s.logLevel).mapError .level

/-- Whether output is colored; `auto` leaves that to where it goes. -/
def useColor (s : Settings) (terminal : Bool) : Bool :=
  s.color == "always" || (s.color != "never" && terminal)

/-- Whether the settings make sense. The first fault in the order of the fields counts. -/
def check (s : Settings) : Except SettingsError Unit := do
  let _ ← s.stepMode
  let _ ← s.level
  if !(["auto", "always", "never"].contains s.color) then throw (.color s.color)
  if s.diffTimeout.nanoseconds < 0 then throw (.negativeTimeout s.diffTimeout)

/-- The settings of a file, if they make sense. -/
def ofFile (file text : String) : Except SettingsError Settings := do
  let s ← ({} : Settings).withFile file text
  s.check
  return s

/-- Where the lines of the prompt are kept, if anywhere. -/
def historyPath (s : Settings) (home : String) : String :=
  if s.historyFile.isEmpty || isAbsolutePath s.historyFile then s.historyFile
  else joinPath home s.historyFile

end Settings

/-!
## Files of variables

A file of variables holds lines `NAME=value`. Values may stand in quotes, `export` may stand before a
name, and `#` starts a comment.
-/

/-- What is wrong with a file of variables. -/
inductive VariablesError where
  | badName (c : Char) (rest : String)
  | unterminated (rest : String)
  deriving DecidableEq, Repr

/-- The wording of an error. -/
def VariablesError.message : VariablesError → String
  | badName c rest =>
    "unexpected character " ++ quoted (String.singleton c) ++ " in variable name near " ++ quoted rest
  | unterminated rest => "unterminated quoted value " ++ rest

namespace Variables

/-- A blank within a line. -/
def isGap (c : Char) : Bool := " \t\x0b\x0c\x0d\x85\xa0".toList.contains c

/-- The text from the next name. -/
def skipComments : (turns : Nat) → List Char → List Char
  | 0, cs => cs
  | turns + 1, cs =>
    match cs.dropWhile isBlank with
    | '#' :: rest => skipComments turns (rest.dropWhile (· != '\n'))
    | rest => rest

/-- The text without a leading `export`. -/
def skipExport (cs : List Char) : List Char :=
  let rest := cs.drop 6
  if "export".toList.isPrefixOf cs && (rest.head?.map isGap).getD false then rest.dropWhile isGap else cs

/-- The characters of a name. -/
def inName (c : Char) : Bool := c == '_' || c == '.' || isGap c || isLetter c || c.isDigit

/-- A name and what follows its sign. A text without a sign has no name and is all value. -/
def readName (cs : List Char) : Except VariablesError (String × List Char) :=
  match cs.dropWhile inName with
  | [] => .ok ("", cs)
  | c :: rest =>
    if c = '=' ∨ c = ':' then
      .ok (String.ofList ((cs.takeWhile inName).reverse.dropWhile isBlank).reverse, rest.dropWhile isGap)
    else .error (.badName c (String.ofList cs))

/-- The value before a comment. -/
def cutComment (before : Char) : List Char → List Char
  | [] => []
  | c :: cs => if c = '#' ∧ isGap before then [] else c :: cutComment c cs

/-- The value of a text in double quotes. -/
def unescape : List Char → List Char
  | '\\' :: 'n' :: cs => '\n' :: unescape cs
  | '\\' :: 'r' :: cs => '\x0d' :: unescape cs
  | '\\' :: c :: cs => if c = '$' then '\\' :: c :: unescape cs else c :: unescape cs
  | c :: cs => c :: unescape cs
  | [] => []

/-- The text up to a quote without a backslash before it, and what follows the quote. -/
def readQuoted (quote before : Char) : List Char → Option (List Char × List Char)
  | [] => none
  | c :: cs =>
    if c = quote ∧ before ≠ '\\' then some ([], cs)
    else (readQuoted quote c cs).map fun (text, rest) => (c :: text, rest)

/-- A value and what follows it. -/
def readValue (cs : List Char) : Except VariablesError (String × List Char) :=
  match cs with
  | '\x27' :: rest =>
    match readQuoted '\x27' '\x27' rest with
    | some (text, rest) => .ok (String.ofList text, rest)
    | none => .error (.unterminated (String.ofList (cs.takeWhile (· != '\n'))))
  | '"' :: rest =>
    match readQuoted '"' '"' rest with
    | some (text, rest) => .ok (String.ofList (unescape text), rest)
    | none => .error (.unterminated (String.ofList (cs.takeWhile (· != '\n'))))
  | _ =>
    let inLine (c : Char) : Bool := c != '\n' && c != '\x0d'
    let line := cutComment 'x' (cs.takeWhile inLine)
    let value := ((line.dropWhile isGap).reverse.dropWhile isGap).reverse
    .ok (String.ofList value, cs.dropWhile inLine)

/-- The variables of a text. -/
def readAll : (turns : Nat) → List Char → Except VariablesError Environment
  | 0, _ => .ok []
  | turns + 1, cs =>
    match skipComments (turns + 1) cs with
    | [] => .ok []
    | cs => do
      let (name, rest) ← readName (skipExport cs)
      let (value, rest) ← readValue rest
      return (name, value) :: (← readAll turns rest)

/-- The variables of a file; of two values of a name, the later one counts. -/
def read (text : String) : Except VariablesError Environment := do
  return (← readAll (text.length + 1) text.toList).reverse

end Variables

end Stepwise

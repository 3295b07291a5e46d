import Stepwise.Command.Flag
import Stepwise.Text.Case
import Stepwise.Text.Search

/-!
# Reading a command line

The first word names the command. Flags of all commands may stand before it.
-/

namespace Stepwise

/-- The names of the commands. -/
inductive CommandName where
  | ast
  | check
  | lint
  | step
  | trace
  deriving DecidableEq, Repr, Inhabited

namespace CommandName

/-- All commands. -/
def all : List CommandName := [ast, check, lint, step, trace]

/-- The word for a command. -/
def word : CommandName → String
  | ast => "ast"
  | check => "check"
  | lint => "lint"
  | step => "step"
  | trace => "trace"

/-- The command of a word. -/
def ofWord? (w : String) : Option CommandName := all.find? (·.word == w)

/-- The flags of all commands. -/
def sharedFlags : List Flag := [⟨"config", some 'c', .text⟩, ⟨"mode", some 'm', .text⟩, ⟨"log-level", none, .text⟩]

/-- The flags of one command. -/
def ownFlags : CommandName → List Flag
  | ast => [⟨"text", none, .switch⟩]
  | check =>
    [⟨"filter", none, .text⟩, ⟨"limit", none, .number⟩, ⟨"max-steps", none, .number⟩,
     ⟨"verbose", some 'v', .switch⟩]
  | lint => [⟨"format", some 'F', .text⟩]
  | step => []
  | trace => [⟨"compact", none, .switch⟩, ⟨"out", some 'o', .text⟩, ⟨"input", none, .text⟩]

/-- Asks for help. -/
def helpFlag : Flag := ⟨"help", some 'h', .switch⟩

/-- Words that may have been meant by `w`: it starts them, or two changes turn it into them. -/
def suggestions (w : String) : List String :=
  let typed := (toLowerCase w).toList
  (all.map word).filter fun name =>
    typed.isPrefixOf name.toList || decide (textDistance typed name.toList ≤ 2)

end CommandName

/-- What is asked for. -/
inductive Task where
  /-- The steps of a program, on one line if `compact`. -/
  | trace (file : String) (compact : Bool) (out input : String)
  | lint (file format : String)
  /-- The tree of a program, with the text of each node if `withText`. -/
  | ast (file : String) (withText : Bool)
  | check (directory filter : String) (limit maxSteps : Int) (verbose : Bool)
  | step (file : String)
  deriving DecidableEq, Repr

/-- A task with what the command line says about the settings; empty texts say nothing. -/
structure Invocation where
  task : Task
  config : String := ""
  mode : String := ""
  logLevel : String := ""
  deriving DecidableEq, Repr

/-- Why a command line cannot be carried out. -/
inductive UsageError where
  | flag (e : FlagError)
  | unknownCommand (name : String)
  | argumentCount (n : Nat)
  deriving DecidableEq, Repr

/-- The wording of an error. -/
def UsageError.message : UsageError → String
  | flag e => e.message
  | unknownCommand name =>
    let hints := CommandName.suggestions name
    "unknown command " ++ quoted name ++ " for \"jsviz\"" ++
      if hints.isEmpty then ""
      else "\n\nDid you mean this?\n" ++ String.join (hints.map fun h => "\t" ++ h ++ "\n")
  | argumentCount n => "accepts 1 arg(s), received " ++ toString n

namespace Invocation

/-- Whether an argument is no flag. -/
def isWord (arg : String) : Bool := !arg.isEmpty && arg.toList.head? != some '-'

/-- The arguments that are neither flags nor values of flags. -/
def words : List String → List String
  | [] => []
  | [arg] => if isWord arg then [arg] else []
  | arg :: next :: args =>
    if arg == "--" then []
    else if Flag.takesNext CommandName.sharedFlags arg then
      if args.isEmpty then [] else words args
    else if isWord arg then arg :: words (next :: args)
    else words (next :: args)

/-- The arguments without the first word, if that is `word`. -/
def withoutWord (word : String) : List String → List String
  | [] => []
  | [arg] => if arg == word then [] else [arg]
  | arg :: next :: args =>
    if arg == "--" then arg :: next :: args
    else if Flag.takesNext CommandName.sharedFlags arg then arg :: next :: withoutWord word args
    else if arg == word then next :: args
    else arg :: withoutWord word (next :: args)

/-- The task of a command. -/
def taskOf (name : CommandName) (v : FlagValues) (file : String) : Task :=
  match name with
  | .ast => .ast file (v.isOn "text")
  | .check => .check file (v.text "filter" "") (v.number "limit" 0) (v.number "max-steps" 0) (v.isOn "verbose")
  | .lint => .lint file (v.text "format" "text")
  | .step => .step file
  | .trace => .trace file (v.isOn "compact") (v.text "out" "") (v.text "input" "")

/-- What a command line asks for, or nothing if it asks for help. -/
def ofArgs (args : List String) : Except UsageError (Option Invocation) := do
  let read (flags : List Flag) (args : List String) :=
    (Flag.read (CommandName.sharedFlags ++ CommandName.helpFlag :: flags) args).mapError UsageError.flag
  match words args with
  | [] =>
    let _ ← read [] args
    return none
  | word :: _ =>
    match CommandName.ofWord? word with
    | none => throw (.unknownCommand word)
    | some name =>
      let (values, rest) ← read name.ownFlags (withoutWord word args)
      if values.isOn "help" then return none
      match rest with
      | [file] =>
        return some { task := taskOf name values file, config := values.text "config" "",
                      mode := values.text "mode" "", logLevel := values.text "log-level" "" }
      | rest => throw (.argumentCount rest.length)

end Invocation

end Stepwise

import Stepwise.Decimal.Integer
import Stepwise.Text.Quoted

/-!
# Flags of a command line

Flags are written `--name`, `--name=value`, `--name value` or by a letter as in `-n value`. Letters of
switches can stand together. Flags and other arguments may be mixed, and `--` ends the flags.
-/

namespace Stepwise

/-- What a flag takes. -/
inductive FlagKind where
  | text
  | number
  /-- Nothing, or a truth value after `=`. -/
  | switch
  deriving DecidableEq, Repr, Inhabited

/-- A flag of a command. -/
structure Flag where
  name : String
  letter : Option Char := none
  kind : FlagKind := .text
  deriving DecidableEq, Repr, Inhabited

/-- The value of a flag. -/
inductive FlagValue where
  | text (s : String)
  | number (n : Int)
  | switch (on : Bool)
  deriving DecidableEq, Repr, Inhabited

/-- Why arguments cannot be read. -/
inductive FlagError where
  | malformed (arg : String)
  | unknown (name : String)
  | unknownLetter (letter : Char) (letters : String)
  | missingValue (arg : String)
  | missingLetterValue (letter : Char) (letters : String)
  | badNumber (value : String) (flag : Flag) (e : IntegerError)
  | badSwitch (value : String) (flag : Flag)
  deriving DecidableEq, Repr

/-- How errors name a flag. -/
def Flag.label (f : Flag) : String :=
  match f.letter with
  | some c => "-" ++ String.singleton c ++ ", --" ++ f.name
  | none => "--" ++ f.name

namespace FlagError

/-- A letter in single quotes. -/
def quotedLetter (c : Char) : String :=
  let body := if c = '\x27' then ['\\', c] else if c = '"' then [c] else quotedChar c
  String.ofList ('\x27' :: (body ++ ['\x27']))

/-- The complaint about a value. -/
def badValue (value : String) (flag : Flag) (reason : String) : String :=
  "invalid argument " ++ quoted value ++ " for " ++ quoted flag.label ++ " flag: " ++ reason

/-- The wording of an error. -/
def message : FlagError → String
  | malformed arg => "bad flag syntax: " ++ arg
  | unknown name => "unknown flag: --" ++ name
  | unknownLetter letter letters => "unknown shorthand flag: " ++ quotedLetter letter ++ " in -" ++ letters
  | missingValue arg => "flag needs an argument: " ++ arg
  | missingLetterValue letter letters =>
    "flag needs an argument: " ++ quotedLetter letter ++ " in -" ++ letters
  | badNumber value flag e =>
    badValue value flag ("strconv.ParseInt: parsing " ++ quoted value ++ ": " ++ e.message)
  | badSwitch value flag =>
    badValue value flag ("strconv.ParseBool: parsing " ++ quoted value ++ ": invalid syntax")

end FlagError

/-- The values that flags were given; of two values of a flag, the first in the list counts. -/
abbrev FlagValues := List (String × FlagValue)

namespace FlagValues

/-- The text that a flag was given. -/
def text (v : FlagValues) (name default : String) : String :=
  match v.lookup name with
  | some (.text s) => s
  | _ => default

/-- The number that a flag was given. -/
def number (v : FlagValues) (name : String) (default : Int) : Int :=
  match v.lookup name with
  | some (.number n) => n
  | _ => default

/-- Whether a switch is on. -/
def isOn (v : FlagValues) (name : String) : Bool := v.lookup name == some (.switch true)

end FlagValues

namespace Flag

/-- The truth value of a text. -/
def truth? (s : String) : Option Bool :=
  if ["1", "t", "T", "TRUE", "true", "True"].contains s then some true
  else if ["0", "f", "F", "FALSE", "false", "False"].contains s then some false
  else none

/-- The value of a text for a flag. -/
def value (f : Flag) (s : String) : Except FlagError FlagValue :=
  match f.kind with
  | .text => .ok (.text s)
  | .number => (readInteger s).map .number |>.mapError (.badNumber s f)
  | .switch => (truth? s).elim (.error (.badSwitch s f)) fun b => .ok (.switch b)

/-- The flag of a name. -/
def ofName? (flags : List Flag) (name : String) : Option Flag := flags.find? (·.name == name)

/-- The flag of a letter. -/
def ofLetter? (flags : List Flag) (c : Char) : Option Flag := flags.find? (·.letter == some c)

/-- Whether the argument after `arg` is its value: `arg` is a flag without `=` that is no switch. A flag
that is not known counts as one with a value. -/
def takesNext (flags : List Flag) (arg : String) : Bool :=
  let needs (f : Option Flag) : Bool := f.map (·.kind) != some .switch
  match arg.toList with
  | '-' :: '-' :: name => !name.contains '=' && needs (ofName? flags (String.ofList name))
  | ['-', c] => c != '=' && needs (ofLetter? flags c)
  | _ => false

/-- A flag by its name, and the arguments after it. -/
def readLong (flags : List Flag) (arg : String) (args : List String) :
    Except FlagError ((String × FlagValue) × List String) := do
  let body := arg.toList.drop 2
  if body.head? = some '-' ∨ body.head? = some '=' then throw (.malformed arg)
  let name := String.ofList (body.takeWhile (· != '='))
  match ofName? flags name, body.dropWhile (· != '='), args with
  | none, _, _ => throw (.unknown name)
  | some f, '=' :: value, args => return ((name, ← f.value (String.ofList value)), args)
  | some f, _, args =>
    if f.kind = .switch then return ((name, .switch true), args)
    match args with
    | value :: args => return ((name, ← f.value value), args)
    | [] => throw (.missingValue arg)

/-- Flags by their letters, and the arguments after them. -/
def readLetters (flags : List Flag) (args : List String) : List Char →
    Except FlagError (FlagValues × List String)
  | [] => .ok ([], args)
  | c :: cs => do
    let letters := String.ofList (c :: cs)
    match ofLetter? flags c, cs with
    | none, _ => throw (.unknownLetter c letters)
    | some f, '=' :: d :: rest => return ([(f.name, ← f.value (String.ofList (d :: rest)))], args)
    | some f, cs =>
      if f.kind = .switch then
        let (values, args) ← readLetters flags args cs
        return (values ++ [(f.name, .switch true)], args)
      match cs, args with
      | _ :: _, args => return ([(f.name, ← f.value (String.ofList cs))], args)
      | [], value :: args => return ([(f.name, ← f.value value)], args)
      | [], [] => throw (.missingLetterValue c letters)

/-- The flags and the other arguments among at most `turns` arguments. -/
def readAll (flags : List Flag) : (turns : Nat) → List String → Except FlagError (FlagValues × List String)
  | 0, args => .ok ([], args)
  | _, [] => .ok ([], [])
  | turns + 1, arg :: args => do
    match arg.toList with
    | ['-', '-'] => return ([], args)
    | '-' :: '-' :: _ =>
      let (value, args) ← readLong flags arg args
      let (values, rest) ← readAll flags turns args
      return (values ++ [value], rest)
    | '-' :: c :: cs =>
      let (first, args) ← readLetters flags args (c :: cs)
      let (values, rest) ← readAll flags turns args
      return (values ++ first, rest)
    | _ =>
      let (values, rest) ← readAll flags turns args
      return (values, arg :: rest)

/-- The flags and the other arguments of a command line. -/
def read (flags : List Flag) (args : List String) : Except FlagError (FlagValues × List String) :=
  readAll flags args.length args

end Flag

end Stepwise

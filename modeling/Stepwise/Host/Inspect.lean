import Stepwise.Decimal.Layout
import Stepwise.Decimal.Numeral
import Stepwise.Host.Value

/-!
# Texts of host values

How values are shown to a reader: nested arrays and objects down to a depth, on one line if they are
short.
-/

namespace Stepwise

namespace HostValue

/-- How many levels of nested arrays and objects are shown. -/
def shownDepth : Nat := 3

/-- How long the parts of a line may be together. -/
def lineWidth : Nat := 60

/-- A character between single quotes. -/
def quotedChar : Char → List Char
  | '\\' => ['\\', '\\']
  | '\x27' => ['\\', '\x27']
  | '\n' => ['\\', 'n']
  | '\t' => ['\\', 't']
  | '\r' => ['\\', 'r']
  | c => [c]

/-- A text in single quotes. -/
def singleQuoted (s : String) : String := String.ofList ('\x27' :: s.toList.flatMap quotedChar ++ ['\x27'])

/-- Whether a key is written without quotes. -/
def isPlainKey (key : String) : Bool :=
  let start (c : Char) : Bool := c.isAlpha || c == '_' || c == '$'
  match key.toList with
  | [] => false
  | c :: cs => start c && cs.all fun c => start c || c.isDigit

/-- A key of an object. -/
def keyText (key : String) : String := if isPlainKey key then key else singleQuoted key

/-- Parts between brackets, each on a line of its own if they are long. -/
def bracketed (opening closing : String) (parts : List String) : String :=
  let width (p : String) : Nat := p.utf8ByteSize + 1 + if p.toList.contains '\n' then lineWidth else 0
  let separator := if lineWidth < parts.foldl (fun n p => n + width p) 0 then ",\n  " else ", "
  opening ++ " " ++ String.intercalate separator parts ++ " " ++ closing

mutual

/-- The text of a value at a level of nesting. -/
def inspectAt (level : Nat) : HostValue → String
  | .undefined => "undefined"
  | .null => "null"
  | .bool b => if b then "true" else "false"
  | .number n => NumberStyle.script.render n
  | .string s => singleQuoted s
  | .function name => if name.isEmpty then "[Function (anonymous)]" else "[Function: " ++ name ++ "]"
  | .list items =>
    if items.isEmpty then "[]"
    else if shownDepth < level then "[Array]"
    else bracketed "[" "]" (inspectAll (level + 1) items)
  | .object fields =>
    if fields.isEmpty then "\x7b\x7d"
    else if shownDepth < level then "[Object]"
    else bracketed "\x7b" "\x7d" (inspectFields (level + 1) fields)
  | .int _ | .single _ | .record _ | .foreign _ => "[unknown]"

/-- The texts of values. -/
def inspectAll (level : Nat) : List HostValue → List String
  | [] => []
  | x :: xs => inspectAt level x :: inspectAll level xs

/-- The texts of fields. -/
def inspectFields (level : Nat) : List (String × HostValue) → List String
  | [] => []
  | (key, x) :: fields => (keyText key ++ ": " ++ inspectAt level x) :: inspectFields level fields

end

/-- The text of a value. -/
def inspect (x : HostValue) : String := inspectAt 0 x

/-- A number rounded to six places. -/
def roundSix (n : Float) : Float := (readFloat? (renderFixed n 6)).getD n

/-- The text that is logged for a value: a number is rounded to six places. -/
def outputText : HostValue → String
  | .number n => inspect (.number (roundSix n))
  | x => inspect x

end HostValue

end Stepwise

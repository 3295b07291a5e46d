import Stepwise.Json.Basic
import Stepwise.Text.Quoted

/-!
# Writing JSON

The text of a JSON value on one line or indented by two spaces. Besides what JSON demands, the
characters that are special in HTML and the two Unicode line separators are escaped.
-/

namespace Stepwise.Json

/-- A character inside a JSON string. -/
def escapedChar (c : Char) : List Char :=
  match c.toNat with
  | 0x22 => ['\\', '"']
  | 0x5C => ['\\', '\\']
  | 8 => ['\\', 'b']
  | 9 => ['\\', 't']
  | 10 => ['\\', 'n']
  | 12 => ['\\', 'f']
  | 13 => ['\\', 'r']
  | n =>
    if n < 0x20 ∨ n = 0x3C ∨ n = 0x3E ∨ n = 0x26 ∨ n = 0x2028 ∨ n = 0x2029 then
      '\\' :: 'u' :: hexDigits 4 n
    else [c]

/-- Appends a JSON string to a text. -/
def writeString (out s : String) : String :=
  (s.foldl (fun out c => (escapedChar c).foldl String.push out) (out.push '"')).push '"'

mutual

/-- Appends a value on one line. -/
def write (out : String) : Json → String
  | .null => out ++ "null"
  | .bool b => out ++ (if b then "true" else "false")
  | .num literal => out ++ literal
  | .str s => writeString out s
  | .arr items => (writeItems (out.push '[') true items).push ']'
  | .obj members => (writeMembers (out.push '\x7b') true members).push '\x7d'

/-- Appends the items of an array, with a comma before all but the first. -/
def writeItems (out : String) (first : Bool) : List Json → String
  | [] => out
  | j :: rest => writeItems (write (if first then out else out.push ',') j) false rest

/-- Appends the members of an object, with a comma before all but the first. -/
def writeMembers (out : String) (first : Bool) : List (String × Json) → String
  | [] => out
  | (name, j) :: rest =>
    let out := if first then out else out.push ','
    writeMembers (write ((writeString out name).push ':') j) false rest

end

/-- The text of a value on one line. -/
def compact (j : Json) : String := write "" j

/-- A line break and the indentation of a nesting depth. -/
def newLine (out : String) (depth : Nat) : String :=
  depth.fold (fun _ _ out => out ++ "  ") (out.push '\n')

mutual

/-- Appends a value with every item and member on a line of its own. -/
def writeIndented (out : String) (depth : Nat) : Json → String
  | .null => out ++ "null"
  | .bool b => out ++ (if b then "true" else "false")
  | .num literal => out ++ literal
  | .str s => writeString out s
  | .arr [] => out ++ "[]"
  | .arr (j :: rest) =>
    let out := writeIndented (newLine (out.push '[') (depth + 1)) (depth + 1) j
    (newLine (writeIndentedItems out (depth + 1) rest) depth).push ']'
  | .obj [] => (out.push '\x7b').push '\x7d'
  | .obj ((name, j) :: rest) =>
    let out := writeString (newLine (out.push '\x7b') (depth + 1)) name
    let out := writeIndented (out ++ ": ") (depth + 1) j
    (newLine (writeIndentedMembers out (depth + 1) rest) depth).push '\x7d'

/-- Appends further items, each after a comma. -/
def writeIndentedItems (out : String) (depth : Nat) : List Json → String
  | [] => out
  | j :: rest => writeIndentedItems (writeIndented (newLine (out.push ',') depth) depth j) depth rest

/-- Appends further members, each after a comma. -/
def writeIndentedMembers (out : String) (depth : Nat) : List (String × Json) → String
  | [] => out
  | (name, j) :: rest =>
    let out := writeString (newLine (out.push ',') depth) name ++ ": "
    writeIndentedMembers (writeIndented out depth j) depth rest

end

/-- The text of a value, indented by two spaces. -/
def indented (j : Json) : String := writeIndented "" 0 j

end Stepwise.Json

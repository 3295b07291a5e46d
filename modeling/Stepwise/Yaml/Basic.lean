import Stepwise.Text.Quoted

/-!
# YAML values

Settings, headers of programs and reports are written in YAML. A value is a scalar, a sequence or a
mapping whose entries keep their order.
-/

namespace Stepwise

/-- How a scalar is written. -/
inductive ScalarStyle where
  /-- Without quotes, where that is possible. -/
  | plain
  /-- In quotes. -/
  | quoted
  deriving DecidableEq, Repr, Inhabited

/-- A value of a YAML document. -/
inductive Yaml where
  | scalar (text : String) (style : ScalarStyle)
  | sequence (items : List Yaml)
  | mapping (entries : List (String × Yaml))
  deriving Repr, Inhabited

namespace Yaml

/-- No value. -/
def null : Yaml := .scalar "" .plain

/-- Whether a value is one of the spellings of no value. -/
def isNull : Yaml → Bool
  | scalar text .plain => ["", "~", "null", "Null", "NULL"].contains text
  | _ => false

/-- The text of a scalar. -/
def text? : Yaml → Option String
  | scalar text _ => some text
  | _ => none

end Yaml

/-- A character that starts a scalar only in quotes. -/
def isYamlIndicator (c : Char) : Bool := "#,[]\x7b\x7d&*!|>'\"%@`".toList.contains c

end Stepwise

/-!
## Printing YAML

Mappings and sequences are written by indentation, two spaces a level. A plain scalar gets quotes where
it would be read as something else without them.
-/

namespace Stepwise.Yaml

/-- Whether a character stands for itself in a document. -/
def isShown (c : Char) : Bool :=
  let n := c.toNat
  (0x20 ≤ n && n ≤ 0x7E) || (0xA0 ≤ n && n ≤ 0xFFFD && n != 0xFEFF && n != 0x2028 && n != 0x2029)

/-- The letter of a short escape. -/
def escapeLetter? (c : Char) : Option Char :=
  match c with
  | '\x00' => some '0'
  | '\x07' => some 'a'
  | '\x08' => some 'b'
  | '\t' => some 't'
  | '\n' => some 'n'
  | '\x0b' => some 'v'
  | '\x0c' => some 'f'
  | '\x0d' => some 'r'
  | '\x1b' => some 'e'
  | '"' => some '"'
  | '\\' => some '\\'
  | '\x85' => some 'N'
  | '\u2028' => some 'L'
  | '\u2029' => some 'P'
  | _ => none

/-- A character in double quotes. -/
def escaped (c : Char) : List Char :=
  match escapeLetter? c with
  | some e => ['\\', e]
  | none =>
    let digits (width : Nat) : List Char := (hexDigits width c.toNat).map Char.toUpper
    if isShown c then [c]
    else if c.toNat ≤ 0xFF then '\\' :: 'x' :: digits 2
    else if c.toNat ≤ 0xFFFF then '\\' :: 'u' :: digits 4
    else '\\' :: 'U' :: digits 8

/-- A text in double quotes. -/
def doubleQuoted (cs : List Char) : List Char := '"' :: (cs.flatMap escaped ++ ['"'])

/-- A text in single quotes. -/
def singleQuoted (cs : List Char) : List Char :=
  '\x27' :: (cs.flatMap (fun c => if c = '\x27' then ['\x27', '\x27'] else [c]) ++ ['\x27'])

/-- Whether a colon ends a key or a number sign starts a comment in `cs`, where `blank` says whether a
blank stands before it. -/
def breaksPlain (blank : Bool) : List Char → Bool
  | [] => false
  | ':' :: cs => (cs.head?.map (· == ' ')).getD true || breaksPlain false cs
  | '#' :: cs => blank || breaksPlain false cs
  | c :: cs => breaksPlain (c == ' ') cs

/-- Whether a text can stand without quotes. -/
def isPlain (cs : List Char) : Bool :=
  match cs with
  | [] => false
  | c :: rest =>
    let word := (rest.head?.map (· == ' ')).getD true
    c != ' ' && cs.getLast? != some ' ' && !isYamlIndicator c && !((c == '-' || c == '?') && word) &&
      !(['-', '-', '-'].isPrefixOf cs) && !(['.', '.', '.'].isPrefixOf cs) && !breaksPlain true cs

/-- A scalar as it is written. -/
def scalarText (text : String) : ScalarStyle → String
  | .quoted => String.ofList (doubleQuoted text.toList)
  | .plain =>
    let cs := text.toList
    if !cs.all isShown then String.ofList (doubleQuoted cs)
    else if isPlain cs then text
    else if cs.isEmpty then "\"\""
    else String.ofList (singleQuoted cs)

mutual

/-- The lines of a value. -/
def lines : Yaml → List String
  | .scalar text style => [scalarText text style]
  | .sequence [] => ["[]"]
  | .mapping [] => ["\x7b\x7d"]
  | .sequence items => itemLines items
  | .mapping entries => entryLines entries

/-- The lines of the items of a sequence. -/
def itemLines : List Yaml → List String
  | [] => []
  | item :: items =>
    (match lines item with
      | [] => []
      | line :: more => ("- " ++ line) :: more.map ("  " ++ ·)) ++ itemLines items

/-- The lines of the entries of a mapping. -/
def entryLines : List (String × Yaml) → List String
  | [] => []
  | (key, value) :: entries =>
    (match value, lines value with
      | .sequence (_ :: _), below => (key ++ ":") :: below.map ("  " ++ ·)
      | .mapping (_ :: _), below => (key ++ ":") :: below.map ("  " ++ ·)
      | _, below => [key ++ ": " ++ String.join below]) ++ entryLines entries

end

/-- The document of a value. -/
def render (v : Yaml) : String := String.join (v.lines.map (· ++ "\n"))

end Stepwise.Yaml

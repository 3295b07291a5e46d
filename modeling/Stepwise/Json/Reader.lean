import Stepwise.Json.Basic
import Stepwise.Decimal.Numeral

/-!
# Reading JSON

`Json.parse?` reads a text that holds one JSON value and nothing else. An escape that stands for half
of a surrogate pair without its other half is read as the replacement character.
-/

namespace Stepwise.Json

/-- The white space of JSON. -/
def isSpace (c : Char) : Bool := c == ' ' || c == '\t' || c == '\n' || c == '\r'

/-- The text after its white space. -/
def skipSpace (cs : List Char) : List Char := cs.dropWhile isSpace

/-- Four hexadecimal digits as a number. -/
def hex4? (a b c d : Char) : Option Nat := do
  let a ← digitBelow? 16 a
  let b ← digitBelow? 16 b
  let c ← digitBelow? 16 c
  let d ← digitBelow? 16 d
  return ((a * 16 + b) * 16 + c) * 16 + d

/-- What a one-character escape stands for. -/
def simpleEscape? : Char → Option Char
  | '"' => some '"'
  | '\\' => some '\\'
  | '/' => some '/'
  | 'b' => some '\x08'
  | 'f' => some '\x0c'
  | 'n' => some '\n'
  | 'r' => some '\r'
  | 't' => some '\t'
  | _ => none

/-- The second half of a surrogate pair, if the text starts with an escape that stands for one. -/
def lowSurrogate? : List Char → Option Nat
  | '\\' :: 'u' :: a :: b :: c :: d :: _ => (hex4? a b c d).filter fun n => 0xDC00 ≤ n ∧ n < 0xE000
  | _ => none

/-- The rest of a string after its opening quote, and what follows the closing one. -/
def readString? (acc : List Char) : List Char → Option (String × List Char)
  | [] => none
  | '"' :: rest => some (String.ofList acc.reverse, rest)
  | '\\' :: 'u' :: a :: b :: c :: d :: rest =>
    match hex4? a b c d with
    | none => none
    | some n =>
      if 0xD800 ≤ n ∧ n < 0xDC00 then
        match lowSurrogate? rest with
        | some m =>
          let c := Char.ofNat (0x10000 + (n - 0xD800) * 0x400 + (m - 0xDC00))
          readString? (c :: acc) (rest.drop 6)
        | none => readString? ('\uFFFD' :: acc) rest
      else if 0xDC00 ≤ n ∧ n < 0xE000 then readString? ('\uFFFD' :: acc) rest
      else readString? (Char.ofNat n :: acc) rest
  | '\\' :: c :: rest =>
    match simpleEscape? c with
    | none => none
    | some e => readString? (e :: acc) rest
  | c :: rest => if c.toNat < 0x20 then none else readString? (c :: acc) rest
termination_by cs => cs.length
decreasing_by all_goals simp [List.length_drop] <;> omega

/-- One or more digits, and what follows them. -/
def readDigits? (cs : List Char) : Option (List Char × List Char) :=
  let (ds, rest) := cs.span Char.isDigit
  if ds.isEmpty then none else some (ds, rest)

/-- The whole part of a number, which has no leading zeros, and what follows it. -/
def readWhole? : List Char → Option (List Char × List Char)
  | '0' :: rest => some (['0'], rest)
  | rest => readDigits? rest

/-- The fraction of a number with its point, which may be missing, and what follows it. -/
def readFraction? : List Char → Option (List Char × List Char)
  | '.' :: rest => (readDigits? rest).map fun (ds, rest) => ('.' :: ds, rest)
  | rest => some ([], rest)

/-- The exponent of a number with its mark, which may be missing, and what follows it. -/
def readScale? : List Char → Option (List Char × List Char)
  | e :: rest =>
    if e = 'e' ∨ e = 'E' then
      let (mark, rest) := match rest with
        | '+' :: rest => ([e, '+'], rest)
        | '-' :: rest => ([e, '-'], rest)
        | rest => ([e], rest)
      (readDigits? rest).map fun (ds, rest) => (mark ++ ds, rest)
    else some ([], e :: rest)
  | [] => some ([], [])

/-- The sign of a number, which may be missing, and what follows it. -/
def readSign : List Char → List Char × List Char
  | '-' :: rest => (['-'], rest)
  | rest => ([], rest)

/-- A number literal and what follows it. -/
def readNumber? (cs : List Char) : Option (String × List Char) := do
  let (sign, cs) := readSign cs
  let (whole, cs) ← readWhole? cs
  let (fraction, cs) ← readFraction? cs
  let (exponent, cs) ← readScale? cs
  return (String.ofList (sign ++ whole ++ fraction ++ exponent), cs)

/-- What follows a literal word, if the text starts with it. -/
def afterWord? : (word cs : List Char) → Option (List Char)
  | [], cs => some cs
  | _ :: _, [] => none
  | w :: word, c :: cs => if w = c then afterWord? word cs else none

mutual

/-- A value and what follows it; `depth` bounds the nesting and the length of lists. -/
def readValue? : (depth : Nat) → List Char → Option (Json × List Char)
  | 0, _ => none
  | depth + 1, cs =>
    match skipSpace cs with
    | '"' :: rest => (readString? [] rest).map fun (s, rest) => (.str s, rest)
    | '[' :: rest =>
      match skipSpace rest with
      | ']' :: rest => some (.arr [], rest)
      | rest => (readItems? depth rest).map fun (items, rest) => (.arr items, rest)
    | '\x7b' :: rest =>
      match skipSpace rest with
      | '\x7d' :: rest => some (.obj [], rest)
      | rest => (readMembers? depth rest).map fun (members, rest) => (.obj members, rest)
    | 't' :: rest => (afterWord? "rue".toList rest).map fun rest => (.bool true, rest)
    | 'f' :: rest => (afterWord? "alse".toList rest).map fun rest => (.bool false, rest)
    | 'n' :: rest => (afterWord? "ull".toList rest).map fun rest => (.null, rest)
    | rest => (readNumber? rest).map fun (literal, rest) => (.num literal, rest)

/-- The items of an array up to its closing bracket. -/
def readItems? : (depth : Nat) → List Char → Option (List Json × List Char)
  | 0, _ => none
  | depth + 1, cs => do
    let (j, rest) ← readValue? depth cs
    match skipSpace rest with
    | ',' :: rest => (readItems? depth rest).map fun (items, rest) => (j :: items, rest)
    | ']' :: rest => some ([j], rest)
    | _ => none

/-- The members of an object up to its closing brace. -/
def readMembers? : (depth : Nat) → List Char → Option (List (String × Json) × List Char)
  | 0, _ => none
  | depth + 1, cs =>
    match skipSpace cs with
    | '"' :: rest => do
      let (name, rest) ← readString? [] rest
      match skipSpace rest with
      | ':' :: rest =>
        let (j, rest) ← readValue? depth rest
        match skipSpace rest with
        | ',' :: rest => (readMembers? depth rest).map fun (members, rest) => ((name, j) :: members, rest)
        | '\x7d' :: rest => some ([(name, j)], rest)
        | _ => none
      | _ => none
    | _ => none

end

/-- The value that a text holds. -/
def parse? (s : String) : Option Json :=
  let cs := s.toList
  match readValue? (2 * cs.length + 2) cs with
  | some (j, rest) => if (skipSpace rest).isEmpty then some j else none
  | none => none

end Stepwise.Json

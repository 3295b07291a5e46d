import Stepwise.Decimal.Shortest
import Stepwise.Text.Bytes
import Stepwise.Text.Quoted

/-!
# Durations

A duration is written as numbers with units, such as `1h30m` or `1.5s`, and kept in nanoseconds.
-/

namespace Stepwise

/-- A span of time. -/
structure Duration where
  nanoseconds : Int
  deriving DecidableEq, Repr, Inhabited

/-- Why a text is no duration. -/
inductive DurationError where
  | invalid (text : String)
  | missingUnit (text : String)
  | unknownUnit (unit text : String)
  deriving DecidableEq, Repr

namespace Duration

/-- A text in quotes; all but printable ASCII is written as bytes. -/
def quotedBytes (s : String) : String :=
  let char (c : Char) : List Char :=
    if c = '"' ∨ c = '\\' then ['\\', c]
    else if 0x20 ≤ c.toNat ∧ c.toNat < 0x80 then [c]
    else (bytesOf (String.singleton c)).flatMap fun b => '\\' :: 'x' :: hexDigits 2 b.toNat
  String.ofList ('"' :: (s.toList.flatMap char ++ ['"']))

end Duration

/-- The wording of an error. -/
def DurationError.message : DurationError → String
  | invalid text => "time: invalid duration " ++ Duration.quotedBytes text
  | missingUnit text => "time: missing unit in duration " ++ Duration.quotedBytes text
  | unknownUnit unit text =>
    "time: unknown unit " ++ Duration.quotedBytes unit ++ " in duration " ++ Duration.quotedBytes text

namespace Duration

/-- The nanoseconds of a unit. -/
def unit? (name : String) : Option Nat :=
  match name with
  | "ns" => some 1
  | "us" | "µs" | "μs" => some 1000
  | "ms" => some 1000000
  | "s" => some 1000000000
  | "m" => some 60000000000
  | "h" => some 3600000000000
  | _ => none

/-- The value of a digit. -/
def digit (c : Char) : Nat := c.toNat - '0'.toNat

/-- The number of leading digits, if it is in range. -/
def whole? (ds : List Char) : Option Nat :=
  ds.foldlM (fun n c =>
    let m := n * 10 + digit c
    if n ≤ Nat.pow 2 63 / 10 ∧ m ≤ Nat.pow 2 63 then some m else none) 0

/-- The digits after a point as a number and its scale. Digits that do not fit are left out. -/
def fraction (ds : List Char) : Nat × Float :=
  let (n, scale, _) := ds.foldl (fun (n, scale, full) c =>
    let m := n * 10 + digit c
    if full ∨ (Nat.pow 2 63 - 1) / 10 < n ∨ Nat.pow 2 63 < m then (n, scale, true) else (m, scale * 10, false))
    (0, (1 : Float), false)
  (n, scale)

/-- A number with its unit in nanoseconds, and what is left of the text. -/
def readPart (text : String) (cs : List Char) : Except DurationError (Nat × List Char) := do
  let isDigit (c : Char) : Bool := c.isDigit
  let digits := cs.takeWhile isDigit
  let rest := cs.dropWhile isDigit
  let (places, rest) := match rest with
    | '.' :: rest => (rest.takeWhile isDigit, rest.dropWhile isDigit)
    | rest => ([], rest)
  match whole? digits with
  | none => throw (.invalid text)
  | some v =>
    if digits.isEmpty ∧ places.isEmpty then throw (.invalid text)
    let inUnit (c : Char) : Bool := c != '.' && !isDigit c
    let name := String.ofList (rest.takeWhile inUnit)
    if name.isEmpty then throw (.missingUnit text)
    match unit? name with
    | none => throw (.unknownUnit name text)
    | some unit =>
      if Nat.pow 2 63 / unit < v then throw (.invalid text)
      let (f, scale) := fraction places
      let more := if f = 0 then 0 else (f.toFloat * (unit.toFloat / scale)).toUInt64.toNat
      if Nat.pow 2 63 < v * unit + more then throw (.invalid text)
      return (v * unit + more, rest.dropWhile inUnit)

/-- The sum of all parts of a text. -/
def readParts (text : String) : (turns : Nat) → Nat → List Char → Except DurationError Nat
  | _, total, [] => return total
  | 0, _, _ => throw (.invalid text)
  | turns + 1, total, cs => do
    let (n, rest) ← readPart text cs
    if Nat.pow 2 63 < total + n then throw (.invalid text)
    readParts text turns (total + n) rest

/-- The duration of a text. -/
def read (text : String) : Except DurationError Duration := do
  let (negative, cs) := match text.toList with
    | '-' :: cs => (true, cs)
    | '+' :: cs => (false, cs)
    | cs => (false, cs)
  if cs = ['0'] then return ⟨0⟩
  if cs.isEmpty then throw (.invalid text)
  let n ← readParts text cs.length 0 cs
  if negative then return ⟨-n⟩
  if Nat.pow 2 63 ≤ n then throw (.invalid text)
  return ⟨n⟩

/-- A number of parts of `10 ^ places` as a decimal without trailing zeros. -/
def decimalText (n places : Nat) : String :=
  let digits := decimalDigits (n % Nat.pow 10 places)
  let all := List.replicate (places - digits.length) '0' ++ digits
  let kept := (all.reverse.dropWhile (· == '0')).reverse
  toString (n / Nat.pow 10 places) ++
    if n % Nat.pow 10 places = 0 then "" else String.ofList ('.' :: kept)

/-- The text of a duration: in the largest unit below a second, or in hours, minutes and seconds. -/
def text (d : Duration) : String :=
  let n := d.nanoseconds.natAbs
  let second := Nat.pow 10 9
  let all :=
    if n = 0 then "0s"
    else if n < Nat.pow 10 3 then toString n ++ "ns"
    else if n < Nat.pow 10 6 then decimalText n 3 ++ "µs"
    else if n < second then decimalText n 6 ++ "ms"
    else
      let minutes := n / (60 * second)
      let hours := minutes / 60
      (if hours = 0 then "" else toString hours ++ "h") ++
        (if minutes = 0 then "" else toString (minutes % 60) ++ "m") ++
        decimalText (n % (60 * second)) 9 ++ "s"
  if d.nanoseconds < 0 then "-" ++ all else all

end Duration

end Stepwise

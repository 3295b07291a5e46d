/-!
# Searching and comparing texts

* Positions count characters. An empty text is found everywhere.
* Blanks are the characters with the property `White_Space` of the Unicode standard.
* The distance of two texts is the number of characters to insert, drop or replace to get one from the other.
-/

namespace Stepwise

/-- The first position of `part` in `cs`, where the first character of `cs` has position `start`. -/
def findText? (part : List Char) (start : Nat) : List Char → Option Nat
  | [] => if part.isEmpty then some start else none
  | c :: cs => if part.isPrefixOf (c :: cs) then some start else findText? part (start + 1) cs

/-- The last position of `part` in `cs` among the first `count` ones. -/
def findLastText? (part cs : List Char) (count : Nat) : Option Nat :=
  (List.range count).reverse.find? fun i => part.isPrefixOf (cs.drop i)

/-- The pieces between the occurrences of `separator`. `skip` characters belong to the separator that
was just found, and `piece` holds the characters since then in reverse. -/
def splitFrom (separator : List Char) (skip : Nat) (piece : List Char) : List Char → List (List Char)
  | [] => [piece.reverse]
  | c :: cs =>
    match skip with
    | skip + 1 => splitFrom separator skip piece cs
    | 0 =>
      if separator.isPrefixOf (c :: cs) then
        piece.reverse :: splitFrom separator (separator.length - 1) [] cs
      else splitFrom separator 0 (c :: piece) cs

/-- The pieces of a text: its characters if the separator is empty, else what stands between the
separators. -/
def splitText (separator cs : List Char) : List (List Char) :=
  if separator.isEmpty then cs.map fun c => [c] else splitFrom separator 0 [] cs

/-! ### Blanks -/

/-- Whether `c` has the property `White_Space`. -/
def isBlank (c : Char) : Bool :=
  let n := c.toNat
  (9 ≤ n && n ≤ 13) || n == 0x20 || n == 0x85 || n == 0xA0 || n == 0x1680 ||
    (0x2000 ≤ n && n ≤ 0x200A) || n == 0x2028 || n == 0x2029 || n == 0x202F || n == 0x205F ||
    n == 0x3000

/-- `cs` without its leading and trailing blanks. -/
def trimBlankChars (cs : List Char) : List Char :=
  ((cs.dropWhile isBlank).reverse.dropWhile isBlank).reverse

/-- `s` without its leading and trailing blanks. -/
def trimBlank (s : String) : String := String.ofList (trimBlankChars s.toList)

/-! ### Distances -/

/-- The distances of the beginnings of `t` to a text that ends in `c`, from those to the text without
`c`: `diagonal` and `row` are the distances of the previous text, and `left` is the last one found. -/
def nextDistances (c : Char) (left diagonal : Nat) : (t : List Char) → (row : List Nat) → List Nat
  | d :: t, up :: row =>
    let here := if c = d then diagonal else min (min left up) diagonal + 1
    here :: nextDistances c here up t row
  | _, _ => []

/-- The distances of the beginnings of `t` to `s`, where `row` holds those to the text before `s`. -/
def distances (t : List Char) (row : List Nat) : (s : List Char) → List Nat
  | [] => row
  | c :: s =>
    match row with
    | [] => []
    | first :: rest => distances t ((first + 1) :: nextDistances c (first + 1) first t rest) s

/-- The distance of two texts. -/
def textDistance (s t : List Char) : Nat := (distances t (List.range (t.length + 1)) s).getLastD 0

end Stepwise

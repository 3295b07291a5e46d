/-!
# JSON values

Objects keep the order of their members, and numbers keep the literal they were written with, so a
value says exactly what a text says.
-/

namespace Stepwise

/-- A JSON value. -/
inductive Json where
  | null
  | bool (b : Bool)
  /-- A number, as its literal. -/
  | num (literal : String)
  | str (s : String)
  | arr (items : List Json)
  | obj (members : List (String × Json))
  deriving Inhabited

namespace Json

/-- An integer. -/
def int (n : Int) : Json := .num (toString n)

/-- A natural number. -/
def nat (n : Nat) : Json := .num (toString n)

/-- An array of texts. -/
def strs (xs : List String) : Json := .arr (xs.map .str)

/-- The last member with this name, as later members replace earlier ones. -/
def get? (j : Json) (name : String) : Option Json :=
  match j with
  | .obj members => (members.reverse.find? (·.1 == name)).map (·.2)
  | _ => none

/-- The items of an array. -/
def arr? : Json → Option (List Json)
  | .arr items => some items
  | _ => none

/-- The text of a string. -/
def str? : Json → Option String
  | .str s => some s
  | _ => none

/-- The truth value. -/
def bool? : Json → Option Bool
  | .bool b => some b
  | _ => none

/-- The number of an integer literal: digits with an optional sign, no point and no exponent. -/
def int? : Json → Option Int
  | .num literal =>
    match literal.toList with
    | '-' :: ds => if ds.all Char.isDigit then (String.ofList ds).toNat?.map fun n => -(n : Int) else none
    | ds => if ds.all Char.isDigit then (String.ofList ds).toNat?.map fun n => (n : Int) else none
  | _ => none

end Json

/-!
## Decoding records

Fields are found by name in any case, a later one replaces an earlier one, and a field that is missing
or null keeps its default.
-/

namespace Json

/-- The members of an object; null has none. -/
def members? : Json → Option (List (String × Json))
  | .obj members => some members
  | .null => some []
  | _ => none

/-- Whether two names agree up to the case of their letters. -/
def sameName (a b : String) : Bool := a.toList.map Char.toLower == b.toList.map Char.toLower

/-- The field of a record, or the default. -/
def fieldD {α : Type} (members : List (String × Json)) (name : String) (default : α)
    (decode : Json → Option α) : Option α :=
  members.foldlM (fun x (key, j) =>
    if sameName key name then
      match j with
      | .null => some x
      | j => decode j
    else some x) default

/-- An integer of 64 bits. -/
def int64? (j : Json) : Option Int := j.int?.filter fun (n : Int) => -(Nat.pow 2 63) ≤ n ∧ n < Nat.pow 2 63

/-- An integer of 64 bits without a sign. -/
def uint64? (j : Json) : Option Nat :=
  (j.int?.filter fun (n : Int) => 0 ≤ n ∧ n < Nat.pow 2 64).map Int.toNat

/-- An array whose items are decoded; null is the empty array. -/
def items? {α : Type} (decode : Json → Option α) : Json → Option (List α)
  | .arr items => items.mapM decode
  | .null => some []
  | _ => none

/-- A text; null is the empty text. -/
def text? : Json → Option String
  | .str s => some s
  | .null => some ""
  | _ => none

/-- A truth value; null is false. -/
def flag? : Json → Option Bool
  | .bool b => some b
  | .null => some false
  | _ => none

/-- A record of fields, without those that are left out. -/
def record (fields : List (String × Option Json)) : Json :=
  .obj (fields.filterMap fun (name, j) => j.map fun j => (name, j))

/-- What is written for a field that is left out if it has its default. -/
def optional (keep : Bool) (j : Json) : Option Json := if keep then some j else none

end Json

end Stepwise

import Stepwise.Decimal.Numeral

/-!
# Whole numbers

A whole number has an optional sign, an optional prefix for its base (`0x`, `0o`, `0b`, or `0` for eight)
and digits, which single underscores may separate. It has to fit in 64 bits.
-/

namespace Stepwise

/-- Why a text is no whole number. -/
inductive IntegerError where
  | malformed
  | outOfRange
  deriving DecidableEq, Repr

/-- The wording of an error. -/
def IntegerError.message : IntegerError → String
  | malformed => "invalid syntax"
  | outOfRange => "value out of range"

/-- The base of a number without sign, and what follows its prefix. -/
def basedDigits (cs : List Char) : Nat × List Char :=
  match cs with
  | '0' :: c :: d :: rest =>
    match c.toLower with
    | 'b' => (2, d :: rest)
    | 'o' => (8, d :: rest)
    | 'x' => (16, d :: rest)
    | _ => (8, c :: d :: rest)
  | '0' :: rest => (8, rest)
  | cs => (10, cs)

/-- The number of some digits that is below `2 ^ 64`. -/
def readDigits (base : Nat) (n : Nat) : List Char → Except IntegerError Nat
  | [] => .ok n
  | '_' :: cs => readDigits base n cs
  | c :: cs =>
    match digitBelow? base c with
    | none => .error .malformed
    | some d => if n * base + d < Nat.pow 2 64 then readDigits base (n * base + d) cs else .error .outOfRange

/-- The whole number of a text. -/
def readInteger (s : String) : Except IntegerError Int := do
  let (negative, cs) := match s.toList with
    | '-' :: cs => (true, cs)
    | '+' :: cs => (false, cs)
    | cs => (false, cs)
  if cs.isEmpty then throw .malformed
  let (base, ds) := basedDigits cs
  let n ← readDigits base 0 ds
  if !underscoresSeparate base (base != 10) ds then throw .malformed
  if negative then
    if n ≤ Nat.pow 2 63 then return -n else throw .outOfRange
  else if n < Nat.pow 2 63 then return n else throw .outOfRange

end Stepwise

import Stepwise.Text.Case
import Stepwise.Text.Quoted

/-!
# Levels of logging

A level is a name or a number between -128 and 127.
-/

namespace Stepwise

/-- How much is logged: events below the level are left out. -/
structure LogLevel where
  rank : Int
  deriving DecidableEq, Repr, Inhabited

/-- Why a text is no level. -/
inductive LevelError where
  | unknown (name : String)
  | outOfBounds (n : Int)
  deriving DecidableEq, Repr

/-- The wording of an error. -/
def LevelError.message : LevelError → String
  | unknown name => "Unknown Level String: '" ++ name ++ "', defaulting to NoLevel"
  | outOfBounds n => "Out-Of-Bounds Level: '" ++ toString n ++ "', defaulting to NoLevel"

/-- A number of decimal digits with an optional sign that fits in 64 bits. -/
def decimalInt? (s : String) : Option Int :=
  let (negative, ds) := match s.toList with
    | '-' :: ds => (true, ds)
    | '+' :: ds => (false, ds)
    | ds => (false, ds)
  if ds.isEmpty ∨ !ds.all Char.isDigit then none
  else
    let n := ds.foldl (fun n c => n * 10 + (c.toNat - '0'.toNat)) 0
    let i : Int := if negative then -n else n
    if -(Nat.pow 2 63) ≤ i ∧ i < Nat.pow 2 63 then some i else none

namespace LogLevel

/-- The level of a name in lower case. The empty name stands for events without a level. -/
def ofName? : String → Option LogLevel
  | "trace" => some ⟨-1⟩
  | "debug" => some ⟨0⟩
  | "info" => some ⟨1⟩
  | "warn" => some ⟨2⟩
  | "error" => some ⟨3⟩
  | "fatal" => some ⟨4⟩
  | "panic" => some ⟨5⟩
  | "" => some ⟨6⟩
  | "disabled" => some ⟨7⟩
  | _ => none

/-- The level of a text in any case. -/
def read (text : String) : Except LevelError LogLevel :=
  let name := toLowerCase text
  match ofName? name, decimalInt? name with
  | some l, _ => .ok l
  | none, none => .error (.unknown name)
  | none, some n => if -128 ≤ n ∧ n ≤ 127 then .ok ⟨n⟩ else .error (.outOfBounds n)

end LogLevel

end Stepwise

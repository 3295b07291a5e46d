/-!
# Text as bytes

Offsets count the bytes of the UTF-8 form. A cut between the bytes of one character leaves bytes that
stand for no character; `decodeBytes` shows each of them as the replacement character.
-/

namespace Stepwise

/-- The characters of `cs` that end within the first `n` bytes. -/
def takeBytes : Nat → List Char → List Char
  | _, [] => []
  | n, c :: cs => if c.utf8Size ≤ n then c :: takeBytes (n - c.utf8Size) cs else []

/-- What is left of `cs` after the first `n` bytes. -/
def dropBytes : Nat → List Char → List Char
  | _, [] => []
  | n, c :: cs => if n = 0 then c :: cs else dropBytes (n - c.utf8Size) cs

/-- The number of bytes of `cs`. -/
def byteLength : List Char → Nat
  | [] => 0
  | c :: cs => c.utf8Size + byteLength cs

/-- The bytes of a text. -/
def bytesOf (s : String) : List UInt8 := s.toUTF8.toList

/-- The payload of a continuation byte. -/
def continuation? (b : UInt8) : Option Nat :=
  if 0x80 ≤ b ∧ b < 0xC0 then some (b.toNat - 0x80) else none

/-- The character with this code point, if it has one and needs at least `least`. -/
def scalar? (least n : Nat) : Option Char :=
  if least ≤ n ∧ n.isValidChar then some (Char.ofNat n) else none

/-- The character that a sequence of bytes starts with, and the number of its bytes. -/
def firstChar? : List UInt8 → Option (Char × Nat)
  | [] => none
  | a :: rest =>
    let n := a.toNat
    if n < 0x80 then some (Char.ofNat n, 1)
    else if 0xC0 ≤ n ∧ n < 0xE0 then
      match rest with
      | b :: _ => do
        let x ← continuation? b
        (scalar? 0x80 ((n - 0xC0) * 64 + x)).map (·, 2)
      | _ => none
    else if 0xE0 ≤ n ∧ n < 0xF0 then
      match rest with
      | b :: c :: _ => do
        let x ← continuation? b
        let y ← continuation? c
        (scalar? 0x800 (((n - 0xE0) * 64 + x) * 64 + y)).map (·, 3)
      | _ => none
    else if 0xF0 ≤ n ∧ n < 0xF8 then
      match rest with
      | b :: c :: d :: _ => do
        let x ← continuation? b
        let y ← continuation? c
        let z ← continuation? d
        (scalar? 0x10000 ((((n - 0xF0) * 64 + x) * 64 + y) * 64 + z)).map (·, 4)
      | _ => none
    else none

/-- The text of a sequence of bytes. The count `skip` runs over the bytes of a character already
read; a byte that starts no character becomes the replacement character. -/
def decodeBytesFrom : (skip : Nat) → List UInt8 → List Char
  | _, [] => []
  | skip + 1, _ :: rest => decodeBytesFrom skip rest
  | 0, b :: rest =>
    match firstChar? (b :: rest) with
    | some (c, n) => c :: decodeBytesFrom (n - 1) rest
    | none => '\uFFFD' :: decodeBytesFrom 0 rest

/-- The text of a sequence of bytes. -/
def decodeBytes (bs : List UInt8) : String := String.ofList (decodeBytesFrom 0 bs)

end Stepwise

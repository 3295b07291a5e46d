import Stepwise.Text.Category

/-!
# Quoted text

Text between double quotes, as error messages show it: quotes and backslashes are escaped, printable
characters stand for themselves and all others are written as escapes.
-/

namespace Stepwise

/-- `n` in lower case hexadecimal digits, padded to `width`. -/
def hexDigits (width n : Nat) : List Char :=
  let all := Nat.toDigits 16 n
  List.replicate (width - all.length) '0' ++ all

/-- A character as it stands between double quotes. -/
def quotedChar (c : Char) : List Char :=
  if c = '"' ∨ c = '\\' then ['\\', c]
  else if isPrintable c then [c]
  else
    match c.toNat with
    | 7 => ['\\', 'a']
    | 8 => ['\\', 'b']
    | 9 => ['\\', 't']
    | 10 => ['\\', 'n']
    | 11 => ['\\', 'v']
    | 12 => ['\\', 'f']
    | 13 => ['\\', 'r']
    | n =>
      if n < 0x20 ∨ n = 0x7F then '\\' :: 'x' :: hexDigits 2 n
      else if n < 0x10000 then '\\' :: 'u' :: hexDigits 4 n
      else '\\' :: 'U' :: hexDigits 8 n

/-- `s` between double quotes. -/
def quoted (s : String) : String :=
  String.ofList ('"' :: (s.toList.flatMap quotedChar ++ ['"']))

end Stepwise

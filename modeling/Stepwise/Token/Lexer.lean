import Stepwise.Decimal.Numeral
import Stepwise.Text.Units
import Stepwise.Token.Basic

/-!
# Reading tokens

`tokenize` cuts a source into its tokens; the last one marks the end. A piece that is no token becomes
an illegal one, and reading goes on where it stopped. Whether a slash starts a regular expression
depends on the token before.
-/

namespace Stepwise

/-- Whether `c` is a hexadecimal digit. -/
def isHexDigit (c : Char) : Bool := (digitBelow? 16 c).isSome

/-- Whether `c` separates tokens without ending a line. -/
def isSeparator (c : Char) : Bool :=
  c == ' ' || c == '\t' || c == '\r' || c == '\x0b' || c == '\x0c' || c == '\u00A0' || c == '\uFEFF'

/-- Where between two tokens the reader is. -/
inductive Gap where
  | blank
  | lineComment
  | blockComment

/-- Skips blanks and comments, and says whether a line break was among them. -/
def skipGap (gap : Gap) (newline : Bool) (pos : Position) : List Char → Cursor × Bool
  | [] => (⟨[], pos⟩, newline)
  | [c] =>
    match gap with
    | .blank =>
      if c = '\n' then (⟨[], pos.after c⟩, true)
      else if isSeparator c then (⟨[], pos.after c⟩, newline)
      else (⟨[c], pos⟩, newline)
    | .lineComment | .blockComment => (⟨[], pos.after c⟩, newline || c == '\n')
  | c :: d :: rest =>
    match gap with
    | .blank =>
      if c = '\n' then skipGap .blank true (pos.after c) (d :: rest)
      else if isSeparator c then skipGap .blank newline (pos.after c) (d :: rest)
      else if c = '/' ∧ d = '/' then skipGap .lineComment newline ((pos.after c).after d) rest
      else if c = '/' ∧ d = '*' then skipGap .blockComment newline ((pos.after c).after d) rest
      else (⟨c :: d :: rest, pos⟩, newline)
    | .lineComment =>
      if c = '\n' then skipGap .blank true (pos.after c) (d :: rest)
      else skipGap .lineComment newline (pos.after c) (d :: rest)
    | .blockComment =>
      if c = '*' ∧ d = '/' then skipGap .blank newline ((pos.after c).after d) rest
      else skipGap .blockComment (newline || c == '\n') (pos.after c) (d :: rest)

/-- Reads up to `n` hexadecimal digits; the value is there if all of them are. -/
def readHex (n value : Nat) (c : Cursor) : Option Nat × Cursor :=
  match n with
  | 0 => (some value, c)
  | n + 1 =>
    match c.peek?.bind (digitBelow? 16) with
    | some d => readHex n (value * 16 + d) c.advance
    | none => (none, c)

/-- Reads an escape of four hexadecimal digits after its mark. A first half of a surrogate pair takes
the next escape with it, whether or not that is the second half. -/
def readUnicodeEscape (c : Cursor) : Except LexError (List Char) × Cursor :=
  if c.peek? = some '\x7b' then (.error .codePointEscape, c)
  else
    match readHex 4 0 c with
    | (none, c) => (.error .malformedUnicodeEscape, c)
    | (some high, c) =>
      if isHighSurrogate high ∧ c.rest.take 2 = ['\\', 'u'] then
        match readHex 4 0 (c.advanceBy 2) with
        | (some low, c) =>
          if isLowSurrogate low then (.ok [charOfPair high low], c)
          else (.ok ['\uFFFD', charOfUnit low], c)
        | (none, c) => (.ok ['\uFFFD', '\uFFFD'], c)
      else (.ok [charOfUnit high], c)

/-- Reads an escape after its backslash: the characters it stands for. -/
def readEscape (c : Cursor) : Except LexError (List Char) × Cursor :=
  match c.rest with
  | 'n' :: _ => (.ok ['\n'], c.advance)
  | 'r' :: _ => (.ok ['\r'], c.advance)
  | 't' :: _ => (.ok ['\t'], c.advance)
  | 'b' :: _ => (.ok ['\x08'], c.advance)
  | 'f' :: _ => (.ok ['\x0c'], c.advance)
  | 'v' :: _ => (.ok ['\x0b'], c.advance)
  | 'x' :: _ =>
    let first := c.advance
    let second := first.advance
    match first.peek?.bind (digitBelow? 16), second.peek?.bind (digitBelow? 16) with
    | some a, some b => (.ok [Char.ofNat (a * 16 + b)], second.advance)
    | _, _ => (.error .malformedHexEscape, second)
  | 'u' :: _ => readUnicodeEscape c.advance
  | '\r' :: '\n' :: _ => (.ok [], c.advanceBy 2)
  | '\r' :: _ | '\n' :: _ => (.ok [], c.advance)
  | '0' :: rest =>
    if (rest.head?.any Char.isDigit) then (.error .octalEscape, c) else (.ok ['\x00'], c.advance)
  | ch :: _ => if ch.isDigit then (.error .octalEscape, c) else (.ok [ch], c.advance)
  | [] => (.ok [], c.advance)

/-- Reads a string after its opening quote. Every turn reads a character, so `turns` may be the number
of characters left. -/
def readString (quote : Char) (acc : List Char) : (turns : Nat) → Cursor → Except LexError String × Cursor
  | 0, c => (.error .unterminatedString, c)
  | turns + 1, c =>
    match c.rest with
    | [] => (.error .unterminatedString, c)
    | ch :: _ =>
      if ch = quote then (.ok (String.ofList acc.reverse), c.advance)
      else if ch = '\n' then (.error .unterminatedString, c)
      else if ch = '\\' then
        match readEscape c.advance with
        | (.ok cs, c) => readString quote (cs.reverse ++ acc) turns c
        | (.error e, c) => (.error e, c)
      else readString quote (ch :: acc) turns c.advance

/-- Reads a template after its opening mark, substitutions included; says whether it is closed. -/
def readTemplate (depth : Nat) (pos : Position) : List Char → Bool × Cursor
  | [] => (false, ⟨[], pos⟩)
  | ['\\'] => (false, ⟨[], (pos.after '\\').beyond⟩)
  | '\\' :: c :: rest => readTemplate depth ((pos.after '\\').after c) rest
  | '$' :: '\x7b' :: rest => readTemplate (depth + 1) ((pos.after '$').after '\x7b') rest
  | c :: rest =>
    if c = '\x7d' ∧ 0 < depth then readTemplate (depth - 1) (pos.after c) rest
    else if c = '\x60' ∧ depth = 0 then (true, ⟨rest, pos.after c⟩)
    else readTemplate depth (pos.after c) rest

/-- Reads a regular expression after its opening slash; says whether it is closed. -/
def readRegExp (inClass : Bool) (pos : Position) : List Char → Bool × Cursor
  | [] => (false, ⟨[], pos⟩)
  | ['\\'] => (false, ⟨[], pos.after '\\'⟩)
  | '\\' :: c :: rest =>
    if c = '\n' then (false, ⟨c :: rest, pos.after '\\'⟩)
    else readRegExp inClass ((pos.after '\\').after c) rest
  | c :: rest =>
    if c = '\n' then (false, ⟨c :: rest, pos⟩)
    else if c = '[' then readRegExp true (pos.after c) rest
    else if c = ']' then readRegExp false (pos.after c) rest
    else if c = '/' ∧ !inClass then (true, ⟨rest, pos.after c⟩)
    else readRegExp inClass (pos.after c) rest

/-- Reads a number; the error says why it is none. -/
def readNumber (c : Cursor) : Option LexError × Cursor :=
  match c.rest with
  | '0' :: d :: _ =>
    if d = 'x' ∨ d = 'X' then
      let digits := c.advanceBy 2
      if digits.peek?.any isHexDigit then (none, digits.dropWhile isHexDigit)
      else (some .malformedHexLiteral, digits)
    else if d = 'o' ∨ d = 'O' ∨ d = 'b' ∨ d = 'B' then
      (some .binaryOrOctalLiteral, (c.advanceBy 2).dropWhile isHexDigit)
    else if d.isDigit then (some .legacyOctalLiteral, c.dropWhile Char.isDigit)
    else decimal c
  | _ => decimal c
where
  decimal (c : Cursor) : Option LexError × Cursor :=
    let c := c.dropWhile Char.isDigit
    let c := if c.peek? = some '.' then c.advance.dropWhile Char.isDigit else c
    if c.peek? = some 'e' ∨ c.peek? = some 'E' then
      let c := c.advance
      let c := if c.peek? = some '+' ∨ c.peek? = some '-' then c.advance else c
      if c.peek?.any Char.isDigit then ending (c.dropWhile Char.isDigit)
      else (some .malformedNumber, c)
    else ending c
  ending (c : Cursor) : Option LexError × Cursor :=
    if c.peek?.any isIdentifierStart then (some .identifierAfterNumber, c) else (none, c)

/-- An illegal token, with its message as text. -/
def illegalToken (e : LexError) : TokenKind × String := (.illegal e, e.message)

/-- Reads the token at a cursor that stands at no blank: its kind, its text and where it ends. -/
def readToken (slashDivides : Bool) (c : Cursor) : (TokenKind × String) × Cursor :=
  match c.rest with
  | [] => ((.eof, ""), c)
  | ch :: rest =>
    if ch.isDigit ∨ (ch = '.' ∧ rest.head?.any Char.isDigit) then
      match readNumber c with
      | (some e, stop) => (illegalToken e, stop)
      | (none, stop) => ((.number, c.textUpTo stop), stop)
    else if ch = '/' ∧ !slashDivides then
      match readRegExp false (c.pos.after ch) rest with
      | (true, stop) =>
        let stop := stop.dropWhile isIdentifierPart
        ((.regexp, c.textUpTo stop), stop)
      | (false, stop) => (illegalToken .unterminatedRegExp, stop)
    else if ch = '"' ∨ ch = '\x27' then
      match readString ch [] (rest.length + 1) c.advance with
      | (.ok s, stop) => ((.string, s), stop)
      | (.error e, stop) => (illegalToken e, stop)
    else if ch = '\x60' then
      match readTemplate 0 (c.pos.after ch) rest with
      | (true, stop) => ((.template, c.textUpTo stop), stop)
      | (false, stop) => (illegalToken .unterminatedTemplate, stop)
    else
      match Punctuator.longestAt? c.rest with
      | some p => ((.punctuator p, p.text), c.advanceBy p.chars.length)
      | none =>
        if isIdentifierStart ch then
          let stop := c.dropWhile isIdentifierPart
          let word := c.textUpTo stop
          ((.ofWord word, word), stop)
        else (illegalToken (.unexpectedCharacter ch), c.advance)

/-- The tokens from a cursor on. Every token but the last reads a character, so `turns` may be one
more than the number of characters left. -/
def tokensFrom (isFirst slashDivides : Bool) : (turns : Nat) → Cursor → List Token
  | 0, _ => []
  | turns + 1, c =>
    let (start, newline) := skipGap .blank false c.pos c.rest
    let ((kind, text), stop) := readToken slashDivides start
    let token : Token := ⟨kind, text, start.pos, stop.pos, newline && !isFirst⟩
    if kind = .eof then [token] else token :: tokensFrom false kind.endsOperand turns stop

/-- The tokens of a source, the end mark included. -/
def tokenize (source : String) : List Token :=
  let c := Cursor.ofString source
  tokensFrom true false (c.rest.length + 1) c

end Stepwise

import Stepwise.Text.Bytes

/-!
# Positions in a source text

A position is a byte offset together with its line and column. A `Cursor` walks over the characters
of a source and keeps the position of the next one.
-/

namespace Stepwise

/-- A point in a source text. -/
structure Position where
  /-- The number of bytes before the point. -/
  offset : Nat
  /-- The line, counted from 1. -/
  line : Nat
  /-- The number of characters between the start of the line and the point. -/
  column : Nat
  deriving DecidableEq, Repr, Inhabited

namespace Position

/-- The start of a text. -/
def start : Position := ⟨0, 1, 0⟩

/-- The position after `c`, which stands at `p`. -/
def after (p : Position) (c : Char) : Position :=
  if c = '\n' then ⟨p.offset + c.utf8Size, p.line + 1, 0⟩
  else ⟨p.offset + c.utf8Size, p.line, p.column + 1⟩

/-- The position after the characters `cs`, the first of which stands at `p`. -/
def afterAll (p : Position) (cs : List Char) : Position := cs.foldl after p

/-- A read past the end of the text moves the column only. -/
def beyond (p : Position) : Position := { p with column := p.column + 1 }

/-- Line and column as messages show them. -/
def text (p : Position) : String := s!"{p.line}:{p.column}"

end Position

/-- The characters that are left to read, and where the first of them stands. -/
structure Cursor where
  rest : List Char
  pos : Position
  deriving Inhabited

namespace Cursor

/-- A cursor at the start of a text. -/
def ofString (s : String) : Cursor := ⟨s.toList, .start⟩

/-- The next character. -/
def peek? (c : Cursor) : Option Char := c.rest.head?

/-- The cursor after the next character. -/
def advance (c : Cursor) : Cursor :=
  match c.rest with
  | [] => ⟨[], c.pos.beyond⟩
  | ch :: rest => ⟨rest, c.pos.after ch⟩

/-- The cursor after the next `n` characters. -/
def advanceBy (c : Cursor) : Nat → Cursor
  | 0 => c
  | n + 1 => c.advance.advanceBy n

/-- Where a run of characters with the property `p` ends. -/
def skipWhile (p : Char → Bool) (pos : Position) : List Char → Cursor
  | [] => ⟨[], pos⟩
  | ch :: rest => if p ch then skipWhile p (pos.after ch) rest else ⟨ch :: rest, pos⟩

/-- The cursor after all characters with the property `p`. -/
def dropWhile (c : Cursor) (p : Char → Bool) : Cursor := skipWhile p c.pos c.rest

/-- The text between a cursor and a later one. -/
def textUpTo (c later : Cursor) : String :=
  String.ofList (takeBytes (later.pos.offset - c.pos.offset) c.rest)

end Cursor

end Stepwise

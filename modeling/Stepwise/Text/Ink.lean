/-!
# Colored text

Terminals switch colors by escape sequences around a text.
-/

namespace Stepwise

/-- How a text is colored. -/
inductive Ink where
  | faint
  /-- Bold yellow. -/
  | strong
  | red
  | green
  | yellow
  | magenta
  | cyan
  deriving DecidableEq, Repr

namespace Ink

/-- The sequence before a text. -/
def opening : Ink → String
  | faint => "\x1b[2m"
  | strong => "\x1b[33;1m"
  | red => "\x1b[31m"
  | green => "\x1b[32m"
  | yellow => "\x1b[33m"
  | magenta => "\x1b[35m"
  | cyan => "\x1b[36m"

/-- The sequence after a text. -/
def closing : Ink → String
  | faint => "\x1b[22m"
  | strong => "\x1b[0;22m"
  | _ => "\x1b[0m"

/-- A text in this color, if colors are wanted. -/
def paint (ink : Ink) (colored : Bool) (s : String) : String :=
  if colored then ink.opening ++ s ++ ink.closing else s

end Ink

end Stepwise

/-!
# Console

What a program logs is kept in bins, one for each step, so that a step that is undone takes its output
with it.
-/

namespace Stepwise

/-- A line that a program logged. -/
structure OutputLine where
  content : String
  /-- The line of the source that logged it. -/
  line : Int
  deriving DecidableEq, Repr, Inhabited

/-- A stack of bins, the newest first. -/
structure Console where
  bins : List (List OutputLine) := []

namespace Console

/-- The complaint about logging or dropping without a bin. -/
def noBin : String := "no open console bin"

/-- Opens a bin for what is logged from now on. -/
def open_ (c : Console) : Console := { bins := [] :: c.bins }

/-- Drops the newest bin and what is in it. -/
def drop? (c : Console) : Option Console :=
  match c.bins with
  | [] => none
  | _ :: bins => some { bins }

/-- Adds a line to the newest bin. -/
def log? (c : Console) (content : String) (line : Int) : Option Console :=
  match c.bins with
  | [] => none
  | bin :: bins => some { bins := (bin ++ [⟨content, line⟩]) :: bins }

/-- Everything that was logged, oldest first. -/
def all (c : Console) : List OutputLine := c.bins.reverse.flatten

/-- The number of open bins. -/
def size (c : Console) : Nat := c.bins.length

end Console

end Stepwise

/-!
# Histories

A stack of entries that are restored newest first, with a remark on each. It keeps only its newest entry in full and
every older one as its difference from the next newer one. How differences are made is up to a `DeltaScheme`.
-/

namespace Stepwise

/-! ### Differences -/

/-- A way to write an older entry as its difference from a newer one. -/
structure DeltaScheme (α δ : Type) where
  /-- The difference that leads from the newer entry back to the older one. -/
  diff : (newer older : α) → δ
  /-- The older entry, from the newer one and the difference. -/
  patch : (newer : α) → δ → Option α

/-- Whether patching undoes making the difference. -/
def DeltaScheme.Exact {α δ : Type} (d : DeltaScheme α δ) : Prop :=
  ∀ newer older, d.patch newer (d.diff newer older) = some older

/-- The scheme whose difference is the older entry itself. -/
def DeltaScheme.whole (α : Type) : DeltaScheme α α where
  diff _ older := older
  patch _ older := some older

/-- A difference of texts: how much is kept at both ends, and what stands between. -/
structure TextDelta where
  start : Nat
  stop : Nat
  middle : List Char
  deriving DecidableEq, Repr

namespace TextDelta

/-- How many characters two texts have in common at their starts. -/
def common : List Char → List Char → Nat
  | a :: as, b :: bs => if a = b then common as bs + 1 else 0
  | _, _ => 0

/-- The difference that leads from the newer text back to the older one. -/
def between (newer older : List Char) : TextDelta :=
  let start := common newer older
  let newer := newer.drop start
  let older := older.drop start
  let stop := common newer.reverse older.reverse
  { start, stop, middle := older.take (older.length - stop) }

/-- The older text. -/
def patch? (newer : List Char) (d : TextDelta) : Option (List Char) :=
  if d.start + d.stop ≤ newer.length then
    some (newer.take d.start ++ d.middle ++ newer.drop (newer.length - d.stop))
  else none

end TextDelta

/-- The scheme for texts. -/
def DeltaScheme.text : DeltaScheme String TextDelta where
  diff newer older := .between newer.toList older.toList
  patch newer d := (d.patch? newer.toList).map String.ofList

/-! ### Stacks -/

variable {α δ μ : Type}

/-- A stack whose older entries are kept as differences, the newest difference first. -/
structure DeltaStack (α δ : Type) where
  newest : Option α := none
  deltas : List δ := []

/-- Why an entry cannot be had. -/
inductive HistoryError where
  | empty
  /-- A difference does not fit its entry. -/
  | damaged
  deriving DecidableEq, Repr

/-- The wording of an error. -/
def HistoryError.message : HistoryError → String
  | empty => "history is empty"
  | damaged => "rebuild previous entry: delta does not fit"

namespace DeltaStack

/-- Adds an entry. -/
def push (d : DeltaScheme α δ) (s : DeltaStack α δ) (a : α) : DeltaStack α δ :=
  match s.newest with
  | none => { newest := some a, deltas := [] }
  | some b => { newest := some a, deltas := d.diff a b :: s.deltas }

/-- The newest entry, and the stack without it. -/
def pop (d : DeltaScheme α δ) (s : DeltaStack α δ) : Except HistoryError (α × DeltaStack α δ) :=
  match s.newest, s.deltas with
  | none, _ => .error .empty
  | some a, [] => .ok (a, {})
  | some a, delta :: deltas =>
    match d.patch a delta with
    | some b => .ok (a, { newest := some b, deltas })
    | none => .error .damaged

/-- The newest entry. -/
def peek (s : DeltaStack α δ) : Except HistoryError α :=
  match s.newest with
  | some a => .ok a
  | none => .error .empty

/-- The number of entries. -/
def size (s : DeltaStack α δ) : Nat :=
  match s.newest with
  | none => 0
  | some _ => s.deltas.length + 1

/-- Whether there is no entry. -/
def isEmpty (s : DeltaStack α δ) : Bool := s.newest.isNone

end DeltaStack

/-- Entries with remarks, the newest remark first. -/
structure History (α δ μ : Type) where
  entries : DeltaStack α δ := {}
  remarks : List μ := []

namespace History

/-- Adds an entry and its remark. -/
def push (d : DeltaScheme α δ) (h : History α δ μ) (a : α) (remark : μ) : History α δ μ :=
  { entries := h.entries.push d a, remarks := remark :: h.remarks }

/-- The newest entry and its remark, and the history without them. -/
def pop (d : DeltaScheme α δ) (h : History α δ μ) : Except HistoryError (α × μ × History α δ μ) := do
  let (a, entries) ← h.entries.pop d
  match h.remarks with
  | remark :: remarks => return (a, remark, { entries, remarks })
  | [] => throw .empty

/-- The newest remark. -/
def remark? (h : History α δ μ) : Option μ := h.remarks.head?

/-- The number of entries. -/
def size (h : History α δ μ) : Nat := h.remarks.length

/-- Whether there is no entry. -/
def isEmpty (h : History α δ μ) : Bool := h.remarks.isEmpty

end History

end Stepwise

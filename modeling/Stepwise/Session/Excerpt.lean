import Stepwise.Text.Bytes
import Stepwise.Text.Ink
import Stepwise.Text.Search
import Stepwise.Trace.Basic

/-!
# Excerpts

The lines of the source that a step covers, with the covered part marked. A line is cut by bytes.
-/

namespace Stepwise

/-- A line of the source, cut into three parts. -/
structure ExcerptLine where
  number : Nat
  before : List UInt8
  marked : List UInt8
  after : List UInt8

/-- The lines of a text, without their line breaks. -/
def linesOf (s : String) : List String := (splitText ['\n'] s.toList).map String.ofList

/-- A line with the bytes from `start` to `stop` marked. -/
def ExcerptLine.cut (number : Nat) (text : List UInt8) (start stop : Nat) : ExcerptLine :=
  let start := min start text.length
  let stop := max start (min stop text.length)
  ⟨number, text.take start, (text.take stop).drop start, text.drop stop⟩

/-- The lines that a span covers; none if it does not fit the source. -/
def excerpt (source : String) (r : LineRange) : List ExcerptLine :=
  let lines := linesOf source
  if r.lineStart < 1 ∨ lines.length < r.lineEnd ∨ r.lineEnd < r.lineStart then []
  else
    let first := r.lineStart.toNat
    let last := r.lineEnd.toNat
    ((lines.drop (first - 1)).take (last + 1 - first)).zipIdx.map fun (line, i) =>
      let text := bytesOf line
      let number := first + i
      ExcerptLine.cut number text (if number = first then r.colStart.toNat else 0)
        (if number = last then r.colEnd.toNat else text.length)

/-- A number with blanks in front to a width of four. -/
def padded (n : Nat) : String :=
  let s := toString n
  String.ofList (List.replicate (4 - s.length) ' ') ++ s

/-- A line as it is printed. -/
def ExcerptLine.text (l : ExcerptLine) (colored : Bool) : String :=
  let mark (s : String) : List UInt8 := if colored then bytesOf s else []
  Ink.faint.paint colored (padded l.number ++ "|") ++ " " ++
    decodeBytes (l.before ++ mark Ink.strong.opening ++ l.marked ++ mark Ink.strong.closing ++ l.after)

end Stepwise

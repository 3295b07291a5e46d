import Stepwise.Check.Run
import Stepwise.Json.Printer
import Stepwise.Lint.Check
import Stepwise.Text.Ink
import Stepwise.Yaml.Basic

/-!
# Reports

What commands print: findings as text, JSON or YAML, trees as YAML, and results of examples.
-/

namespace Stepwise

/-- The color of a severity. -/
def Severity.ink : Severity → Ink
  | error => .red
  | warning => .yellow

namespace Finding

/-- A finding on one line. -/
def text (f : Finding) (file : String) (colored : Bool) : String :=
  let severity := f.rule.severity
  file ++ ":" ++ toString f.line ++ ":" ++ toString f.column ++ ": " ++
    severity.ink.paint colored severity.name ++ ": " ++ f.message ++ " " ++
    Ink.faint.paint colored ("(" ++ f.rule.name ++ ")")

/-- A finding as JSON. -/
def toJson (f : Finding) : Json :=
  .obj [("rule", .str f.rule.name), ("severity", .str f.rule.severity.name), ("line", .nat f.line),
    ("column", .nat f.column), ("endLine", .nat f.endLine), ("endColumn", .nat f.endColumn),
    ("message", .str f.message)]

/-- A finding as YAML. -/
def toYaml (f : Finding) : Yaml :=
  let plain (s : String) : Yaml := .scalar s .plain
  .mapping [("rule", plain f.rule.name), ("severity", plain f.rule.severity.name),
    ("line", plain (toString f.line)), ("column", plain (toString f.column)),
    ("endLine", plain (toString f.endLine)), ("endColumn", plain (toString f.endColumn)),
    ("message", plain f.message)]

end Finding

/-- How findings are printed. -/
inductive ReportFormat where
  | text
  | json
  | yaml
  deriving DecidableEq, Repr

/-- The format of a name. -/
def ReportFormat.ofName? : String → Option ReportFormat
  | "text" => some text
  | "json" => some json
  | "yaml" => some yaml
  | _ => none

/-- A report of findings. -/
def findingsText (fs : List Finding) (file : String) (colored : Bool) : ReportFormat → String
  | .text => String.join (fs.map fun f => f.text file colored ++ "\n")
  | .json => (Json.arr (fs.map Finding.toJson)).indented ++ "\n"
  | .yaml => (Yaml.sequence (fs.map Finding.toYaml)).render

namespace Program

/-- The text of a node up to the end of its line. -/
def firstLine (p : Program) (n : Node) : String :=
  let cs := (p.text n).toList
  let line := cs.takeWhile (· != '\n')
  if line.length = cs.length then String.ofList cs else String.ofList line ++ " ..."

/-- The tree of a program: kinds, ids and places of its nodes, and their texts if asked for. -/
def toYaml (p : Program) (withText : Bool) : Yaml :=
  let place (q : Position) : String := toString q.line ++ ":" ++ toString q.column
  (Node.program p).fold fun n children =>
    .mapping ([("kind", Yaml.scalar n.kind.name .plain), ("id", Yaml.scalar (toString n.id) .plain),
      ("span", Yaml.scalar (place n.loc.start ++ "-" ++ place n.loc.stop) .plain)] ++
      (if withText then [("text", Yaml.scalar (p.firstLine n) .quoted)] else []) ++
      (if children.isEmpty then [] else [("children", Yaml.sequence children)]))

end Program

/-- The color of a verdict. -/
def Verdict.ink : Verdict → Ink
  | pass => .green
  | fail => .red
  | skip => .yellow
  | error => .magenta

namespace Check

/-- The line of an example. -/
def resultLine (colored : Bool) (path : String) (r : CheckResult) : String :=
  r.verdict.ink.paint colored r.verdict.name ++ " " ++ path ++
    (if r.message.isEmpty then "" else " " ++ r.message) ++ "\n"

/-- The results of examples, and how many there are of each kind. Examples that passed are listed only
if `verbose`. -/
def resultsText (colored verbose : Bool) (results : List (String × CheckResult)) (elapsed : String) : String :=
  let listed := results.filter fun (_, r) => verbose || r.verdict != .pass
  String.join (listed.map fun (path, r) => resultLine colored path r) ++ "\n" ++
    "Total:   " ++ toString results.length ++ "\n" ++
    "Passed:  " ++ toString (count .pass results) ++ "\n" ++
    "Failed:  " ++ toString (count .fail results) ++ "\n" ++
    "Skipped: " ++ toString (count .skip results) ++ "\n" ++
    "Errors:  " ++ toString (count .error results) ++ "\n" ++
    "Elapsed: " ++ elapsed ++ "\n"

end Check

end Stepwise

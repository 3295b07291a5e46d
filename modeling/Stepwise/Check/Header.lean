import Stepwise.Settings.Basic
import Stepwise.Text.Search

/-!
# Headers of example programs

An example says in comments what it prints: lines `// expect: …` and `// throws: …`, and a YAML document
between `/*---` and `---*/`.
-/

namespace Stepwise

/-- What an example says about its run. -/
structure Header where
  description : String := ""
  /-- The lines of output in order. -/
  expect : List String := []
  /-- A part of the message of the uncaught exception. -/
  throws : String := ""
  mode : String := ""
  /-- Why the example is not run. -/
  skip : String := ""
  deriving DecidableEq, Repr, Inhabited

/-- What is wrong with a header. -/
inductive HeaderError where
  | unterminated
  | malformed
  deriving DecidableEq, Repr

/-- The wording of an error. -/
def HeaderError.message : HeaderError → String
  | unterminated => "unterminated /*--- block"
  | malformed => "parsing header: yaml: unexpected document"

namespace Header

/-- The texts of a sequence; items without a value are left out. -/
def texts? : Yaml → Option (List String)
  | .sequence items => (items.filter (!·.isNull)).mapM Yaml.text?
  | v => if v.isNull then some [] else none

/-- The header with one entry of its document. -/
def withEntry? (h : Header) : String × Yaml → Option Header
  | ("description", v) => do return { h with description := ← v.textOr? h.description }
  | ("expect", v) => do return { h with expect := ← texts? v }
  | ("throws", v) => do return { h with throws := ← v.textOr? h.throws }
  | ("mode", v) => do return { h with mode := ← v.textOr? h.mode }
  | ("skip", v) => do return { h with skip := ← v.textOr? h.skip }
  | _ => some h

/-- The document of a program, if it has one. -/
def document? (source : List Char) : Except HeaderError (Option String) :=
  match findText? "/*---".toList 0 source with
  | none => .ok none
  | some start =>
    match findText? "---*/".toList 0 (source.drop start) with
    | none => .error .unterminated
    | some stop => .ok (some (String.ofList (((source.drop start).take stop).drop 5)))

/-- What follows `mark` in `cs`, without the blanks around it. -/
def after? (mark : String) (cs : List Char) : Option (List Char) :=
  if mark.toList.isPrefixOf cs then some (trimBlankChars (cs.drop mark.length)) else none

/-- The header with what a line says. -/
def withLine (h : Header) (line : List Char) : Header :=
  match after? "//" (trimBlankChars line) with
  | none => h
  | some body =>
    match after? "expect:" body, after? "throws:" body with
    | some text, _ => { h with expect := h.expect ++ [String.ofList text] }
    | none, some text => { h with throws := String.ofList text }
    | none, none => h

/-- The header of a program. -/
def ofSource (source : String) : Except HeaderError Header := do
  let cs := source.toList
  let h ← match ← document? cs with
    | none => pure {}
    | some text =>
      match (Yaml.parse? text).bind Yaml.entries? >>= (·.foldlM withEntry? ({} : Header)) with
      | some h => pure h
      | none => throw .malformed
  return (splitText ['\n'] cs).foldl withLine h

end Header

end Stepwise

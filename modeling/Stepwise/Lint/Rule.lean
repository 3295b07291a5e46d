import Stepwise.Source.Position

/-!
# Rules and findings

A finding is a place in the source that breaks a rule.
-/

namespace Stepwise

/-- Errors are refused syntax; warnings are advice. -/
inductive Severity where
  | error | warning
  deriving DecidableEq, Repr, Inhabited

/-- How a severity is written. -/
def Severity.name : Severity → String
  | error => "error"
  | warning => "warning"

/-- What a source is checked for. -/
inductive Rule where
  | parse
  | noRegExp | noTryCatch | noWith | noGetterSetter | noEval
  | strictEquality | noLabels | noRedeclare | noSequences | noSparseArrays | noConditionAssign
  | noMultiAssign | noRestrictedGlobals | noUndefined | noUseBeforeDefine | noGlobalAssign
  deriving DecidableEq, Repr, Inhabited

namespace Rule

/-- How a rule is written. -/
def name : Rule → String
  | parse => "parse"
  | noRegExp => "no-regexp"
  | noTryCatch => "no-try-catch"
  | noWith => "no-with"
  | noGetterSetter => "no-getter-setter"
  | noEval => "no-eval"
  | strictEquality => "eqeqeq"
  | noLabels => "no-labels"
  | noRedeclare => "no-redeclare"
  | noSequences => "no-sequences"
  | noSparseArrays => "no-sparse-arrays"
  | noConditionAssign => "no-cond-assign"
  | noMultiAssign => "no-multi-assign"
  | noRestrictedGlobals => "no-restricted-globals"
  | noUndefined => "no-undef"
  | noUseBeforeDefine => "no-use-before-define"
  | noGlobalAssign => "no-global-assign"

/-- What breaking a rule means. -/
def severity : Rule → Severity
  | parse | noRegExp | noTryCatch | noWith | noGetterSetter | noEval => .error
  | _ => .warning

/-- Rules about syntax that cannot be stepped through. -/
def restricted : List Rule := [noRegExp, noTryCatch, noWith, noGetterSetter, noEval]

/-- Rules about likely mistakes. Those from `noSequences` on look at the parts of a node, so they come
after those that look at the node itself. -/
def hygiene : List Rule :=
  [strictEquality, noLabels, noRedeclare, noSparseArrays, noConditionAssign, noMultiAssign,
   noGlobalAssign, noSequences, noRestrictedGlobals, noUndefined, noUseBeforeDefine]

end Rule

/-- A place that breaks a rule. -/
structure Finding where
  rule : Rule
  start : Position
  stop : Position
  message : String
  deriving DecidableEq, Repr, Inhabited

namespace Finding

/-- The line, counted from 1. -/
def line (f : Finding) : Nat := f.start.line

/-- The column, counted from 1. -/
def column (f : Finding) : Nat := f.start.column + 1

/-- The line of the end, counted from 1. -/
def endLine (f : Finding) : Nat := f.stop.line

/-- The column of the end, counted from 1. -/
def endColumn (f : Finding) : Nat := f.stop.column + 1

/-- Whether `a` may stand before `b` in a report. -/
def precedes (a b : Finding) : Bool :=
  a.line < b.line || (a.line == b.line && a.column ≤ b.column)

end Finding

end Stepwise

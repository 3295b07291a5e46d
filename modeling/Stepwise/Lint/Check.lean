import Stepwise.Lint.Rule
import Stepwise.Lint.Scope
import Stepwise.Parse.Program
import Stepwise.Tree.Walk

/-!
# Checking a program

Each rule looks at one node, its direct parts, the names in scope and the names that were declared so far.
`Program.check` reports every place that breaks a rule, in the order of their positions.
-/

namespace Stepwise

/-- Properties of the global object that programs should not touch directly. -/
def restrictedGlobals : List String :=
  ["window", "self", "constructor", "Function", "Object", "Array", "String", "Boolean", "Number",
   "Date", "RegExp", "Error", "EvalError", "RangeError", "ReferenceError", "SyntaxError", "TypeError",
   "URIError", "Math", "JSON", "eval", "parseInt", "parseFloat", "isNaN", "isFinite"]

/-- The names that are bound before a program runs, the host's functions included; all are read-only. -/
def knownGlobals : List String :=
  ["Object", "Function", "Array", "String", "Number", "Boolean", "Math", "Error", "TypeError",
   "ReferenceError", "RangeError", "SyntaxError", "EvalError", "URIError", "parseInt", "parseFloat",
   "isNaN", "isFinite", "undefined", "NaN", "Infinity", "input", "output"]

/-- Whether an expression is this name. -/
def Expr.isNamed (e : Expr) (name : String) : Bool := e.identifier?.any (·.name == name)

/-- The expression that decides where a node goes on. -/
def Node.test? : Node → Option Expr
  | .stmt (.if_ _ test _ _) | .stmt (.while_ _ test _) | .stmt (.doWhile _ _ test)
  | .expr (.conditional _ test _ _) => some test
  | .stmt (.for_ _ _ test _ _) => test
  | _ => none

/-- The value that a node assigns. -/
def Node.assigned? : Node → Option Expr
  | .expr (.assign _ _ _ right) => some right
  | .declarator d => d.init
  | _ => none

/-- The expression that a node writes to. -/
def Node.target? : Node → Option Expr
  | .expr (.assign _ _ left _) => some left
  | .expr (.update _ _ _ argument) => some argument
  | _ => none

/-- The name that a node declares. -/
def Node.declared? : Node → Option Identifier
  | .declarator d => some d.name
  | .stmt (.function _ name _ _) => some name
  | _ => none

/-- The parts of a node that may name a global. -/
def Node.globalUses : Node → List Identifier
  | .declarator _ => []
  | .catchClause c => [c.param]
  | n => n.variables

/-- The expression that a node is. -/
def Node.expr? : Node → Option Expr
  | .expr e => some e
  | _ => none

/-- The parts of a node that are sequences where none is expected. -/
def Node.sequences (n : Node) : List Expr :=
  let parts := match n with
    | .stmt (.for_ _ _ test _ _) => test.toList
    | n => n.children.filterMap Node.expr?
  parts.filter (· matches .sequence ..)

/-- Whether a part of the node may be a name that nothing binds. -/
def Node.allowsUnbound : Node → Bool
  | .expr (.unary _ .typeof _) => true
  | _ => false

namespace Rule

/-- Where a node breaks a rule, and how. `seen` are the names that the function around has declared so far. -/
def violations (scopes : NameScopes) (seen : List String) (n : Node) : Rule → List (Loc × String)
  | parse => []
  | noRegExp =>
    let found := match n with
      | .expr (.regexp ..) => true
      | .expr (.new _ callee _) | .expr (.call _ callee _) => callee.isNamed "RegExp"
      | _ => false
    if found then [(n.loc, "The use of regular expressions is not allowed")] else []
  | noTryCatch =>
    if n matches .stmt (.tryCatch ..) then [(n.loc, "The use of try/catch is not allowed")] else []
  | noWith => if n matches .stmt (.with_ ..) then [(n.loc, "The use of with is not allowed")] else []
  | noGetterSetter =>
    match n with
    | .property p =>
      if p.kind = .init then [] else [(n.loc, "The use of getters and setters is not allowed")]
    | _ => []
  | noEval =>
    match n with
    | .expr (.call _ callee _) => if callee.isNamed "eval" then [(n.loc, "eval can be harmful")] else []
    | _ => []
  | strictEquality =>
    match n with
    | .expr (.binary _ .equal _ _) => [(n.loc, "Expected '===' and instead saw '=='")]
    | .expr (.binary _ .notEqual _ _) => [(n.loc, "Expected '!==' and instead saw '!='")]
    | _ => []
  | noLabels =>
    if n matches .stmt (.labeled ..) then [(n.loc, "Unexpected labeled statement")] else []
  | noRedeclare =>
    match n.declared? with
    | none => []
    | some i => if seen.contains i.name then [(i.loc, "'" ++ i.name ++ "' is already defined")] else []
  | noSequences => n.sequences.map fun e => (e.loc, "Unexpected use of comma operator")
  | noSparseArrays =>
    match n with
    | .expr (.array _ elements) =>
      if elements.any Option.isNone then [(n.loc, "Unexpected comma in middle of array")] else []
    | _ => []
  | noConditionAssign =>
    match n.test? with
    | some (.assign loc ..) =>
      [(loc, "Expected a conditional expression and instead saw an assignment")]
    | _ => []
  | noMultiAssign =>
    match n.assigned? with
    | some (.assign loc ..) => [(loc, "Unexpected chained assignment")]
    | _ => []
  | noRestrictedGlobals =>
    (n.globalUses.filter fun i => restrictedGlobals.contains i.name).map fun i =>
      (i.loc, "Unexpected use of '" ++ i.name ++ "'")
  | noUndefined =>
    if n.allowsUnbound then []
    else
      (n.variables.filter fun i =>
        !knownGlobals.contains i.name && (scopes.resolve? i.name).isNone).map fun i =>
          (i.loc, "'" ++ i.name ++ "' is not defined")
  | noUseBeforeDefine =>
    (n.variables.filter fun i =>
      match scopes.resolve? i.name with
      | some (.declaredAt offset) => i.loc.start.offset < offset
      | _ => false).map fun i => (i.loc, "'" ++ i.name ++ "' was used before it was defined")
  | noGlobalAssign =>
    match n.target?.bind Expr.identifier? with
    | none => []
    | some i =>
      if knownGlobals.contains i.name && (scopes.resolve? i.name).isNone then
        [(i.loc, "Read-only global '" ++ i.name ++ "' should not be modified")]
      else []

/-- The findings of a rule at a node. -/
def findings (rule : Rule) (scopes : NameScopes) (seen : List String) (n : Node) : List Finding :=
  (rule.violations scopes seen n).map fun (loc, message) => ⟨rule, loc.start, loc.stop, message⟩

end Rule

/-- What walks find one after the other. Each gets the names that were declared before it. -/
def inTurn : List (List String → List Finding × List String) → List String → List Finding × List String
  | [], seen => ([], seen)
  | walk :: walks, seen =>
    let (found, seen) := walk seen
    let (more, seen) := inTurn walks seen
    (found ++ more, seen)

/-- The findings in a node and its parts, and the names that the function around it has declared after it. The names in
scope are given, and those that were declared before. The declarations of a function are its own. -/
def Node.walk (rules : List Rule) (n : Node) : NameScopes → (seen : List String) → List Finding × List String :=
  n.fold fun n parts scopes seen =>
    let here := rules.flatMap (·.findings scopes seen n)
    let seen := n.declared?.toList.map Identifier.name ++ seen
    let inner := inTurn (parts.map (· (scopes.enter n)))
    if n.callable?.isSome then (here ++ (inner []).1, seen)
    else
      let (found, seen) := inner seen
      (here ++ found, seen)

/-- The findings in a node and its parts, given the names in scope. -/
def Node.findings (rules : List Rule) (n : Node) (scopes : NameScopes) : List Finding := (n.walk rules scopes []).1

namespace Program

/-- Where a program breaks the given rules, in source order. -/
def findings (p : Program) (rules : List Rule) : List Finding :=
  ((Node.program p).findings rules [.ofProgram p]).mergeSort Finding.precedes

/-- Where a program breaks a rule. -/
def check (p : Program) : List Finding := p.findings (Rule.restricted ++ Rule.hygiene)

/-- Where a program uses syntax that cannot be stepped through. -/
def checkRestricted (p : Program) : List Finding := p.findings Rule.restricted

end Program

/-- A parse error, as a finding. -/
def ParseError.finding (e : ParseError) : Finding := ⟨.parse, e.start, e.stop, e.cause.message⟩

/-- Where a source breaks a rule; a source that is no program has its first error only. -/
def lint (source : String) : List Finding :=
  match Program.ofSource source with
  | .error e => [e.finding]
  | .ok p => p.check

end Stepwise

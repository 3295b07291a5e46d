import Stepwise.Machine.Expression

/-!
# Execution of statements

One rule for each kind of statement. The phases of a loop are such that a loop left on top by
`continue` goes on with its next test or update.
-/

namespace Stepwise

open RuleM

variable {ω : Type}

/-- Starts the next statement of a list, or answers with `last` if there is none. -/
def stepBody (body : List Stmt) (last : Move) : RuleM Move := do
  match body[(← top).n]? with
  | some s =>
    modifyTop fun s => { s with n := s.n + 1 }
    pushStmt s
  | none => return last

/-- An expression as a statement. -/
def stepExpression (e : Expr) : RuleM Move := do
  if (← top).phase = 0 then
    setPhase 1
    pushExpr e
  else return .drop

/-- Starts the next initial value of a declaration. -/
def stepDeclarators (rest : List Declarator) : RuleM Move := do
  let plain := (rest.takeWhile (·.init.isNone)).length
  modifyTop fun s => { s with n := s.n + plain }
  match rest[plain]?.bind Declarator.init with
  | some e =>
    setPhase 1
    pushExpr e
  | none => return .drop

/-- A declaration of variables: each initial value is evaluated and assigned. -/
def stepVar (declarators : List Declarator) : RuleM Move := do
  if (← top).phase = 1 then
    match declarators[(← top).n]? with
    | some d => assign d.name.name (← take)
    | none => pure ()
    modifyTop fun s => { s with phase := 0, n := s.n + 1 }
  stepDeclarators (declarators.drop (← top).n)

/-- An `if` statement. -/
def stepIf (test : Expr) (consequent : Stmt) (alternate : Option Stmt) : RuleM Move := do
  match (← top).phase with
  | 0 =>
    setPhase 1
    pushExpr test
  | 1 =>
    setPhase 2
    if (← take).truthy then pushStmt consequent
    else
      match alternate with
      | some s => pushStmt s
      | none => return .stay
  | _ => return .drop

/-- A labeled statement hands its labels down. -/
def stepLabeled (label : String) (body : Stmt) : RuleM Move := do
  let s ← top
  if s.phase = 0 then
    setPhase 1
    return .push (.stmt body) s.scope false (s.labels ++ [label])
  else return .drop

/-- A `while` loop. -/
def stepWhile (test : Expr) (body : Stmt) : RuleM Move := do
  if (← top).phase = 0 then
    setPhase 1
    pushExpr test
  else if (← take).truthy then
    setPhase 0
    pushStmt body
  else return .drop

/-- A `do` loop. -/
def stepDoWhile (body : Stmt) (test : Expr) : RuleM Move := do
  match (← top).phase with
  | 0 =>
    setPhase 1
    pushStmt body
  | 1 =>
    setPhase 2
    pushExpr test
  | _ =>
    if (← take).truthy then
      setPhase 1
      pushStmt body
    else return .drop

/-- Runs the body of a `for` loop if its test holds. -/
def stepForTest (body : Stmt) : RuleM Move := do
  if (← take).truthy then
    setPhase 3
    pushStmt body
  else return .drop

/-- A `for` loop. -/
def stepFor (init : Option ForHead) (test update : Option Expr) (body : Stmt) : RuleM Move := do
  match (← top).phase with
  | 0 =>
    setPhase 1
    match init with
    | some head => push head.node
    | none => return .stay
  | 1 =>
    setPhase 2
    match test with
    | some e => pushExpr e
    | none =>
      modifyTop (·.receive (.bool true))
      stepForTest body
  | 2 => stepForTest body
  | _ =>
    setPhase 1
    match update with
    | some e => pushExpr e
    | none => return .stay

/-- Starts a loop over the keys of a value. There is nothing to do for undefined and null. -/
def enterForIn : RuleM Move := do
  let subject ← take
  if subject.isNullish then return .drop
  match (← heap).box? subject with
  | some (id, h) =>
    setHeap h
    modifyTop fun s => { s with left := .object id }
  | none => modifyTop fun s => { s with left := subject }
  let h ← heap
  let keys := ((h.deref? (← top).left).map h.loopKeys).getD []
  modifyTop fun s => { s with keys, phase := 2 }
  return .stay

/-- Stores the next key and starts the body. Keys that are gone by now are passed over. -/
def nextForIn (left : ForHead) (body : Stmt) : RuleM Move := do
  let s ← top
  let h ← heap
  let present (key : String) : Bool := (h.deref? s.left).any (h.has · key)
  let rest := s.keys.drop s.n
  let gone := (rest.takeWhile (!present ·)).length
  modifyTop fun s => { s with n := s.n + gone }
  match rest[gone]? with
  | none => return .drop
  | some key =>
    modifyTop fun s => { s with n := s.n + 1 }
    match left with
    | .var d =>
      (d.declarators.take 1).forM fun d => assign d.name.name (.string key)
      pushStmt body
    | .expr (.identifier i) =>
      assign i.name (.string key)
      pushStmt body
    | .expr e =>
      setPhase 3
      pushTarget e

/-- Stores the current key at a place that was evaluated, and starts the body. -/
def storeForIn (body : Stmt) : RuleM Move := do
  let s ← top
  modifyTop fun s => { s with ref := none, hasValue := false }
  match s.ref with
  | none => raise .assignmentTarget
  | some r =>
    putRef r (.string ((s.keys[s.n - 1]?).getD ""))
    setPhase 2
    pushStmt body

/-- A loop over keys. -/
def stepForIn (left : ForHead) (right : Expr) (body : Stmt) : RuleM Move := do
  match (← top).phase with
  | 0 =>
    setPhase 1
    pushExpr right
  | 1 => enterForIn
  | 3 => storeForIn body
  | _ => nextForIn left body

/-- Runs the statements of the cases from the current one on. -/
def runCases : List SwitchCase → RuleM Move
  | [] => return .drop
  | c :: rest => do
    match c.body[(← top).m]? with
    | some s =>
      modifyTop fun s => { s with m := s.m + 1 }
      pushStmt s
    | none =>
      modifyTop fun s => { s with n := s.n + 1, m := 0 }
      runCases rest

/-- Starts the next test, and remembers the default on the way. Without a further test the default runs. -/
def searchCases (cases : List SwitchCase) : List SwitchCase → RuleM Move
  | [] => do
    let s ← top
    if s.default < 0 then return .drop
    modifyTop fun s => { s with phase := 4, n := s.default.toNat, m := 0 }
    runCases (cases.drop s.default.toNat)
  | c :: rest => do
    match c.test with
    | none =>
      modifyTop fun s => { s with default := s.n, n := s.n + 1 }
      searchCases cases rest
    | some e =>
      setPhase 3
      pushExpr e

/-- A `switch` statement. -/
def stepSwitch (discriminant : Expr) (cases : List SwitchCase) : RuleM Move := do
  match (← top).phase with
  | 0 =>
    setPhase 1
    pushExpr discriminant
  | 1 =>
    let v ← take
    modifyTop fun s => { s with left := v, phase := 2, n := 0, default := -1 }
    searchCases cases cases
  | 2 => searchCases cases (cases.drop (← top).n)
  | 3 =>
    if (← top).left.strictEquals (← take) then
      modifyTop fun s => { s with phase := 4, m := 0 }
      runCases (cases.drop (← top).n)
    else
      modifyTop fun s => { s with phase := 2, n := s.n + 1 }
      searchCases cases (cases.drop (← top).n)
  | _ => runCases (cases.drop (← top).n)

/-- A `return` statement. -/
def stepReturn (argument : Option Expr) : RuleM Move := do
  let s ← top
  match argument, s.done with
  | some e, false =>
    modifyTop fun s => { s with done := true }
    pushExpr e
  | _, _ => return .return_ (if s.hasValue then s.value else .undefined)

/-- A `throw` statement. -/
def stepThrow (argument : Expr) : RuleM Move := do
  let s ← top
  if s.done then throw (.thrown s.value)
  else
    modifyTop fun s => { s with done := true }
    pushExpr argument

/-- A step of a statement. -/
def stepStmt : Stmt → RuleM Move
  | .block b => stepBody b.body .drop
  | .expression _ e => stepExpression e
  | .var d => stepVar d.declarators
  | .function .. | .empty _ | .debugger _ => return .drop
  | .if_ _ test consequent alternate => stepIf test consequent alternate
  | .labeled _ label body => stepLabeled label.name body
  | .while_ _ test body => stepWhile test body
  | .doWhile _ body test => stepDoWhile body test
  | .for_ _ init test update body => stepFor init test update body
  | .forIn _ left right body => stepForIn left right body
  | .switch _ discriminant cases => stepSwitch discriminant cases
  | .break_ _ label => return .jump (label.map Identifier.name) false
  | .continue_ _ label => return .jump (label.map Identifier.name) true
  | .return_ _ argument => stepReturn argument
  | .throw _ argument => stepThrow argument
  | .tryCatch .. => raise (.unsupported "try statement is")
  | .with_ .. => raise (.unsupported "with statement is")

/-- A step of the node on top. The program itself is never dropped. -/
def stepNode (c : Setting ω) (below : List State) : Node → RuleM Move
  | .program p => stepBody p.body .stay
  | .stmt s => stepStmt s
  | .expr e => stepExpr c below e
  | n => fault (.unexpectedNode n.kind)

end Stepwise

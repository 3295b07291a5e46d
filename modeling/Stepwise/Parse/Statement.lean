import Stepwise.Parse.Expression

/-!
# Reading statements

The readers of statements, over a grammar for what stands inside them.
-/

namespace Stepwise

open Reader

/-- Whether a token ends the statements of a case. -/
def endsCase (k : TokenKind) : Bool := k == .keyword .case || k == .keyword .default || endsBlock k

namespace Grammar

variable (g : Grammar)

/-- Reads one variable of a declaration. -/
def declarator (ctx : Context) : Reader Declarator := do
  let start ← here
  refusePattern
  let name ← readIdentifier
  let init ← if ← skipMark .assign then some <$> g.assignment ctx else pure none
  return ⟨← spanFrom start, name, init⟩

/-- Reads variables separated by commas. -/
def declarators (ctx : Context) : (turns : Nat) → Reader (List Declarator)
  | 0 => never
  | turns + 1 => do
    let d ← g.declarator ctx
    if ← skipMark .comma then
      return d :: (← declarators ctx turns)
    return [d]

/-- Reads a declaration of variables without what ends it. -/
def variableDeclaration (ctx : Context) : Reader VarDecl := do
  let start ← here
  advance
  let declarators ← g.declarators ctx (← turns)
  return ⟨← spanFrom start, declarators⟩

/-- Reads an expression in parentheses after a keyword. -/
def condition (ctx : Context) : Reader Expr := do
  expectMark .leftParen
  let e ← g.expression ctx
  expectMark .rightParen
  return e

/-- Reads a block inside another statement. -/
def block (ctx : Context) : Reader Block := readBlock (g.statement ctx)

/-- Reads the body of a loop. -/
def loopBody (ctx : Context) : Reader Stmt := g.statement { ctx with inLoop := true }

/-- Reads a function declaration. -/
def functionDeclaration : Reader Stmt := do
  let start ← here
  advance
  refuseAt (.punctuator .times) .generatorFunction
  let name ← readIdentifier
  let (params, body) ← g.functionRest
  return .function (← spanFrom start) name params body

/-- Reads a `return`. -/
def returnStatement (ctx : Context) : Reader Stmt := do
  let start ← here
  failIf (¬ctx.inFunction) .returnOutsideFunction
  advance
  let t ← current
  let argument ←
    if t.kind = .punctuator .semicolon ∨ endsBlock t.kind ∨ t.newlineBefore then pure none
    else some <$> g.expression ctx
  endStatement
  return .return_ (← spanFrom start) argument

/-- Reads an `if`. -/
def ifStatement (ctx : Context) : Reader Stmt := do
  let start ← here
  advance
  let test ← g.condition ctx
  let consequent ← g.statement ctx
  if ← isAt (.keyword .else_) then
    advance
    let alternate ← g.statement ctx
    return .if_ (← spanFrom start) test consequent (some alternate)
  return .if_ (← spanFrom start) test consequent none

/-- Reads a `while` loop. -/
def whileStatement (ctx : Context) : Reader Stmt := do
  let start ← here
  advance
  let test ← g.condition ctx
  let body ← g.loopBody ctx
  return .while_ (← spanFrom start) test body

/-- Reads a `do` loop. -/
def doWhileStatement (ctx : Context) : Reader Stmt := do
  let start ← here
  advance
  let body ← g.loopBody ctx
  expect (.keyword .while_)
  let test ← g.condition ctx
  let _ ← skipMark .semicolon
  return .doWhile (← spanFrom start) body test

/-- Reads what follows the head of a loop over keys, from the `in` on. -/
def forInRest (ctx : Context) (start : Position) (left : ForHead) : Reader Stmt := do
  advance
  let right ← g.expression ctx
  expectMark .rightParen
  let body ← g.loopBody ctx
  return .forIn (← spanFrom start) left right body

/-- Reads an optional expression before a closing token. -/
def optionalExpression (ctx : Context) (close : Punctuator) : Reader (Option Expr) := do
  if ← isAtMark close then return none else return some (← g.expression ctx)

/-- Reads what follows the first part of a counting loop. -/
def forRest (ctx : Context) (start : Position) (init : Option ForHead) : Reader Stmt := do
  let t ← current
  failIf (t.kind = .identifier ∧ t.text = "of") (.unsupported .forOf)
  expectMark .semicolon
  let test ← g.optionalExpression ctx .semicolon
  expectMark .semicolon
  let update ← g.optionalExpression ctx .rightParen
  expectMark .rightParen
  let body ← g.loopBody ctx
  return .for_ (← spanFrom start) init test update body

/-- Reports a word at the start of the head of a loop. -/
def refusedFor (ctx : Context) (start : Position) (what : Unsupported) : Reader Stmt := do
  refuse what
  g.forRest ctx start none

/-- Reads a `for` of either form. -/
def forStatement (ctx : Context) : Reader Stmt := do
  let start ← here
  advance
  expectMark .leftParen
  match ← kind with
  | .punctuator .semicolon => g.forRest ctx start none
  | .keyword .var =>
    let decl ← g.variableDeclaration { ctx with noIn := true }
    match ← isAt (.keyword .in_), decl.declarators with
    | true, [⟨_, _, none⟩] => g.forInRest ctx start (.var decl)
    | _, _ => g.forRest ctx start (some (.var decl))
  | .keyword .let_ => g.refusedFor ctx start (.declaration .let_)
  | .keyword .const => g.refusedFor ctx start (.declaration .const)
  | _ =>
    let e ← g.expression { ctx with noIn := true }
    if ← isAt (.keyword .in_) then
      if e.isTarget then g.forInRest ctx start (.expr e)
      else
        fail .malformedForInTarget
        g.forRest ctx start (some (.expr e))
    else g.forRest ctx start (some (.expr e))

/-- Reads the label of a jump. -/
def jumpLabel : Reader (Option Identifier) := do
  let t ← current
  if t.kind = .identifier ∧ !t.newlineBefore then return some (← readIdentifier) else return none

/-- Reads a `break`. -/
def breakStatement (ctx : Context) : Reader Stmt := do
  let start ← here
  advance
  let label ← jumpLabel
  failIf (label.isNone ∧ !ctx.inLoop ∧ !ctx.inSwitch) .illegalBreak
  endStatement
  return .break_ (← spanFrom start) label

/-- Reads a `continue`. -/
def continueStatement (ctx : Context) : Reader Stmt := do
  let start ← here
  advance
  let label ← jumpLabel
  failIf (label.isNone ∧ !ctx.inLoop) .illegalContinue
  endStatement
  return .continue_ (← spanFrom start) label

/-- Reads the test of a case, or the word that makes it the default. -/
def caseTest (ctx : Context) (hasDefault : Bool) : Reader (Option Expr) := do
  let t ← current
  match t.kind with
  | .keyword .case =>
    advance
    return some (← g.expression ctx)
  | .keyword .default =>
    failIf hasDefault .duplicateDefault
    advance
    return none
  | _ =>
    fail (.expectedCase t.text)
    return none

/-- Reads the cases of a `switch` up to its closing brace. -/
def switchCases (ctx : Context) (hasDefault : Bool) : (turns : Nat) → Reader (List SwitchCase)
  | 0 => never
  | turns + 1 => do
    if endsBlock (← kind) then return []
    let start ← here
    let test ← g.caseTest ctx hasDefault
    expectMark .colon
    let body ← readStatements endsCase (g.statement ctx) (← Reader.turns)
    let loc ← spanFrom start
    return ⟨loc, test, body⟩ :: (← switchCases ctx (hasDefault || test.isNone) turns)

/-- Reads a `switch`. -/
def switchStatement (ctx : Context) : Reader Stmt := do
  let start ← here
  advance
  let discriminant ← g.condition ctx
  expectMark .leftBrace
  let cases ← g.switchCases { ctx with inSwitch := true } false (← turns)
  expectMark .rightBrace
  return .switch (← spanFrom start) discriminant cases

/-- Reads a `throw`. -/
def throwStatement (ctx : Context) : Reader Stmt := do
  let start ← here
  advance
  failIf (← current).newlineBefore .newlineAfterThrow
  let argument ← g.expression ctx
  endStatement
  return .throw (← spanFrom start) argument

/-- Reads the handler of a `try`, if there is one. -/
def catchClause (ctx : Context) : Reader (Option CatchClause) := do
  if ← isAt (.keyword .catch_) then
    let start ← here
    advance
    expectMark .leftParen
    let param ← readIdentifier
    expectMark .rightParen
    let body ← g.block ctx
    return some ⟨← spanFrom start, param, body⟩
  return none

/-- Reads the last part of a `try`, if there is one. -/
def finallyBlock (ctx : Context) : Reader (Option Block) := do
  if ← isAt (.keyword .finally_) then
    advance
    return some (← g.block ctx)
  return none

/-- Reads a `try`. -/
def tryStatement (ctx : Context) : Reader Stmt := do
  let start ← here
  advance
  let block ← g.block ctx
  let handler ← g.catchClause ctx
  let finalizer ← g.finallyBlock ctx
  failIf (handler.isNone ∧ finalizer.isNone) .missingHandler
  return .tryCatch (← spanFrom start) block handler finalizer

/-- Reads a `with`. -/
def withStatement (ctx : Context) : Reader Stmt := do
  let start ← here
  advance
  let object ← g.condition ctx
  let body ← g.statement ctx
  return .with_ (← spanFrom start) object body

/-- Reads a statement with a label. -/
def labeledStatement (ctx : Context) : Reader Stmt := do
  let start ← here
  let label ← readIdentifier
  expectMark .colon
  let body ← g.statement ctx
  return .labeled (← spanFrom start) label body

/-- Reads an expression as a statement. -/
def expressionStatement (ctx : Context) : Reader Stmt := do
  let start ← here
  let e ← g.fullExpression ctx
  endStatement
  return .expression (← spanFrom start) e

/-- Reports a word at the start of a statement. -/
def refusedStatement (ctx : Context) (what : Unsupported) : Reader Stmt := do
  refuse what
  g.expressionStatement ctx

/-- Reads a statement. -/
def anyStatement (ctx : Context) : Reader Stmt := do
  let start ← here
  match ← kind with
  | .keyword .var =>
    let decl ← g.variableDeclaration ctx
    endStatement
    return .var { decl with loc := ← spanFrom start }
  | .keyword .let_ => g.refusedStatement ctx (.declaration .let_)
  | .keyword .const => g.refusedStatement ctx (.declaration .const)
  | .keyword .class_ => g.refusedStatement ctx (.reservedWord .class_)
  | .keyword .import_ => g.refusedStatement ctx (.reservedWord .import_)
  | .keyword .export_ => g.refusedStatement ctx (.reservedWord .export_)
  | .keyword .yield => g.refusedStatement ctx (.reservedWord .yield)
  | .keyword .super => g.refusedStatement ctx (.reservedWord .super)
  | .punctuator .leftBrace => return .block (← g.block ctx)
  | .keyword .return_ => g.returnStatement ctx
  | .keyword .if_ => g.ifStatement ctx
  | .keyword .while_ => g.whileStatement ctx
  | .keyword .do_ => g.doWhileStatement ctx
  | .keyword .for_ => g.forStatement ctx
  | .keyword .break_ => breakStatement ctx
  | .keyword .continue_ => continueStatement ctx
  | .keyword .switch => g.switchStatement ctx
  | .keyword .throw => g.throwStatement ctx
  | .keyword .try_ => g.tryStatement ctx
  | .keyword .function => g.functionDeclaration
  | .keyword .debugger =>
    advance
    endStatement
    return .debugger (← spanFrom start)
  | .punctuator .semicolon =>
    advance
    return .empty (← spanFrom start)
  | .keyword .with_ => g.withStatement ctx
  | .identifier =>
    if (← nextKind) = .punctuator .colon then g.labeledStatement ctx else g.expressionStatement ctx
  | _ => g.expressionStatement ctx

end Grammar

end Stepwise

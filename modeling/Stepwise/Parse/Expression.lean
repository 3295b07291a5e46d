import Stepwise.Decimal.Numeral
import Stepwise.Parse.Stream

/-!
# Reading expressions

Expressions nest, so the readers of the inner parts are parameters: a `Grammar` holds them, and each
function here builds the reader of a part from a grammar for what stands inside it. A function uses the
grammar only after it has taken a token, so a grammar as deep as there are tokens reads everything.
-/

namespace Stepwise

/-- What surrounds the part that is read. -/
structure Context where
  /-- Whether `in` ends an expression, as it does in the head of a `for`. -/
  noIn : Bool := false
  inFunction : Bool := false
  inLoop : Bool := false
  inSwitch : Bool := false

/-- The readers of nested parts. -/
structure Grammar where
  statement : Context → Reader Stmt
  assignment : Context → Reader Expr
  /-- Reads operands joined by operators that bind more tightly than the number given. -/
  binary : Context → Nat → Reader Expr
  unary : Context → Reader Expr
  construct : Context → Reader Expr

/-- The context without the restriction on `in`. -/
def Context.allowIn (ctx : Context) : Context := { ctx with noIn := false }

/-- The context in the body of a function. -/
def Context.functionBody : Context := { inFunction := true }

open Reader

/-- Takes a name. -/
def takeName (t : Token) : Reader Unit :=
  match t.kind with
  | .identifier => advance
  | .keyword k => fail (if k.isReserved then .reservedIdentifier t.text else .expectedIdentifier t.text)
  | _ => fail (.expectedIdentifier t.text)

/-- Takes the name of a property, which may be a keyword. -/
def takePropertyName (t : Token) : Reader Unit :=
  match t.kind with
  | .identifier | .keyword _ => advance
  | _ => fail (.expectedPropertyName t.text)

/-- Reads a name. -/
def readIdentifier : Reader Identifier := do
  let t ← current
  takeName t
  return ⟨← spanFrom t.start, t.text⟩

/-- Reads the name of a property. -/
def readPropertyIdentifier : Reader Identifier := do
  let t ← current
  takePropertyName t
  return ⟨← spanFrom t.start, t.text⟩

/-- The value of a number literal. -/
def literalValue? (raw : String) : Option Float :=
  match raw.toList with
  | '0' :: 'x' :: digits | '0' :: 'X' :: digits => (readHex64? digits).map fun n => (nearestFloat false n 1).1
  | _ => readFloat? raw

/-- Reads a number: its span, value and text. -/
def readNumberLiteral : Reader (Loc × Float × String) := do
  let t ← current
  let value? := literalValue? t.text
  failIf value?.isNone (.malformedNumber t.text)
  advance
  return (← spanFrom t.start, value?.getD default, t.text)

/-- Reads the parts of a comma-separated list up to its closing token, which is left in place. -/
def readList {α : Type} (close : Punctuator) (item : Reader α) : (turns : Nat) → Reader (List α)
  | 0 => never
  | turns + 1 => do
    if (← isAtMark close) || (← isAt .eof) then return []
    let x ← item
    if ← skipMark .comma then
      return x :: (← readList close item turns)
    return [x]

/-- Reads the statements before a token that ends them. -/
def readStatements (ends : TokenKind → Bool) (statement : Reader Stmt) :
    (turns : Nat) → Reader (List Stmt)
  | 0 => never
  | turns + 1 => do
    if ends (← kind) then return []
    return (← statement) :: (← readStatements ends statement turns)

/-- Whether a token ends the statements of a block. -/
def endsBlock (k : TokenKind) : Bool := k == .punctuator .rightBrace || k == .eof

/-- Reads statements in braces. -/
def readBlock (statement : Reader Stmt) : Reader Block := do
  let start ← here
  expectMark .leftBrace
  let body ← readStatements endsBlock statement (← turns)
  expectMark .rightBrace
  return ⟨← spanFrom start, body⟩

/-- Reports a pattern in the place of a name. -/
def refusePattern : Reader Unit := do
  let k ← kind
  failIf (k = .punctuator .leftBrace ∨ k = .punctuator .leftBracket) (.unsupported .destructuring)

/-- Reads parameters after the opening parenthesis; `seen` holds the names so far. -/
def readParameters (seen : List String) : (turns : Nat) → Reader (List Identifier)
  | 0 => never
  | turns + 1 => do
    if (← isAtMark .rightParen) || (← isAt .eof) then return []
    refuseAt (.punctuator .ellipsis) .restParameter
    refusePattern
    let param ← readIdentifier
    failIf (param.name ∈ seen) (.duplicateParameter param.name)
    refuseAt (.punctuator .assign) .defaultParameter
    if ← skipMark .comma then
      return param :: (← readParameters (param.name :: seen) turns)
    return [param]

/-- Stands in for an expression where an error was reported. -/
def Expr.missing : Expr := .identifier ⟨default, ""⟩

/-- Reports that no expression is here. -/
def readNothing (cause : ParseCause) : Reader Expr := do
  let start ← here
  fail cause
  return .identifier ⟨← spanFrom start, ""⟩

namespace Grammar

variable (g : Grammar)

/-- Reads the parameters and the body of a function. -/
def functionRest : Reader (List Identifier × Block) := do
  expectMark .leftParen
  let params ← readParameters [] (← turns)
  expectMark .rightParen
  let body ← readBlock (g.statement .functionBody)
  return (params, body)

/-- Reads expressions separated by commas with a reader for each of them. -/
def restOfSequence (item : Reader Expr) : (turns : Nat) → Reader (List Expr)
  | 0 => never
  | turns + 1 => do
    if ← skipMark .comma then
      return (← item) :: (← restOfSequence item turns)
    return []

/-- Reads an expression whose first part is read by `first` and whose other parts are read by `item`. -/
def sequenceOf (first item : Reader Expr) : Reader Expr := do
  let start ← here
  let e ← first
  match ← restOfSequence item (← turns) with
  | [] => return e
  | es => return .sequence (← spanFrom start) (e :: es)

/-- Reads an expression inside another part. -/
def expression (ctx : Context) : Reader Expr := sequenceOf (g.assignment ctx) (g.assignment ctx)

/-- Reads a function after its keyword. -/
def functionExpression : Reader Expr := do
  let start ← here
  advance
  refuseAt (.punctuator .times) .generatorFunction
  let name ← if ← isAt .identifier then some <$> readIdentifier else pure none
  let (params, body) ← g.functionRest
  return .function (← spanFrom start) name params body

/-- Reads an expression in parentheses. -/
def group (ctx : Context) : Reader Expr := do
  advance
  refuseAt (.punctuator .rightParen) .arrowFunction
  let e ← g.expression ctx.allowIn
  expectMark .rightParen
  refuseAt (.punctuator .arrow) .arrowFunction
  return e

/-- Reads the elements of an array up to its closing bracket. -/
def arrayElements (ctx : Context) : (turns : Nat) → Reader (List (Option Expr))
  | 0 => never
  | turns + 1 => do
    match ← kind with
    | .punctuator .rightBracket | .eof => return []
    | .punctuator .comma =>
      advance
      return none :: (← arrayElements ctx turns)
    | _ =>
      refuseAt (.punctuator .ellipsis) .spread
      let e ← g.assignment ctx
      separate .rightBracket
      return some e :: (← arrayElements ctx turns)

/-- Reads an array literal. -/
def arrayLiteral (ctx : Context) : Reader Expr := do
  let start ← here
  advance
  let elements ← g.arrayElements ctx.allowIn (← turns)
  expectMark .rightBracket
  return .array (← spanFrom start) elements

/-- Reads the name of a property in an object literal. -/
def propertyName : Reader PropertyName := do
  let t ← current
  match t.kind with
  | .string =>
    advance
    return .string (← spanFrom t.start) t.text
  | .number =>
    let (loc, value, raw) ← readNumberLiteral
    return .number loc value raw
  | _ =>
    refuseAt (.punctuator .leftBracket) .computedProperty
    return .identifier (← readPropertyIdentifier)

/-- Whether a token after the word `get` or `set` makes that word the name of a property. -/
def endsPropertyName (k : TokenKind) : Bool :=
  k == .punctuator .colon || k == .punctuator .comma || k == .punctuator .leftParen ||
    k == .punctuator .rightBrace

/-- What the word at the front says about the property that follows. -/
def accessorKind : Reader PropertyKind := do
  let t ← current
  if t.kind = .identifier ∧ !endsPropertyName (← nextKind) then
    if t.text = "get" then return .get
    else if t.text = "set" then return .set
    else return .init
  else return .init

/-- Reads the value of a property, behind its name. -/
def propertyValue (ctx : Context) : Reader Expr := do
  match ← kind with
  | .punctuator .colon =>
    advance
    g.assignment ctx
  | .punctuator .leftParen =>
    refuse .method
    return .missing
  | .punctuator .comma | .punctuator .rightBrace =>
    refuse .shorthandProperty
    return .missing
  | _ =>
    expectMark .colon
    return .missing

/-- Reads a property of an object literal. -/
def property (ctx : Context) : Reader Property := do
  let start ← here
  match ← accessorKind with
  | .init =>
    let name ← propertyName
    let value ← g.propertyValue ctx
    return ⟨← spanFrom start, name, value, .init⟩
  | accessor =>
    advance
    let name ← propertyName
    let functionStart ← here
    let (params, body) ← g.functionRest
    let value := .function (← spanFrom functionStart) none params body
    return ⟨← spanFrom start, name, value, accessor⟩

/-- Reads the properties of an object literal up to its closing brace. -/
def properties (ctx : Context) : (turns : Nat) → Reader (List Property)
  | 0 => never
  | turns + 1 => do
    if endsBlock (← kind) then return []
    let p ← g.property ctx
    separate .rightBrace
    return p :: (← properties ctx turns)

/-- Reads an object literal. -/
def objectLiteral (ctx : Context) : Reader Expr := do
  let start ← here
  advance
  let properties ← g.properties ctx.allowIn (← turns)
  expectMark .rightBrace
  return .object (← spanFrom start) properties

/-- Takes a token that is an expression by itself. -/
def leaf (make : Loc → Expr) : Reader Expr := do
  let start ← here
  advance
  return make (← spanFrom start)

/-- Reads an expression that no operator joins. -/
def primary (ctx : Context) : Reader Expr := do
  let t ← current
  match t.kind with
  | .identifier =>
    failIf ((← nextKind) = .punctuator .arrow) (.unsupported .arrowFunction)
    return .identifier (← readIdentifier)
  | .number =>
    let (loc, value, raw) ← readNumberLiteral
    return .number loc value raw
  | .string => leaf (.string · t.text)
  | .regexp => leaf (.regexp · t.text)
  | .keyword .true_ => leaf (.boolean · true)
  | .keyword .false_ => leaf (.boolean · false)
  | .keyword .null => leaf .null
  | .keyword .this => leaf .this
  | .keyword .function => g.functionExpression
  | .punctuator .leftParen => g.group ctx
  | .punctuator .leftBracket => g.arrayLiteral ctx
  | .punctuator .leftBrace => g.objectLiteral ctx
  | .template => readNothing (.unsupported .template)
  | .punctuator .ellipsis => readNothing (.unsupported .spread)
  | .eof => readNothing .unexpectedEnd
  | .keyword k =>
    readNothing (if k.isReserved ∧ k ≠ .extends_ then .unsupported (.reservedWord k) else .unexpectedToken t.text)
  | _ => readNothing (.unexpectedToken t.text)

/-- Reads the arguments of a call. -/
def arguments (ctx : Context) : Reader (List Expr) := do
  advance
  let item : Reader Expr := do
    refuseAt (.punctuator .ellipsis) .spread
    g.assignment ctx.allowIn
  let args ← readList .rightParen item (← turns)
  expectMark .rightParen
  return args

/-- Reads the part after an object that selects one of its properties. -/
def member (ctx : Context) (object : Expr) : Reader Expr := do
  if ← skipMark .dot then
    let name ← readPropertyIdentifier
    return .member (← spanFrom object.loc.start) object name
  advance
  let key ← g.expression ctx.allowIn
  expectMark .rightBracket
  return .index (← spanFrom object.loc.start) object key

/-- Reads the properties selected of the function that `new` calls. -/
def calleeMembers (ctx : Context) : (turns : Nat) → Expr → Reader Expr
  | 0, _ => never
  | turns + 1, callee => do
    if (← isAtMark .dot) || (← isAtMark .leftBracket) then
      calleeMembers ctx turns (← g.member ctx callee)
    else return callee

/-- Reads an expression that starts with `new`. -/
def newExpression (ctx : Context) : Reader Expr := do
  let start ← here
  advance
  refuseAt (.punctuator .dot) .newTarget
  let inner ← if ← isAt (.keyword .new) then g.construct ctx else g.primary ctx
  let callee ← g.calleeMembers ctx (← turns) inner
  let args ← if ← isAtMark .leftParen then g.arguments ctx else pure []
  return .new (← spanFrom start) callee args

/-- Reads the calls and properties that follow an operand. -/
def operandTail (ctx : Context) (start : Position) : (turns : Nat) → Expr → Reader Expr
  | 0, _ => never
  | turns + 1, e => do
    match ← kind with
    | .punctuator .dot | .punctuator .leftBracket =>
      operandTail ctx start turns (← g.member ctx e)
    | .punctuator .leftParen =>
      let args ← g.arguments ctx
      operandTail ctx start turns (.call (← spanFrom start) e args)
    | .template =>
      refuse .taggedTemplate
      return e
    | _ => return e

/-- Reads an operand. -/
def operand (ctx : Context) : Reader Expr := do
  let start ← here
  let e ← if ← isAt (.keyword .new) then g.newExpression ctx else g.primary ctx
  g.operandTail ctx start (← turns) e

/-- Reads an operand with the operators before or after it. -/
def unaryExpression (ctx : Context) : Reader Expr := do
  let t ← current
  match UnaryOp.ofToken? t.kind, UpdateOp.ofToken? t.kind with
  | some op, _ =>
    advance
    let argument ← g.unary ctx
    failIf (op = .delete ∧ (argument matches .identifier _)) .deleteIdentifier
    return .unary (← spanFrom t.start) op argument
  | none, some op =>
    advance
    let argument ← g.unary ctx
    failIf (¬argument.isTarget) .malformedUpdateTarget
    return .update (← spanFrom t.start) op true argument
  | none, none =>
    let argument ← g.operand ctx
    let next ← current
    match UpdateOp.ofToken? next.kind with
    | some op =>
      if next.newlineBefore then return argument
      else
        failIf (¬argument.isTarget) .malformedUpdateTarget
        advance
        return .update (← spanFrom t.start) op false argument
    | none => return argument

/-- The node that joins two operands. -/
def joined (op : Connective) (loc : Loc) (left right : Expr) : Expr :=
  match op with
  | .binary op => .binary loc op left right
  | .logical op => .logical loc op left right

/-- The operator that a token is, if it joins operands here and binds more tightly than `least`. -/
def connectiveOf? (ctx : Context) (least : Nat) (k : TokenKind) : Option Connective :=
  if k = .keyword .in_ ∧ ctx.noIn then none else (Connective.ofToken? k).filter (least < ·.precedence)

/-- The operator at the front, if it joins operands here and binds more tightly than `least`. -/
def connective? (ctx : Context) (least : Nat) : Reader (Option Connective) := do
  let k ← kind
  failIf (k = .punctuator .power) (.unsupported .exponentiation)
  return connectiveOf? ctx least k

/-- Reads the operators and operands that follow a first operand. -/
def binaryTail (ctx : Context) (least : Nat) (start : Position) : (turns : Nat) → Expr → Reader Expr
  | 0, _ => never
  | turns + 1, left => do
    match ← connective? ctx least with
    | none => return left
    | some op =>
      advance
      let right ← g.binary ctx op.precedence
      binaryTail ctx least start turns (joined op (← spanFrom start) left right)

/-- Reads operands joined by operators that bind more tightly than `least`. -/
def binaryExpression (ctx : Context) (least : Nat) : Reader Expr := do
  let start ← here
  let left ← g.unaryExpression ctx
  g.binaryTail ctx least start (← turns) left

/-- Reads a choice between two expressions, or just operands. -/
def conditionalExpression (ctx : Context) : Reader Expr := do
  let start ← here
  let test ← g.binaryExpression ctx 0
  if ← skipMark .question then
    let consequent ← g.assignment ctx.allowIn
    expectMark .colon
    let alternate ← g.assignment ctx
    return .conditional (← spanFrom start) test consequent alternate
  return test

/-- Reads an assignment or anything that binds more tightly. -/
def assignmentExpression (ctx : Context) : Reader Expr := do
  let start ← here
  let left ← g.conditionalExpression ctx
  refuseAt (.punctuator .arrow) .arrowFunction
  match AssignOp.ofToken? (← kind) with
  | none => return left
  | some op =>
    failIf (¬left.isTarget) .malformedAssignmentTarget
    advance
    let right ← g.assignment ctx
    return .assign (← spanFrom start) op left right

/-- Reads an expression that may be the start of a statement. -/
def fullExpression (ctx : Context) : Reader Expr :=
  sequenceOf (g.assignmentExpression ctx) (g.assignment ctx)

end Grammar

end Stepwise

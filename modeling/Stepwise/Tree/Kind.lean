import Stepwise.Tree.Basic

/-!
# Kinds of nodes

The kind of a node is its constructor without its parts. Messages and step rules speak of kinds.
-/

namespace Stepwise

/-- What a node is. -/
inductive Kind where
  | program | variableDeclaration | variableDeclarator | functionDeclaration | expressionStatement
  | blockStatement | emptyStatement | debuggerStatement | returnStatement | ifStatement
  | whileStatement | doWhileStatement | forStatement | forInStatement | breakStatement
  | continueStatement | switchStatement | switchCase | throwStatement | tryStatement | catchClause
  | withStatement | labeledStatement | identifier | numberLiteral | stringLiteral | booleanLiteral
  | nullLiteral | regExpLiteral | arrayLiteral | property | objectLiteral | functionExpression
  | thisExpression | unaryExpression | updateExpression | binaryExpression | logicalExpression
  | assignmentExpression | conditionalExpression | callExpression | newExpression
  | memberExpression | sequenceExpression
  deriving DecidableEq, Repr, Inhabited

namespace Kind

/-- Every kind. -/
def all : List Kind :=
  [program, variableDeclaration, variableDeclarator, functionDeclaration, expressionStatement,
   blockStatement, emptyStatement, debuggerStatement, returnStatement, ifStatement,
   whileStatement, doWhileStatement, forStatement, forInStatement, breakStatement,
   continueStatement, switchStatement, switchCase, throwStatement, tryStatement, catchClause,
   withStatement, labeledStatement, identifier, numberLiteral, stringLiteral, booleanLiteral,
   nullLiteral, regExpLiteral, arrayLiteral, property, objectLiteral, functionExpression,
   thisExpression, unaryExpression, updateExpression, binaryExpression, logicalExpression,
   assignmentExpression, conditionalExpression, callExpression, newExpression,
   memberExpression, sequenceExpression]

/-- The name of a kind. -/
def name : Kind → String
  | program => "Program"
  | variableDeclaration => "VariableDeclaration"
  | variableDeclarator => "VariableDeclarator"
  | functionDeclaration => "FunctionDeclaration"
  | expressionStatement => "ExpressionStatement"
  | blockStatement => "BlockStatement"
  | emptyStatement => "EmptyStatement"
  | debuggerStatement => "DebuggerStatement"
  | returnStatement => "ReturnStatement"
  | ifStatement => "IfStatement"
  | whileStatement => "WhileStatement"
  | doWhileStatement => "DoWhileStatement"
  | forStatement => "ForStatement"
  | forInStatement => "ForInStatement"
  | breakStatement => "BreakStatement"
  | continueStatement => "ContinueStatement"
  | switchStatement => "SwitchStatement"
  | switchCase => "SwitchCase"
  | throwStatement => "ThrowStatement"
  | tryStatement => "TryStatement"
  | catchClause => "CatchClause"
  | withStatement => "WithStatement"
  | labeledStatement => "LabeledStatement"
  | identifier => "Identifier"
  | numberLiteral => "NumberLiteral"
  | stringLiteral => "StringLiteral"
  | booleanLiteral => "BooleanLiteral"
  | nullLiteral => "NullLiteral"
  | regExpLiteral => "RegExpLiteral"
  | arrayLiteral => "ArrayLiteral"
  | property => "Property"
  | objectLiteral => "ObjectLiteral"
  | functionExpression => "FunctionExpression"
  | thisExpression => "ThisExpression"
  | unaryExpression => "UnaryExpression"
  | updateExpression => "UpdateExpression"
  | binaryExpression => "BinaryExpression"
  | logicalExpression => "LogicalExpression"
  | assignmentExpression => "AssignmentExpression"
  | conditionalExpression => "ConditionalExpression"
  | callExpression => "CallExpression"
  | newExpression => "NewExpression"
  | memberExpression => "MemberExpression"
  | sequenceExpression => "SequenceExpression"

end Kind

/-- The kind of an expression. -/
def Expr.kind : Expr → Kind
  | identifier _ => .identifier
  | number .. => .numberLiteral
  | string .. => .stringLiteral
  | boolean .. => .booleanLiteral
  | null _ => .nullLiteral
  | regexp .. => .regExpLiteral
  | this _ => .thisExpression
  | array .. => .arrayLiteral
  | object .. => .objectLiteral
  | function .. => .functionExpression
  | unary .. => .unaryExpression
  | update .. => .updateExpression
  | binary .. => .binaryExpression
  | logical .. => .logicalExpression
  | assign .. => .assignmentExpression
  | conditional .. => .conditionalExpression
  | call .. => .callExpression
  | new .. => .newExpression
  | member .. | index .. => .memberExpression
  | sequence .. => .sequenceExpression

/-- The kind of a statement. -/
def Stmt.kind : Stmt → Kind
  | var _ => .variableDeclaration
  | function .. => .functionDeclaration
  | expression .. => .expressionStatement
  | block _ => .blockStatement
  | empty _ => .emptyStatement
  | debugger _ => .debuggerStatement
  | return_ .. => .returnStatement
  | if_ .. => .ifStatement
  | while_ .. => .whileStatement
  | doWhile .. => .doWhileStatement
  | for_ .. => .forStatement
  | forIn .. => .forInStatement
  | break_ .. => .breakStatement
  | continue_ .. => .continueStatement
  | switch .. => .switchStatement
  | throw .. => .throwStatement
  | tryCatch .. => .tryStatement
  | with_ .. => .withStatement
  | labeled .. => .labeledStatement

/-- The kind of a node. -/
def Node.kind : Node → Kind
  | program _ => .program
  | stmt s => s.kind
  | expr e => e.kind
  | declarator _ => .variableDeclarator
  | switchCase _ => .switchCase
  | catchClause _ => .catchClause
  | property _ => .property

end Stepwise

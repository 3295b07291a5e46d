import Stepwise.Decimal.Layout
import Stepwise.Tree.Operator

/-!
# Syntax trees

Statements and expressions, each with the span it was read from. `Node` is what can be stepped on or
pointed at: any part of a tree, in one type.
-/

namespace Stepwise

/-- Where a node stands and what it is called. -/
structure Loc where
  /-- Numbers the nodes of a program; see `Program.number`. -/
  id : Int
  start : Position
  stop : Position
  /-- Names the text the node belongs to; empty for the user's program. -/
  source : String
  deriving DecidableEq, Repr, Inhabited

/-- The span between two positions, not numbered yet. -/
def Loc.span (start stop : Position) : Loc := ⟨0, start, stop, ""⟩

/-- A name in the source. -/
structure Identifier where
  loc : Loc
  name : String
  deriving DecidableEq, Repr, Inhabited

/-- The name of a property in an object literal. -/
inductive PropertyName where
  | identifier (name : Identifier)
  | string (loc : Loc) (value : String)
  | number (loc : Loc) (value : Float) (raw : String)
  deriving Inhabited

/-- The key a property is stored under. -/
def PropertyName.key : PropertyName → String
  | identifier i => i.name
  | string _ value => value
  | number _ value _ => NumberStyle.compact.render value

/-- What a property of an object literal defines. -/
inductive PropertyKind where
  | init | get | set
  deriving DecidableEq, Repr, Inhabited

mutual

/-- Expressions. -/
inductive Expr where
  | identifier (name : Identifier)
  | number (loc : Loc) (value : Float) (raw : String)
  | string (loc : Loc) (value : String)
  | boolean (loc : Loc) (value : Bool)
  | null (loc : Loc)
  | regexp (loc : Loc) (raw : String)
  | this (loc : Loc)
  /-- An array literal; a missing element is a hole. -/
  | array (loc : Loc) (elements : List (Option Expr))
  | object (loc : Loc) (properties : List Property)
  | function (loc : Loc) (name : Option Identifier) (params : List Identifier) (body : Block)
  | unary (loc : Loc) (op : UnaryOp) (argument : Expr)
  | update (loc : Loc) (op : UpdateOp) (leading : Bool) (argument : Expr)
  | binary (loc : Loc) (op : BinaryOp) (left right : Expr)
  | logical (loc : Loc) (op : LogicalOp) (left right : Expr)
  | assign (loc : Loc) (op : AssignOp) (left right : Expr)
  | conditional (loc : Loc) (test consequent alternate : Expr)
  | call (loc : Loc) (callee : Expr) (arguments : List Expr)
  | new (loc : Loc) (callee : Expr) (arguments : List Expr)
  /-- A property given by a name after a dot. -/
  | member (loc : Loc) (object : Expr) (name : Identifier)
  /-- A property given by an expression in brackets. -/
  | index (loc : Loc) (object key : Expr)
  | sequence (loc : Loc) (expressions : List Expr)

/-- A property of an object literal. -/
structure Property where
  loc : Loc
  name : PropertyName
  value : Expr
  kind : PropertyKind

/-- Statements in braces. -/
structure Block where
  loc : Loc
  body : List Stmt

/-- A declaration of variables. -/
structure VarDecl where
  loc : Loc
  declarators : List Declarator

/-- One variable of a declaration. -/
structure Declarator where
  loc : Loc
  name : Identifier
  init : Option Expr

/-- What stands before the first semicolon of a `for`, or before the `in`. -/
inductive ForHead where
  | var (decl : VarDecl)
  | expr (e : Expr)

/-- A case of a `switch`; the default has no test. -/
structure SwitchCase where
  loc : Loc
  test : Option Expr
  body : List Stmt

/-- The handler of a `try`. -/
structure CatchClause where
  loc : Loc
  param : Identifier
  body : Block

/-- Statements. `tryCatch`, `with_` and `labeled` are read so that they can be diagnosed. -/
inductive Stmt where
  | var (decl : VarDecl)
  | function (loc : Loc) (name : Identifier) (params : List Identifier) (body : Block)
  | expression (loc : Loc) (e : Expr)
  | block (b : Block)
  | empty (loc : Loc)
  | debugger (loc : Loc)
  | return_ (loc : Loc) (argument : Option Expr)
  | if_ (loc : Loc) (test : Expr) (consequent : Stmt) (alternate : Option Stmt)
  | while_ (loc : Loc) (test : Expr) (body : Stmt)
  | doWhile (loc : Loc) (body : Stmt) (test : Expr)
  | for_ (loc : Loc) (init : Option ForHead) (test update : Option Expr) (body : Stmt)
  | forIn (loc : Loc) (left : ForHead) (right : Expr) (body : Stmt)
  | break_ (loc : Loc) (label : Option Identifier)
  | continue_ (loc : Loc) (label : Option Identifier)
  | switch (loc : Loc) (discriminant : Expr) (cases : List SwitchCase)
  | throw (loc : Loc) (argument : Expr)
  | tryCatch (loc : Loc) (block : Block) (handler : Option CatchClause) (finalizer : Option Block)
  | with_ (loc : Loc) (object : Expr) (body : Stmt)
  | labeled (loc : Loc) (label : Identifier) (body : Stmt)

end

/-- A whole source, with its text. -/
structure Program where
  loc : Loc
  body : List Stmt
  code : String

/-- Any part of a program. -/
inductive Node where
  | program (p : Program)
  | stmt (s : Stmt)
  | expr (e : Expr)
  | declarator (d : Declarator)
  | switchCase (c : SwitchCase)
  | catchClause (c : CatchClause)
  | property (p : Property)

instance : Inhabited Expr := ⟨.null default⟩

instance : Inhabited Block := ⟨⟨default, []⟩⟩

instance : Inhabited Stmt := ⟨.empty default⟩

instance : Inhabited Program := ⟨⟨default, [], ""⟩⟩

instance : Inhabited Node := ⟨.program default⟩

/-- The location of an expression. -/
def Expr.loc : Expr → Loc
  | identifier i => i.loc
  | number l .. | string l .. | boolean l .. | null l | regexp l .. | this l
  | array l .. | object l .. | function l .. | unary l .. | update l .. | binary l .. | logical l ..
  | assign l .. | conditional l .. | call l .. | new l .. | member l .. | index l .. | sequence l .. => l

/-- The location of a statement. -/
def Stmt.loc : Stmt → Loc
  | var d => d.loc
  | block b => b.loc
  | function l .. | expression l .. | empty l | debugger l | return_ l .. | if_ l .. | while_ l ..
  | doWhile l .. | for_ l .. | forIn l .. | break_ l .. | continue_ l .. | switch l .. | throw l ..
  | tryCatch l .. | with_ l .. | labeled l .. => l

/-- The name of a property, as an expression. -/
def PropertyName.expr : PropertyName → Expr
  | identifier i => .identifier i
  | string l value => .string l value
  | number l value raw => .number l value raw

/-- The node before the first semicolon of a `for`, or before the `in`. -/
def ForHead.node : ForHead → Node
  | var d => .stmt (.var d)
  | expr e => .expr e

/-- Whether a value can be assigned to an expression. -/
def Expr.isTarget : Expr → Bool
  | identifier _ | member .. | index .. => true
  | _ => false

namespace Node

/-- A name, as a node. -/
def ofIdentifier (i : Identifier) : Node := .expr (.identifier i)

/-- The location of a node. -/
def loc : Node → Loc
  | program p => p.loc
  | stmt s => s.loc
  | expr e => e.loc
  | declarator d => d.loc
  | switchCase c => c.loc
  | catchClause c => c.loc
  | property p => p.loc

/-- The number of a node. -/
def id (n : Node) : Int := n.loc.id

/-- The direct parts of a node, in source order. -/
def children : Node → List Node
  | program p => p.body.map .stmt
  | declarator d => ofIdentifier d.name :: (d.init.toList.map .expr)
  | switchCase c => c.test.toList.map .expr ++ c.body.map .stmt
  | catchClause c => [ofIdentifier c.param, .stmt (.block c.body)]
  | property p => [.expr p.name.expr, .expr p.value]
  | stmt s =>
    match s with
    | .var d => d.declarators.map .declarator
    | .function _ name params body =>
      ofIdentifier name :: (params.map ofIdentifier ++ [.stmt (.block body)])
    | .expression _ e => [.expr e]
    | .block b => b.body.map .stmt
    | .empty _ | .debugger _ => []
    | .return_ _ argument => argument.toList.map .expr
    | .if_ _ test consequent alternate =>
      .expr test :: .stmt consequent :: alternate.toList.map .stmt
    | .while_ _ test body => [.expr test, .stmt body]
    | .doWhile _ body test => [.stmt body, .expr test]
    | .for_ _ init test update body =>
      init.toList.map ForHead.node ++ test.toList.map .expr ++ update.toList.map .expr ++ [.stmt body]
    | .forIn _ left right body => [left.node, .expr right, .stmt body]
    | .break_ _ label | .continue_ _ label => label.toList.map ofIdentifier
    | .switch _ discriminant cases => .expr discriminant :: cases.map .switchCase
    | .throw _ argument => [.expr argument]
    | .tryCatch _ block handler finalizer =>
      .stmt (.block block) :: (handler.toList.map .catchClause ++
        finalizer.toList.map fun b => .stmt (.block b))
    | .with_ _ object body => [.expr object, .stmt body]
    | .labeled _ label body => [ofIdentifier label, .stmt body]
  | expr e =>
    match e with
    | .identifier _ | .number .. | .string .. | .boolean .. | .null _ | .regexp .. | .this _ => []
    | .array _ elements => (elements.flatMap Option.toList).map .expr
    | .object _ properties => properties.map .property
    | .function _ name params body =>
      name.toList.map ofIdentifier ++ params.map ofIdentifier ++ [.stmt (.block body)]
    | .unary _ _ argument | .update _ _ _ argument => [.expr argument]
    | .binary _ _ left right | .logical _ _ left right | .assign _ _ left right =>
      [.expr left, .expr right]
    | .conditional _ test consequent alternate => [.expr test, .expr consequent, .expr alternate]
    | .call _ callee arguments | .new _ callee arguments => .expr callee :: arguments.map .expr
    | .member _ object name => [.expr object, ofIdentifier name]
    | .index _ object key => [.expr object, .expr key]
    | .sequence _ expressions => expressions.map .expr

end Node

/-- The source text that a node of `p` was read from. -/
def Program.text (p : Program) (n : Node) : String :=
  String.ofList (takeBytes (n.loc.stop.offset - n.loc.start.offset)
    (dropBytes n.loc.start.offset p.code.toList))

/-- A function of the source, whether declared or written in an expression. -/
structure Callable where
  loc : Loc
  name : Option Identifier
  params : List Identifier
  body : Block
  deriving Inhabited

/-- The function that a node is. -/
def Node.callable? : Node → Option Callable
  | stmt (.function loc name params body) => some ⟨loc, some name, params, body⟩
  | expr (.function loc name params body) => some ⟨loc, name, params, body⟩
  | _ => none

end Stepwise

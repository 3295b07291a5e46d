import Stepwise.Machine.Step

/-!
# Where stepping stops

A reader does not want to see every step of the machine. A *micro* step stops at every expression and
statement of interest; a *coarse* step stops only at statements and at the outermost expressions, and
passes over the parts of a node it has stopped at.
-/

namespace Stepwise

/-- What stepping stopped at. A coarse stop is a micro stop too. -/
inductive StopKind where
  | micro
  | coarse
  /-- The program has ended. -/
  | ended
  /-- The program threw a value. -/
  | uncaught
  deriving DecidableEq, Repr, Inhabited

namespace StopKind

/-- Every kind, in the order of the codes. -/
def all : List StopKind := [micro, coarse, ended, uncaught]

/-- The name of a kind. -/
def name : StopKind → String
  | micro => "micro"
  | coarse => "macro"
  | ended => "end"
  | uncaught => "uncaught exception"

/-- The code of a kind. -/
def code (k : StopKind) : Nat := all.idxOf k

/-- Whether stepping is over. -/
def isFinal : StopKind → Bool
  | micro | coarse => false
  | ended | uncaught => true

end StopKind

/-- A stop, with the value that was thrown if there is one. -/
structure Stop where
  kind : StopKind
  exception : Value := .undefined
  deriving Inhabited

namespace Kind

/-- Whether no stop is made at a node of this kind. -/
def isPassed : Kind → Bool
  | program | emptyStatement | expressionStatement => true
  | _ => false

/-- Whether no coarse stop is made at a node of this kind. -/
def isPassedCoarsely : Kind → Bool
  | blockStatement | ifStatement | labeledStatement | withStatement | switchStatement | tryStatement
  | whileStatement | doWhileStatement | forStatement | forInStatement => true
  | k => k.isPassed

/-- Whether no coarse stop is made at the parts of a node of this kind. -/
def hidesParts : Kind → Bool
  | returnStatement | throwStatement | variableDeclaration | thisExpression | arrayLiteral
  | objectLiteral | sequenceExpression | unaryExpression | binaryExpression | assignmentExpression
  | updateExpression | logicalExpression | conditionalExpression | newExpression | callExpression
  | memberExpression => true
  | _ => false

end Kind

/-- A state whose parts are passed over in a mode. It counts as long as the stack holds the state at the
index, counted from the bottom. -/
structure Anchor where
  index : Int
  depth : Int
  mode : StopKind
  state : Nat
  deriving DecidableEq, Repr, Inhabited

/-- The state at an index, counted from the bottom of a stack. -/
def stateAt? (stack : List State) (index : Int) : Option State :=
  if 0 ≤ index ∧ index < stack.length then stack[stack.length - 1 - index.toNat]? else none

/-- Whether the stack still holds the state of an anchor. -/
def Anchor.isOn (a : Anchor) (stack : List State) : Bool :=
  (stateAt? stack a.index).any (·.id == a.state)

/-- The anchors without those on top whose state has left the stack; the innermost anchor comes first. -/
def liveAnchors (anchors : List Anchor) (stack : List State) : List Anchor :=
  anchors.dropWhile (!·.isOn stack)

/-- Whether a node lies inside the span of another. -/
def Node.isWithin (n outer : Node) : Bool :=
  outer.loc.start.offset ≤ n.loc.start.offset && n.loc.stop.offset ≤ outer.loc.stop.offset

/-- The anchor whose parts include the node on top of the stack. -/
def hidingAnchor? (anchors : List Anchor) (stack : List State) (n : Node) : Option Anchor := do
  let a ← anchors.head?
  let s ← stateAt? stack a.index
  if a.depth < stack.length ∧ n.isWithin s.node then some a else none

end Stepwise

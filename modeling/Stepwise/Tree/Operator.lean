import Stepwise.Token.Basic

/-!
# Operators

The operators of expressions, with the token each is written as. Only operators that can be evaluated
are here, so a tree cannot hold another one.
-/

namespace Stepwise

/-- Operators before one operand. -/
inductive UnaryOp where
  | not | bitNot | plus | minus | typeof | void | delete
  deriving DecidableEq, Repr, Inhabited

/-- Operators that count up or down in place. -/
inductive UpdateOp where
  | increment | decrement
  deriving DecidableEq, Repr, Inhabited

/-- Operators that evaluate both operands. -/
inductive BinaryOp where
  | add | subtract | multiply | divide | modulo
  | bitAnd | bitOr | bitXor | shiftLeft | shiftRight | unsignedShift
  | equal | notEqual | strictEqual | strictNotEqual
  | less | greater | lessEqual | greaterEqual | within | instanceof
  deriving DecidableEq, Repr, Inhabited

/-- Operators that may skip their second operand. -/
inductive LogicalOp where
  | and | or
  deriving DecidableEq, Repr, Inhabited

/-- Assignment, plain or combined with an operator. -/
inductive AssignOp where
  | plain
  | compound (op : BinaryOp)
  deriving DecidableEq, Repr, Inhabited

/-- Operators between two operands. -/
inductive Connective where
  | binary (op : BinaryOp)
  | logical (op : LogicalOp)
  deriving DecidableEq, Repr, Inhabited

namespace UnaryOp

/-- The operator a token stands for. -/
def ofToken? : TokenKind → Option UnaryOp
  | .punctuator .bang => some not
  | .punctuator .bitNot => some bitNot
  | .punctuator .plus => some plus
  | .punctuator .minus => some minus
  | .keyword .typeof => some typeof
  | .keyword .void => some void
  | .keyword .delete => some delete
  | _ => none

/-- The token of an operator. -/
def token : UnaryOp → TokenKind
  | not => .punctuator .bang
  | bitNot => .punctuator .bitNot
  | plus => .punctuator .plus
  | minus => .punctuator .minus
  | typeof => .keyword .typeof
  | void => .keyword .void
  | delete => .keyword .delete

/-- How an operator is written. -/
def text (op : UnaryOp) : String := op.token.name

end UnaryOp

namespace UpdateOp

/-- The operator a token stands for. -/
def ofToken? : TokenKind → Option UpdateOp
  | .punctuator .increment => some increment
  | .punctuator .decrement => some decrement
  | _ => none

/-- The token of an operator. -/
def token : UpdateOp → TokenKind
  | increment => .punctuator .increment
  | decrement => .punctuator .decrement

/-- How an operator is written. -/
def text (op : UpdateOp) : String := op.token.name

end UpdateOp

namespace BinaryOp

/-- The operator a token stands for. -/
def ofToken? : TokenKind → Option BinaryOp
  | .punctuator .plus => some add
  | .punctuator .minus => some subtract
  | .punctuator .times => some multiply
  | .punctuator .divide => some divide
  | .punctuator .percent => some modulo
  | .punctuator .bitAnd => some bitAnd
  | .punctuator .bitOr => some bitOr
  | .punctuator .bitXor => some bitXor
  | .punctuator .shiftLeft => some shiftLeft
  | .punctuator .shiftRight => some shiftRight
  | .punctuator .unsignedShift => some unsignedShift
  | .punctuator .equal => some equal
  | .punctuator .notEqual => some notEqual
  | .punctuator .strictEqual => some strictEqual
  | .punctuator .strictNotEqual => some strictNotEqual
  | .punctuator .less => some less
  | .punctuator .greater => some greater
  | .punctuator .lessEqual => some lessEqual
  | .punctuator .greaterEqual => some greaterEqual
  | .keyword .in_ => some within
  | .keyword .instanceof => some instanceof
  | _ => none

/-- The token of an operator. -/
def token : BinaryOp → TokenKind
  | add => .punctuator .plus
  | subtract => .punctuator .minus
  | multiply => .punctuator .times
  | divide => .punctuator .divide
  | modulo => .punctuator .percent
  | bitAnd => .punctuator .bitAnd
  | bitOr => .punctuator .bitOr
  | bitXor => .punctuator .bitXor
  | shiftLeft => .punctuator .shiftLeft
  | shiftRight => .punctuator .shiftRight
  | unsignedShift => .punctuator .unsignedShift
  | equal => .punctuator .equal
  | notEqual => .punctuator .notEqual
  | strictEqual => .punctuator .strictEqual
  | strictNotEqual => .punctuator .strictNotEqual
  | less => .punctuator .less
  | greater => .punctuator .greater
  | lessEqual => .punctuator .lessEqual
  | greaterEqual => .punctuator .greaterEqual
  | within => .keyword .in_
  | instanceof => .keyword .instanceof

/-- How an operator is written. -/
def text (op : BinaryOp) : String := op.token.name

/-- How tightly an operator binds. -/
def precedence : BinaryOp → Nat
  | bitOr => 3
  | bitXor => 4
  | bitAnd => 5
  | equal | notEqual | strictEqual | strictNotEqual => 6
  | less | greater | lessEqual | greaterEqual | within | instanceof => 7
  | shiftLeft | shiftRight | unsignedShift => 8
  | add | subtract => 9
  | multiply | divide | modulo => 10

end BinaryOp

namespace LogicalOp

/-- The operator a token stands for. -/
def ofToken? : TokenKind → Option LogicalOp
  | .punctuator .logicalAnd => some and
  | .punctuator .logicalOr => some or
  | _ => none

/-- The token of an operator. -/
def token : LogicalOp → TokenKind
  | and => .punctuator .logicalAnd
  | or => .punctuator .logicalOr

/-- How an operator is written. -/
def text (op : LogicalOp) : String := op.token.name

/-- How tightly an operator binds. -/
def precedence : LogicalOp → Nat
  | or => 1
  | and => 2

end LogicalOp

namespace AssignOp

/-- The operator a token stands for. -/
def ofToken? : TokenKind → Option AssignOp
  | .punctuator .assign => some plain
  | .punctuator .plusAssign => some (compound .add)
  | .punctuator .minusAssign => some (compound .subtract)
  | .punctuator .timesAssign => some (compound .multiply)
  | .punctuator .divideAssign => some (compound .divide)
  | .punctuator .percentAssign => some (compound .modulo)
  | .punctuator .andAssign => some (compound .bitAnd)
  | .punctuator .orAssign => some (compound .bitOr)
  | .punctuator .xorAssign => some (compound .bitXor)
  | .punctuator .shiftLeftAssign => some (compound .shiftLeft)
  | .punctuator .shiftRightAssign => some (compound .shiftRight)
  | .punctuator .unsignedShiftAssign => some (compound .unsignedShift)
  | _ => none

/-- How an operator is written. -/
def text : AssignOp → String
  | plain => "="
  | compound op => op.text ++ "="

/-- The operator that is applied before the assignment. -/
def binary? : AssignOp → Option BinaryOp
  | plain => none
  | compound op => some op

end AssignOp

namespace Connective

/-- The operator a token stands for. -/
def ofToken? (t : TokenKind) : Option Connective :=
  match LogicalOp.ofToken? t with
  | some op => some (.logical op)
  | none => (BinaryOp.ofToken? t).map .binary

/-- How tightly an operator binds; all of them bind more tightly than 0. -/
def precedence : Connective → Nat
  | binary op => op.precedence
  | logical op => op.precedence

end Connective

end Stepwise

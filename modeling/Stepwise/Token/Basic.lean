import Stepwise.Source.Position
import Stepwise.Text.Category

/-!
# Tokens

The words of the language: punctuators, keywords, names and literals. A token carries its span and
whether a line break stands before it, which decides where a semicolon may be left out.
-/

namespace Stepwise

/-- Operators and delimiters. -/
inductive Punctuator where
  | plus | minus | times | divide | percent | power
  | assign | plusAssign | minusAssign | timesAssign | divideAssign | percentAssign
  | andAssign | orAssign | xorAssign | shiftLeftAssign | shiftRightAssign | unsignedShiftAssign
  | equal | notEqual | strictEqual | strictNotEqual
  | less | greater | lessEqual | greaterEqual
  | logicalAnd | logicalOr | bang
  | bitAnd | bitOr | bitXor | bitNot | shiftLeft | shiftRight | unsignedShift
  | increment | decrement
  | leftParen | rightParen | leftBrace | rightBrace | leftBracket | rightBracket
  | semicolon | colon | comma | dot | ellipsis | arrow | question
  deriving DecidableEq, Repr, Inhabited

namespace Punctuator

/-- Every punctuator, operators first. -/
def all : List Punctuator :=
  [.plus, .minus, .times, .divide, .percent, .power,
   .assign, .plusAssign, .minusAssign, .timesAssign, .divideAssign, .percentAssign,
   .andAssign, .orAssign, .xorAssign, .shiftLeftAssign, .shiftRightAssign, .unsignedShiftAssign,
   .equal, .notEqual, .strictEqual, .strictNotEqual,
   .less, .greater, .lessEqual, .greaterEqual,
   .logicalAnd, .logicalOr, .bang,
   .bitAnd, .bitOr, .bitXor, .bitNot, .shiftLeft, .shiftRight, .unsignedShift,
   .increment, .decrement,
   .leftParen, .rightParen, .leftBrace, .rightBrace, .leftBracket, .rightBracket,
   .semicolon, .colon, .comma, .dot, .ellipsis, .arrow, .question]

/-- How a punctuator is written. -/
def chars : Punctuator → List Char
  | plus => ['+'] | minus => ['-'] | times => ['*'] | divide => ['/'] | percent => ['%']
  | power => ['*', '*']
  | assign => ['='] | plusAssign => ['+', '='] | minusAssign => ['-', '='] | timesAssign => ['*', '=']
  | divideAssign => ['/', '='] | percentAssign => ['%', '=']
  | andAssign => ['&', '='] | orAssign => ['|', '='] | xorAssign => ['^', '=']
  | shiftLeftAssign => ['<', '<', '='] | shiftRightAssign => ['>', '>', '=']
  | unsignedShiftAssign => ['>', '>', '>', '=']
  | equal => ['=', '='] | notEqual => ['!', '=']
  | strictEqual => ['=', '=', '='] | strictNotEqual => ['!', '=', '=']
  | less => ['<'] | greater => ['>'] | lessEqual => ['<', '='] | greaterEqual => ['>', '=']
  | logicalAnd => ['&', '&'] | logicalOr => ['|', '|'] | bang => ['!']
  | bitAnd => ['&'] | bitOr => ['|'] | bitXor => ['^'] | bitNot => ['~']
  | shiftLeft => ['<', '<'] | shiftRight => ['>', '>'] | unsignedShift => ['>', '>', '>']
  | increment => ['+', '+'] | decrement => ['-', '-']
  | leftParen => ['('] | rightParen => [')'] | leftBrace => ['\x7b'] | rightBrace => ['\x7d']
  | leftBracket => ['['] | rightBracket => [']']
  | semicolon => [';'] | colon => [':'] | comma => [','] | dot => ['.']
  | ellipsis => ['.', '.', '.'] | arrow => ['=', '>'] | question => ['?']

/-- How a punctuator is written, as a text. -/
def text (p : Punctuator) : String := String.ofList p.chars

/-- Longer punctuators before shorter ones. -/
def longestFirst : List Punctuator :=
  [4, 3, 2, 1].flatMap fun n => all.filter fun p => p.chars.length == n

/-- The longest punctuator at the front of a text. -/
def longestAt? (cs : List Char) : Option Punctuator :=
  longestFirst.find? fun p => p.chars.isPrefixOf cs

end Punctuator

/-- Reserved words; those from `let_` on may not be used at all. -/
inductive Keyword where
  | var | function | return_ | if_ | else_ | while_ | for_ | do_ | break_ | continue_
  | switch | case | default | throw | try_ | catch_ | finally_ | new | delete | typeof | void
  | in_ | instanceof | this | true_ | false_ | null | debugger | with_
  | let_ | const | class_ | extends_ | super | import_ | export_ | yield
  deriving DecidableEq, Repr, Inhabited

namespace Keyword

/-- Every keyword. -/
def all : List Keyword :=
  [.var, .function, .return_, .if_, .else_, .while_, .for_, .do_, .break_, .continue_,
   .switch, .case, .default, .throw, .try_, .catch_, .finally_, .new, .delete, .typeof, .void,
   .in_, .instanceof, .this, .true_, .false_, .null, .debugger, .with_,
   .let_, .const, .class_, .extends_, .super, .import_, .export_, .yield]

/-- How a keyword is written. -/
def text : Keyword → String
  | var => "var" | function => "function" | return_ => "return" | if_ => "if" | else_ => "else"
  | while_ => "while" | for_ => "for" | do_ => "do" | break_ => "break" | continue_ => "continue"
  | switch => "switch" | case => "case" | default => "default" | throw => "throw" | try_ => "try"
  | catch_ => "catch" | finally_ => "finally" | new => "new" | delete => "delete"
  | typeof => "typeof" | void => "void" | in_ => "in" | instanceof => "instanceof" | this => "this"
  | true_ => "true" | false_ => "false" | null => "null" | debugger => "debugger" | with_ => "with"
  | let_ => "let" | const => "const" | class_ => "class" | extends_ => "extends" | super => "super"
  | import_ => "import" | export_ => "export" | yield => "yield"

/-- The keyword a word is. -/
def ofText? (s : String) : Option Keyword := all.find? fun k => k.text == s

/-- Whether a word is reserved without having a use. -/
def isReserved : Keyword → Bool
  | let_ | const | class_ | extends_ | super | import_ | export_ | yield => true
  | _ => false

end Keyword

/-- Why a piece of the source is no token. -/
inductive LexError where
  | unexpectedCharacter (c : Char)
  | octalEscape
  | malformedHexEscape
  | codePointEscape
  | malformedUnicodeEscape
  | unterminatedString
  | malformedHexLiteral
  | binaryOrOctalLiteral
  | legacyOctalLiteral
  | malformedNumber
  | identifierAfterNumber
  | unterminatedTemplate
  | unterminatedRegExp
  deriving DecidableEq, Repr, Inhabited

/-- The wording of an error. -/
def LexError.message : LexError → String
  | unexpectedCharacter c => "unexpected character " ++ String.singleton c
  | octalEscape => "octal escape sequences are not allowed in strict mode"
  | malformedHexEscape => "invalid hex escape"
  | codePointEscape => "unicode code point escapes are not supported"
  | malformedUnicodeEscape => "invalid unicode escape"
  | unterminatedString => "unterminated string"
  | malformedHexLiteral => "invalid hex literal"
  | binaryOrOctalLiteral => "binary and octal literals are not supported"
  | legacyOctalLiteral => "octal literals are not allowed in strict mode"
  | malformedNumber => "invalid number literal"
  | identifierAfterNumber => "identifier starts immediately after numeric literal"
  | unterminatedTemplate => "unterminated template literal"
  | unterminatedRegExp => "unterminated regexp"

/-- What a token is. -/
inductive TokenKind where
  | illegal (e : LexError)
  | eof
  | identifier
  | number
  | string
  | regexp
  | template
  | punctuator (p : Punctuator)
  | keyword (k : Keyword)
  deriving DecidableEq, Repr, Inhabited

namespace TokenKind

/-- The name of a kind in messages. -/
def name : TokenKind → String
  | illegal _ => "ILLEGAL"
  | eof => "EOF"
  | identifier => "identifier"
  | number => "number"
  | string => "string"
  | regexp => "regexp"
  | template => "template literal"
  | punctuator p => p.text
  | keyword k => k.text

/-- The kinds of all legal tokens. -/
def legal : List TokenKind :=
  [TokenKind.eof, .identifier, .number, .string, .regexp, .template] ++
    Punctuator.all.map .punctuator ++ Keyword.all.map .keyword

/-- What a word is: a keyword or a name. -/
def ofWord (s : String) : TokenKind := (Keyword.ofText? s).elim .identifier .keyword

/-- Whether a value may end with a token of this kind, so that a slash after it divides. -/
def endsOperand : TokenKind → Bool
  | identifier | number | string | regexp | template => true
  | punctuator p => (p matches .rightParen | .rightBracket | .rightBrace | .increment | .decrement)
  | keyword k => (k matches .this | .true_ | .false_ | .null)
  | illegal _ | eof => false

end TokenKind

/-- A word of the source. -/
structure Token where
  kind : TokenKind
  /-- The source text; the value of a string; the message of an illegal token. -/
  text : String
  start : Position
  stop : Position
  /-- Whether a line break separates the token from the one before. -/
  newlineBefore : Bool
  deriving DecidableEq, Repr, Inhabited

/-- Whether an identifier may start with `c`. -/
def isIdentifierStart (c : Char) : Bool := c == '_' || c == '$' || isLetter c

/-- Whether an identifier may go on with `c`; the two joiners are allowed. -/
def isIdentifierPart (c : Char) : Bool :=
  isIdentifierStart c || isDecimalDigit c || c == '\u200C' || c == '\u200D'

end Stepwise

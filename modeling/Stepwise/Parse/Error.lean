import Stepwise.Text.Quoted
import Stepwise.Token.Basic

/-!
# Parse errors

Why a source is no program, and where. Only the first error is reported.
-/

namespace Stepwise

/-- Parts of newer editions of the language that are recognised only to be refused. -/
inductive Unsupported where
  | declaration (word : Keyword)
  | reservedWord (word : Keyword)
  | destructuring
  | generatorFunction
  | restParameter
  | defaultParameter
  | forOf
  | arrowFunction
  | exponentiation
  | taggedTemplate
  | newTarget
  | spread
  | template
  | method
  | shorthandProperty
  | computedProperty
  deriving DecidableEq, Repr

/-- What messages call a refused part. -/
def Unsupported.text : Unsupported → String
  | declaration word => "'" ++ word.text ++ "' declaration"
  | reservedWord word => "'" ++ word.text ++ "'"
  | destructuring => "destructuring"
  | generatorFunction => "generator function"
  | restParameter => "rest parameter"
  | defaultParameter => "default parameter"
  | forOf => "for...of"
  | arrowFunction => "arrow function"
  | exponentiation => "exponentiation operator"
  | taggedTemplate => "tagged template"
  | newTarget => "new.target"
  | spread => "spread"
  | template => "template literal"
  | method => "method definition"
  | shorthandProperty => "shorthand property"
  | computedProperty => "computed property"

/-- What is wrong with a source. -/
inductive ParseCause where
  | lexical (e : LexError)
  | expected (kind : TokenKind) (got : String)
  | expectedBeforeEnd (kind : TokenKind)
  | expectedCase (got : String)
  | expectedIdentifier (got : String)
  | expectedPropertyName (got : String)
  | unexpectedToken (got : String)
  | unexpectedEnd
  | unsupported (what : Unsupported)
  | reservedIdentifier (name : String)
  | malformedNumber (raw : String)
  | duplicateParameter (name : String)
  | duplicateDefault
  | returnOutsideFunction
  | illegalBreak
  | illegalContinue
  | newlineAfterThrow
  | missingHandler
  | malformedAssignmentTarget
  | malformedUpdateTarget
  | malformedForInTarget
  | deleteIdentifier
  deriving DecidableEq, Repr

/-- The wording of a cause. -/
def ParseCause.message : ParseCause → String
  | lexical e => e.message
  | expected kind got => "expected " ++ kind.name ++ ", got " ++ quoted got
  | expectedBeforeEnd kind => "expected " ++ kind.name ++ ", got end of input"
  | expectedCase got => "expected case or default, got " ++ quoted got
  | expectedIdentifier got => "expected identifier, got " ++ quoted got
  | expectedPropertyName got => "expected property name, got " ++ quoted got
  | unexpectedToken got => "unexpected token " ++ quoted got
  | unexpectedEnd => "unexpected end of input"
  | unsupported what => what.text ++ " is not supported"
  | reservedIdentifier name => "unexpected strict mode reserved word " ++ quoted name
  | malformedNumber raw => "invalid number " ++ quoted raw
  | duplicateParameter name => "duplicate parameter name " ++ quoted name
  | duplicateDefault => "more than one default clause in switch statement"
  | returnOutsideFunction => "return outside of function"
  | illegalBreak => "illegal break statement"
  | illegalContinue => "illegal continue statement"
  | newlineAfterThrow => "illegal newline after throw"
  | missingHandler => "missing catch or finally after try"
  | malformedAssignmentTarget => "invalid assignment target"
  | malformedUpdateTarget => "invalid update target"
  | malformedForInTarget => "invalid left-hand side in for-in"
  | deleteIdentifier => "delete of an unqualified identifier in strict mode"

/-- A cause with the span of the token at which it was found. -/
structure ParseError where
  cause : ParseCause
  start : Position
  stop : Position
  deriving DecidableEq, Repr

/-- The full text of an error. -/
def ParseError.text (e : ParseError) : String :=
  "parse error at " ++ e.start.text ++ ": " ++ e.cause.message

end Stepwise

import Stepwise.Parse.Statement
import Stepwise.Token.Lexer
import Stepwise.Tree.Number

/-!
# Reading programs

`Program.parse` reads a source into a tree with numbered nodes, or gives the first error.
-/

namespace Stepwise

namespace Grammar

/-- The grammar that reads nothing. -/
def nothing : Grammar where
  statement _ := Reader.never
  assignment _ := Reader.never
  binary _ _ := Reader.never
  unary _ := Reader.never
  construct _ := Reader.never

/-- The grammar whose readers use `g` for what stands inside. -/
def extend (g : Grammar) : Grammar where
  statement := g.anyStatement
  assignment := g.assignmentExpression
  binary := g.binaryExpression
  unary := g.unaryExpression
  construct := g.newExpression

/-- The grammar for parts nested at most `n` deep. -/
def nested : Nat → Grammar
  | 0 => nothing
  | n + 1 => extend (nested n)

end Grammar

/-- Reads the statements of a program up to its end, with a grammar for them. -/
def readProgram (g : Grammar) : Reader (List Stmt × Position) := do
  Reader.checkLegal
  let body ← readStatements (· == .eof) (g.statement {}) (← Reader.turns)
  return (body, (← Reader.current).stop)

/-- Reads a source to its end, with a grammar as deep as there are tokens. -/
def readSource (source : String) : Option ((List Stmt × Position) × Stream) :=
  let tokens := tokenize source
  (readProgram (.nested tokens.length)).run (.ofTokens tokens)

/-- The program of a source, or the error that was reported. Its nodes are numbered from `first` on and tagged with
`name`. No bound is used up (see `parse_settles`). -/
def Program.parse (source : String) (first : Int) (name : String) : Except ParseError Program :=
  match readSource source with
  | none => .error ⟨.unexpectedEnd, .start, .start⟩
  | some ((body, stop), s) =>
    match s.errors with
    | [] => .ok ((Program.mk (.span .start stop) body source).number first name)
    | e :: _ => .error e

/-- Reads a user's source. -/
def Program.ofSource (source : String) : Except ParseError Program := Program.parse source 1 ""

end Stepwise

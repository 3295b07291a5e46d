import Stepwise.Tree.Basic

/-!
# Declarations

A variable or function belongs to the function or program around its declaration, however deep in
blocks and loops it stands; functions inside are not entered.
-/

namespace Stepwise

/-- A variable or function that a scope declares. -/
inductive Declaration where
  | var (name : Identifier)
  | function (name : Identifier) (callable : Callable)

namespace Declaration

/-- The name that is declared. -/
def identifier : Declaration → Identifier
  | var name | function name _ => name

/-- The name that is declared, as a text. -/
def name (d : Declaration) : String := d.identifier.name

/-- The function that is declared. -/
def callable? : Declaration → Option Callable
  | var _ => none
  | function _ c => some c

end Declaration

/-- The variables of a declaration. -/
def VarDecl.declarations (d : VarDecl) : List Declaration :=
  d.declarators.map fun x => .var x.name

/-- The variables declared in the head of a loop. -/
def ForHead.declarations : ForHead → List Declaration
  | var d => d.declarations
  | expr _ => []

mutual

/-- What a statement declares, in source order. -/
def Stmt.declarations : Stmt → List Declaration
  | .var d => d.declarations
  | .function l name params body => [.function name ⟨l, some name, params, body⟩]
  | .block b => b.declarations
  | .if_ _ _ consequent alternate => consequent.declarations ++ declarationsOf? alternate
  | .while_ _ _ body | .doWhile _ body _ | .with_ _ _ body | .labeled _ _ body => body.declarations
  | .for_ _ init _ _ body => (init.elim [] ForHead.declarations) ++ body.declarations
  | .forIn _ left _ body => left.declarations ++ body.declarations
  | .switch _ _ cases => declarationsOfCases cases
  | .tryCatch _ block handler finalizer =>
    block.declarations ++ declarationsOfCatch? handler ++ declarationsOfBlock? finalizer
  | .expression .. | .empty _ | .debugger _ | .return_ .. | .break_ .. | .continue_ ..
  | .throw .. => []
termination_by structural s => s

/-- What statements declare. -/
def declarationsOf : List Stmt → List Declaration
  | [] => []
  | s :: ss => s.declarations ++ declarationsOf ss
termination_by structural ss => ss

/-- What a statement declares that may be missing. -/
def declarationsOf? : Option Stmt → List Declaration
  | none => []
  | some s => s.declarations
termination_by structural s => s

/-- What the statements of a block declare. -/
def Block.declarations : Block → List Declaration
  | ⟨_, body⟩ => declarationsOf body
termination_by structural b => b

/-- What a block declares that may be missing. -/
def declarationsOfBlock? : Option Block → List Declaration
  | none => []
  | some b => b.declarations
termination_by structural b => b

/-- What a handler declares that may be missing. -/
def declarationsOfCatch? : Option CatchClause → List Declaration
  | none => []
  | some c => c.declarations
termination_by structural c => c

/-- What a handler declares; its parameter is no declaration. -/
def CatchClause.declarations : CatchClause → List Declaration
  | ⟨_, _, body⟩ => body.declarations
termination_by structural c => c

/-- What cases declare. -/
def declarationsOfCases : List SwitchCase → List Declaration
  | [] => []
  | c :: cs => c.declarations ++ declarationsOfCases cs
termination_by structural cs => cs

/-- What a case declares. -/
def SwitchCase.declarations : SwitchCase → List Declaration
  | ⟨_, _, body⟩ => declarationsOf body
termination_by structural c => c

end

/-- What a program declares. -/
def Program.declarations (p : Program) : List Declaration := declarationsOf p.body

/-- The names that declarations bind, each once, in order of first appearance. -/
def localNames (ds : List Declaration) : List String := (ds.map Declaration.name).eraseDups

/-- The names a function body declares. -/
def Block.locals (b : Block) : List String := localNames b.declarations

/-- The names a program declares. -/
def Program.locals (p : Program) : List String := localNames p.declarations

/-- The functions that declarations bind, in source order. -/
def declaredFunctions (ds : List Declaration) : List Callable := ds.filterMap Declaration.callable?

end Stepwise

import Stepwise.Tree.Basic

/-!
# Numbering the nodes of a program

`Program.number` gives the nodes consecutive numbers, parents before children and in source order, and
tags each with the name of its source.
-/

namespace Stepwise

/-- Numbers are handed out in order; the state is the next one. -/
abbrev Numbering := StateM Int

/-- The location with the next number. -/
def Loc.number (source : String) (l : Loc) : Numbering Loc :=
  modifyGet fun n => ({ l with id := n, source := source }, n + 1)

/-- The name with the next number. -/
def Identifier.number (source : String) (i : Identifier) : Numbering Identifier :=
  return { i with loc := ← i.loc.number source }

/-- The name of a property with the next number. -/
def PropertyName.renumber (source : String) : PropertyName → Numbering PropertyName
  | identifier i => return .identifier (← i.number source)
  | string l value => return .string (← l.number source) value
  | number l value raw => return .number (← l.number source) value raw

mutual

/-- Numbers an expression. -/
def Expr.renumber (source : String) : Expr → Numbering Expr
  | .identifier i => return .identifier (← i.number source)
  | .number l value raw => return .number (← l.number source) value raw
  | .string l value => return .string (← l.number source) value
  | .boolean l value => return .boolean (← l.number source) value
  | .null l => return .null (← l.number source)
  | .regexp l raw => return .regexp (← l.number source) raw
  | .this l => return .this (← l.number source)
  | .array l elements => return .array (← l.number source) (← renumberElements source elements)
  | .object l properties => return .object (← l.number source) (← renumberProperties source properties)
  | .function l name params body =>
    return .function (← l.number source) (← name.mapM (·.number source))
      (← params.mapM (·.number source)) (← body.renumber source)
  | .unary l op argument => return .unary (← l.number source) op (← argument.renumber source)
  | .update l op leading argument =>
    return .update (← l.number source) op leading (← argument.renumber source)
  | .binary l op left right =>
    return .binary (← l.number source) op (← left.renumber source) (← right.renumber source)
  | .logical l op left right =>
    return .logical (← l.number source) op (← left.renumber source) (← right.renumber source)
  | .assign l op left right =>
    return .assign (← l.number source) op (← left.renumber source) (← right.renumber source)
  | .conditional l test consequent alternate =>
    return .conditional (← l.number source) (← test.renumber source) (← consequent.renumber source)
      (← alternate.renumber source)
  | .call l callee arguments =>
    return .call (← l.number source) (← callee.renumber source) (← renumberExprs source arguments)
  | .new l callee arguments =>
    return .new (← l.number source) (← callee.renumber source) (← renumberExprs source arguments)
  | .member l object name =>
    return .member (← l.number source) (← object.renumber source) (← name.number source)
  | .index l object key =>
    return .index (← l.number source) (← object.renumber source) (← key.renumber source)
  | .sequence l expressions =>
    return .sequence (← l.number source) (← renumberExprs source expressions)
termination_by structural e => e

/-- Numbers expressions. -/
def renumberExprs (source : String) : List Expr → Numbering (List Expr)
  | [] => return []
  | e :: es => return (← e.renumber source) :: (← renumberExprs source es)
termination_by structural es => es

/-- Numbers an expression that may be missing. -/
def renumberExpr? (source : String) : Option Expr → Numbering (Option Expr)
  | none => return none
  | some e => return some (← e.renumber source)
termination_by structural e => e

/-- Numbers the elements of an array; holes have no number. -/
def renumberElements (source : String) : List (Option Expr) → Numbering (List (Option Expr))
  | [] => return []
  | e :: es => return (← renumberExpr? source e) :: (← renumberElements source es)
termination_by structural es => es

/-- Numbers a property. -/
def Property.renumber (source : String) : Property → Numbering Property
  | ⟨l, name, value, kind⟩ =>
    return ⟨← l.number source, ← name.renumber source, ← value.renumber source, kind⟩
termination_by structural p => p

/-- Numbers properties. -/
def renumberProperties (source : String) : List Property → Numbering (List Property)
  | [] => return []
  | p :: ps => return (← p.renumber source) :: (← renumberProperties source ps)
termination_by structural ps => ps

/-- Numbers a block. -/
def Block.renumber (source : String) : Block → Numbering Block
  | ⟨l, body⟩ => return ⟨← l.number source, ← renumberStmts source body⟩
termination_by structural b => b

/-- Numbers a block that may be missing. -/
def renumberBlock? (source : String) : Option Block → Numbering (Option Block)
  | none => return none
  | some b => return some (← b.renumber source)
termination_by structural b => b

/-- Numbers a declaration. -/
def VarDecl.renumber (source : String) : VarDecl → Numbering VarDecl
  | ⟨l, declarators⟩ => return ⟨← l.number source, ← renumberDeclarators source declarators⟩
termination_by structural d => d

/-- Numbers a declarator. -/
def Declarator.renumber (source : String) : Declarator → Numbering Declarator
  | ⟨l, name, init⟩ =>
    return ⟨← l.number source, ← name.number source, ← renumberExpr? source init⟩
termination_by structural d => d

/-- Numbers declarators. -/
def renumberDeclarators (source : String) : List Declarator → Numbering (List Declarator)
  | [] => return []
  | d :: ds => return (← d.renumber source) :: (← renumberDeclarators source ds)
termination_by structural ds => ds

/-- Numbers the head of a loop. -/
def ForHead.renumber (source : String) : ForHead → Numbering ForHead
  | .var d => return .var (← d.renumber source)
  | .expr e => return .expr (← e.renumber source)
termination_by structural h => h

/-- Numbers the head of a loop that may be missing. -/
def renumberForHead? (source : String) : Option ForHead → Numbering (Option ForHead)
  | none => return none
  | some h => return some (← h.renumber source)
termination_by structural h => h

/-- Numbers a case. -/
def SwitchCase.renumber (source : String) : SwitchCase → Numbering SwitchCase
  | ⟨l, test, body⟩ =>
    return ⟨← l.number source, ← renumberExpr? source test, ← renumberStmts source body⟩
termination_by structural c => c

/-- Numbers cases. -/
def renumberCases (source : String) : List SwitchCase → Numbering (List SwitchCase)
  | [] => return []
  | c :: cs => return (← c.renumber source) :: (← renumberCases source cs)
termination_by structural cs => cs

/-- Numbers a handler. -/
def CatchClause.renumber (source : String) : CatchClause → Numbering CatchClause
  | ⟨l, param, body⟩ => return ⟨← l.number source, ← param.number source, ← body.renumber source⟩
termination_by structural c => c

/-- Numbers a handler that may be missing. -/
def renumberCatch? (source : String) : Option CatchClause → Numbering (Option CatchClause)
  | none => return none
  | some c => return some (← c.renumber source)
termination_by structural c => c

/-- Numbers a statement. -/
def Stmt.renumber (source : String) : Stmt → Numbering Stmt
  | .var d => return .var (← d.renumber source)
  | .function l name params body =>
    return .function (← l.number source) (← name.number source) (← params.mapM (·.number source))
      (← body.renumber source)
  | .expression l e => return .expression (← l.number source) (← e.renumber source)
  | .block b => return .block (← b.renumber source)
  | .empty l => return .empty (← l.number source)
  | .debugger l => return .debugger (← l.number source)
  | .return_ l argument => return .return_ (← l.number source) (← renumberExpr? source argument)
  | .if_ l test consequent alternate =>
    return .if_ (← l.number source) (← test.renumber source) (← consequent.renumber source)
      (← renumberStmt? source alternate)
  | .while_ l test body =>
    return .while_ (← l.number source) (← test.renumber source) (← body.renumber source)
  | .doWhile l body test =>
    return .doWhile (← l.number source) (← body.renumber source) (← test.renumber source)
  | .for_ l init test update body =>
    return .for_ (← l.number source) (← renumberForHead? source init) (← renumberExpr? source test)
      (← renumberExpr? source update) (← body.renumber source)
  | .forIn l left right body =>
    return .forIn (← l.number source) (← left.renumber source) (← right.renumber source)
      (← body.renumber source)
  | .break_ l label => return .break_ (← l.number source) (← label.mapM (·.number source))
  | .continue_ l label => return .continue_ (← l.number source) (← label.mapM (·.number source))
  | .switch l discriminant cases =>
    return .switch (← l.number source) (← discriminant.renumber source) (← renumberCases source cases)
  | .throw l argument => return .throw (← l.number source) (← argument.renumber source)
  | .tryCatch l block handler finalizer =>
    return .tryCatch (← l.number source) (← block.renumber source) (← renumberCatch? source handler)
      (← renumberBlock? source finalizer)
  | .with_ l object body =>
    return .with_ (← l.number source) (← object.renumber source) (← body.renumber source)
  | .labeled l label body =>
    return .labeled (← l.number source) (← label.number source) (← body.renumber source)
termination_by structural s => s

/-- Numbers statements. -/
def renumberStmts (source : String) : List Stmt → Numbering (List Stmt)
  | [] => return []
  | s :: ss => return (← s.renumber source) :: (← renumberStmts source ss)
termination_by structural ss => ss

/-- Numbers a statement that may be missing. -/
def renumberStmt? (source : String) : Option Stmt → Numbering (Option Stmt)
  | none => return none
  | some s => return some (← s.renumber source)
termination_by structural s => s

end

/-- The program with its nodes numbered from `first` on. -/
def Program.number (p : Program) (first : Int) (source : String) : Program :=
  let numbering : Numbering Program := do
    return { p with loc := ← p.loc.number source, body := ← renumberStmts source p.body }
  (numbering.run first).1

end Stepwise

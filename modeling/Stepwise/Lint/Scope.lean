import Stepwise.Tree.Declaration

/-!
# Names in scope

What a name in the source refers to, read off the source alone.
-/

namespace Stepwise

/-- The names that a function, a program or a handler binds. -/
structure NameScope where
  /-- Parameters hide declarations of the same name. -/
  params : List String
  declared : List Declaration
  /-- Names that are bound unless something declares them. -/
  implicit : List String

/-- What a name refers to. -/
inductive Binding where
  | declaredAt (offset : Nat)
  | ambient
  deriving DecidableEq, Repr

namespace NameScope

/-- The scope of a program. -/
def ofProgram (p : Program) : NameScope := ⟨[], p.declarations, []⟩

/-- The scope of a function. The name of a function expression is bound inside it. -/
def ofFunction (c : Callable) (isExpression : Bool) : NameScope where
  params := c.params.map Identifier.name
  declared := c.body.declarations
  implicit := "arguments" :: (if isExpression then c.name.toList.map Identifier.name else [])

/-- The scope of a handler. -/
def ofHandler (c : CatchClause) : NameScope := ⟨[c.param.name], [], []⟩

/-- The first declaration of a name. -/
def firstDeclaration? (s : NameScope) (name : String) : Option Declaration :=
  s.declared.find? (·.name == name)

/-- What a name refers to, if the scope binds it. -/
def resolve? (s : NameScope) (name : String) : Option Binding :=
  if s.params.contains name then some .ambient
  else
    match s.firstDeclaration? name with
    | some d => some (.declaredAt d.identifier.loc.start.offset)
    | none => if s.implicit.contains name then some .ambient else none

end NameScope

/-- The scopes around a node, the innermost first. -/
abbrev NameScopes := List NameScope

namespace NameScopes

/-- What a name refers to. -/
def resolve? (scopes : NameScopes) (name : String) : Option Binding :=
  scopes.findSome? (·.resolve? name)

/-- The scopes around the parts of a node. -/
def enter (scopes : NameScopes) (n : Node) : NameScopes :=
  match n with
  | .catchClause c => .ofHandler c :: scopes
  | _ =>
    match n.callable? with
    | some c => .ofFunction c (n matches .expr _) :: scopes
    | none => scopes

end NameScopes

/-- The name that an expression is. -/
def Expr.identifier? : Expr → Option Identifier
  | identifier i => some i
  | _ => none

/-- The name that a node is. -/
def Node.identifier? : Node → Option Identifier
  | expr e => e.identifier?
  | _ => none

/-- The parts of a node that read or write a variable, as opposed to naming a property, a label or
something declared. -/
def Node.variables : Node → List Identifier
  | .expr (.member _ object _) => object.identifier?.toList
  | .property p => p.value.identifier?.toList
  | .declarator d => (d.init.bind Expr.identifier?).toList
  | .catchClause _ | .stmt (.function ..) | .expr (.function ..) | .stmt (.labeled ..)
  | .stmt (.break_ ..) | .stmt (.continue_ ..) => []
  | n => n.children.filterMap Node.identifier?

end Stepwise

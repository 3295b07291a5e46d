import Mathlib.Data.List.Lex
import Stepwise.Proofs.Tree.Numbering

/-!
# The order of nodes

A node of a tree is found at the end of a path, which says at each node which part to go on with.

* `Node.IsPreorder`: a list of nodes with one place for each path of a tree, in lexicographic order of the paths, so that
  a node stands before its parts and the parts stand in source order.
* `Node.isPreorder_nodes`: the list of all nodes is in this order.
* `Program.map_loc_nodes`: it leaves out no location of the tree and has none twice.
-/

namespace Stepwise

namespace Node

/-! ### Paths -/

/-- The node at the end of a path. -/
def at? : Node → List ℕ → Option Node
  | n, [] => some n
  | n, i :: path => n.children[i]?.bind (·.at? path)

/-- The paths that go on with one of the parts from number `i` on, given those of each part. -/
def pathsFrom (i : ℕ) : List (List (List ℕ)) → List (List ℕ)
  | [] => []
  | paths :: rest => paths.map (i :: ·) ++ pathsFrom (i + 1) rest

/-- The paths of a tree, in lexicographic order. -/
def paths (n : Node) : List (List ℕ) := n.fold fun _ parts => [] :: pathsFrom 0 parts

theorem paths_eq (n : Node) : n.paths = [] :: pathsFrom 0 (n.children.map paths) := by
  unfold paths
  exact fold_eq _ n

/-- A list with one place for each path of a tree, in lexicographic order of the paths: a node before its parts, and the
parts in source order. -/
def IsPreorder (n : Node) (ns : List Node) : Prop :=
  ∃ paths : List (List ℕ), ns.map some = paths.map n.at? ∧ paths.Pairwise (· < ·) ∧
    ∀ path, (n.at? path).isSome → path ∈ paths

theorem mem_pathsFrom {i : ℕ} {parts : List (List (List ℕ))} {path : List ℕ} :
    path ∈ pathsFrom i parts ↔ ∃ j paths rest, parts[j]? = some paths ∧ rest ∈ paths ∧ path = (i + j) :: rest := by
  induction parts generalizing i with
  | nil => simp [pathsFrom]
  | cons paths parts ih =>
    rw [pathsFrom, List.mem_append, ih]
    constructor
    · rintro (h | ⟨j, paths', rest, hj, hrest, rfl⟩)
      · obtain ⟨rest, hrest, rfl⟩ := List.mem_map.1 h
        exact ⟨0, paths, rest, rfl, hrest, rfl⟩
      · exact ⟨j + 1, paths', rest, hj, hrest, by rw [Nat.add_assoc, Nat.add_comm 1]⟩
    · rintro ⟨j, paths', rest, hj, hrest, rfl⟩
      cases j with
      | zero =>
        cases hj
        exact .inl (List.mem_map_of_mem hrest)
      | succ j => exact .inr ⟨j, paths', rest, hj, hrest, by rw [Nat.add_assoc, Nat.add_comm 1]⟩

theorem pairwise_pathsFrom {i : ℕ} {parts : List (List (List ℕ))} (h : ∀ paths ∈ parts, paths.Pairwise (· < ·)) :
    (pathsFrom i parts).Pairwise (· < ·) := by
  induction parts generalizing i with
  | nil => exact .nil
  | cons paths parts ih =>
    obtain ⟨hpaths, hparts⟩ := List.forall_mem_cons.1 h
    rw [pathsFrom]
    refine List.pairwise_append.2 ⟨?_, ih hparts, fun a ha b hb => ?_⟩
    · exact hpaths.map _ fun a b hab => List.cons_lt_cons_iff.2 (.inr ⟨rfl, hab⟩)
    · obtain ⟨rest, -, rfl⟩ := List.mem_map.1 ha
      obtain ⟨j, -, rest', -, -, rfl⟩ := mem_pathsFrom.1 hb
      exact List.cons_lt_cons_iff.2 (.inl (by omega))

theorem pairwise_paths (n : Node) : n.paths.Pairwise (· < ·) := by
  induction n using children_induction with
  | _ n ih =>
    rw [paths_eq]
    refine .cons (fun path hpath => ?_) (pairwise_pathsFrom fun paths hpaths => ?_)
    · obtain ⟨j, -, rest, -, -, rfl⟩ := mem_pathsFrom.1 hpath
      exact List.nil_lt_cons _ _
    · obtain ⟨c, hc, rfl⟩ := List.mem_map.1 hpaths
      exact ih c hc

theorem mem_paths {n : Node} {path : List ℕ} (h : (n.at? path).isSome) : path ∈ n.paths := by
  induction path generalizing n with
  | nil =>
    rw [paths_eq]
    exact List.mem_cons_self
  | cons i path ih =>
    obtain ⟨m, hm⟩ := Option.isSome_iff_exists.1 h
    obtain ⟨c, hc, hm⟩ := Option.bind_eq_some_iff.1 hm
    rw [paths_eq]
    refine List.mem_cons_of_mem _ (mem_pathsFrom.2 ⟨i, c.paths, path, ?_, ih (hm ▸ rfl), by rw [Nat.zero_add]⟩)
    rw [List.getElem?_map, hc, Option.map_some]

theorem map_at?_pathsFrom {n : Node} {i : ℕ} {cs : List Node} (hcs : ∀ j, cs[j]? = n.children[i + j]?)
    (h : ∀ c ∈ cs, c.paths.map c.at? = c.nodes.map some) :
    (pathsFrom i (cs.map paths)).map n.at? = (cs.flatMap nodes).map some := by
  induction cs generalizing i with
  | nil => rfl
  | cons c cs ih =>
    obtain ⟨hhead, htail⟩ := List.forall_mem_cons.1 h
    have hc : n.at? ∘ (i :: ·) = c.at? := by
      funext path
      show n.children[i]?.bind _ = _
      rw [← Nat.add_zero i, ← hcs 0]
      rfl
    have hnext (j : ℕ) : cs[j]? = n.children[i + 1 + j]? := by
      rw [Nat.add_right_comm, Nat.add_assoc, ← hcs (j + 1)]
      rfl
    rw [List.map_cons, pathsFrom, List.map_append, List.map_map, hc, hhead, List.flatMap_cons, List.map_append,
      ih hnext htail]

/-- At the ends of the paths are the nodes. -/
theorem map_at?_paths (n : Node) : n.paths.map n.at? = n.nodes.map some := by
  induction n using children_induction with
  | _ n ih =>
    rw [paths_eq, nodes_eq, List.map_cons, List.map_cons,
      map_at?_pathsFrom (fun j => by rw [Nat.zero_add]) ih]
    rfl

theorem isPreorder_nodes (n : Node) : n.IsPreorder n.nodes :=
  ⟨n.paths, n.map_at?_paths.symm, n.pairwise_paths, fun _ => mem_paths⟩

end Node

/-! ### Locations -/

/-- The location of the name of a property. -/
def PropertyName.loc (p : PropertyName) : Loc := p.expr.loc

mutual

/-- The locations in an expression, in source order. -/
def Expr.locs : Expr → List Loc
  | .identifier i => [i.loc]
  | .number l .. | .string l .. | .boolean l .. | .null l | .regexp l .. | .this l => [l]
  | .array l elements => l :: elementLocs elements
  | .object l properties => l :: propertyLocs properties
  | .function l name params body => l :: (name.toList.map Identifier.loc ++ params.map Identifier.loc ++ body.locs)
  | .unary l _ argument | .update l _ _ argument => l :: argument.locs
  | .binary l _ left right | .logical l _ left right | .assign l _ left right => l :: (left.locs ++ right.locs)
  | .conditional l test consequent alternate => l :: (test.locs ++ (consequent.locs ++ alternate.locs))
  | .call l callee arguments | .new l callee arguments => l :: (callee.locs ++ exprLocs arguments)
  | .member l object name => l :: (object.locs ++ [name.loc])
  | .index l object key => l :: (object.locs ++ key.locs)
  | .sequence l expressions => l :: exprLocs expressions
termination_by structural e => e

def exprLocs : List Expr → List Loc
  | [] => []
  | e :: es => e.locs ++ exprLocs es
termination_by structural es => es

def exprLocs? : Option Expr → List Loc
  | none => []
  | some e => e.locs
termination_by structural e => e

def elementLocs : List (Option Expr) → List Loc
  | [] => []
  | e :: es => exprLocs? e ++ elementLocs es
termination_by structural es => es

def Property.locs : Property → List Loc
  | ⟨l, name, value, _⟩ => l :: (name.loc :: value.locs)
termination_by structural p => p

def propertyLocs : List Property → List Loc
  | [] => []
  | p :: ps => p.locs ++ propertyLocs ps
termination_by structural ps => ps

def Block.locs : Block → List Loc
  | ⟨l, body⟩ => l :: stmtLocs body
termination_by structural b => b

def blockLocs? : Option Block → List Loc
  | none => []
  | some b => b.locs
termination_by structural b => b

def VarDecl.locs : VarDecl → List Loc
  | ⟨l, declarators⟩ => l :: declaratorLocs declarators
termination_by structural d => d

def Declarator.locs : Declarator → List Loc
  | ⟨l, name, init⟩ => l :: (name.loc :: exprLocs? init)
termination_by structural d => d

def declaratorLocs : List Declarator → List Loc
  | [] => []
  | d :: ds => d.locs ++ declaratorLocs ds
termination_by structural ds => ds

def ForHead.locs : ForHead → List Loc
  | .var d => d.locs
  | .expr e => e.locs
termination_by structural h => h

def forHeadLocs? : Option ForHead → List Loc
  | none => []
  | some h => h.locs
termination_by structural h => h

def SwitchCase.locs : SwitchCase → List Loc
  | ⟨l, test, body⟩ => l :: (exprLocs? test ++ stmtLocs body)
termination_by structural c => c

def caseLocs : List SwitchCase → List Loc
  | [] => []
  | c :: cs => c.locs ++ caseLocs cs
termination_by structural cs => cs

def CatchClause.locs : CatchClause → List Loc
  | ⟨l, param, body⟩ => l :: (param.loc :: body.locs)
termination_by structural c => c

def catchLocs? : Option CatchClause → List Loc
  | none => []
  | some c => c.locs
termination_by structural c => c

/-- The locations in a statement, in source order. -/
def Stmt.locs : Stmt → List Loc
  | .var d => d.locs
  | .function l name params body => l :: (name.loc :: (params.map Identifier.loc ++ body.locs))
  | .expression l e | .throw l e => l :: e.locs
  | .block b => b.locs
  | .empty l | .debugger l => [l]
  | .return_ l argument => l :: exprLocs? argument
  | .if_ l test consequent alternate => l :: (test.locs ++ (consequent.locs ++ stmtLocs? alternate))
  | .while_ l test body | .with_ l test body => l :: (test.locs ++ body.locs)
  | .doWhile l body test => l :: (body.locs ++ test.locs)
  | .for_ l init test update body =>
    l :: (forHeadLocs? init ++ exprLocs? test ++ exprLocs? update ++ body.locs)
  | .forIn l left right body => l :: (left.locs ++ (right.locs ++ body.locs))
  | .break_ l label | .continue_ l label => l :: label.toList.map Identifier.loc
  | .switch l discriminant cases => l :: (discriminant.locs ++ caseLocs cases)
  | .tryCatch l block handler finalizer => l :: (block.locs ++ (catchLocs? handler ++ blockLocs? finalizer))
  | .labeled l label body => l :: (label.loc :: body.locs)
termination_by structural s => s

def stmtLocs : List Stmt → List Loc
  | [] => []
  | s :: ss => s.locs ++ stmtLocs ss
termination_by structural ss => ss

def stmtLocs? : Option Stmt → List Loc
  | none => []
  | some s => s.locs
termination_by structural s => s

end

/-- The locations in a program, in source order. -/
def Program.locs (p : Program) : List Loc := p.loc :: stmtLocs p.body

/-- The nodes and all their parts stand at these locations. -/
def StandAt (ns : List Node) (ls : List Loc) : Prop := (ns.flatMap Node.nodes).map Node.loc = ls

namespace StandAt

private theorem none : StandAt [] [] := rfl

private theorem node {n : Node} {l : Loc} {ls : List Loc} (hn : n.loc = l) (h : StandAt n.children ls) :
    StandAt [n] (l :: ls) := by
  unfold StandAt at *
  rw [List.flatMap_singleton, Node.nodes_eq, List.map_cons, hn, h]

private theorem both {ns ms : List Node} {ls ks : List Loc} (h : StandAt ns ls) (h' : StandAt ms ks) :
    StandAt (ns ++ ms) (ls ++ ks) := by
  unfold StandAt at *
  rw [List.flatMap_append, List.map_append, h, h']

end StandAt

private theorem Identifier.standAt (i : Identifier) : StandAt [.ofIdentifier i] [i.loc] := .node rfl .none

private theorem standAt_identifiers (is : List Identifier) : StandAt (is.map Node.ofIdentifier) (is.map Identifier.loc) := by
  induction is with
  | nil => exact .none
  | cons i is ih => exact .both i.standAt ih

private theorem standAt_identifier? (i : Option Identifier) :
    StandAt (i.toList.map Node.ofIdentifier) (i.toList.map Identifier.loc) :=
  standAt_identifiers i.toList

private theorem standAt_propertyName (p : PropertyName) : StandAt [.expr p.expr] [p.loc] := by
  cases p <;> exact .node rfl .none

-- One statement for each kind of part: a node stands at its own location, and its parts in the order of
-- `Node.children` at those that follow.

mutual

private theorem Expr.standAt : ∀ e : Expr, StandAt [.expr e] e.locs
  | .identifier _ | .number .. | .string .. | .boolean .. | .null _ | .regexp .. | .this _ => .node rfl .none
  | .array _ elements => .node rfl (standAt_elements elements)
  | .object _ properties => .node rfl (standAt_properties properties)
  | .function _ name params body =>
    .node rfl (.both (.both (standAt_identifier? name) (standAt_identifiers params)) body.standAt)
  | .unary _ _ argument | .update _ _ _ argument => .node rfl argument.standAt
  | .binary _ _ left right | .logical _ _ left right | .assign _ _ left right =>
    .node rfl (.both left.standAt right.standAt)
  | .conditional _ test consequent alternate =>
    .node rfl (.both test.standAt (.both consequent.standAt alternate.standAt))
  | .call _ callee arguments | .new _ callee arguments => .node rfl (.both callee.standAt (standAt_exprs arguments))
  | .member _ object name => .node rfl (.both object.standAt name.standAt)
  | .index _ object key => .node rfl (.both object.standAt key.standAt)
  | .sequence _ expressions => .node rfl (standAt_exprs expressions)
termination_by structural e => e

private theorem standAt_exprs : ∀ es : List Expr, StandAt (es.map Node.expr) (exprLocs es)
  | [] => .none
  | e :: es => .both e.standAt (standAt_exprs es)
termination_by structural es => es

private theorem standAt_expr? : ∀ e : Option Expr, StandAt (e.toList.map Node.expr) (exprLocs? e)
  | none => .none
  | some e => e.standAt
termination_by structural e => e

private theorem standAt_elements : ∀ es : List (Option Expr),
    StandAt ((es.flatMap Option.toList).map Node.expr) (elementLocs es)
  | [] => .none
  | e :: es => by
    rw [List.flatMap_cons, List.map_append]
    exact .both (standAt_expr? e) (standAt_elements es)
termination_by structural es => es

private theorem Property.standAt : ∀ p : Property, StandAt [.property p] p.locs
  | ⟨_, name, value, _⟩ => .node rfl (.both (standAt_propertyName name) value.standAt)
termination_by structural p => p

private theorem standAt_properties : ∀ ps : List Property, StandAt (ps.map Node.property) (propertyLocs ps)
  | [] => .none
  | p :: ps => .both p.standAt (standAt_properties ps)
termination_by structural ps => ps

private theorem Block.standAt : ∀ b : Block, StandAt [.stmt (.block b)] b.locs
  | ⟨_, body⟩ => .node rfl (standAt_stmts body)
termination_by structural b => b

private theorem standAt_block? : ∀ b : Option Block,
    StandAt (b.toList.map fun b => Node.stmt (.block b)) (blockLocs? b)
  | none => .none
  | some b => b.standAt
termination_by structural b => b

private theorem VarDecl.standAt : ∀ d : VarDecl, StandAt [.stmt (.var d)] d.locs
  | ⟨_, declarators⟩ => .node rfl (standAt_declarators declarators)
termination_by structural d => d

private theorem Declarator.standAt : ∀ d : Declarator, StandAt [.declarator d] d.locs
  | ⟨_, name, init⟩ => .node rfl (.both name.standAt (standAt_expr? init))
termination_by structural d => d

private theorem standAt_declarators : ∀ ds : List Declarator, StandAt (ds.map Node.declarator) (declaratorLocs ds)
  | [] => .none
  | d :: ds => .both d.standAt (standAt_declarators ds)
termination_by structural ds => ds

private theorem ForHead.standAt : ∀ h : ForHead, StandAt [h.node] h.locs
  | .var d => d.standAt
  | .expr e => e.standAt
termination_by structural h => h

private theorem standAt_forHead? : ∀ h : Option ForHead, StandAt (h.toList.map ForHead.node) (forHeadLocs? h)
  | none => .none
  | some h => h.standAt
termination_by structural h => h

private theorem SwitchCase.standAt : ∀ c : SwitchCase, StandAt [.switchCase c] c.locs
  | ⟨_, test, body⟩ => .node rfl (.both (standAt_expr? test) (standAt_stmts body))
termination_by structural c => c

private theorem standAt_cases : ∀ cs : List SwitchCase, StandAt (cs.map Node.switchCase) (caseLocs cs)
  | [] => .none
  | c :: cs => .both c.standAt (standAt_cases cs)
termination_by structural cs => cs

private theorem CatchClause.standAt : ∀ c : CatchClause, StandAt [.catchClause c] c.locs
  | ⟨_, param, body⟩ => .node rfl (.both param.standAt body.standAt)
termination_by structural c => c

private theorem standAt_catch? : ∀ c : Option CatchClause, StandAt (c.toList.map Node.catchClause) (catchLocs? c)
  | none => .none
  | some c => c.standAt
termination_by structural c => c

private theorem Stmt.standAt : ∀ t : Stmt, StandAt [.stmt t] t.locs
  | .var d => d.standAt
  | .function _ name params body =>
    .node rfl (.both name.standAt (.both (standAt_identifiers params) body.standAt))
  | .expression _ e | .throw _ e => .node rfl e.standAt
  | .block b => b.standAt
  | .empty _ | .debugger _ => .node rfl .none
  | .return_ _ argument => .node rfl (standAt_expr? argument)
  | .if_ _ test consequent alternate =>
    .node rfl (.both test.standAt (.both consequent.standAt (standAt_stmt? alternate)))
  | .while_ _ test body | .with_ _ test body => .node rfl (.both test.standAt body.standAt)
  | .doWhile _ body test => .node rfl (.both body.standAt test.standAt)
  | .for_ _ init test update body =>
    .node rfl (.both (.both (.both (standAt_forHead? init) (standAt_expr? test)) (standAt_expr? update)) body.standAt)
  | .forIn _ left right body => .node rfl (.both left.standAt (.both right.standAt body.standAt))
  | .break_ _ label | .continue_ _ label => .node rfl (standAt_identifier? label)
  | .switch _ discriminant cases => .node rfl (.both discriminant.standAt (standAt_cases cases))
  | .tryCatch _ block handler finalizer =>
    .node rfl (.both block.standAt (.both (standAt_catch? handler) (standAt_block? finalizer)))
  | .labeled _ label body => .node rfl (.both label.standAt body.standAt)
termination_by structural t => t

private theorem standAt_stmts : ∀ ts : List Stmt, StandAt (ts.map Node.stmt) (stmtLocs ts)
  | [] => .none
  | t :: ts => .both t.standAt (standAt_stmts ts)
termination_by structural ts => ts

private theorem standAt_stmt? : ∀ t : Option Stmt, StandAt (t.toList.map Node.stmt) (stmtLocs? t)
  | none => .none
  | some t => t.standAt
termination_by structural t => t

end

/-- The nodes of a program stand at its locations: none is left out, and none is listed twice. -/
theorem Program.map_loc_nodes (p : Program) : p.nodes.map Node.loc = p.locs := by
  have h : StandAt [.program p] p.locs := .node rfl (standAt_stmts p.body)
  unfold StandAt at h
  rw [List.flatMap_singleton] at h
  exact h

end Stepwise

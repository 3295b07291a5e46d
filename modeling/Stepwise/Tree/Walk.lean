import Stepwise.Tree.Basic

/-!
# Walking a tree

`Node.fold` computes a result for a node from the results for its children. A child is smaller than its
parent, `Node.sizeOf_lt_of_mem_children`, so every walk ends. `Node.nodes` lists a node and all its
parts, parents first.
-/

namespace Stepwise

namespace Node

private theorem le_sizeOf_loc (l : Loc) : 4 ≤ sizeOf l := by
  cases l with
  | mk _ start stop source =>
    cases start; cases stop; cases source; simp; omega

private theorem sizeOf_forHead_node (h : ForHead) : sizeOf h.node ≤ 1 + sizeOf h := by
  cases h <;> simp [ForHead.node]

private theorem sizeOf_propertyName_expr (p : PropertyName) : sizeOf p.expr ≤ sizeOf p := by
  cases p <;> simp [PropertyName.expr]

private theorem sizeOf_lt_of_mem_elements {l : List (Option Expr)} {e : Expr}
    (h : e ∈ l.flatMap Option.toList) : 1 + sizeOf e < sizeOf l := by
  obtain ⟨o, ho, he⟩ := List.mem_flatMap.1 h
  have := List.sizeOf_lt_of_mem ho
  cases o with
  | none => simp at he
  | some a => simp at he; subst he; simp at *; omega

/-- A child is smaller than its parent. -/
theorem sizeOf_lt_of_mem_children {n c : Node} (h : c ∈ n.children) : sizeOf c < sizeOf n := by
  cases n with
  | stmt s =>
    cases s <;> simp only [children, ofIdentifier, List.mem_cons, List.mem_append, List.mem_map,
      Option.mem_toList, List.not_mem_nil, or_false] at h
    all_goals try rename VarDecl => x; cases x
    all_goals try rename Block => x; cases x
    all_goals grind [→ List.sizeOf_lt_of_mem, le_sizeOf_loc, sizeOf_forHead_node]
  | expr e =>
    cases e <;> simp only [children, ofIdentifier, List.mem_cons, List.mem_append, List.mem_map,
      Option.mem_toList, List.not_mem_nil, or_false] at h
    all_goals try rename Block => x; cases x
    all_goals grind [→ List.sizeOf_lt_of_mem, le_sizeOf_loc, → sizeOf_lt_of_mem_elements]
  | program p =>
    cases p
    simp only [children, List.mem_map] at h
    grind [→ List.sizeOf_lt_of_mem, le_sizeOf_loc]
  | declarator d =>
    cases d
    simp only [children, ofIdentifier, List.mem_cons, List.mem_map, Option.mem_toList] at h
    grind [le_sizeOf_loc]
  | switchCase s =>
    cases s
    simp only [children, List.mem_append, List.mem_map, Option.mem_toList] at h
    grind [→ List.sizeOf_lt_of_mem, le_sizeOf_loc]
  | catchClause s =>
    cases s
    simp only [children, ofIdentifier, List.mem_cons, List.not_mem_nil, or_false] at h
    grind [le_sizeOf_loc]
  | property p =>
    cases p
    simp only [children, List.mem_cons, List.not_mem_nil, or_false] at h
    grind [le_sizeOf_loc, sizeOf_propertyName_expr]

/-- The result for a node, from the node and the results for its children. -/
def fold {β : Type} (f : Node → List β → β) (n : Node) : β :=
  f n (n.children.attach.map fun ⟨c, _⟩ => c.fold f)
termination_by sizeOf n
decreasing_by exact sizeOf_lt_of_mem_children ‹_›

theorem fold_eq {β : Type} (f : Node → List β → β) (n : Node) :
    n.fold f = f n (n.children.map (·.fold f)) := by
  rw [fold]; simp

/-- A node and all its parts, parents before children, in source order. -/
def nodes (n : Node) : List Node := n.fold fun n parts => n :: parts.flatten

theorem nodes_eq (n : Node) : n.nodes = n :: n.children.flatMap nodes := by
  unfold nodes
  rw [fold_eq]
  simp [List.flatMap]

end Node

/-- All nodes of a program. -/
def Program.nodes (p : Program) : List Node := (Node.program p).nodes

end Stepwise

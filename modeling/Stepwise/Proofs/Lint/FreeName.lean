import Stepwise.Lint.Check
import Stepwise.Proofs.Machine.Rule
import Stepwise.Proofs.Tree.Outline

/-!
# Free names

The names that a node uses without binding them. The operand of `typeof` is not among them, because it need
not be bound.

* `Node.reports_undefined_iff`: the rule against undefined names reports something exactly if a free name is
  neither known nor bound around the node.
* `Node.needs_subset_of_operand`: what a node starts needs no name that the node itself does not need.
* `Node.declarations_sublist`: what a node declares is among its parts, in the order of the source.
* `Node.freeNames_declared`: a function that is declared in a node uses only what the node uses, unless it
  stands in a handler and uses the parameter.
-/

namespace Stepwise

namespace Node

/-- The names that must be bound where the node stands. -/
def uses (n : Node) : List String := if n.allowsUnbound then [] else n.variables.map Identifier.name

/-- Whether a node binds a name for its parts. -/
def binds (n : Node) (name : String) : Bool := ((NameScopes.enter [] n).resolve? name).isSome

/-- The names that a node uses and does not bind. -/
def freeNames (n : Node) : List String := n.fold fun n parts => n.uses ++ parts.flatten.filter (!n.binds ·)

theorem freeNames_eq (n : Node) : n.freeNames = n.uses ++ (n.children.flatMap freeNames).filter (!n.binds ·) := by
  unfold freeNames
  rw [fold_eq]
  rfl

theorem mem_freeNames {n : Node} {x : String} :
    x ∈ n.freeNames ↔ x ∈ n.uses ∨ (∃ c ∈ n.children, x ∈ c.freeNames) ∧ n.binds x = false := by
  rw [freeNames_eq, List.mem_append, List.mem_filter, List.mem_flatMap, Bool.not_eq_true']

/-! ### The rule against undefined names -/

theorem resolve?_enter (scopes : NameScopes) (n : Node) (x : String) :
    ((scopes.enter n).resolve? x).isSome = (n.binds x || (scopes.resolve? x).isSome) := by
  have hcons (s : NameScope) : (NameScopes.resolve? (s :: scopes) x).isSome =
      ((NameScopes.resolve? [s] x).isSome || (scopes.resolve? x).isSome) := by
    unfold NameScopes.resolve?
    rw [List.findSome?_cons, List.findSome?_cons]
    cases s.resolve? x <;> rfl
  unfold binds NameScopes.enter
  split
  · exact hcons _
  · split
    · exact hcons _
    · rfl

theorem walk_eq (rules : List Rule) (n : Node) (scopes : NameScopes) (seen : List String) :
    n.walk rules scopes seen =
      (rules.flatMap (·.findings scopes seen n) ++ (inTurn (n.children.map fun c => c.walk rules (scopes.enter n))
          (if n.callable?.isSome then [] else n.declared?.toList.map Identifier.name ++ seen)).1,
        if n.callable?.isSome then n.declared?.toList.map Identifier.name ++ seen
        else (inTurn (n.children.map fun c => c.walk rules (scopes.enter n))
          (n.declared?.toList.map Identifier.name ++ seen)).2) := by
  unfold walk
  rw [fold_eq]
  dsimp only
  rw [List.map_map]
  split <;> rfl

/-- What one of some walks finds is found, whatever was declared before it. -/
theorem exists_subset_inTurn {walks : List (List String → List Finding × List String)}
    {walk : List String → List Finding × List String} (h : walk ∈ walks) (seen : List String) :
    ∃ seen', (walk seen').1 ⊆ (inTurn walks seen).1 := by
  induction walks generalizing seen with
  | nil => cases h
  | cons first walks ih =>
    rcases List.mem_cons.1 h with rfl | h
    · exact ⟨seen, List.subset_append_left _ _⟩
    · obtain ⟨seen', hsub⟩ := ih h (first seen).2
      exact ⟨seen', List.Subset.trans hsub (List.subset_append_right _ _)⟩

theorem exists_of_mem_inTurn {walks : List (List String → List Finding × List String)} {seen : List String}
    {f : Finding} (h : f ∈ (inTurn walks seen).1) : ∃ walk ∈ walks, ∃ seen', f ∈ (walk seen').1 := by
  induction walks generalizing seen with
  | nil => cases h
  | cons first walks ih =>
    rcases List.mem_append.1 h with h | h
    · exact ⟨first, List.mem_cons_self, seen, h⟩
    · obtain ⟨walk, hwalk, seen', h⟩ := ih h
      exact ⟨walk, List.mem_cons_of_mem first hwalk, seen', h⟩

/-- What is found in a node is found at it or in one of its parts. -/
theorem mem_walk {rules : List Rule} {n : Node} {scopes : NameScopes} {seen : List String} {f : Finding}
    (h : f ∈ (n.walk rules scopes seen).1) : f ∈ rules.flatMap (·.findings scopes seen n) ∨
      ∃ c ∈ n.children, ∃ seen', f ∈ (c.walk rules (scopes.enter n) seen').1 := by
  rw [walk_eq] at h
  refine (List.mem_append.1 h).imp_right fun h => ?_
  obtain ⟨walk, hwalk, seen', h⟩ := exists_of_mem_inTurn h
  obtain ⟨c, hc, rfl⟩ := List.mem_map.1 hwalk
  exact ⟨c, hc, seen', h⟩

theorem here_subset_walk (rules : List Rule) (n : Node) (scopes : NameScopes) (seen : List String) :
    rules.flatMap (·.findings scopes seen n) ⊆ (n.walk rules scopes seen).1 := by
  rw [walk_eq]
  exact List.subset_append_left _ _

theorem part_subset_walk (rules : List Rule) {n c : Node} (hc : c ∈ n.children) (scopes : NameScopes)
    (seen : List String) : ∃ seen', (c.walk rules (scopes.enter n) seen').1 ⊆ (n.walk rules scopes seen).1 := by
  obtain ⟨seen', hsub⟩ := exists_subset_inTurn (List.mem_map_of_mem (f := fun c => c.walk rules (scopes.enter n)) hc)
    (if n.callable?.isSome then [] else n.declared?.toList.map Identifier.name ++ seen)
  rw [walk_eq]
  exact ⟨seen', List.Subset.trans hsub (List.subset_append_right _ _)⟩

/-- The rule reports something in a node exactly if a free name is neither known nor bound around it. -/
theorem reports_undefined_iff (rules : List Rule) (hr : .noUndefined ∈ rules) (n : Node) (scopes : NameScopes)
    (seen : List String) : (∃ f ∈ (n.walk rules scopes seen).1, f.rule = .noUndefined) ↔
      ∃ x ∈ n.freeNames, x ∉ knownGlobals ∧ (scopes.resolve? x).isSome = false := by
  induction n using children_induction generalizing scopes seen with
  | _ n ih =>
    have hhere : (∃ f ∈ rules.flatMap (·.findings scopes seen n), f.rule = .noUndefined) ↔
        ∃ x ∈ n.uses, x ∉ knownGlobals ∧ (scopes.resolve? x).isSome = false := by
      constructor
      · rintro ⟨f, hf, he⟩
        obtain ⟨rule, -, hf⟩ := List.mem_flatMap.1 hf
        obtain ⟨⟨loc, message⟩, hv, rfl⟩ := List.mem_map.1 hf
        cases he
        unfold Rule.violations at hv
        dsimp only at hv
        unfold uses
        split at hv
        · cases hv
        · rename_i ha
          rw [if_neg ha]
          obtain ⟨i, hi, -⟩ := List.mem_map.1 hv
          obtain ⟨hi, hu⟩ := List.mem_filter.1 hi
          exact ⟨i.name, List.mem_map_of_mem hi, by simpa using hu⟩
      · rintro ⟨x, hx, hu⟩
        unfold uses at hx
        split at hx
        · cases hx
        · rename_i ha
          obtain ⟨i, hi, rfl⟩ := List.mem_map.1 hx
          refine ⟨⟨.noUndefined, i.loc.start, i.loc.stop, "'" ++ i.name ++ "' is not defined"⟩, ?_, rfl⟩
          refine List.mem_flatMap.2 ⟨.noUndefined, hr,
            List.mem_map.2 ⟨(i.loc, "'" ++ i.name ++ "' is not defined"), ?_, rfl⟩⟩
          unfold Rule.violations
          dsimp only
          rw [if_neg ha]
          exact List.mem_map.2 ⟨i, List.mem_filter.2 ⟨hi, by simpa using hu⟩, rfl⟩
    constructor
    · rintro ⟨f, hf, he⟩
      rcases mem_walk hf with hf | ⟨c, hc, seen', hf⟩
      · obtain ⟨x, hx, hu⟩ := hhere.1 ⟨f, hf, he⟩
        exact ⟨x, mem_freeNames.2 (.inl hx), hu⟩
      · obtain ⟨x, hx, hk, hu⟩ := (ih c hc _ seen').1 ⟨f, hf, he⟩
        rw [resolve?_enter, Bool.or_eq_false_iff] at hu
        exact ⟨x, mem_freeNames.2 (.inr ⟨⟨c, hc, hx⟩, hu.1⟩), hk, hu.2⟩
    · rintro ⟨x, hx, hk, hu⟩
      rcases mem_freeNames.1 hx with hx | ⟨⟨c, hc, hx⟩, hb⟩
      · obtain ⟨f, hf, he⟩ := hhere.2 ⟨x, hx, hk, hu⟩
        exact ⟨f, here_subset_walk rules n scopes seen hf, he⟩
      · obtain ⟨seen', hsub⟩ := part_subset_walk rules hc scopes seen
        obtain ⟨f, hf, he⟩ := (ih c hc (scopes.enter n) seen').2 ⟨x, hx, hk, by rw [resolve?_enter, hb, hu]; rfl⟩
        exact ⟨f, hsub hf, he⟩

/-! ### Declarations -/

/-- What a node declares in the function or program around it. -/
def declarations : Node → List Declaration
  | program p => p.declarations
  | stmt s => s.declarations
  | declarator d => [.var d.name]
  | switchCase c => c.declarations
  | catchClause c => c.declarations
  | expr _ | property _ => []

end Node

theorem declarationsOf_eq (ss : List Stmt) : declarationsOf ss = ss.flatMap Stmt.declarations := by
  induction ss with
  | nil => rfl
  | cons s ss ih => rw [declarationsOf, ih, List.flatMap_cons]

theorem declarationsOfCases_eq (cs : List SwitchCase) :
    declarationsOfCases cs = cs.flatMap SwitchCase.declarations := by
  induction cs with
  | nil => rfl
  | cons c cs ih => rw [declarationsOfCases, ih, List.flatMap_cons]

namespace Node

/-- Other nodes than functions and declarators declare what their children declare. -/
theorem declarations_eq {n : Node} (hf : n.callable? = none) (hd : ∀ d, n ≠ .declarator d) :
    n.declarations = n.children.flatMap declarations := by
  have hexprs (es : List Expr) : (es.map Node.expr).flatMap declarations = [] := by
    simp [List.flatMap_map, declarations]
  have hstmts (ss : List Stmt) : (ss.map Node.stmt).flatMap declarations = declarationsOf ss := by
    rw [List.flatMap_map, declarationsOf_eq]
    rfl
  cases n with
  | program p => exact (hstmts p.body).symm
  | declarator d => exact absurd rfl (hd d)
  | switchCase c =>
    obtain ⟨l, test, body⟩ := c
    simp [declarations, SwitchCase.declarations, children, hexprs, hstmts]
  | catchClause c =>
    obtain ⟨l, param, body⟩ := c
    simp [declarations, CatchClause.declarations, children, ofIdentifier, Stmt.declarations]
  | property p => rfl
  | expr e =>
    cases e with
    | function => cases hf
    | _ => simp [declarations, children, ofIdentifier, List.flatMap_map]
  | stmt s =>
    cases s with
    | function => cases hf
    | var d =>
      show d.declarators.map _ = (d.declarators.map declarator).flatMap declarations
      rw [List.map_eq_flatMap, List.flatMap_map]
      rfl
    | block b =>
      obtain ⟨l, body⟩ := b
      exact (hstmts body).symm
    | if_ l test consequent alternate =>
      cases alternate <;> simp [declarations, children, Stmt.declarations, declarationsOf?]
    | for_ l init test update body =>
      cases init with
      | none => simp [declarations, children, Stmt.declarations, hexprs]
      | some head =>
        cases head <;>
          simp [declarations, children, Stmt.declarations, hexprs, ForHead.node, ForHead.declarations]
    | forIn l left right body =>
      cases left <;> simp [declarations, children, Stmt.declarations, ForHead.node, ForHead.declarations]
    | switch l discriminant cases =>
      simp [declarations, children, Stmt.declarations, declarationsOfCases_eq, List.flatMap_map]
    | tryCatch l block handler finalizer =>
      cases handler <;> cases finalizer <;>
        simp [declarations, children, Stmt.declarations, declarationsOfCatch?, declarationsOfBlock?]
    | _ => simp [declarations, children, ofIdentifier, Stmt.declarations, List.flatMap_map]

/-- A node that is neither a function nor a handler binds nothing. -/
theorem binds_eq_false {n : Node} (hf : n.callable? = none) (hc : ∀ c, n ≠ .catchClause c) (x : String) :
    n.binds x = false := by
  unfold binds NameScopes.enter
  split
  · exact absurd rfl (hc _)
  · rw [hf]
    rfl

theorem freeNames_subset_of_child {n c : Node} (hf : n.callable? = none) (hn : ∀ c, n ≠ .catchClause c)
    (hc : c ∈ n.children) : c.freeNames ⊆ n.freeNames := fun x hx =>
  mem_freeNames.2 (.inr ⟨⟨c, hc, hx⟩, binds_eq_false hf hn x⟩)

end Node

/-- The node of a declaration. -/
def Declaration.node : Declaration → Node
  | var name => .ofIdentifier name
  | function name c => .stmt (.function c.loc name c.params c.body)

/-- No function that is declared in a handler uses the parameter of the handler. -/
def CatchClause.SparesParam (c : CatchClause) : Prop := ∀ d ∈ c.declarations, c.param.name ∉ d.node.freeNames

namespace Node

theorem freeNames_ofIdentifier (i : Identifier) : (ofIdentifier i).freeNames = [] := by
  rw [freeNames_eq]
  rfl

/-- The declarations of a node are among its parts, in the order of the source. -/
theorem declarations_sublist (n : Node) : (n.declarations.map Declaration.node).Sublist n.nodes := by
  induction n using children_induction with
  | _ n ih =>
    rw [nodes_eq]
    by_cases hdecl : ∃ d, n = .declarator d
    · obtain ⟨d, rfl⟩ := hdecl
      refine .cons _ (List.singleton_sublist.2 (List.mem_flatMap.2 ⟨.ofIdentifier d.name, ?_, ?_⟩))
      · cases hi : d.init <;> simp [children, hi]
      · rw [nodes_eq]
        exact List.mem_cons_self
    · cases hc : n.callable? with
      | none =>
        rw [declarations_eq hc fun d he => hdecl ⟨d, he⟩]
        refine .cons _ ?_
        clear hc hdecl
        generalize n.children = parts at ih
        induction parts with
        | nil => exact .slnil
        | cons part parts ihs =>
          obtain ⟨hpart, hparts⟩ := List.forall_mem_cons.1 ih
          rw [List.flatMap_cons, List.flatMap_cons, List.map_append]
          exact hpart.append (ihs hparts)
      | some callable =>
        unfold callable? at hc
        split at hc
        · exact List.singleton_sublist.2 List.mem_cons_self
        · exact List.nil_sublist _
        · cases hc

/-- A function that is declared in a node is a part of it. -/
theorem mem_nodes_of_declared {n : Node} {name : Identifier} {callable : Callable}
    (hd : .function name callable ∈ n.declarations) : (Declaration.function name callable).node ∈ n.nodes :=
  n.declarations_sublist.subset (List.mem_map_of_mem hd)

/-- A declaration is one of a variable, or of a function, which then has the name that is declared. -/
theorem declared_cases {P : Declaration → Prop} {n : Node} {d : Declaration} (hd : d ∈ n.declarations)
    (hvar : ∀ name, P (.var name)) (hfunction : ∀ l name params body, P (.function name ⟨l, some name, params, body⟩)) :
    P d := by
  induction n using children_induction with
  | _ n ih =>
    by_cases hdecl : ∃ d, n = .declarator d
    · obtain ⟨d, rfl⟩ := hdecl
      cases List.mem_singleton.1 hd
      exact hvar _
    · cases hc : n.callable? with
      | none =>
        rw [declarations_eq hc fun d he => hdecl ⟨d, he⟩] at hd
        obtain ⟨c, hm, hd⟩ := List.mem_flatMap.1 hd
        exact ih c hm hd
      | some callable =>
        unfold callable? at hc
        split at hc
        · cases List.mem_singleton.1 hd
          exact hfunction _ _ _ _
        · cases hd
        · cases hc

/-- A function that is declared in a node uses only what the node uses, if handlers keep their parameters for
themselves. -/
theorem freeNames_declared {n : Node} (hs : ∀ c, .catchClause c ∈ n.nodes → c.SparesParam) {d : Declaration}
    (hd : d ∈ n.declarations) : d.node.freeNames ⊆ n.freeNames := by
  induction n using children_induction with
  | _ n ih =>
    intro x hx
    by_cases hdecl : ∃ d, n = .declarator d
    · obtain ⟨d, rfl⟩ := hdecl
      cases List.mem_singleton.1 hd
      rw [Declaration.node, freeNames_ofIdentifier] at hx
      cases hx
    · cases hc : n.callable? with
      | none =>
        have hd' := hd
        rw [declarations_eq hc fun d he => hdecl ⟨d, he⟩] at hd'
        obtain ⟨c, hm, hd'⟩ := List.mem_flatMap.1 hd'
        have hspares : ∀ k, .catchClause k ∈ c.nodes → k.SparesParam := fun k hk =>
          hs k (by rw [nodes_eq]; exact List.mem_cons_of_mem _ (List.mem_flatMap.2 ⟨c, hm, hk⟩))
        refine mem_freeNames.2 (.inr ⟨⟨c, hm, ih c hm hspares hd' hx⟩, ?_⟩)
        by_cases hcatch : ∃ k, n = .catchClause k
        · obtain ⟨k, rfl⟩ := hcatch
          have hne : x ≠ k.param.name := by
            rintro rfl
            exact hs k (by rw [nodes_eq]; exact List.mem_cons_self) d hd hx
          simp [binds, NameScopes.enter, NameScopes.resolve?, NameScope.resolve?, NameScope.ofHandler,
            NameScope.firstDeclaration?, hne]
        · exact binds_eq_false hc (fun k he => hcatch ⟨k, he⟩) x
      | some callable =>
        unfold callable? at hc
        split at hc
        · cases List.mem_singleton.1 hd
          exact hx
        · cases hd
        · cases hc

/-! ### What must be bound where a node is evaluated -/

/-- The names that must be bound in the scope in which a node is evaluated: those it uses, and those it
declares. -/
def needs (n : Node) : List String :=
  match n.identifier? with
  | some i => [i.name]
  | none => n.freeNames ++ n.declarations.map Declaration.name

theorem isJoint_children {joint : Node} (hn : joint.isJoint) :
    joint.callable? = none ∧ ∀ c, joint ≠ .catchClause c := by
  cases joint with
  | declarator | switchCase | property => exact ⟨rfl, fun c => Node.noConfusion⟩
  | _ => cases hn

/-- A node with operands binds nothing, declares nothing of its own and is no name. -/
theorem plain_of_operand {n part : Node} (h : part ∈ n.operands) :
    n.callable? = none ∧ (∀ c, n ≠ .catchClause c) ∧ (∀ d, n ≠ .declarator d) ∧ n.identifier? = none := by
  unfold operands at h
  split at h
  case h_28 => cases h
  all_goals exact ⟨rfl, fun c => Node.noConfusion, fun d => Node.noConfusion, rfl⟩

/-- A name that a node evaluates is used by it or by one of its joints. -/
theorem uses_of_operand {n : Node} {i : Identifier} (h : .expr (.identifier i) ∈ n.operands) :
    i.name ∈ n.uses ∨ ∃ joint ∈ n.children, joint.isJoint ∧ i.name ∈ joint.uses := by
  have hchild {m : Node} (hc : .expr (.identifier i) ∈ m.children) (ha : m.allowsUnbound = false)
      (hv : m.variables = m.children.filterMap identifier?) : i.name ∈ m.uses := by
    unfold uses
    rw [ha, hv]
    exact List.mem_map_of_mem (List.mem_filterMap.2 ⟨_, hc, rfl⟩)
  unfold operands at h
  split at h
  case h_2 =>
    obtain ⟨e, he, hi⟩ := List.mem_map.1 h
    cases hi
    obtain ⟨d, hd, hi⟩ := List.mem_filterMap.1 he
    refine .inr ⟨_, List.mem_map_of_mem hd, rfl, ?_⟩
    simp [uses, allowsUnbound, Node.variables, hi, Expr.identifier?]
  case h_12 =>
    rcases List.mem_cons.1 h with he | h
    · cases he
      exact .inl (hchild List.mem_cons_self rfl rfl)
    · obtain ⟨c, hc, h⟩ := List.mem_flatMap.1 h
      exact .inr ⟨_, List.mem_cons_of_mem _ (List.mem_map_of_mem hc), rfl, hchild h rfl rfl⟩
  case h_15 =>
    obtain ⟨p, hp, hi⟩ := List.mem_map.1 h
    refine .inr ⟨_, List.mem_map_of_mem hp, rfl, ?_⟩
    injection hi with hi
    simp [uses, allowsUnbound, Node.variables, hi, Expr.identifier?]
  case h_11 =>
    rcases List.mem_append.1 h with h | h
    · obtain ⟨e, he, hi⟩ := List.mem_map.1 h
      cases hi
      exact absurd rfl ((ForHead.mem_places.1 he).2 i)
    · exact .inl (hchild (List.mem_cons_of_mem _ h) rfl rfl)
  case h_13 => cases List.mem_singleton.1 h
  case h_16 | h_28 => cases h
  case h_17 ht =>
    cases List.mem_singleton.1 h
    refine .inl (hchild List.mem_cons_self ?_ rfl)
    unfold allowsUnbound
    split
    · rename_i he
      cases he
      exact (ht _ rfl rfl).elim
    · rfl
  case h_25 =>
    cases List.mem_singleton.1 h
    exact .inl List.mem_cons_self
  all_goals exact .inl (hchild h rfl rfl)

/-- What a node starts needs no name that the node itself does not need. -/
theorem needs_subset_of_operand {n part : Node} (h : part ∈ n.operands) : part.needs ⊆ n.needs := by
  obtain ⟨hf, hc, hd, hi⟩ := plain_of_operand h
  intro x hx
  unfold needs at hx ⊢
  rw [hi]
  refine List.mem_append.2 ?_
  cases hp : part.identifier? with
  | some i =>
    rw [hp] at hx
    cases List.mem_singleton.1 hx
    have he : part = .expr (.identifier i) := by
      cases part with
      | expr e =>
        cases e with
        | identifier j => cases hp; rfl
        | _ => cases hp
      | _ => cases hp
    refine .inl ?_
    rcases uses_of_operand (he ▸ h) with hu | ⟨joint, hm, -, hu⟩
    · exact mem_freeNames.2 (.inl hu)
    · exact freeNames_subset_of_child hf hc hm (mem_freeNames.2 (.inl hu))
  | none =>
    rw [hp] at hx
    rw [declarations_eq hf hd]
    rcases part_of_operand h with hm | ⟨joint, hj, hjoint, hm⟩
    · refine (List.mem_append.1 hx).imp (fun hx => freeNames_subset_of_child hf hc hm hx) fun hx => ?_
      obtain ⟨d, hd, rfl⟩ := List.mem_map.1 hx
      exact List.mem_map_of_mem (List.mem_flatMap.2 ⟨part, hm, hd⟩)
    · obtain ⟨hjf, hjc⟩ := isJoint_children hjoint
      refine (List.mem_append.1 hx).imp (fun hx => ?_) fun hx => ?_
      · exact freeNames_subset_of_child hf hc hj (freeNames_subset_of_child hjf hjc hm hx)
      · obtain ⟨d, hd, rfl⟩ := List.mem_map.1 hx
        refine List.mem_map_of_mem (List.mem_flatMap.2 ⟨joint, hj, ?_⟩)
        cases joint with
        | switchCase c =>
          rw [declarations_eq hjf fun d => Node.noConfusion]
          exact List.mem_flatMap.2 ⟨part, hm, hd⟩
        | declarator k =>
          rcases List.mem_cons.1 hm with rfl | hm
          · cases hd
          · obtain ⟨e, -, rfl⟩ := List.mem_map.1 hm
            cases hd
        | property k =>
          rcases List.mem_cons.1 hm with rfl | hm
          · cases hd
          · cases List.mem_singleton.1 hm
            cases hd
        | _ => cases hjoint

end Node

namespace Node

theorem resolve?_ofFunction {c : Callable} {isExpression : Bool} {x : String}
    (h : ((NameScope.ofFunction c isExpression).resolve? x).isSome) :
    x ∈ c.bound ∨ isExpression ∧ ∃ i, c.name = some i ∧ x = i.name := by
  unfold NameScope.resolve? at h
  split at h
  · rename_i hp
    exact .inl (List.mem_cons_of_mem _ (List.mem_append_left _ (List.contains_iff_mem.1 hp)))
  · split at h
    · rename_i d hd
      have hx : d.name = x := by simpa using List.find?_some hd
      rw [← hx]
      refine .inl (List.mem_cons_of_mem _ (List.mem_append_right _ (List.mem_map_of_mem ?_)))
      exact List.mem_of_find?_eq_some hd
    · split at h
      · rename_i hi
        rcases List.mem_cons.1 (List.contains_iff_mem.1 hi) with rfl | hi
        · exact .inl List.mem_cons_self
        · split at hi
          · obtain ⟨i, hm, rfl⟩ := List.mem_map.1 hi
            exact .inr ⟨‹_›, i, Option.mem_toList.1 hm, rfl⟩
          · cases hi
      · cases h

/-- The body of a function needs what a call binds, what the function uses, and the name of the function if that
is an expression. -/
theorem needs_body {n : Node} {c : Callable} (hn : n.callable? = some c) {x : String}
    (hx : x ∈ (Node.stmt (.block c.body)).needs) :
    x ∈ c.bound ∨ x ∈ n.freeNames ∨ ∃ e i, n = .expr e ∧ c.name = some i ∧ x = i.name := by
  have hbody : Node.stmt (.block c.body) ∈ n.children := by
    unfold callable? at hn
    split at hn <;> cases hn <;> simp [children]
  rcases List.mem_append.1 hx with hx | hx
  · cases hb : n.binds x with
    | false => exact .inr (.inl (mem_freeNames.2 (.inr ⟨⟨_, hbody, hx⟩, hb⟩)))
    | true =>
      have hone {s : NameScope} (h : (NameScopes.resolve? [s] x).isSome) : (s.resolve? x).isSome := by
        unfold NameScopes.resolve? at h
        rw [List.findSome?_cons] at h
        split at h
        · simp [*]
        · cases h
      unfold callable? at hn
      split at hn
      · cases hn
        rcases resolve?_ofFunction (hone hb) with h | h
        · exact .inl h
        · cases h.1
      · cases hn
        rcases resolve?_ofFunction (hone hb) with h | ⟨-, i, hi, hx⟩
        · exact .inl h
        · exact .inr (.inr ⟨_, i, rfl, hi, hx⟩)
      · cases hn
  · exact .inl (List.mem_cons_of_mem _ (List.mem_append_right _ hx))

end Node

end Stepwise

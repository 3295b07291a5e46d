import Stepwise.Proofs.Heap.Keys
import Stepwise.Proofs.Lint.FreeName
import Stepwise.Proofs.Parse.Span

/-!
# Names that are declared twice

* `Node.upTo`: a walk through a tree that does not enter the nodes at which it stops.
* `Node.declaredInside_eq`, `Node.functionsInside_eq`: such walks find what the statements of a node declare.
* `Node.declaring`: the names that nodes declare, each with the declarations of the scope around it.
* `Node.reports`: the rule has seen a name if the first declaration of it in the scope is another one.
* `Program.declarations_agree`: in the program and in each of its functions, the variables of the scope, the names
  that these walks find and the places where a name is declared again belong together.
-/

namespace Stepwise

/-! ### Walks -/

namespace Node

/-- A node and its parts in source order, where nothing is entered at which the walk stops. -/
def upTo (stops : Node → Bool) (n : Node) : List Node :=
  n.fold fun n parts => n :: if stops n then [] else parts.flatten

/-- Whether a node is a function, whose declarations are its own. -/
def isClosure (n : Node) : Bool := n.callable?.isSome

/-- The names that the variables and functions of a scope declare, found by a walk that enters no functions. -/
def declaredInside (n : Node) : List Identifier := (n.upTo isClosure).filterMap declared?

/-- The function that a statement declares. -/
def declaredFunction? : Node → Option Callable
  | stmt (.function loc name params body) => some ⟨loc, some name, params, body⟩
  | _ => none

/-- The functions that a scope declares, found by a walk that enters neither functions nor expressions. -/
def functionsInside (n : Node) : List Callable :=
  (n.upTo fun m => m.isClosure || m.expr?.isSome).filterMap declaredFunction?

theorem upTo_eq (stops : Node → Bool) (n : Node) :
    n.upTo stops = n :: if stops n then [] else n.children.flatMap (upTo stops) := by
  unfold upTo
  rw [fold_eq]
  simp [List.flatMap]

/-- A walk that stops somewhere leaves nodes out. -/
theorem upTo_sublist (stops : Node → Bool) (n : Node) : (n.upTo stops).Sublist n.nodes := by
  induction n using children_induction with
  | _ n ih =>
    rw [upTo_eq, nodes_eq]
    refine .cons_cons n ?_
    split
    · exact List.nil_sublist _
    · exact List.Sublist.flatMap_right n.children ih

/-- What a walk finds in a node and its parts. -/
theorem filterMap_upTo {α : Type} (stops : Node → Bool) (found : Node → Option α) (n : Node) :
    (n.upTo stops).filterMap found =
      (found n).toList ++ if stops n then [] else n.children.flatMap fun c => (c.upTo stops).filterMap found := by
  rw [upTo_eq, List.filterMap_cons]
  cases found n <;> cases stops n <;> simp [List.filterMap_flatMap]

/-- What a node declares: its own name first, and then what its parts declare, unless it is a function. -/
theorem declarations_cons (n : Node) : ∃ own : Option Declaration, own.map Declaration.identifier = n.declared? ∧
    n.declarations = own.toList ++ if n.callable?.isSome then [] else n.children.flatMap declarations := by
  cases hf : n.callable? with
  | some f =>
    unfold callable? at hf
    split at hf
    · exact ⟨some _, rfl, rfl⟩
    · exact ⟨none, rfl, rfl⟩
    · cases hf
  | none =>
    by_cases hd : ∃ d, n = .declarator d
    · -- the parts of a declarator are expressions
      obtain ⟨d, rfl⟩ := hd
      refine ⟨some (.var d.name), rfl, ?_⟩
      cases hi : d.init <;> simp [children, ofIdentifier, declarations, hi]
    · refine ⟨none, ?_, declarations_eq hf fun d he => hd ⟨d, he⟩⟩
      unfold declared?
      split
      · exact absurd ⟨_, rfl⟩ hd
      · cases hf
      · rfl

/-- A walk that enters no functions finds the names that are declared, in the same order. -/
theorem declaredInside_eq (n : Node) : n.declaredInside = n.declarations.map Declaration.identifier := by
  induction n using children_induction with
  | _ n ih =>
    have hparts : (n.children.flatMap fun c => (c.upTo isClosure).filterMap declared?) =
        (n.children.flatMap declarations).map Declaration.identifier := by
      rw [List.map_flatMap]
      exact List.flatMap_congr fun c hc => ih c hc
    obtain ⟨own, hown, hdeclares⟩ := n.declarations_cons
    unfold declaredInside
    rw [filterMap_upTo, hparts, ← hown, hdeclares, List.map_append]
    by_cases hf : n.callable?.isSome <;> cases own <;> simp [isClosure, hf]

/-- A walk that enters neither functions nor expressions finds the functions that are declared, in the same order. -/
theorem functionsInside_eq (n : Node) : n.functionsInside = declaredFunctions n.declarations := by
  induction n using children_induction with
  | _ n ih =>
    have hparts : (n.children.flatMap fun c =>
        (c.upTo fun m => m.isClosure || m.expr?.isSome).filterMap declaredFunction?) =
          declaredFunctions (n.children.flatMap declarations) := by
      unfold declaredFunctions
      rw [List.filterMap_flatMap]
      exact List.flatMap_congr fun c hc => ih c hc
    unfold functionsInside
    rw [filterMap_upTo, hparts]
    cases n with
    | expr e =>
      rw [if_pos (by simp [expr?])]
      rfl
    | declarator d =>
      cases hi : d.init <;> simp [isClosure, callable?, expr?, declaredFunction?, children, ofIdentifier, declarations,
        hi, declaredFunctions, Declaration.callable?]
    | stmt s =>
      cases s with
      | function => rfl
      | _ => rw [← declarations_eq rfl fun d => Node.noConfusion]; rfl
    | _ => rw [← declarations_eq rfl fun d => Node.noConfusion]; rfl

/-! ### Where the names stand -/

/-- The parts of a node lie in its span. -/
theorem within_of_mem_nodes {n m : Node} (hn : ∀ k ∈ n.nodes, k.IsNested) (hm : m ∈ n.nodes) :
    n.loc.start.offset ≤ m.loc.start.offset ∧ m.loc.stop.offset ≤ n.loc.stop.offset := by
  have hhere := hn n n.mem_nodes_self
  rw [nodes_eq] at hm
  rcases List.mem_cons.1 hm with rfl | hm
  · exact ⟨Nat.le_refl _, Nat.le_refl _⟩
  · obtain ⟨c, hc, hm⟩ := List.mem_flatMap.1 hm
    have hpart := hhere.within c hc
    have hparts : ∀ k ∈ c.nodes, k.IsNested := fun k hk =>
      hn k (mem_nodes_trans (mem_nodes_of_mem_children n.mem_nodes_self hc) hk)
    have hinner := within_of_mem_nodes hparts hm
    omega
termination_by sizeOf n
decreasing_by exact sizeOf_lt_of_mem_children hc

theorem eq_of_identifier? {n : Node} {i : Identifier} (h : n.identifier? = some i) : n = ofIdentifier i := by
  unfold identifier? Expr.identifier? at h
  split at h
  · split at h
    · cases h
      rfl
    · cases h
  · cases h

/-- The names in a node follow each other. -/
theorem identifiers_apart {n : Node} (hn : ∀ k ∈ n.nodes, k.IsNested) :
    (n.nodes.filterMap identifier?).Pairwise fun i j => i.loc.stop.offset ≤ j.loc.start.offset := by
  induction n using children_induction with
  | _ n ih =>
    rw [nodes_eq, List.filterMap_cons]
    cases hi : n.identifier? with
    | some i =>
      rw [eq_of_identifier? hi]
      exact List.pairwise_singleton _ _
    | none =>
      dsimp only
      have hparts {c : Node} (hc : c ∈ n.children) : ∀ k ∈ c.nodes, k.IsNested := fun k hk =>
        hn k (mem_nodes_trans (mem_nodes_of_mem_children n.mem_nodes_self hc) hk)
      rw [List.filterMap_flatMap, List.pairwise_flatMap]
      refine ⟨fun c hc => ih c hc (hparts hc), ?_⟩
      refine (hn n n.mem_nodes_self).apart.imp_of_mem fun {c d} hc hd hcd i hi j hj => ?_
      obtain ⟨k, hk, hki⟩ := List.mem_filterMap.1 hi
      obtain ⟨l, hl, hlj⟩ := List.mem_filterMap.1 hj
      have hleft := (within_of_mem_nodes (hparts hc) hk).2
      have hright := (within_of_mem_nodes (hparts hd) hl).1
      rw [eq_of_identifier? hki] at hleft
      rw [eq_of_identifier? hlj] at hright
      exact hleft.trans (hcd.trans hright)

/-- The name that a node declares is its first part. -/
theorem children_of_declared {n : Node} {i : Identifier} (h : n.declared? = some i) :
    n.identifier? = none ∧ ∃ rest, n.children = ofIdentifier i :: rest := by
  unfold declared? at h
  split at h
  · cases h
    exact ⟨rfl, _, rfl⟩
  · cases h
    exact ⟨rfl, _, rfl⟩
  · cases h

theorem declared_ofIdentifier (i : Identifier) : (ofIdentifier i).declared? = none := rfl

/-- The names that are declared are among the names, in the same order. -/
theorem declared_sublist (n : Node) : (n.nodes.filterMap declared?).Sublist (n.nodes.filterMap identifier?) := by
  induction n using children_induction with
  | _ n ih =>
    rw [nodes_eq, List.filterMap_cons, List.filterMap_cons, List.filterMap_flatMap, List.filterMap_flatMap]
    cases hd : n.declared? with
    | none =>
      have hparts := List.Sublist.flatMap_right n.children ih
      cases n.identifier? with
      | none => exact hparts
      | some i => exact hparts.cons i
    | some i =>
      obtain ⟨hnone, rest, hchildren⟩ := children_of_declared hd
      rw [hnone, hchildren]
      have hrest := List.Sublist.flatMap_right rest fun c hc => ih c (hchildren ▸ List.mem_cons_of_mem _ hc)
      have hleaf : (ofIdentifier i).nodes = [ofIdentifier i] := nodes_eq _
      simp only [List.flatMap_cons, hleaf, List.filterMap_cons, List.filterMap_nil, declared_ofIdentifier,
        List.nil_append]
      exact hrest.cons_cons i

/-! ### Declarations with their scopes -/

/-- The declarations of the scope around the parts of a node, given those around the node. -/
def declarationsAround (n : Node) (ds : List Declaration) : List Declaration :=
  (n.callable?.map (·.body.declarations)).getD ds

/-- The names that a node and its parts declare, each with the declarations of the scope around it. -/
def declaring (n : Node) : List Declaration → List (Identifier × List Declaration) :=
  n.fold fun n parts ds =>
    n.declared?.toList.map (·, ds) ++ parts.flatMap fun part => part (n.declarationsAround ds)

theorem declaring_eq (n : Node) (ds : List Declaration) :
    n.declaring ds = n.declared?.toList.map (·, ds) ++
      n.children.flatMap fun c => c.declaring (n.declarationsAround ds) := by
  unfold declaring
  rw [fold_eq, List.flatMap_map]

theorem map_fst_declaring (n : Node) (ds : List Declaration) :
    (n.declaring ds).map Prod.fst = n.nodes.filterMap declared? := by
  induction n using children_induction generalizing ds with
  | _ n ih =>
    have hparts : (n.children.flatMap fun c => (c.declaring (n.declarationsAround ds)).map Prod.fst) =
        n.children.flatMap fun c => c.nodes.filterMap declared? :=
      List.flatMap_congr fun c hc => ih c hc _
    rw [declaring_eq, nodes_eq, List.map_append, List.map_flatMap, hparts, List.filterMap_cons, List.filterMap_flatMap]
    cases n.declared? <;> rfl

/-- Only functions have declarations of their own. -/
theorem declarationsAround_eq {n : Node} (hn : n.callable? = none) (ds : List Declaration) :
    n.declarationsAround ds = ds := by
  unfold declarationsAround
  rw [hn]
  rfl

/-- What a node declares is declared in the scope around it. -/
theorem mem_declaring_of_mem {n : Node} {i : Identifier} (ds : List Declaration) (hi : i ∈ n.declaredInside) :
    (i, ds) ∈ n.declaring ds := by
  induction n using children_induction with
  | _ n ih =>
    unfold declaredInside at hi
    rw [filterMap_upTo] at hi
    rw [declaring_eq]
    rcases List.mem_append.1 hi with hi | hi
    · exact List.mem_append_left _ (List.mem_map_of_mem hi)
    · cases hc : n.callable? with
      | some => simp [isClosure, hc] at hi
      | none =>
        rw [if_neg (by simp [isClosure, hc])] at hi
        obtain ⟨c, hchild, hi⟩ := List.mem_flatMap.1 hi
        rw [declarationsAround_eq hc]
        exact List.mem_append_right _ (List.mem_flatMap.2 ⟨c, hchild, ih c hchild hi⟩)

/-- The body of a function, as a node. -/
def ofBody (f : Callable) : Node := .stmt (.block f.body)

theorem ofBody_mem_children {n : Node} {f : Callable} (hf : n.callable? = some f) : ofBody f ∈ n.children := by
  unfold callable? at hf
  split at hf
  · cases hf
    simp [children, ofBody]
  · cases hf
    simp [children, ofBody]
  · cases hf

theorem declarationsAround_of_callable {n : Node} {f : Callable} (hf : n.callable? = some f) (ds : List Declaration) :
    n.declarationsAround ds = f.body.declarations := by
  unfold declarationsAround
  rw [hf]
  rfl

/-- Of the parts of a function only its body declares something. -/
theorem eq_ofBody_of_mem {n c : Node} {f : Callable} {i : Identifier} (hf : n.callable? = some f) (hc : c ∈ n.children)
    (hi : i ∈ c.declaredInside) : c = ofBody f := by
  have hleaf (j : Identifier) (he : c = ofIdentifier j) : c = ofBody f := by
    rw [he, declaredInside_eq] at hi
    cases hi
  unfold callable? at hf
  split at hf
  · cases hf
    simp only [children, List.mem_cons, List.mem_append, List.mem_map, List.not_mem_nil, or_false] at hc
    rcases hc with he | ⟨j, -, he⟩ | rfl
    · exact hleaf _ he
    · exact hleaf j he.symm
    · rfl
  · cases hf
    simp only [children, List.mem_append, List.mem_map, List.mem_singleton] at hc
    rcases hc with (⟨j, -, he⟩ | ⟨j, -, he⟩) | rfl
    · exact hleaf j he.symm
    · exact hleaf j he.symm
    · rfl
  · cases hf

/-- The names that are declared in a node are those of its own scope and those of the functions in it. -/
theorem mem_declaring_iff {n : Node} {i : Identifier} {around ds : List Declaration} :
    (i, ds) ∈ n.declaring around ↔ (i ∈ n.declaredInside ∧ ds = around) ∨
      ∃ m ∈ n.nodes, ∃ f, m.callable? = some f ∧ i ∈ (ofBody f).declaredInside ∧ ds = f.body.declarations := by
  constructor
  · induction n using children_induction generalizing around with
    | _ n ih =>
      intro h
      rw [declaring_eq] at h
      rcases List.mem_append.1 h with h | h
      · obtain ⟨j, hj, he⟩ := List.mem_map.1 h
        cases he
        refine .inl ⟨?_, rfl⟩
        unfold declaredInside
        rw [filterMap_upTo]
        exact List.mem_append_left _ hj
      · obtain ⟨c, hc, h⟩ := List.mem_flatMap.1 h
        rcases ih c hc h with ⟨hi, rfl⟩ | ⟨m, hm, hinner⟩
        · cases hf : n.callable? with
          | some f =>
            refine .inr ⟨n, n.mem_nodes_self, f, hf, ?_, declarationsAround_of_callable hf around⟩
            rwa [← eq_ofBody_of_mem hf hc hi]
          | none =>
            refine .inl ⟨?_, declarationsAround_eq hf around⟩
            unfold declaredInside
            rw [filterMap_upTo, if_neg (by simp [isClosure, hf])]
            exact List.mem_append_right _ (List.mem_flatMap.2 ⟨c, hc, hi⟩)
        · exact .inr ⟨m, mem_nodes_trans (mem_nodes_of_mem_children n.mem_nodes_self hc) hm, hinner⟩
  · rintro (⟨hi, rfl⟩ | ⟨m, hm, f, hf, hi, rfl⟩)
    · exact mem_declaring_of_mem _ hi
    · induction n using children_induction generalizing around with
      | _ n ih =>
        rw [declaring_eq]
        refine List.mem_append_right _ (List.mem_flatMap.2 ?_)
        rw [nodes_eq] at hm
        rcases List.mem_cons.1 hm with rfl | hm
        · exact ⟨_, ofBody_mem_children hf, declarationsAround_of_callable hf around ▸ mem_declaring_of_mem _ hi⟩
        · obtain ⟨c, hc, hm⟩ := List.mem_flatMap.1 hm
          exact ⟨c, hc, ih c hc hm⟩

/-- The parts of a function declare what its body declares. -/
theorem flatMap_declarations_of_callable {n : Node} {f : Callable} (hf : n.callable? = some f) :
    n.children.flatMap declarations = f.body.declarations := by
  have hnames (is : List Identifier) : (is.map ofIdentifier).flatMap declarations = [] := by
    simp [List.flatMap_map, ofIdentifier, declarations]
  unfold callable? at hf
  split at hf
  · cases hf
    simp [children, hnames, ofIdentifier, declarations, Stmt.declarations]
  · cases hf
    simp [children, hnames, declarations, Stmt.declarations]
  · cases hf

end Node

/-! ### The rule against declaring a name again -/

/-- Whether the first declaration of a name in a scope is another one. -/
def Identifier.isRepeated (ds : List Declaration) (i : Identifier) : Bool :=
  (ds.find? (·.name == i.name)).any (·.identifier.loc ≠ i.loc)

/-- What the rule reports of a name. -/
def Identifier.repeated (i : Identifier) : Finding :=
  ⟨.noRedeclare, i.loc.start, i.loc.stop, "'" ++ i.name ++ "' is already defined"⟩

/-- A name is reported if an earlier declaration of the scope has declared it. -/
theorem Identifier.isRepeated_iff {before after : List Declaration} {d : Declaration}
    (hds : ((before ++ d :: after).map (·.identifier.loc)).Nodup) :
    d.identifier.isRepeated (before ++ d :: after) ↔ d.name ∈ before.map Declaration.name := by
  unfold isRepeated
  rw [List.find?_append]
  cases hf : before.find? (·.name == d.identifier.name) with
  | none =>
    have hnone := List.find?_eq_none.1 hf
    have hself : (d.name == d.identifier.name) = true := beq_self_eq_true _
    simp only [List.find?_cons, hself, Option.none_or, Option.any_some]
    refine ⟨fun hne => by simp at hne, fun hmem => ?_⟩
    obtain ⟨e, he, hname⟩ := List.mem_map.1 hmem
    exact absurd (beq_iff_eq.2 hname) (hnone e he)
  | some first =>
    have hmem := List.mem_of_find?_eq_some hf
    have hname : first.name = d.identifier.name := by simpa using List.find?_some hf
    refine ⟨fun _ => List.mem_map.2 ⟨first, hmem, hname⟩, fun _ => ?_⟩
    rw [List.map_append, List.map_cons, List.nodup_append] at hds
    have hne := hds.2.2 first.identifier.loc (List.mem_map_of_mem hmem) d.identifier.loc List.mem_cons_self
    simpa using hne

/-- The findings of one of the rules at a node. -/
theorem Rule.filter_findings (rule : Rule) (rules : List Rule) (scopes : NameScopes) (seen : List String) (n : Node) :
    (rules.flatMap (·.findings scopes seen n)).filter (·.rule == rule) =
      (rules.filter (· == rule)).flatMap (·.findings scopes seen n) := by
  induction rules with
  | nil => rfl
  | cons r rules ih =>
    have hone : (r.findings scopes seen n).filter (·.rule == rule) =
        if r == rule then r.findings scopes seen n else [] := by
      have hrule {f : Finding} (hf : f ∈ r.findings scopes seen n) : f.rule = r := by
        obtain ⟨x, -, rfl⟩ := List.mem_map.1 hf
        rfl
      split
      · next he => exact List.filter_eq_self.2 fun f hf => by rw [hrule hf, he]
      · next he => exact List.filter_eq_nil_iff.2 fun f hf => by rw [hrule hf]; exact he
    rw [List.flatMap_cons, List.filter_append, ih, hone, List.filter_cons]
    split
    · rw [List.flatMap_cons]
    · rfl

theorem Rule.findings_noRedeclare (scopes : NameScopes) (seen : List String) (n : Node) :
    Rule.noRedeclare.findings scopes seen n =
      (n.declared?.toList.filter fun i => seen.contains i.name).map Identifier.repeated := by
  unfold findings violations
  dsimp only
  cases n.declared? with
  | none => rfl
  | some i => by_cases hi : i.name ∈ seen <;> simp [hi, Identifier.repeated]

section

variable {rules : List Rule} {scopes : NameScopes}

theorem inTurn_seen {cs : List Node} (hcs : ∀ c ∈ cs, ∀ seen,
    (c.walk rules scopes seen).2 = (c.declarations.map Declaration.name).reverse ++ seen) (seen : List String) :
    (inTurn (cs.map fun c => c.walk rules scopes) seen).2 =
      ((cs.flatMap Node.declarations).map Declaration.name).reverse ++ seen := by
  induction cs generalizing seen with
  | nil => rfl
  | cons c cs ih =>
    rw [List.map_cons, inTurn]
    dsimp only
    rw [ih (fun d hd => hcs d (List.mem_cons_of_mem c hd)), hcs c List.mem_cons_self]
    simp

/-- A walk through a node has seen the names that the node declares. -/
theorem Node.walk_seen (n : Node) (seen : List String) :
    (n.walk rules scopes seen).2 = (n.declarations.map Declaration.name).reverse ++ seen := by
  induction n using children_induction generalizing scopes seen with
  | _ n ih =>
    obtain ⟨own, hown, hdeclares⟩ := n.declarations_cons
    rw [walk_eq, hdeclares, ← hown, inTurn_seen fun c hc => ih c hc]
    cases own <;> cases n.callable? <;> simp [Declaration.name]

/-- Whether the findings of a walk through a node are the names that are declared again, wherever the node stands
among the declarations of a scope. -/
def Node.Reports (rules : List Rule) (n : Node) : Prop :=
  ∀ scopes (before after : List Declaration) ds, ds = before ++ (n.declarations ++ after) →
    (ds.map (·.identifier.loc)).Nodup →
    (n.walk rules scopes (before.map Declaration.name).reverse).1.filter (·.rule == .noRedeclare) =
      ((n.declaring ds).filter fun x => x.1.isRepeated x.2).map (·.1.repeated)

theorem filter_inTurn {cs : List Node} (hcs : ∀ c ∈ cs, c.Reports rules) {before after ds : List Declaration}
    (hds : ds = before ++ (cs.flatMap Node.declarations ++ after)) (hnodup : (ds.map (·.identifier.loc)).Nodup) :
    (inTurn (cs.map fun c => c.walk rules scopes) (before.map Declaration.name).reverse).1.filter
        (·.rule == .noRedeclare) =
      ((cs.flatMap fun c => c.declaring ds).filter fun x => x.1.isRepeated x.2).map (·.1.repeated) := by
  induction cs generalizing before with
  | nil => rfl
  | cons c cs ih =>
    rw [List.flatMap_cons, List.append_assoc] at hds
    have hseen : (c.walk rules scopes (before.map Declaration.name).reverse).2 =
        ((before ++ c.declarations).map Declaration.name).reverse := by
      rw [c.walk_seen, List.map_append, List.reverse_append]
    rw [List.map_cons, inTurn]
    dsimp only
    rw [hseen, List.filter_append, hcs c List.mem_cons_self scopes before _ ds hds hnodup,
      ih (fun d hd => hcs d (List.mem_cons_of_mem c hd)) (by rw [hds, List.append_assoc]), List.flatMap_cons,
      List.filter_append, List.map_append]

/-- If a name may be reported once, the findings of the rule are the names that are declared again: a name has been seen
if the first declaration of it in the scope is another one. -/
theorem Node.reports (hr : rules.filter (· == .noRedeclare) = [.noRedeclare]) {n : Node}
    (hinner : ∀ m ∈ n.nodes, ∀ f, m.callable? = some f → (f.body.declarations.map (·.identifier.loc)).Nodup) :
    n.Reports rules := by
  induction n using children_induction with
  | _ n ih =>
    intro scopes before after ds hds hnodup
    have hparts (c : Node) (hc : c ∈ n.children) : c.Reports rules := ih c hc fun m hm =>
      hinner m (mem_nodes_trans (mem_nodes_of_mem_children n.mem_nodes_self hc) hm)
    obtain ⟨own, hown, hdeclares⟩ := n.declarations_cons
    have hhere : (rules.flatMap (·.findings scopes (before.map Declaration.name).reverse n)).filter
        (·.rule == .noRedeclare) =
          ((n.declared?.toList.map (·, ds)).filter fun x => x.1.isRepeated x.2).map (·.1.repeated) := by
      rw [Rule.filter_findings, hr, List.flatMap_singleton, Rule.findings_noRedeclare, ← hown]
      cases own with
      | none => rfl
      | some d =>
        rw [hdeclares] at hds
        have hiff : d.identifier.isRepeated ds ↔ d.name ∈ before.map Declaration.name := by
          rw [hds] at hnodup ⊢
          exact Identifier.isRepeated_iff hnodup
        have hsame : ((before.map Declaration.name).reverse.contains d.name) = d.identifier.isRepeated ds := by
          rw [Bool.eq_iff_iff, hiff]
          simp
        simp only [Option.map_some, Option.toList_some, List.map_cons, List.map_nil, List.filter_cons, List.filter_nil,
          show d.identifier.name = d.name from rfl, hsame]
        split <;> rfl
    rw [walk_eq, declaring_eq, List.filter_append, hhere, List.filter_append, List.map_append]
    congr 1
    cases hf : n.callable? with
    | some f =>
      rw [declarationsAround_of_callable hf]
      have hbody := hinner n n.mem_nodes_self f hf
      rw [← flatMap_declarations_of_callable hf] at hbody ⊢
      have hall : n.children.flatMap declarations = [] ++ (n.children.flatMap declarations ++ []) := by simp
      exact filter_inTurn hparts hall hbody
    | none =>
      rw [declarationsAround_eq hf]
      rw [hdeclares, hf] at hds
      have hseen : n.declared?.toList.map Identifier.name ++ (before.map Declaration.name).reverse =
          ((before ++ own.toList).map Declaration.name).reverse := by
        rw [← hown]
        cases own <;> simp [Declaration.name]
      rw [if_neg (by simp), hseen]
      exact filter_inTurn hparts (by simpa using hds) hnodup

end

/-! ### Counting -/

/-- Whether a name is reported does not depend on declarations of other names. -/
theorem Identifier.isRepeated_filter {i : Identifier} {ds : List Declaration} {p : Declaration → Bool}
    (hp : ∀ d ∈ ds, d.name = i.name → p d) : i.isRepeated (ds.filter p) = i.isRepeated ds := by
  unfold isRepeated
  rw [List.find?_filter]
  have hsame : ds.find? (fun d => decide (p d = true ∧ (d.name == i.name) = true)) = ds.find? (·.name == i.name) := by
    refine List.find?_congr fun d hd => ?_
    cases hname : d.name == i.name with
    | false => simp
    | true => simp [hp d hd (beq_iff_eq.1 hname)]
  rw [hsame]

/-- Each declaration of a scope either is the first one of its name, or is reported. -/
theorem countP_isRepeated {ds : List Declaration} (hds : (ds.map (·.identifier.loc)).Nodup) :
    ds.countP (·.identifier.isRepeated ds) + (localNames ds).length = ds.length := by
  match ds with
  | [] => rfl
  | d :: ds =>
    have hlocals : localNames (d :: ds) = d.name :: localNames (ds.filter (·.name != d.name)) := by
      unfold localNames
      rw [List.map_cons, List.eraseDups_cons, List.filter_map]
      rfl
    have hfirst : d.identifier.isRepeated (d :: ds) = false := by
      have hiff : d.identifier.isRepeated ([] ++ d :: ds) ↔ d.name ∈ [].map Declaration.name :=
        Identifier.isRepeated_iff hds
      simpa using hiff.not
    -- the declarations of the first name are reported, but for the first of them
    have hsame : (ds.filter (·.name == d.name)).countP (·.identifier.isRepeated (d :: ds)) =
        (ds.filter (·.name == d.name)).length := by
      refine List.countP_eq_length.2 fun e he => ?_
      obtain ⟨he, hname⟩ := List.mem_filter.1 he
      obtain ⟨before, after, rfl⟩ := List.append_of_mem he
      have hiff : e.identifier.isRepeated (d :: before ++ e :: after) ↔ e.name ∈ (d :: before).map Declaration.name :=
        Identifier.isRepeated_iff hds
      refine hiff.2 ?_
      rw [beq_iff_eq.1 hname]
      exact List.mem_cons_self
    have hothers : (ds.filter (·.name != d.name)).countP (·.identifier.isRepeated (d :: ds)) =
        (ds.filter (·.name != d.name)).countP (·.identifier.isRepeated (ds.filter (·.name != d.name))) := by
      refine List.countP_congr fun e he => ?_
      have hne : e.identifier.name ≠ d.name := bne_iff_ne.1 (List.mem_filter.1 he).2
      have hfilter : (d :: ds).filter (·.name != d.name) = ds.filter (·.name != d.name) :=
        List.filter_cons_of_neg (by simp)
      rw [← hfilter, Identifier.isRepeated_filter fun x _ hx => by rw [hx]; simpa using hne]
    have hnodup : ((ds.filter (·.name != d.name)).map (·.identifier.loc)).Nodup :=
      (List.nodup_cons.1 hds).2.sublist (List.filter_sublist.map _)
    have ih := countP_isRepeated hnodup
    have hcount := List.countP_eq_countP_filter_add ds (·.identifier.isRepeated (d :: ds)) (·.name == d.name)
    have hlength := List.length_eq_length_filter_add (l := ds) (·.name == d.name)
    have hnot : (fun e : Declaration => !(e.name == d.name)) = (·.name != d.name) := rfl
    simp only [hnot] at hcount hlength
    rw [List.countP_cons, hfirst, hlocals, List.length_cons, List.length_cons, hcount, hsame, hothers,
      if_neg Bool.false_ne_true]
    omega
termination_by ds.length
decreasing_by
  rw [List.length_cons]
  exact Nat.lt_succ_of_le (List.length_filter_le _ _)

/-! ### Programs -/

variable {source name : String} {first : Int} {p : Program}

namespace Program

/-- What is declared in a program, each name with the declarations of its scope. -/
def declaring (p : Program) : List (Identifier × List Declaration) := (Node.program p).declaring p.declarations

/-- The names that a part of a program declares start at different places. -/
theorem declared_apart (h : Program.parse source first name = .ok p) {n : Node} (hn : n ∈ p.nodes) :
    ((n.nodes.filterMap Node.declared?).map (·.loc.start)).Nodup := by
  have hnested : ∀ k ∈ n.nodes, k.IsNested := fun k hk => (spans_node h (Node.mem_nodes_trans hn hk)).nested
  refine List.pairwise_map.2 ?_
  refine ((Node.identifiers_apart hnested).sublist n.declared_sublist).imp_of_mem fun {i j} hi _ hij he => ?_
  obtain ⟨m, hm, hi⟩ := List.mem_filterMap.1 (n.declared_sublist.subset hi)
  rw [Node.eq_of_identifier? hi] at hm
  have hlt := nonempty_of_parse h (Node.mem_nodes_trans hn hm) (by simp [Node.ofIdentifier, Node.kind, Expr.kind])
  rw [← he] at hij
  exact absurd (hlt.trans_le hij) (Nat.lt_irrefl _)

/-- No two declarations of a program start at the same place. -/
theorem nodup_starts (h : Program.parse source first name = .ok p) : (p.declaring.map (·.1.loc.start)).Nodup := by
  have hapart := declared_apart h (Node.program p).mem_nodes_self
  rw [← Node.map_fst_declaring _ p.declarations, List.map_map] at hapart
  exact hapart

/-- No two declarations of a node are in the same place. -/
theorem nodup_locs (h : Program.parse source first name = .ok p) {n : Node} (hn : n ∈ p.nodes) :
    (n.declarations.map (·.identifier.loc)).Nodup := by
  have hapart := (declared_apart h hn).sublist ((n.upTo_sublist Node.isClosure).filterMap _ |>.map _)
  rw [show (n.upTo Node.isClosure).filterMap Node.declared? = n.declarations.map Declaration.identifier from
    n.declaredInside_eq, List.map_map] at hapart
  exact .of_map Loc.start (by rw [List.map_map]; exact hapart)

/-- The findings of the rule in a report. -/
theorem perm_check (h : Program.parse source first name = .ok p) : (p.check.filter (·.rule == .noRedeclare)).Perm
    ((p.declaring.filter fun x => x.1.isRepeated x.2).map (·.1.repeated)) := by
  have hone : (Rule.restricted ++ Rule.hygiene).filter (· == .noRedeclare) = [.noRedeclare] := rfl
  have hinner : ∀ m ∈ (Node.program p).nodes, ∀ f, m.callable? = some f →
      (f.body.declarations.map (·.identifier.loc)).Nodup := fun m hm f hf =>
    nodup_locs h (Node.mem_nodes_of_mem_children hm (Node.ofBody_mem_children hf))
  have hreports := Node.reports hone hinner [.ofProgram p] [] [] p.declarations (by simp [Node.declarations])
    (nodup_locs h (Node.program p).mem_nodes_self)
  unfold declaring
  rw [← hreports]
  exact (List.mergeSort_perm _ _).filter _

/-- A name that is declared is reported if an earlier declaration of its scope has declared it. -/
theorem reported_iff (h : Program.parse source first name = .ok p) {i : Identifier} {ds : List Declaration}
    (hi : (i, ds) ∈ p.declaring) :
    (∃ f ∈ p.check, f.rule = .noRedeclare ∧ f.start = i.loc.start) ↔ i.isRepeated ds := by
  constructor
  · rintro ⟨f, hf, hrule, hstart⟩
    obtain ⟨x, hx, rfl⟩ := List.mem_map.1 ((perm_check h).subset (List.mem_filter.2 ⟨hf, beq_iff_eq.2 hrule⟩))
    obtain ⟨hx, hrep⟩ := List.mem_filter.1 hx
    rwa [List.inj_on_of_nodup_map (nodup_starts h) hx hi hstart] at hrep
  · intro hrep
    have hf := List.mem_map_of_mem (f := fun x : Identifier × List Declaration => x.1.repeated)
      (List.mem_filter (p := fun x => x.1.isRepeated x.2).2 ⟨hi, hrep⟩)
    obtain ⟨hf, -⟩ := List.mem_filter.1 ((perm_check h).symm.subset hf)
    exact ⟨_, hf, rfl, rfl⟩

section

variable {is : List Identifier} {ds : List Declaration}

/-- The names of one scope, among all that are declared. -/
theorem perm_declaring (h : Program.parse source first name = .ok p) (his : (is.map (·.loc.start)).Nodup)
    (hmem : ∀ i ∈ is, (i, ds) ∈ p.declaring) :
    (p.declaring.filter fun x => x.1.loc.start ∈ is.map (·.loc.start)).Perm (is.map (·, ds)) := by
  have hnodup : (is.map (·, ds)).Nodup := (List.Nodup.of_map _ his).map fun _ _ he => congrArg Prod.fst he
  refine (List.perm_ext_iff_of_nodup ((List.Nodup.of_map _ (nodup_starts h)).filter _) hnodup).2 fun x => ?_
  rw [List.mem_filter, decide_eq_true_eq]
  constructor
  · rintro ⟨hx, hstart⟩
    obtain ⟨i, hi, he⟩ := List.mem_map.1 hstart
    rw [List.inj_on_of_nodup_map (nodup_starts h) hx (hmem i hi) he.symm]
    exact List.mem_map_of_mem hi
  · intro hx
    obtain ⟨i, hi, rfl⟩ := List.mem_map.1 hx
    exact ⟨hmem i hi, List.mem_map_of_mem hi⟩

/-- How many names of one scope are reported. -/
theorem countP_check (h : Program.parse source first name = .ok p) (his : (is.map (·.loc.start)).Nodup)
    (hmem : ∀ i ∈ is, (i, ds) ∈ p.declaring) :
    p.check.countP (fun f => f.rule = .noRedeclare ∧ f.start ∈ is.map (·.loc.start)) =
      is.countP (·.isRepeated ds) := by
  calc
    _ = (p.check.filter (·.rule == .noRedeclare)).countP fun f => f.start ∈ is.map (·.loc.start) := by
      rw [List.countP_filter]
      refine List.countP_congr fun f _ => ?_
      simp [and_comm]
    _ = ((p.declaring.filter fun x => x.1.isRepeated x.2).map (·.1.repeated)).countP
        fun f => f.start ∈ is.map (·.loc.start) := (perm_check h).countP_eq _
    _ = (p.declaring.filter fun x => x.1.loc.start ∈ is.map (·.loc.start)).countP fun x => x.1.isRepeated x.2 := by
      rw [List.countP_map, List.countP_filter, List.countP_filter]
      refine List.countP_congr fun x _ => ?_
      simp [and_comm, Identifier.repeated]
    _ = (is.map (·, ds)).countP fun x => x.1.isRepeated x.2 := (perm_declaring h his hmem).countP_eq _
    _ = is.countP (·.isRepeated ds) := by
      rw [List.countP_map]
      rfl

end

theorem mem_localNames {ds : List Declaration} {x : String} : x ∈ localNames ds ↔ ∃ d ∈ ds, d.name = x := by
  unfold localNames
  rw [List.mem_eraseDups, List.mem_map]

/-- A scope of a program, given by the node that holds its statements: what the walks through it find, its variables,
and what the rules report in it belong together. -/
structure ScopeAgrees (p : Program) (root : Node) (locals : List String) (scope : NameScope) : Prop where
  nodup : locals.Nodup
  /-- The variables are the names that the rules find declared. -/
  declared : ∀ x, x ∈ locals ↔ (scope.firstDeclaration? x).isSome
  /-- They are the names of the variables and functions that a walk finds. -/
  walked : ∀ x, x ∈ locals ↔ x ∈ root.declaredInside.map Identifier.name
  /-- The functions that a walk finds are those that are bound before the scope runs, and they are among the variables. -/
  functions : root.functionsInside = declaredFunctions scope.declared
  named : ∀ f ∈ root.functionsInside, ∃ i, f.name = some i ∧ i.name ∈ locals
  /-- A name is reported if an earlier declaration has declared it. -/
  repeated : ∀ before i after, root.declaredInside = before ++ i :: after →
    ((∃ f ∈ p.check, f.rule = .noRedeclare ∧ f.start = i.loc.start) ↔ i.name ∈ before.map Identifier.name)
  /-- As many names are reported as there are more declarations than variables. -/
  count : p.check.countP (fun f => f.rule = .noRedeclare ∧ f.start ∈ root.declaredInside.map (·.loc.start)) +
    locals.length = root.declaredInside.length

theorem scopeAgrees (h : Program.parse source first name = .ok p) (root : Node) (scope : NameScope)
    (hroot : root ∈ p.nodes) (hscope : root.declarations = scope.declared)
    (hmem : ∀ i ∈ root.declaredInside, (i, scope.declared) ∈ p.declaring) :
    p.ScopeAgrees root (localNames scope.declared) scope := by
  have hids : root.declaredInside = scope.declared.map Declaration.identifier := by
    rw [Node.declaredInside_eq, hscope]
  have hstarts : (root.declaredInside.map (·.loc.start)).Nodup :=
    (declared_apart h hroot).sublist ((root.upTo_sublist Node.isClosure).filterMap _ |>.map _)
  have hlocs : (scope.declared.map (·.identifier.loc)).Nodup := hscope ▸ nodup_locs h hroot
  refine ⟨Heap.nodup_eraseDups _, fun x => ?_, fun x => ?_, ?_, fun f hf => ?_, fun before i after he => ?_, ?_⟩
  · rw [mem_localNames]
    unfold NameScope.firstDeclaration?
    rw [List.find?_isSome]
    simp only [beq_iff_eq]
  · rw [mem_localNames, hids, List.map_map, List.mem_map]
    rfl
  · rw [Node.functionsInside_eq, hscope]
  · rw [Node.functionsInside_eq] at hf
    obtain ⟨d, hd, hf⟩ := List.mem_filterMap.1 hf
    have hname : ∃ i, f.name = some i ∧ d.name = i.name := by
      refine Node.declared_cases (P := fun d => d.callable? = some f → ∃ i, f.name = some i ∧ d.name = i.name) hd ?_ ?_ hf
      · exact fun _ hf => by cases hf
      · exact fun _ _ _ _ hf => by cases hf; exact ⟨_, rfl, rfl⟩
    obtain ⟨i, hi, hname⟩ := hname
    exact ⟨i, hi, mem_localNames.2 ⟨d, hscope ▸ hd, hname⟩⟩
  · rw [reported_iff h (hmem i (he ▸ List.mem_append_right _ List.mem_cons_self))]
    rw [hids] at he
    obtain ⟨ds, rest, hds, rfl, hrest⟩ := List.map_eq_append_iff.1 he
    obtain ⟨d, ds', rfl, rfl, -⟩ := List.map_eq_cons_iff.1 hrest
    rw [hds] at hlocs ⊢
    rw [Identifier.isRepeated_iff hlocs, List.map_map]
    rfl
  · rw [countP_check h hstarts hmem, hids, List.countP_map, List.length_map]
    exact countP_isRepeated hlocs

/-- The nodes that hold the statements of the scopes of a program: itself, and the bodies of its functions. -/
def IsScopeRoot (p : Program) (root : Node) : Prop :=
  root = .program p ∨ ∃ n ∈ p.nodes, ∃ f, n.callable? = some f ∧ root = .ofBody f

/-- In a program that is read from a source and in each of its functions, the variables of the scope are the names that
a walk finds declared, each once; the functions that are bound before the scope runs are among them; and a name is
reported to be declared again at each declaration but the first one. Nothing else is reported to be declared again. -/
theorem declarations_agree (h : Program.parse source first name = .ok p) :
    p.ScopeAgrees (.program p) p.locals (.ofProgram p) ∧
      (∀ n ∈ p.nodes, ∀ f, n.callable? = some f →
        p.ScopeAgrees (.ofBody f) f.body.locals (.ofFunction f (n matches .expr _))) ∧
      ∀ g ∈ p.check, g.rule = .noRedeclare →
        ∃ root, p.IsScopeRoot root ∧ g.start ∈ root.declaredInside.map (·.loc.start) := by
  refine ⟨?_, fun n hn f hf => ?_, fun g hg hrule => ?_⟩
  · exact scopeAgrees h (.program p) (.ofProgram p) (Node.program p).mem_nodes_self rfl fun i hi =>
      Node.mem_declaring_iff.2 (.inl ⟨hi, rfl⟩)
  · have hbody := Node.mem_nodes_of_mem_children hn (Node.ofBody_mem_children hf)
    have hagrees (isExpression : Bool) :
        p.ScopeAgrees (.ofBody f) f.body.locals (.ofFunction f isExpression) :=
      scopeAgrees h (.ofBody f) (.ofFunction f isExpression) hbody rfl fun i hi =>
        Node.mem_declaring_iff.2 (.inr ⟨n, hn, f, hf, hi, rfl⟩)
    exact hagrees _
  · obtain ⟨⟨i, ds⟩, hx, rfl⟩ := List.mem_map.1 ((perm_check h).subset (List.mem_filter.2 ⟨hg, beq_iff_eq.2 hrule⟩))
    rcases Node.mem_declaring_iff.1 (List.mem_filter.1 hx).1 with ⟨hi, -⟩ | ⟨n, hn, f, hf, hi, -⟩
    · exact ⟨.program p, .inl rfl, List.mem_map_of_mem hi⟩
    · exact ⟨.ofBody f, .inr ⟨n, hn, f, hf, rfl⟩, List.mem_map_of_mem hi⟩

/-- A function and a variable of one name, and variables that are declared in the head of a loop and in a block. -/
theorem declarations_agree_nested :
    ∃ p, Program.parse "function f(a) \x7b for (var i in a) \x7b var i, a; \x7d \x7d var f, g = [function () \x7b\x7d];"
        1 "" = .ok p ∧
      p.locals = ["f", "g"] ∧ (p.nodes.filterMap Node.callable?).map (·.body.locals) = [["i", "a"], []] ∧
      p.ScopeAgrees (.program p) p.locals (.ofProgram p) ∧
      (∀ n ∈ p.nodes, ∀ f, n.callable? = some f →
        p.ScopeAgrees (.ofBody f) f.body.locals (.ofFunction f (n matches .expr _))) ∧
      ∀ g ∈ p.check, g.rule = .noRedeclare →
        ∃ root, p.IsScopeRoot root ∧ g.start ∈ root.declaredInside.map (·.loc.start) := by
  have hany : (Program.parse
      "function f(a) \x7b for (var i in a) \x7b var i, a; \x7d \x7d var f, g = [function () \x7b\x7d];" 1 "").toOption.any fun p =>
        p.locals = ["f", "g"] ∧ (p.nodes.filterMap Node.callable?).map (·.body.locals) = [["i", "a"], []] := by
    decide +kernel
  obtain ⟨p, hp, hany⟩ := exists_of_any_parse hany
  obtain ⟨hlocals, hbodies⟩ := of_decide_eq_true hany
  exact ⟨p, hp, hlocals, hbodies, declarations_agree hp⟩

end Program

end Stepwise

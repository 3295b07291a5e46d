import Mathlib.Data.List.Basic
import Stepwise.Machine.Rule
import Stepwise.Proofs.Tree.Outline

/-!
# The numbers of nodes

* `Program.numbered_number`: the nodes of a numbered program carry consecutive numbers, parents before
  children and in source order.
* `Program.source_number`: they carry the name of its source.
* `Program.outline_number`: nothing else is changed.
* `Program.index_of_mem`: the index of such a program finds each of its nodes under its own number.
-/

namespace Stepwise

/-- The nodes carry consecutive numbers from `a` on, and `b` is the next number. -/
def Consecutive (a : Int) : List Node → Int → Prop
  | [], b => a = b
  | n :: ns, b => n.id = a ∧ Consecutive (a + 1) ns b

/-- The nodes and all their parts carry consecutive numbers from `a` on. -/
def Numbered (a : Int) (ns : List Node) (b : Int) : Prop := Consecutive a (ns.flatMap Node.nodes) b

namespace Consecutive

theorem append {a b d : Int} {ns ms : List Node} (h : Consecutive a ns b) (h' : Consecutive b ms d) :
    Consecutive a (ns ++ ms) d := by
  induction ns generalizing a with
  | nil => cases h; exact h'
  | cons n ns ih => exact ⟨h.1, ih h.2⟩

theorem next_eq {a b : Int} {ns : List Node} (h : Consecutive a ns b) : b = a + ns.length := by
  induction ns generalizing a with
  | nil => cases h; simp
  | cons n ns ih =>
    have := ih h.2
    rw [List.length_cons]
    omega

theorem le_id {a b : Int} {ns : List Node} (h : Consecutive a ns b) {n : Node} (hn : n ∈ ns) :
    a ≤ n.id ∧ n.id < b := by
  induction ns generalizing a with
  | nil => simp at hn
  | cons m ns ih =>
    obtain ⟨h0, h1⟩ := h
    rcases List.mem_cons.1 hn with rfl | hn
    · have := h1.next_eq
      omega
    · have := ih h1 hn
      omega

/-- The number of a node says where it stands. -/
theorem id_eq {a b : Int} {ns : List Node} (h : Consecutive a ns b) {i : Nat} {n : Node} (hi : ns[i]? = some n) :
    n.id = a + i := by
  induction ns generalizing a i with
  | nil => cases hi
  | cons m ns ih =>
    obtain ⟨h0, h1⟩ := h
    cases i with
    | zero =>
      cases hi
      rw [h0]
      simp
    | succ i =>
      have := ih h1 hi
      omega

/-- No two of the nodes share a number. -/
theorem eq_of_id {a b : Int} {ns : List Node} (h : Consecutive a ns b) {n m : Node} (hn : n ∈ ns)
    (hm : m ∈ ns) (he : n.id = m.id) : n = m := by
  induction ns generalizing a with
  | nil => simp at hn
  | cons k ns ih =>
    obtain ⟨h0, h1⟩ := h
    rcases List.mem_cons.1 hn with rfl | hn' <;> rcases List.mem_cons.1 hm with rfl | hm'
    · rfl
    · have := h1.le_id hm'
      omega
    · have := h1.le_id hn'
      omega
    · exact ih h1 hn' hm'

end Consecutive

/-- The nodes carry consecutive numbers from `a` on and the name of their source, and are the old ones otherwise. -/
structure Renumbered (source : String) (a : Int) (ns old : List Node) (b : Int) : Prop where
  numbered : Numbered a ns b
  named : ∀ n ∈ ns.flatMap Node.nodes, n.loc.source = source
  same : ns.map Node.outline = old.map Node.outline

namespace Renumbered

variable {source : String}

private theorem node {a b : Int} {n m : Node} (hn : n.id = a) (hs : n.loc.source = source) (hm : n.face = m.face)
    (h : Renumbered source (a + 1) n.children m.children b) : Renumbered source a [n] [m] b := by
  refine ⟨?_, ?_, ?_⟩
  · unfold Numbered
    rw [List.flatMap_singleton, Node.nodes_eq]
    exact ⟨hn, h.numbered⟩
  · rw [List.flatMap_singleton, Node.nodes_eq]
    exact List.forall_mem_cons.2 ⟨hs, h.named⟩
  · rw [List.map_singleton, List.map_singleton, Node.outline_eq n, Node.outline_eq m, hm, h.same]

private theorem append {a b d : Int} {ns ms old old' : List Node} (h : Renumbered source a ns old b)
    (h' : Renumbered source b ms old' d) : Renumbered source a (ns ++ ms) (old ++ old') d := by
  refine ⟨?_, ?_, ?_⟩
  · unfold Numbered
    rw [List.flatMap_append]
    exact h.numbered.append h'.numbered
  · rw [List.flatMap_append]
    exact List.forall_mem_append.2 ⟨h.named, h'.named⟩
  · rw [List.map_append, List.map_append, h.same, h'.same]

private theorem nil (a : Int) : Renumbered source a [] [] a := ⟨rfl, by simp, rfl⟩

end Renumbered

/-- The parts of what `x` makes of `old` carry the numbers that `x` hands out and the name of their source, and are the
old ones otherwise. -/
def Numbers {α : Type} (source : String) (x : Numbering α) (old : α) (parts : α → List Node) : Prop :=
  ∀ a, Renumbered source a (parts (x a).1) (parts old) (x a).2

theorem Identifier.numbers (s : String) (i : Identifier) :
    Numbers s (i.number s) i fun i => [Node.ofIdentifier i] :=
  fun _ => .node rfl rfl rfl (.nil _)

private theorem numbers_identifiers (s : String) : ∀ is : List Identifier,
    Numbers s (is.mapM (·.number s)) is fun is => is.map Node.ofIdentifier
  | [], _ => .nil _
  | i :: is, a => by
    rw [List.mapM_cons]
    exact .append (i.numbers s a) (numbers_identifiers s is _)

private theorem numbers_identifier? (s : String) : ∀ i : Option Identifier,
    Numbers s (i.mapM (·.number s)) i fun i => i.toList.map Node.ofIdentifier
  | none, _ => .nil _
  | some i, a => i.numbers s a

theorem PropertyName.numbers (s : String) (p : PropertyName) :
    Numbers s (p.renumber s) p fun p => [.expr p.expr] := by
  intro a
  cases p <;> exact .node rfl rfl rfl (.nil _)

/-! ### What is known of a node does not depend on numbers -/

private theorem face_eq {n m : Node} (hkind : n.kind = m.kind) (hstart : n.loc.start = m.loc.start)
    (hstop : n.loc.stop = m.loc.stop) (hlawful : n.isLawful = m.isLawful)
    (hbinders : n.binders = m.binders) (hplaced : ∀ ctx, n.isPlacedIn ctx = m.isPlacedIn ctx)
    (hinside : ∀ ctx, n.inside ctx = m.inside ctx) : n.face = m.face := by
  unfold Node.face
  rw [hkind, hstart, hstop, hlawful, hbinders, funext hplaced, funext hinside]

/-- Whether something can be assigned to does not depend on its number. -/
theorem Expr.isTarget_renumber (s : String) (e : Expr) (a : Int) : (e.renumber s a).1.isTarget = e.isTarget := by
  cases e <;> rfl

private theorem isName_renumber (s : String) (e : Expr) (a : Int) : (e.renumber s a).1.isName = e.isName := by
  cases e <;> rfl

private theorem names_number (s : String) (is : List Identifier) (a : Int) :
    ((is.mapM (·.number s) : Numbering _) a).1.map Identifier.name = is.map Identifier.name := by
  induction is generalizing a with
  | nil => rfl
  | cons i is ih =>
    rw [List.mapM_cons]
    exact congrArg (i.name :: ·) (ih _)

private theorem areDistinct_number (s : String) (is : List Identifier) (a : Int) :
    areDistinct ((is.mapM (·.number s) : Numbering _) a).1 = areDistinct is :=
  congrArg (fun names : List String => decide names.Nodup) (names_number s is a)

private theorem name?_number (s : String) (i : Option Identifier) (a : Int) :
    ((i.mapM (·.number s) : Numbering _) a).1.toList.map Identifier.name = i.toList.map Identifier.name := by
  cases i <;> rfl

private theorem length_renumber (s : String) (es : List Expr) (a : Int) :
    (renumberExprs s es a).1.length = es.length := by
  induction es generalizing a with
  | nil => rfl
  | cons e es ih => exact congrArg (· + 1) (ih _)

private theorem isNone_renumber (s : String) (e : Option Expr) (a : Int) :
    (renumberExpr? s e a).1.isNone = e.isNone := by
  cases e <;> rfl

private theorem defaults_renumber (s : String) (cs : List SwitchCase) (a : Int) :
    (renumberCases s cs a).1.countP (·.test.isNone) = cs.countP (·.test.isNone) := by
  induction cs generalizing a with
  | nil => rfl
  | cons c cs ih =>
    have hc : (c.renumber s a).1.test.isNone = c.test.isNone := by
      obtain ⟨l, test, body⟩ := c
      exact isNone_renumber s test _
    show ((c.renumber s a).1 :: (renumberCases s cs _).1).countP _ = _
    rw [List.countP_cons, List.countP_cons, ih, hc]

private theorem isSlot_renumber (s : String) (h : ForHead) (a : Int) : (h.renumber s a).1.isSlot = h.isSlot := by
  cases h with
  | var d =>
    obtain ⟨l, _ | ⟨⟨_, _, init⟩, _ | ⟨⟨_, _, _⟩, ds⟩⟩⟩ := d
    · rfl
    · exact isNone_renumber s init _
    · rfl
  | expr e => exact e.isTarget_renumber s a

private theorem isPlacedIn_renumber_head (s : String) (h : ForHead) {a : Int} {l l' : Loc} {e e' : Expr} {t t' : Stmt}
    {ctx : Context} : (Node.stmt (.forIn l (h.renumber s a).1 e t)).isPlacedIn ctx =
      (Node.stmt (.forIn l' h e' t')).isPlacedIn ctx := by
  cases h with
  | var => rfl
  | expr e => exact e.isTarget_renumber s a

private theorem isLawful_renumber_unary (s : String) (op : UnaryOp) (e : Expr) {a : Int} {l l' : Loc} :
    (Node.expr (.unary l op (e.renumber s a).1)).isLawful = (Node.expr (.unary l' op e)).isLawful := by
  cases op with
  | delete => exact congrArg (! ·) (isName_renumber s e a)
  | _ => rfl

private theorem isLawful_renumber_try (s : String) {block : Block} (handler : Option CatchClause)
    (finalizer : Option Block) {a b : Int} {l l' : Loc} {block' : Block} :
    (Node.stmt (.tryCatch l block' (renumberCatch? s handler a).1 (renumberBlock? s finalizer b).1)).isLawful =
      (Node.stmt (.tryCatch l' block handler finalizer)).isLawful := by
  cases handler <;> cases finalizer <;> rfl

-- One statement for each renumbering function: a node takes the next number, and its parts, in the order
-- of `Node.children`, the numbers after it.

mutual

theorem Expr.numbers (s : String) : ∀ e : Expr, Numbers s (e.renumber s) e fun e => [.expr e]
  | .identifier _ | .number .. | .string .. | .boolean .. | .null _ | .regexp .. | .this _ =>
    fun _ => .node rfl rfl rfl (.nil _)
  | .array _ elements => fun _ => .node rfl rfl rfl (numbers_elements s elements _)
  | .object _ properties => fun _ => .node rfl rfl rfl (numbers_properties s properties _)
  | .function _ name params body => fun _ =>
    .node rfl rfl (face_eq rfl rfl rfl (areDistinct_number s params _)
      (congrArg₂ (· ++ ·) (name?_number s name _) (names_number s params _)) (fun _ => rfl) fun _ => rfl)
      (.append (.append (numbers_identifier? s name _) (numbers_identifiers s params _))
      (body.numbers s _))
  | .unary _ op argument => fun _ =>
    .node rfl rfl (face_eq rfl rfl rfl (isLawful_renumber_unary s op argument) rfl (fun _ => rfl) fun _ => rfl)
      (argument.numbers s _)
  | .update _ _ _ argument => fun _ =>
    .node rfl rfl (face_eq rfl rfl rfl (argument.isTarget_renumber s _) rfl
      (fun _ => argument.isTarget_renumber s _) fun _ => rfl) (argument.numbers s _)
  | .binary _ _ left right | .logical _ _ left right => fun _ =>
    .node rfl rfl rfl (.append (left.numbers s _) (right.numbers s _))
  | .assign _ _ left right => fun _ =>
    .node rfl rfl (face_eq rfl rfl rfl (congrArg (· && _) (left.isTarget_renumber s _)) rfl
      (fun _ => left.isTarget_renumber s _) fun _ => rfl) (.append (left.numbers s _) (right.numbers s _))
  | .conditional _ test consequent alternate => fun _ =>
    .node rfl rfl rfl (.append (test.numbers s _) (.append (consequent.numbers s _) (alternate.numbers s _)))
  | .call _ callee arguments | .new _ callee arguments => fun _ =>
    .node rfl rfl rfl (.append (callee.numbers s _) (numbers_exprs s arguments _))
  | .member _ object name => fun _ => .node rfl rfl rfl (.append (object.numbers s _) (name.numbers s _))
  | .index _ object key => fun _ => .node rfl rfl rfl (.append (object.numbers s _) (key.numbers s _))
  | .sequence _ expressions => fun _ =>
    .node rfl rfl (face_eq rfl rfl rfl (congrArg (decide <| 2 ≤ ·) (length_renumber s expressions _)) rfl
      (fun _ => rfl) fun _ => rfl) (numbers_exprs s expressions _)
termination_by structural e => e

private theorem numbers_exprs (s : String) : ∀ es : List Expr,
    Numbers s (renumberExprs s es) es fun es => es.map Node.expr
  | [] => fun _ => .nil _
  | e :: es => fun _ => .append (e.numbers s _) (numbers_exprs s es _)
termination_by structural es => es

private theorem numbers_expr? (s : String) : ∀ e : Option Expr,
    Numbers s (renumberExpr? s e) e fun e => e.toList.map Node.expr
  | none => fun _ => .nil _
  | some e => fun _ => e.numbers s _
termination_by structural e => e

private theorem numbers_elements (s : String) : ∀ es : List (Option Expr),
    Numbers s (renumberElements s es) es fun es => (es.flatMap Option.toList).map Node.expr
  | [] => fun _ => .nil _
  | e :: es => fun a => by
    have h := Renumbered.append (numbers_expr? s e a) (numbers_elements s es _)
    dsimp only at h
    rw [← List.map_append, ← List.map_append] at h
    exact h
termination_by structural es => es

theorem Property.numbers (s : String) : ∀ p : Property, Numbers s (p.renumber s) p fun p => [.property p]
  | ⟨_, name, value, _⟩ => fun _ => .node rfl rfl rfl (.append (name.numbers s _) (value.numbers s _))
termination_by structural p => p

private theorem numbers_properties (s : String) : ∀ ps : List Property,
    Numbers s (renumberProperties s ps) ps fun ps => ps.map Node.property
  | [] => fun _ => .nil _
  | p :: ps => fun _ => .append (p.numbers s _) (numbers_properties s ps _)
termination_by structural ps => ps

theorem Block.numbers (s : String) : ∀ b : Block, Numbers s (b.renumber s) b fun b => [.stmt (.block b)]
  | ⟨_, body⟩ => fun _ => .node rfl rfl rfl (numbers_stmts s body _)
termination_by structural b => b

private theorem numbers_block? (s : String) : ∀ b : Option Block,
    Numbers s (renumberBlock? s b) b fun b => b.toList.map fun b => Node.stmt (.block b)
  | none => fun _ => .nil _
  | some b => fun _ => b.numbers s _
termination_by structural b => b

theorem VarDecl.numbers (s : String) : ∀ d : VarDecl, Numbers s (d.renumber s) d fun d => [.stmt (.var d)]
  | ⟨_, declarators⟩ => fun _ => .node rfl rfl rfl (numbers_declarators s declarators _)
termination_by structural d => d

theorem Declarator.numbers (s : String) : ∀ d : Declarator, Numbers s (d.renumber s) d fun d => [.declarator d]
  | ⟨_, name, init⟩ => fun _ => .node rfl rfl rfl (.append (name.numbers s _) (numbers_expr? s init _))
termination_by structural d => d

private theorem numbers_declarators (s : String) : ∀ ds : List Declarator,
    Numbers s (renumberDeclarators s ds) ds fun ds => ds.map Node.declarator
  | [] => fun _ => .nil _
  | d :: ds => fun _ => .append (d.numbers s _) (numbers_declarators s ds _)
termination_by structural ds => ds

theorem ForHead.numbers (s : String) : ∀ h : ForHead, Numbers s (h.renumber s) h fun h => [h.node]
  | .var d => fun _ => d.numbers s _
  | .expr e => fun _ => e.numbers s _
termination_by structural h => h

private theorem numbers_forHead? (s : String) : ∀ h : Option ForHead,
    Numbers s (renumberForHead? s h) h fun h => h.toList.map ForHead.node
  | none => fun _ => .nil _
  | some h => fun _ => h.numbers s _
termination_by structural h => h

theorem SwitchCase.numbers (s : String) : ∀ c : SwitchCase, Numbers s (c.renumber s) c fun c => [.switchCase c]
  | ⟨_, test, body⟩ => fun _ =>
    .node rfl rfl rfl (.append (numbers_expr? s test _) (numbers_stmts s body _))
termination_by structural c => c

private theorem numbers_cases (s : String) : ∀ cs : List SwitchCase,
    Numbers s (renumberCases s cs) cs fun cs => cs.map Node.switchCase
  | [] => fun _ => .nil _
  | c :: cs => fun _ => .append (c.numbers s _) (numbers_cases s cs _)
termination_by structural cs => cs

theorem CatchClause.numbers (s : String) : ∀ c : CatchClause,
    Numbers s (c.renumber s) c fun c => [.catchClause c]
  | ⟨_, param, body⟩ => fun _ => .node rfl rfl rfl (.append (param.numbers s _) (body.numbers s _))
termination_by structural c => c

private theorem numbers_catch? (s : String) : ∀ c : Option CatchClause,
    Numbers s (renumberCatch? s c) c fun c => c.toList.map Node.catchClause
  | none => fun _ => .nil _
  | some c => fun _ => c.numbers s _
termination_by structural c => c

theorem Stmt.numbers (s : String) : ∀ t : Stmt, Numbers s (t.renumber s) t fun t => [.stmt t]
  | .var d => fun _ => d.numbers s _
  | .function _ name params body => fun _ =>
    .node rfl rfl (face_eq rfl rfl rfl (areDistinct_number s params _)
      (congrArg (name.name :: ·) (names_number s params _)) (fun _ => rfl) fun _ => rfl)
      (.append (name.numbers s _) (.append (numbers_identifiers s params _) (body.numbers s _)))
  | .expression _ e | .throw _ e => fun _ => .node rfl rfl rfl (e.numbers s _)
  | .block b => fun _ => b.numbers s _
  | .empty _ | .debugger _ => fun _ => .node rfl rfl rfl (.nil _)
  | .return_ _ argument => fun _ => .node rfl rfl rfl (numbers_expr? s argument _)
  | .if_ _ test consequent alternate => fun _ =>
    .node rfl rfl rfl
      (.append (test.numbers s _) (.append (consequent.numbers s _) (numbers_stmt? s alternate _)))
  | .while_ _ test body | .with_ _ test body => fun _ =>
    .node rfl rfl rfl (.append (test.numbers s _) (body.numbers s _))
  | .doWhile _ body test => fun _ => .node rfl rfl rfl (.append (body.numbers s _) (test.numbers s _))
  | .for_ _ init test update body => fun _ =>
    .node rfl rfl rfl (.append (.append (.append (numbers_forHead? s init _) (numbers_expr? s test _))
      (numbers_expr? s update _)) (body.numbers s _))
  | .forIn _ left right body => fun _ =>
    .node rfl rfl (face_eq rfl rfl rfl (isSlot_renumber s left _) rfl (fun _ => isPlacedIn_renumber_head s left)
      fun _ => rfl)
      (.append (left.numbers s _) (.append (right.numbers s _) (body.numbers s _)))
  | .break_ _ label | .continue_ _ label => fun _ =>
    .node rfl rfl (by cases label <;> rfl) (numbers_identifier? s label _)
  | .switch _ discriminant cases => fun _ =>
    .node rfl rfl (face_eq rfl rfl rfl (congrArg (decide <| · ≤ 1) (defaults_renumber s cases _)) rfl
      (fun _ => rfl) fun _ => rfl) (.append (discriminant.numbers s _) (numbers_cases s cases _))
  | .tryCatch _ block handler finalizer => fun _ =>
    .node rfl rfl (face_eq rfl rfl rfl (isLawful_renumber_try s handler finalizer) rfl (fun _ => rfl) fun _ => rfl)
      (.append (block.numbers s _) (.append (numbers_catch? s handler _) (numbers_block? s finalizer _)))
  | .labeled _ label body => fun _ => .node rfl rfl rfl (.append (label.numbers s _) (body.numbers s _))
termination_by structural t => t

private theorem numbers_stmts (s : String) : ∀ ts : List Stmt,
    Numbers s (renumberStmts s ts) ts fun ts => ts.map Node.stmt
  | [] => fun _ => .nil _
  | t :: ts => fun _ => .append (t.numbers s _) (numbers_stmts s ts _)
termination_by structural ts => ts

private theorem numbers_stmt? (s : String) : ∀ t : Option Stmt,
    Numbers s (renumberStmt? s t) t fun t => t.toList.map Node.stmt
  | none => fun _ => .nil _
  | some t => fun _ => t.numbers s _
termination_by structural t => t

end

private theorem Program.renumbered_number (p : Program) (first : Int) (source : String) :
    Renumbered source first [.program (p.number first source)] [.program p]
      (renumberStmts source p.body (first + 1)).2 :=
  .node rfl rfl rfl (numbers_stmts source p.body (first + 1))

/-- The nodes of a numbered program carry consecutive numbers. -/
theorem Program.numbered_number (p : Program) (first : Int) (source : String) :
    ∃ next, Consecutive first (p.number first source).nodes next := by
  have h := (p.renumbered_number first source).numbered
  unfold Numbered at h
  rw [List.flatMap_singleton] at h
  exact ⟨_, h⟩

/-- The nodes of a numbered program carry the name of its source. -/
theorem Program.source_number {p : Program} {first : Int} {source : String} {n : Node}
    (hn : n ∈ (p.number first source).nodes) : n.loc.source = source := by
  have h := (p.renumbered_number first source).named
  rw [List.flatMap_singleton] at h
  exact h n hn

/-- Only numbers and the name of the source are changed. -/
theorem Program.outline_number (p : Program) (first : Int) (source : String) :
    (Node.program (p.number first source)).outline = (Node.program p).outline := by
  have h := (p.renumbered_number first source).same
  rw [List.map_singleton, List.map_singleton] at h
  exact List.singleton_inj.1 h

/-- A parsed program has been read from the tokens of its source without an error, and then numbered. -/
theorem Program.exists_read_of_parse {source name : String} {first : Int} {p : Program}
    (h : Program.parse source first name = .ok p) :
    ∃ body stop s, (readProgram (.nested (tokenize source).length)).Returns (.ofTokens (tokenize source)) (body, stop) s ∧
      p = (Program.mk (.span .start stop) body source).number first name := by
  unfold Program.parse at h
  split at h
  · cases h
  · next body stop s hread =>
    split at h
    · next hs =>
      cases h
      exact ⟨body, stop, s, ⟨hread, hs⟩, rfl⟩
    · cases h

namespace Node

theorem mem_nodes_self (n : Node) : n ∈ n.nodes := by
  rw [nodes_eq]
  exact List.mem_cons_self

/-- The nodes of a node are closed under parts. -/
theorem mem_nodes_of_mem_children {n m c : Node} (hm : m ∈ n.nodes) (hc : c ∈ m.children) : c ∈ n.nodes := by
  rw [nodes_eq] at hm ⊢
  rcases List.mem_cons.1 hm with rfl | hm
  · exact List.mem_cons_of_mem _ (List.mem_flatMap.2 ⟨c, hc, c.mem_nodes_self⟩)
  · obtain ⟨d, hd, hm⟩ := List.mem_flatMap.1 hm
    exact List.mem_cons_of_mem _ (List.mem_flatMap.2 ⟨d, hd, mem_nodes_of_mem_children hm hc⟩)
termination_by sizeOf n
decreasing_by exact sizeOf_lt_of_mem_children hd

/-- The nodes of a part are nodes of the whole. -/
theorem mem_nodes_trans {n m k : Node} (hm : m ∈ n.nodes) (hk : k ∈ m.nodes) : k ∈ n.nodes := by
  rw [nodes_eq] at hm
  rcases List.mem_cons.1 hm with rfl | hm
  · exact hk
  · obtain ⟨d, hd, hm⟩ := List.mem_flatMap.1 hm
    rw [nodes_eq]
    exact List.mem_cons_of_mem _ (List.mem_flatMap.2 ⟨d, hd, mem_nodes_trans hm hk⟩)
termination_by sizeOf n
decreasing_by exact sizeOf_lt_of_mem_children hd

end Node

private theorem getElem?_insertMany {l : List (Int × Node)} {t : NodeIndex} {id : Int} {n : Node}
    (h : (t.insertMany l)[id]? = some n) : (id, n) ∈ l ∨ t[id]? = some n := by
  induction l generalizing t with
  | nil => simpa using h
  | cons p l ih =>
    rw [Std.TreeMap.insertMany_cons] at h
    rcases ih h with h | h
    · exact .inl (List.mem_cons_of_mem _ h)
    · rw [Std.TreeMap.getElem?_insert] at h
      split at h
      · rename_i he
        rw [Std.LawfulEqCmp.compare_eq_iff_eq] at he
        obtain rfl := Option.some.inj h
        rw [← he]
        exact .inl List.mem_cons_self
      · exact .inr h

namespace Program

/-- What the index finds is a node of the program with that number. -/
theorem mem_of_index {p : Program} {id : Int} {n : Node} (h : p.index[id]? = some n) :
    n ∈ p.nodes ∧ n.id = id := by
  unfold index at h
  rw [Std.TreeMap.ofList_eq_insertMany_empty] at h
  rcases getElem?_insertMany h with h | h
  · obtain ⟨m, hm, he⟩ := List.mem_map.1 h
    cases he
    exact ⟨hm, rfl⟩
  · simp at h

/-- The index knows the number of every node of the program. -/
theorem isSome_index {p : Program} {n : Node} (h : n ∈ p.nodes) : (p.index[n.id]?).isSome := by
  rw [Std.TreeMap.isSome_getElem?_eq_contains, index, Std.TreeMap.contains_ofList]
  simpa using ⟨n, h, rfl⟩

/-- If the numbers are consecutive, the index finds each node under its own number. -/
theorem index_of_mem {p : Program} {first next : Int} (hp : Consecutive first p.nodes next) {n : Node}
    (h : n ∈ p.nodes) : p.index[n.id]? = some n := by
  obtain ⟨m, hm⟩ := Option.isSome_iff_exists.1 (isSome_index h)
  obtain ⟨hmem, he⟩ := mem_of_index hm
  rw [hm, hp.eq_of_id hmem h he]

end Program

end Stepwise

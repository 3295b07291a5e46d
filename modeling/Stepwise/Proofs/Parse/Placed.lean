import Stepwise.Proofs.Tree.Numbering

/-!
# What is read stands in its place

* `Reader.Gives`: all that a reader gives has a property.
* `Grammar.Places`: what the readers of a grammar give may stand where it is read.
* `Program.placed_of_parse`: in a program that was read, jumps and targets are in their places.
-/

namespace Stepwise

namespace Reader

variable {α β : Type}

/-- All that the reader gives without an error has the property. -/
def Gives (r : Reader α) (P : α → Prop) : Prop := ∀ s a s', r.Returns s a s' → P a

variable {r : Reader α} {P : α → Prop} {Q : β → Prop}

theorem gives_any (r : Reader α) : r.Gives fun _ => True := fun _ _ _ _ => trivial

theorem gives_never : (never : Reader α).Gives P := by
  intro s a s' h
  cases h.1

namespace Gives

theorem bind {k : α → Reader β} (hr : r.Gives P) (hk : ∀ a, P a → (k a).Gives Q) : (r >>= k).Gives Q := by
  intro s b s' h
  obtain ⟨a, s₁, ha, hb⟩ := h.exists_of_bind
  exact hk a (hr s a s₁ ha) s₁ b s' hb

theorem of_failIf {p : Prop} [Decidable p] {cause : ParseCause} {k : Unit → Reader β} (h : ¬p → (k ()).Gives Q) :
    (failIf p cause >>= k).Gives Q := by
  intro s b s' hb
  obtain ⟨_, s₁, hfail, hb⟩ := hb.exists_of_bind
  exact h (of_returns_failIf hfail).1 s₁ b s' hb

/-- Nothing is given without an error where one is reported. -/
theorem of_fail {cause : ParseCause} {k : Unit → Reader β} : (fail cause >>= k).Gives Q := by
  intro s b s' hb
  obtain ⟨_, s₁, hfail, -⟩ := hb.exists_of_bind
  exact absurd hfail (not_returns_fail cause)

/-- What a reader does first does not matter. -/
theorem after {k : α → Reader β} (hk : ∀ a, (k a).Gives Q) : (r >>= k).Gives Q := (gives_any r).bind fun a _ => hk a

theorem pure {a : α} (h : P a) : (Pure.pure a : Reader α).Gives P := by
  intro s b s' hb
  cases hb.1
  exact h

theorem map {f : α → β} (hr : r.Gives P) (hf : ∀ a, P a → Q (f a)) : (f <$> r).Gives Q := by
  rw [map_eq_pure_bind]
  exact hr.bind fun a ha => .pure (hf a ha)

/-- Two ways to read a part. -/
theorem join {x y : Reader α} {k : α → Reader β} {p : Prop} [Decidable p] (hx : x.Gives P) (hy : y.Gives P)
    (hk : ∀ a, P a → (k a).Gives Q) : (if p then x >>= k else y >>= k).Gives Q := by
  split
  · exact hx.bind hk
  · exact hy.bind hk

theorem mono {P' : α → Prop} (hr : r.Gives P) (h : ∀ a, P a → P' a) : r.Gives P' := fun s a s' he => h a (hr s a s' he)

end Gives

/-- All parts of a list have the property of its items. -/
theorem gives_readList {close : Punctuator} {item : Reader α} (hi : item.Gives P) (turns : Nat) :
    (readList close item turns).Gives fun l => ∀ x ∈ l, P x := by
  induction turns with
  | zero => exact gives_never
  | succ turns ih =>
    refine .after fun _ => .after fun _ => ?_
    split
    · exact .pure (List.forall_mem_nil _)
    · refine hi.bind fun x hx => .after fun _ => ?_
      split
      · exact ih.bind fun l hl => .pure (List.forall_mem_cons.2 ⟨hx, hl⟩)
      · exact .pure (List.forall_mem_singleton.2 hx)

theorem gives_readStatements {ends : TokenKind → Bool} {statement : Reader Stmt} {P : Stmt → Prop}
    (hs : statement.Gives P) (turns : Nat) : (readStatements ends statement turns).Gives fun l => ∀ s ∈ l, P s := by
  induction turns with
  | zero => exact gives_never
  | succ turns ih =>
    refine .after fun _ => ?_
    split
    · exact .pure (List.forall_mem_nil _)
    · exact hs.bind fun s hs => ih.bind fun l hl => .pure (List.forall_mem_cons.2 ⟨hs, hl⟩)

end Reader

open Reader

namespace Node

variable {ctx : Context}

theorem placed_ofIdentifier (i : Identifier) (ctx : Context) : (ofIdentifier i).placed ctx :=
  placed_iff.2 ⟨rfl, List.forall_mem_nil _⟩

/-- Whether `in` may be an operator makes no difference. -/
theorem placed_of_noIn {n : Node} {noIn : Bool} (h : n.placed { ctx with noIn }) : n.placed ctx := by
  have hallows : Context.Allows { ctx with noIn } ctx := ⟨fun h => h, fun h => h, fun h => h⟩
  exact placed_mono hallows h

theorem forall_mem_ofIdentifier (is : List Identifier) (ctx : Context) : ∀ c ∈ is.map ofIdentifier, c.placed ctx := by
  rintro _ h
  obtain ⟨i, -, rfl⟩ := List.mem_map.1 h
  exact placed_ofIdentifier i ctx

theorem placed_block {b : Block} (h : ∀ s ∈ b.body, (Node.stmt s).placed ctx) : (Node.stmt (.block b)).placed ctx :=
  placed_iff.2 ⟨rfl, List.forall_mem_map.2 h⟩

theorem placed_functionExpr {loc : Loc} {name : Option Identifier} {params : List Identifier} {body : Block}
    (h : (Node.stmt (.block body)).placed .functionBody) : (Node.expr (.function loc name params body)).placed ctx := by
  refine placed_iff.2 ⟨rfl, fun c hc => ?_⟩
  rcases List.mem_append.1 hc with hc | hc
  · rw [← List.map_append] at hc
    exact forall_mem_ofIdentifier _ _ c hc
  · cases List.mem_singleton.1 hc
    exact h

/-- An expression that is no function and has no target stands where its parts do. -/
theorem placed_expr {e : Expr} (hf : (Node.expr e).callable? = none) (ht : (Node.expr e).isPlacedIn ctx)
    (h : ∀ c ∈ (Node.expr e).children, c.placed ctx) : (Node.expr e).placed ctx := by
  refine placed_iff.2 ⟨ht, ?_⟩
  cases e with
  | function => cases hf
  | _ => exact h

end Node

theorem gives_readBlock {statement : Reader Stmt} {ctx : Context}
    (hs : statement.Gives fun s => (Node.stmt s).placed ctx) :
    (readBlock statement).Gives fun b => (Node.stmt (.block b)).placed ctx := by
  refine .after fun _ => .after fun _ => .after fun _ => ?_
  refine (gives_readStatements hs _).bind fun body hbody => .after fun _ => .after fun _ => ?_
  exact .pure (Node.placed_block hbody)

namespace Grammar

/-- What the readers of the grammar give may stand where it is read. -/
structure Places (g : Grammar) : Prop where
  statement : ∀ ctx, (g.statement ctx).Gives fun s => (Node.stmt s).placed ctx
  assignment : ∀ ctx, (g.assignment ctx).Gives fun e => (Node.expr e).placed ctx
  binary : ∀ ctx least, (g.binary ctx least).Gives fun e => (Node.expr e).placed ctx
  unary : ∀ ctx, (g.unary ctx).Gives fun e => (Node.expr e).placed ctx
  construct : ∀ ctx, (g.construct ctx).Gives fun e => (Node.expr e).placed ctx

variable {g : Grammar} (hg : g.Places) (ctx : Context)

/-! ### Expressions -/

section

variable {ctx}

theorem gives_sequenceOf {first item : Reader Expr} (hf : first.Gives fun e => (Node.expr e).placed ctx)
    (hi : item.Gives fun e => (Node.expr e).placed ctx) :
    (sequenceOf first item).Gives fun e => (Node.expr e).placed ctx := by
  have hrest (turns : Nat) : (restOfSequence item turns).Gives fun es => ∀ e ∈ es, (Node.expr e).placed ctx := by
    induction turns with
    | zero => exact gives_never
    | succ turns ih =>
      refine .after fun _ => ?_
      split
      · exact hi.bind fun e he => ih.bind fun es hes => .pure (List.forall_mem_cons.2 ⟨he, hes⟩)
      · exact .pure (List.forall_mem_nil _)
  refine .after fun _ => hf.bind fun e he => .after fun _ => (hrest _).bind fun es hes => ?_
  split
  · exact .pure he
  · refine .after fun _ => .pure (Node.placed_expr rfl rfl ?_)
    exact List.forall_mem_map.2 (List.forall_mem_cons.2 ⟨he, hes⟩)

end

include hg

theorem gives_expression : (g.expression ctx).Gives fun e => (Node.expr e).placed ctx :=
  gives_sequenceOf (hg.assignment ctx) (hg.assignment ctx)

theorem gives_functionRest : g.functionRest.Gives fun r => (Node.stmt (.block r.2)).placed .functionBody := by
  refine .after fun _ => .after fun _ => .after fun _ => .after fun _ => ?_
  exact (gives_readBlock (hg.statement _)).bind fun body hbody => .pure hbody

theorem gives_functionExpression : g.functionExpression.Gives fun e => (Node.expr e).placed ctx := by
  refine .after fun _ => .after fun _ => .after fun _ => ?_
  refine .after fun _ => .join (gives_any _) (gives_any _) fun name _ => ?_
  exact (gives_functionRest hg).bind fun r hr => .after fun _ => .pure (Node.placed_functionExpr hr)

theorem gives_group : (g.group ctx).Gives fun e => (Node.expr e).placed ctx := by
  refine .after fun _ => .after fun _ => (gives_expression hg _).bind fun e he => .after fun _ => ?_
  exact .after fun _ => .pure (Node.placed_of_noIn he)

theorem gives_arrayElements (turns : Nat) : (g.arrayElements ctx turns).Gives fun es =>
    ∀ e ∈ es.flatMap Option.toList, (Node.expr e).placed ctx := by
  induction turns with
  | zero => exact gives_never
  | succ turns ih =>
    refine .after fun _ => ?_
    split
    · exact .pure (List.forall_mem_nil _)
    · exact .pure (List.forall_mem_nil _)
    · exact .after fun _ => ih.bind fun es hes => .pure hes
    · refine .after fun _ => (hg.assignment ctx).bind fun e he => .after fun _ => ?_
      exact ih.bind fun es hes => .pure (List.forall_mem_cons.2 ⟨he, hes⟩)

theorem gives_arrayLiteral : (g.arrayLiteral ctx).Gives fun e => (Node.expr e).placed ctx := by
  refine .after fun _ => .after fun _ => .after fun _ => ?_
  refine (gives_arrayElements hg _ _).bind fun es hes => .after fun _ => .after fun _ => .pure ?_
  exact Node.placed_expr rfl rfl (List.forall_mem_map.2 fun e he => Node.placed_of_noIn (hes e he))

theorem gives_propertyValue : (g.propertyValue ctx).Gives fun e => (Node.expr e).placed ctx := by
  refine .after fun _ => ?_
  split
  · exact .after fun _ => hg.assignment ctx
  · exact .of_fail
  · exact .of_fail
  · exact .of_fail
  · exact .after fun _ => .pure (Node.placed_ofIdentifier _ ctx)

theorem gives_property : (g.property ctx).Gives fun p => (Node.property p).placed ctx := by
  have hname (name : PropertyName) : (Node.expr name.expr).placed ctx := by
    cases name <;> exact Node.placed_iff.2 ⟨rfl, List.forall_mem_nil _⟩
  refine .after fun _ => .after fun _ => ?_
  split
  · refine .after fun name => (gives_propertyValue hg ctx).bind fun value hvalue => .after fun _ => .pure ?_
    refine Node.placed_iff.2 ⟨rfl, ?_⟩
    exact List.forall_mem_cons.2 ⟨hname name, List.forall_mem_singleton.2 hvalue⟩
  · refine .after fun _ => .after fun name => .after fun _ => (gives_functionRest hg).bind fun r hr => ?_
    refine .after fun _ => .after fun _ => .pure (Node.placed_iff.2 ⟨rfl, ?_⟩)
    exact List.forall_mem_cons.2 ⟨hname name, List.forall_mem_singleton.2 (Node.placed_functionExpr hr)⟩

theorem gives_properties (turns : Nat) : (g.properties ctx turns).Gives fun ps =>
    ∀ p ∈ ps, (Node.property p).placed ctx := by
  induction turns with
  | zero => exact gives_never
  | succ turns ih =>
    refine .after fun _ => ?_
    split
    · exact .pure (List.forall_mem_nil _)
    · refine (gives_property hg ctx).bind fun p hp => .after fun _ => ?_
      exact ih.bind fun ps hps => .pure (List.forall_mem_cons.2 ⟨hp, hps⟩)

theorem gives_objectLiteral : (g.objectLiteral ctx).Gives fun e => (Node.expr e).placed ctx := by
  refine .after fun _ => .after fun _ => .after fun _ => ?_
  refine (gives_properties hg _ _).bind fun ps hps => .after fun _ => .after fun _ => .pure ?_
  exact Node.placed_expr rfl rfl (List.forall_mem_map.2 fun p hp => Node.placed_of_noIn (hps p hp))

omit hg in
theorem gives_leaf {make : Loc → Expr} (hf : ∀ loc, (Node.expr (make loc)).callable? = none)
    (hm : ∀ loc, (Node.expr (make loc)).isPlacedIn ctx) (hc : ∀ loc, (Node.expr (make loc)).children = []) :
    (leaf make).Gives fun e => (Node.expr e).placed ctx := by
  refine .after fun _ => .after fun _ => .after fun loc => .pure (Node.placed_expr (hf loc) (hm loc) ?_)
  rw [hc loc]
  exact List.forall_mem_nil _

omit hg in
theorem gives_readNothing {cause : ParseCause} : (readNothing cause).Gives fun e => (Node.expr e).placed ctx :=
  .after fun _ => .of_fail

theorem gives_primary : (g.primary ctx).Gives fun e => (Node.expr e).placed ctx := by
  refine .after fun _ => ?_
  split
  · exact .after fun _ => .after fun _ => .after fun i => .pure (Node.placed_ofIdentifier i ctx)
  · exact .after fun _ => .pure (Node.placed_iff.2 ⟨rfl, List.forall_mem_nil _⟩)
  · exact gives_leaf ctx (fun _ => rfl) (fun _ => rfl) (fun _ => rfl)
  · exact gives_leaf ctx (fun _ => rfl) (fun _ => rfl) (fun _ => rfl)
  · exact gives_leaf ctx (fun _ => rfl) (fun _ => rfl) (fun _ => rfl)
  · exact gives_leaf ctx (fun _ => rfl) (fun _ => rfl) (fun _ => rfl)
  · exact gives_leaf ctx (fun _ => rfl) (fun _ => rfl) (fun _ => rfl)
  · exact gives_leaf ctx (fun _ => rfl) (fun _ => rfl) (fun _ => rfl)
  · exact gives_functionExpression hg ctx
  · exact gives_group hg ctx
  · exact gives_arrayLiteral hg ctx
  · exact gives_objectLiteral hg ctx
  iterate 5 exact gives_readNothing ctx

theorem gives_arguments : (g.arguments ctx).Gives fun es => ∀ e ∈ es, (Node.expr e).placed ctx := by
  refine .after fun _ => .after fun _ => ?_
  refine (gives_readList (P := fun e => (Node.expr e).placed ctx) (.after fun _ => ?_) _).bind fun es hes =>
    .after fun _ => .pure hes
  exact (hg.assignment _).mono fun e he => Node.placed_of_noIn he

theorem gives_member {object : Expr} (ho : (Node.expr object).placed ctx) :
    (g.member ctx object).Gives fun e => (Node.expr e).placed ctx := by
  refine .after fun _ => ?_
  split
  · refine .after fun name => .after fun _ => .pure (Node.placed_expr rfl rfl ?_)
    exact List.forall_mem_cons.2 ⟨ho, List.forall_mem_singleton.2 (Node.placed_ofIdentifier name ctx)⟩
  · refine .after fun _ => (gives_expression hg _).bind fun key hkey => .after fun _ => .after fun _ => ?_
    refine .pure (Node.placed_expr rfl rfl ?_)
    exact List.forall_mem_cons.2 ⟨ho, List.forall_mem_singleton.2 (Node.placed_of_noIn hkey)⟩

theorem gives_calleeMembers (turns : Nat) {callee : Expr} (h : (Node.expr callee).placed ctx) :
    (g.calleeMembers ctx turns callee).Gives fun e => (Node.expr e).placed ctx := by
  induction turns generalizing callee with
  | zero => exact gives_never
  | succ turns ih =>
    refine .after fun _ => .after fun _ => ?_
    split
    · exact (gives_member hg ctx h).bind fun e he => ih he
    · exact .pure h

theorem gives_newExpression : (g.newExpression ctx).Gives fun e => (Node.expr e).placed ctx := by
  refine .after fun _ => .after fun _ => .after fun _ => .after fun _ => ?_
  refine .join (hg.construct ctx) (gives_primary hg ctx) fun inner hi => .after fun _ => ?_
  refine (gives_calleeMembers hg ctx _ hi).bind fun callee hcallee => .after fun _ => ?_
  refine .join (gives_arguments hg ctx) (.pure (List.forall_mem_nil _)) fun args ha => ?_
  refine .after fun _ => .pure (Node.placed_expr rfl rfl ?_)
  exact List.forall_mem_cons.2 ⟨hcallee, List.forall_mem_map.2 ha⟩

theorem gives_operandTail (start : Position) (turns : Nat) {e : Expr} (he : (Node.expr e).placed ctx) :
    (g.operandTail ctx start turns e).Gives fun e => (Node.expr e).placed ctx := by
  induction turns generalizing e with
  | zero => exact gives_never
  | succ turns ih =>
    refine .after fun _ => ?_
    split
    · exact (gives_member hg ctx he).bind fun e he => ih he
    · exact (gives_member hg ctx he).bind fun e he => ih he
    · refine (gives_arguments hg ctx).bind fun args ha => .after fun _ => ih (Node.placed_expr rfl rfl ?_)
      exact List.forall_mem_cons.2 ⟨he, List.forall_mem_map.2 ha⟩
    · exact .of_fail
    · exact .pure he

theorem gives_operand : (g.operand ctx).Gives fun e => (Node.expr e).placed ctx := by
  refine .after fun _ => .after fun _ => ?_
  refine .join (gives_newExpression hg ctx) (gives_primary hg ctx) fun e he => ?_
  exact .after fun _ => gives_operandTail hg ctx _ _ he

theorem gives_unaryExpression : (g.unaryExpression ctx).Gives fun e => (Node.expr e).placed ctx := by
  have hupdate {loc : Loc} {op : UpdateOp} {leading : Bool} {e : Expr} (ht : ¬¬e.isTarget)
      (he : (Node.expr e).placed ctx) : (Node.expr (.update loc op leading e)).placed ctx :=
    Node.placed_expr rfl (Decidable.not_not.1 ht) (List.forall_mem_singleton.2 he)
  refine .after fun _ => ?_
  split
  · refine .after fun _ => (hg.unary ctx).bind fun e he => .after fun _ => .after fun _ => .pure ?_
    exact Node.placed_expr rfl rfl (List.forall_mem_singleton.2 he)
  · refine .after fun _ => (hg.unary ctx).bind fun e he => .of_failIf fun ht => ?_
    exact .after fun _ => .pure (hupdate ht he)
  · refine (gives_operand hg ctx).bind fun e he => .after fun _ => ?_
    split
    · split
      · exact .pure he
      · exact .of_failIf fun ht => .after fun _ => .after fun _ => .pure (hupdate ht he)
    · exact .pure he

theorem gives_binaryTail (least : Nat) (start : Position) (turns : Nat) {left : Expr}
    (hl : (Node.expr left).placed ctx) :
    (g.binaryTail ctx least start turns left).Gives fun e => (Node.expr e).placed ctx := by
  induction turns generalizing left with
  | zero => exact gives_never
  | succ turns ih =>
    refine .after fun _ => ?_
    split
    · exact .pure hl
    · rename_i op
      refine .after fun _ => (hg.binary ctx _).bind fun right hr => .after fun _ => ih ?_
      have hparts : ∀ c ∈ [Node.expr left, .expr right], c.placed ctx :=
        List.forall_mem_cons.2 ⟨hl, List.forall_mem_singleton.2 hr⟩
      cases op with
      | binary => exact Node.placed_expr rfl rfl hparts
      | logical => exact Node.placed_expr rfl rfl hparts

theorem gives_binaryExpression (least : Nat) :
    (g.binaryExpression ctx least).Gives fun e => (Node.expr e).placed ctx :=
  .after fun _ => (gives_unaryExpression hg ctx).bind fun _ hl => .after fun _ => gives_binaryTail hg ctx least _ _ hl

theorem gives_conditionalExpression : (g.conditionalExpression ctx).Gives fun e => (Node.expr e).placed ctx := by
  refine .after fun _ => (gives_binaryExpression hg ctx 0).bind fun test ht => .after fun _ => ?_
  split
  · refine (hg.assignment _).bind fun consequent hc => .after fun _ => (hg.assignment ctx).bind fun alternate ha => ?_
    refine .after fun _ => .pure (Node.placed_expr rfl rfl ?_)
    refine List.forall_mem_cons.2 ⟨ht, List.forall_mem_cons.2 ⟨Node.placed_of_noIn hc, ?_⟩⟩
    exact List.forall_mem_singleton.2 ha
  · exact .pure ht

theorem gives_assignmentExpression : (g.assignmentExpression ctx).Gives fun e => (Node.expr e).placed ctx := by
  refine .after fun _ => (gives_conditionalExpression hg ctx).bind fun left hl => .after fun _ => .after fun _ => ?_
  split
  · exact .pure hl
  · refine .of_failIf fun ht => .after fun _ => (hg.assignment ctx).bind fun right hr => .after fun _ => ?_
    refine .pure (Node.placed_expr rfl (Decidable.not_not.1 ht) ?_)
    exact List.forall_mem_cons.2 ⟨hl, List.forall_mem_singleton.2 hr⟩

theorem gives_fullExpression : (g.fullExpression ctx).Gives fun e => (Node.expr e).placed ctx :=
  gives_sequenceOf (gives_assignmentExpression hg ctx) (hg.assignment ctx)

/-! ### Statements -/

theorem gives_declarator : (g.declarator ctx).Gives fun d => (Node.declarator d).placed ctx := by
  have hsome : (some <$> g.assignment ctx).Gives fun init => ∀ e ∈ init.toList, (Node.expr e).placed ctx :=
    (hg.assignment ctx).map fun e he => List.forall_mem_singleton.2 he
  refine .after fun _ => .after fun _ => .after fun name => .after fun _ => ?_
  refine .join hsome (.pure (List.forall_mem_nil _)) fun init hi => .after fun _ => .pure ?_
  refine Node.placed_iff.2 ⟨rfl, List.forall_mem_cons.2 ⟨Node.placed_ofIdentifier name ctx, ?_⟩⟩
  exact List.forall_mem_map.2 hi

theorem gives_variableDeclaration :
    (g.variableDeclaration ctx).Gives fun d => (Node.stmt (.var d)).placed ctx := by
  have hall (turns : Nat) : (g.declarators ctx turns).Gives fun ds => ∀ d ∈ ds, (Node.declarator d).placed ctx := by
    induction turns with
    | zero => exact gives_never
    | succ turns ih =>
      refine (gives_declarator hg ctx).bind fun d hd => .after fun _ => ?_
      split
      · exact ih.bind fun ds hds => .pure (List.forall_mem_cons.2 ⟨hd, hds⟩)
      · exact .pure (List.forall_mem_singleton.2 hd)
  refine .after fun _ => .after fun _ => .after fun _ => (hall _).bind fun ds hds => .after fun _ => .pure ?_
  exact Node.placed_iff.2 ⟨rfl, List.forall_mem_map.2 hds⟩

theorem gives_condition : (g.condition ctx).Gives fun e => (Node.expr e).placed ctx :=
  .after fun _ => (gives_expression hg ctx).bind fun _ he => .after fun _ => .pure he

theorem gives_block : (g.block ctx).Gives fun b => (Node.stmt (.block b)).placed ctx :=
  gives_readBlock (hg.statement ctx)

theorem gives_functionDeclaration : g.functionDeclaration.Gives fun s => (Node.stmt s).placed ctx := by
  refine .after fun _ => .after fun _ => .after fun _ => .after fun name => ?_
  refine (gives_functionRest hg).bind fun r hr => .after fun _ => .pure ?_
  refine Node.placed_iff.2 ⟨rfl, List.forall_mem_cons.2 ⟨Node.placed_ofIdentifier name _, ?_⟩⟩
  exact List.forall_mem_append.2 ⟨Node.forall_mem_ofIdentifier _ _, List.forall_mem_singleton.2 hr⟩

theorem gives_returnStatement : (g.returnStatement ctx).Gives fun s => (Node.stmt s).placed ctx := by
  have hsome : (some <$> g.expression ctx).Gives fun argument => ∀ e ∈ argument.toList, (Node.expr e).placed ctx :=
    (gives_expression hg ctx).map fun e he => List.forall_mem_singleton.2 he
  refine .after fun _ => .of_failIf fun hf => .after fun _ => .after fun _ => ?_
  refine .join (.pure (List.forall_mem_nil _)) hsome fun argument ha => .after fun _ => .after fun _ => .pure ?_
  exact Node.placed_iff.2 ⟨by simpa [Node.isPlacedIn] using hf, List.forall_mem_map.2 ha⟩

theorem gives_ifStatement : (g.ifStatement ctx).Gives fun s => (Node.stmt s).placed ctx := by
  refine .after fun _ => .after fun _ => (gives_condition hg ctx).bind fun test ht => ?_
  refine (hg.statement ctx).bind fun consequent hc => .after fun _ => ?_
  split
  · refine .after fun _ => (hg.statement ctx).bind fun alternate ha => .after fun _ => .pure ?_
    refine Node.placed_iff.2 ⟨rfl, List.forall_mem_cons.2 ⟨ht, List.forall_mem_cons.2 ⟨hc, ?_⟩⟩⟩
    exact List.forall_mem_singleton.2 ha
  · refine .after fun _ => .pure ?_
    exact Node.placed_iff.2 ⟨rfl, List.forall_mem_cons.2 ⟨ht, List.forall_mem_singleton.2 hc⟩⟩

omit hg in
/-- What stands around a loop stands in it too. -/
theorem placed_inLoop {ctx : Context} {n : Node} (h : n.placed ctx) : n.placed { ctx with inLoop := true } := by
  have hallows : ctx.Allows { ctx with inLoop := true } := ⟨id, fun _ => rfl, id⟩
  exact Node.placed_mono hallows h

theorem gives_loopBody : (g.loopBody ctx).Gives fun s => (Node.stmt s).placed { ctx with inLoop := true } :=
  hg.statement _

theorem gives_whileStatement : (g.whileStatement ctx).Gives fun s => (Node.stmt s).placed ctx := by
  refine .after fun _ => .after fun _ => (gives_condition hg ctx).bind fun test ht => ?_
  refine (gives_loopBody hg ctx).bind fun body hb => .after fun _ => .pure (Node.placed_iff.2 ⟨rfl, ?_⟩)
  exact List.forall_mem_cons.2 ⟨placed_inLoop ht, List.forall_mem_singleton.2 hb⟩

theorem gives_doWhileStatement : (g.doWhileStatement ctx).Gives fun s => (Node.stmt s).placed ctx := by
  refine .after fun _ => .after fun _ => (gives_loopBody hg ctx).bind fun body hb => .after fun _ => ?_
  refine (gives_condition hg ctx).bind fun test ht => .after fun _ => .after fun _ => ?_
  refine .pure (Node.placed_iff.2 ⟨rfl, ?_⟩)
  exact List.forall_mem_cons.2 ⟨hb, List.forall_mem_singleton.2 (placed_inLoop ht)⟩

theorem gives_forInRest (start : Position) {left : ForHead} (hl : left.node.placed ctx)
    (ht : ∀ e, left = .expr e → e.isTarget) :
    (g.forInRest ctx start left).Gives fun s => (Node.stmt s).placed ctx := by
  refine .after fun _ => (gives_expression hg ctx).bind fun right hr => .after fun _ => ?_
  refine (gives_loopBody hg ctx).bind fun body hb => .after fun _ => .pure (Node.placed_iff.2 ⟨?_, ?_⟩)
  · cases left with
    | var => rfl
    | expr e => exact ht e rfl
  · refine List.forall_mem_cons.2 ⟨placed_inLoop hl, List.forall_mem_cons.2 ⟨placed_inLoop hr, ?_⟩⟩
    exact List.forall_mem_singleton.2 hb

theorem gives_forRest (start : Position) {init : Option ForHead} (hi : ∀ head ∈ init.toList, head.node.placed ctx) :
    (g.forRest ctx start init).Gives fun s => (Node.stmt s).placed ctx := by
  have hoptional (close : Punctuator) : (g.optionalExpression ctx close).Gives fun part =>
      ∀ e ∈ part.toList, (Node.expr e).placed { ctx with inLoop := true } := by
    refine .after fun _ => ?_
    split
    · exact .pure (List.forall_mem_nil _)
    · exact (gives_expression hg ctx).bind fun e he => .pure (List.forall_mem_singleton.2 (placed_inLoop he))
  refine .after fun _ => .after fun _ => .after fun _ => (hoptional _).bind fun test ht => .after fun _ => ?_
  refine (hoptional _).bind fun update hu => .after fun _ => (gives_loopBody hg ctx).bind fun body hb => ?_
  refine .after fun _ => .pure (Node.placed_iff.2 ⟨rfl, ?_⟩)
  refine List.forall_mem_append.2 ⟨List.forall_mem_append.2 ⟨List.forall_mem_append.2 ⟨?_, ?_⟩, ?_⟩, ?_⟩
  · exact List.forall_mem_map.2 fun head hh => placed_inLoop (hi head hh)
  · exact List.forall_mem_map.2 ht
  · exact List.forall_mem_map.2 hu
  · exact List.forall_mem_singleton.2 hb

theorem gives_forStatement : (g.forStatement ctx).Gives fun s => (Node.stmt s).placed ctx := by
  refine .after fun _ => .after fun _ => .after fun _ => .after fun _ => ?_
  split
  · exact gives_forRest hg ctx _ (List.forall_mem_nil _)
  · refine (gives_variableDeclaration hg _).bind fun decl hd => .after fun _ => ?_
    have hd : (Node.stmt (.var decl)).placed ctx := Node.placed_of_noIn hd
    split
    · exact gives_forInRest hg ctx _ hd fun e he => by cases he
    · exact gives_forRest hg ctx _ (List.forall_mem_singleton.2 hd)
  · exact .of_fail
  · exact .of_fail
  · refine (gives_expression hg _).bind fun e he => .after fun _ => ?_
    have he : (Node.expr e).placed ctx := Node.placed_of_noIn he
    split
    · split
      · rename_i ht
        refine gives_forInRest hg ctx _ he fun e' he' => ?_
        cases he'
        exact ht
      · exact .of_fail
    · exact gives_forRest hg ctx _ (List.forall_mem_singleton.2 he)

omit hg in
theorem gives_breakStatement : (breakStatement ctx).Gives fun s => (Node.stmt s).placed ctx := by
  refine .after fun _ => .after fun _ => .after fun label => .of_failIf fun h => ?_
  refine .after fun _ => .after fun _ => .pure (Node.placed_iff.2 ⟨?_, ?_⟩)
  · cases label with
    | none => simpa [Node.isPlacedIn, imp_iff_not_or] using h
    | some => rfl
  · exact Node.forall_mem_ofIdentifier _ _

omit hg in
theorem gives_continueStatement : (continueStatement ctx).Gives fun s => (Node.stmt s).placed ctx := by
  refine .after fun _ => .after fun _ => .after fun label => .of_failIf fun h => ?_
  refine .after fun _ => .after fun _ => .pure (Node.placed_iff.2 ⟨?_, ?_⟩)
  · cases label with
    | none => simpa [Node.isPlacedIn] using h
    | some => rfl
  · exact Node.forall_mem_ofIdentifier _ _

theorem gives_switchCases (hasDefault : Bool) (turns : Nat) :
    (g.switchCases ctx hasDefault turns).Gives fun cs => ∀ c ∈ cs, (Node.switchCase c).placed ctx := by
  have htest (hasDefault : Bool) : (g.caseTest ctx hasDefault).Gives fun test =>
      ∀ e ∈ test.toList, (Node.expr e).placed ctx := by
    refine .after fun _ => ?_
    split
    · exact .after fun _ => (gives_expression hg ctx).bind fun e he => .pure (List.forall_mem_singleton.2 he)
    · exact .after fun _ => .after fun _ => .pure (List.forall_mem_nil _)
    · exact .of_fail
  induction turns generalizing hasDefault with
  | zero => exact gives_never
  | succ turns ih =>
    refine .after fun _ => ?_
    split
    · exact .pure (List.forall_mem_nil _)
    · refine .after fun _ => (htest _).bind fun test ht => .after fun _ => .after fun _ => ?_
      refine (gives_readStatements (hg.statement ctx) _).bind fun body hb => .after fun loc => ?_
      refine (ih _).bind fun cs hcs => .pure (List.forall_mem_cons.2 ⟨Node.placed_iff.2 ⟨rfl, ?_⟩, hcs⟩)
      exact List.forall_mem_append.2 ⟨List.forall_mem_map.2 ht, List.forall_mem_map.2 hb⟩

theorem gives_switchStatement : (g.switchStatement ctx).Gives fun s => (Node.stmt s).placed ctx := by
  refine .after fun _ => .after fun _ => (gives_condition hg ctx).bind fun d hd => .after fun _ => .after fun _ => ?_
  refine (gives_switchCases hg _ false _).bind fun cs hcs => .after fun _ => .after fun _ => ?_
  refine .pure (Node.placed_iff.2 ⟨rfl, List.forall_mem_cons.2 ⟨?_, List.forall_mem_map.2 hcs⟩⟩)
  have hallows : ctx.Allows { ctx with inSwitch := true } := ⟨id, id, fun _ => rfl⟩
  exact Node.placed_mono hallows hd

theorem gives_throwStatement : (g.throwStatement ctx).Gives fun s => (Node.stmt s).placed ctx := by
  refine .after fun _ => .after fun _ => .after fun _ => .after fun _ => (gives_expression hg ctx).bind fun e he => ?_
  exact .after fun _ => .after fun _ => .pure (Node.placed_iff.2 ⟨rfl, List.forall_mem_singleton.2 he⟩)

theorem gives_catchClause : (g.catchClause ctx).Gives fun handler =>
    ∀ c ∈ handler.toList, (Node.catchClause c).placed ctx := by
  refine .after fun _ => ?_
  split
  · refine .after fun _ => .after fun _ => .after fun _ => .after fun param => .after fun _ => ?_
    refine (gives_block hg ctx).bind fun body hb => .after fun _ => .pure (List.forall_mem_singleton.2 ?_)
    refine Node.placed_iff.2 ⟨rfl, List.forall_mem_cons.2 ⟨Node.placed_ofIdentifier param ctx, ?_⟩⟩
    exact List.forall_mem_singleton.2 hb
  · exact .pure (List.forall_mem_nil _)

theorem gives_finallyBlock : (g.finallyBlock ctx).Gives fun finalizer =>
    ∀ b ∈ finalizer.toList, (Node.stmt (.block b)).placed ctx := by
  refine .after fun _ => ?_
  split
  · exact .after fun _ => (gives_block hg ctx).bind fun b hb => .pure (List.forall_mem_singleton.2 hb)
  · exact .pure (List.forall_mem_nil _)

theorem gives_tryStatement : (g.tryStatement ctx).Gives fun s => (Node.stmt s).placed ctx := by
  refine .after fun _ => .after fun _ => (gives_block hg ctx).bind fun block hb => ?_
  refine (gives_catchClause hg ctx).bind fun handler hh => (gives_finallyBlock hg ctx).bind fun finalizer hf => ?_
  refine .after fun _ => .after fun _ => .pure (Node.placed_iff.2 ⟨rfl, List.forall_mem_cons.2 ⟨hb, ?_⟩⟩)
  exact List.forall_mem_append.2 ⟨List.forall_mem_map.2 hh, List.forall_mem_map.2 hf⟩

theorem gives_withStatement : (g.withStatement ctx).Gives fun s => (Node.stmt s).placed ctx := by
  refine .after fun _ => .after fun _ => (gives_condition hg ctx).bind fun object ho => ?_
  refine (hg.statement ctx).bind fun body hb => .after fun _ => .pure (Node.placed_iff.2 ⟨rfl, ?_⟩)
  exact List.forall_mem_cons.2 ⟨ho, List.forall_mem_singleton.2 hb⟩

theorem gives_labeledStatement : (g.labeledStatement ctx).Gives fun s => (Node.stmt s).placed ctx := by
  refine .after fun _ => .after fun label => .after fun _ => (hg.statement ctx).bind fun body hb => .after fun _ => ?_
  refine .pure (Node.placed_iff.2 ⟨rfl, List.forall_mem_cons.2 ⟨Node.placed_ofIdentifier label ctx, ?_⟩⟩)
  exact List.forall_mem_singleton.2 hb

theorem gives_expressionStatement : (g.expressionStatement ctx).Gives fun s => (Node.stmt s).placed ctx := by
  refine .after fun _ => (gives_fullExpression hg ctx).bind fun e he => .after fun _ => .after fun _ => ?_
  exact .pure (Node.placed_iff.2 ⟨rfl, List.forall_mem_singleton.2 he⟩)

theorem gives_anyStatement : (g.anyStatement ctx).Gives fun s => (Node.stmt s).placed ctx := by
  refine .after fun _ => .after fun _ => ?_
  split
  · refine (gives_variableDeclaration hg ctx).bind fun decl hd => .after fun _ => .after fun _ => .pure ?_
    exact Node.placed_iff.2 ⟨rfl, (Node.placed_iff.1 hd).2⟩
  iterate 7 exact .of_fail
  · exact (gives_block hg ctx).bind fun b hb => .pure hb
  · exact gives_returnStatement hg ctx
  · exact gives_ifStatement hg ctx
  · exact gives_whileStatement hg ctx
  · exact gives_doWhileStatement hg ctx
  · exact gives_forStatement hg ctx
  · exact gives_breakStatement ctx
  · exact gives_continueStatement ctx
  · exact gives_switchStatement hg ctx
  · exact gives_throwStatement hg ctx
  · exact gives_tryStatement hg ctx
  · exact gives_functionDeclaration hg ctx
  · exact .after fun _ => .after fun _ => .after fun _ => .pure (Node.placed_iff.2 ⟨rfl, List.forall_mem_nil _⟩)
  · exact .after fun _ => .after fun _ => .pure (Node.placed_iff.2 ⟨rfl, List.forall_mem_nil _⟩)
  · exact gives_withStatement hg ctx
  · refine .after fun _ => ?_
    split
    · exact gives_labeledStatement hg ctx
    · exact gives_expressionStatement hg ctx
  · exact gives_expressionStatement hg ctx

/-- Readers that use a grammar whose parts stand in their places give what stands in its place. -/
theorem Places.extend : g.extend.Places where
  statement := gives_anyStatement hg
  assignment := gives_assignmentExpression hg
  binary := gives_binaryExpression hg
  unary := gives_unaryExpression hg
  construct := gives_newExpression hg

omit hg in
theorem places_nested (n : Nat) : (nested n).Places := by
  induction n with
  | zero =>
    exact ⟨fun _ => gives_never, fun _ => gives_never, fun _ _ => gives_never, fun _ => gives_never,
      fun _ => gives_never⟩
  | succ n ih => exact ih.extend

end Grammar

/-- In a program that was read, jumps and targets are in their places. -/
theorem Program.placed_of_parse {source name : String} {first : Int} {p : Program}
    (h : Program.parse source first name = .ok p) : (Node.program p).placed {} := by
  obtain ⟨body, stop, s, hr, rfl⟩ := Program.exists_read_of_parse h
  have hbody : (readProgram (.nested (tokenize source).length)).Gives fun r => ∀ s ∈ r.1, (Node.stmt s).placed {} := by
    refine .after fun _ => .after fun _ => ?_
    refine (gives_readStatements ((Grammar.places_nested _).statement {}) _).bind fun body hb => .after fun _ => ?_
    exact .pure hb
  refine Node.placed_of_outline (Program.outline_number _ first name) (Node.placed_iff.2 ⟨rfl, ?_⟩)
  exact List.forall_mem_map.2 (hbody _ _ _ hr)

end Stepwise

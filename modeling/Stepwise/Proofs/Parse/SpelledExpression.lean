import Stepwise.Proofs.Parse.Track

/-!
# Expressions are spelled by their tokens

* `Grammar.Spelled`: what the readers of a grammar give is spelled by the tokens that they take.
* `Grammar.yields_assignmentExpression` and the like: so is what the readers of expressions give that use it.
-/

namespace Stepwise

open Reader

variable {s s₀ : Stream}

/-! ### Words and lists -/

theorem reads_name {k : TokenKind} {s' : Stream} (hs : s.IsSound) (h : s.Shifts k s') (hp : k.isPlain)
    (hv : k.isVerbatim) : s.Reads (.ofIdentifier ⟨.span s.current.start s'.previousStop, s.current.text⟩) s' := by
  have hname : s.current.text ≠ "" := hs.verbatim s.current List.mem_cons_self (h.kind ▸ hv)
  have hregular : Node.isRegular (.ofIdentifier ⟨.span s.current.start s'.previousStop, s.current.text⟩) :=
    Node.isRegular_iff.2 ⟨decide_eq_true hname, List.forall_mem_nil _⟩
  exact (h.covers hp).reads rfl hregular rfl

/-- A name is no keyword. -/
theorem yields_readIdentifier :
    readIdentifier.Yields s fun i s' => s.Reads (.ofIdentifier i) s' ∧ isBindable i.name := by
  have htake : (takeName s.current).Yields s fun _ s' => s.Shifts .identifier s' := by
    unfold takeName
    split
    · next hk => exact yields_advance hk (by simp)
    · exact yields_fail
    · exact yields_fail
  refine .of_sound fun hs => .of_current (htake.bind fun _ s₁ h => .of_spanFrom (yields_pure ⟨?_, ?_⟩))
  · exact reads_name hs h rfl rfl
  · exact decide_eq_true (hs.names s.current List.mem_cons_self h.kind)

theorem yields_readPropertyIdentifier :
    readPropertyIdentifier.Yields s fun i s' => s.Reads (.ofIdentifier i) s' := by
  have htake : (takePropertyName s.current).Yields s fun _ s' =>
      ∃ k : TokenKind, k.isPlain ∧ k.isVerbatim ∧ s.Shifts k s' := by
    unfold takePropertyName
    split
    · next hk => exact (yields_advance hk (by simp)).mono fun _ s₁ h => ⟨_, rfl, rfl, h⟩
    · next hk => exact (yields_advance hk (by simp)).mono fun _ s₁ h => ⟨_, rfl, rfl, h⟩
    · exact yields_fail
  refine .of_sound fun hs => .of_current (htake.bind fun _ s₁ h => .of_spanFrom (yields_pure ?_))
  obtain ⟨k, hp, hv, h⟩ := h
  exact reads_name hs h hp hv

theorem yields_readNumberLiteral (hk : s.current.kind = .number) :
    readNumberLiteral.Yields s fun n s' => s.Reads (.expr (.number n.1 n.2.1 n.2.2)) s' := by
  refine .of_current (.of_failIf fun _ => .of_advance hk (by simp) fun s' hs' => .of_spanFrom (yields_pure ?_))
  exact (hs'.covers rfl).reads rfl rfl rfl

/-- An expression is not given without an error where there is none. -/
theorem yields_readNothing {cause : ParseCause} {Q : Expr → Stream → Prop} : (readNothing cause).Yields s Q :=
  .of_here .of_fail

theorem yields_refusePattern : refusePattern.Yields s fun _ s' => s' = s := by
  refine .of_kind fun hs _ s' h => ?_
  obtain ⟨-, rfl⟩ := of_returns_failIf h
  exact ⟨hs, rfl⟩

section

variable {α : Type} {item : Reader α}

theorem yields_readList (node : α → Node) (close : Punctuator) (hi : ∀ s, item.Yields s fun a s' => s.Reads (node a) s')
    (turns : Nat) :
    (readList close item turns).Yields s fun l s' => s.Passes (l.map node) s' := by
  induction turns generalizing s with
  | zero => exact yields_never
  | succ turns ih =>
    refine .of_isAt_or (fun _ => yields_pure (.refl s)) ?_
    refine (hi s).bind fun x s₁ hx => .of_skipMark (fun s₂ hcomma => ?_) fun _ => yields_pure hx.passes
    exact ih.bind fun l s₃ hl => yields_pure (hx.passes.trans ((hcomma.passes rfl).trans hl))

end

theorem yields_readStatements {ends : TokenKind → Bool} {statement : Reader Stmt}
    (hs : ∀ s, statement.Yields s fun x s' => s.Reads (.stmt x) s') (turns : Nat) :
    (readStatements ends statement turns).Yields s fun l s' => s.Passes (l.map .stmt) s' ∧ ends s'.current.kind := by
  induction turns generalizing s with
  | zero => exact yields_never
  | succ turns ih =>
    refine .of_kind ?_
    split
    · next hends => exact yields_pure ⟨.refl s, hends⟩
    · refine (hs s).bind fun x s₁ hx => ih.bind fun l s₂ hl => yields_pure ⟨?_, hl.2⟩
      exact hx.passes.trans hl.1

theorem yields_readBlock {statement : Reader Stmt} (hs : ∀ s, statement.Yields s fun x s' => s.Reads (.stmt x) s') :
    (readBlock statement).Yields s fun b s' => s.Reads (.stmt (.block b)) s' := by
  refine .of_here (.of_expectMark fun s₁ hl => .of_turns fun turns => ?_)
  refine (yields_readStatements hs turns).bind fun body s₂ hbody => .of_expectMark fun s₃ hr => .of_spanFrom ?_
  exact yields_pure ((hl.encloses hbody.1 hr rfl).reads rfl rfl rfl)

theorem yields_readParameters (seen : List String) (turns : Nat) :
    (readParameters seen turns).Yields s fun ps s' => s.Passes (ps.map .ofIdentifier) s' ∧
      (ps.map Identifier.name).Nodup ∧ (∀ i ∈ ps, i.name ∉ seen) ∧ ∀ x ∈ ps.map Identifier.name, isBindable x := by
  induction turns generalizing s seen with
  | zero => exact yields_never
  | succ turns ih =>
    refine .of_isAt_or (fun _ => yields_pure ⟨.refl s, .nil, List.forall_mem_nil _, List.forall_mem_nil _⟩) ?_
    refine .of_refuseAt (yields_refusePattern.bind fun _ s₁ hs₁ => ?_)
    subst hs₁
    refine yields_readIdentifier.bind fun i s₁ hi => .of_failIf fun hseen => .of_refuseAt ?_
    refine .of_skipMark (fun s₂ hcomma => ?_) fun _ => ?_
    · refine (ih (i.name :: seen)).bind fun ps s₃ hps => yields_pure ⟨?_, ?_, ?_, ?_⟩
      · exact hi.1.passes.trans ((hcomma.passes rfl).trans hps.1)
      · refine List.nodup_cons.2 ⟨fun hmem => ?_, hps.2.1⟩
        obtain ⟨j, hj, hname⟩ := List.mem_map.1 hmem
        exact hps.2.2.1 j hj (hname ▸ List.mem_cons_self)
      · exact List.forall_mem_cons.2 ⟨hseen, fun j hj hmem => hps.2.2.1 j hj (List.mem_cons_of_mem _ hmem)⟩
      · exact List.forall_mem_cons.2 ⟨hi.2, hps.2.2.2⟩
    · exact yields_pure ⟨hi.1.passes, List.pairwise_singleton _ _, List.forall_mem_singleton.2 hseen,
        List.forall_mem_singleton.2 hi.2⟩

/-! ### Operators -/

theorem UnaryOp.isPlain_of_ofToken? {k : TokenKind} {op : UnaryOp} (h : ofToken? k = some op) : k.isPlain := by
  unfold ofToken? at h
  split at h <;> first | rfl | cases h

theorem UpdateOp.isPlain_of_ofToken? {k : TokenKind} {op : UpdateOp} (h : ofToken? k = some op) : k.isPlain := by
  unfold ofToken? at h
  split at h <;> first | rfl | cases h

theorem BinaryOp.isPlain_of_ofToken? {k : TokenKind} {op : BinaryOp} (h : ofToken? k = some op) : k.isPlain := by
  unfold ofToken? at h
  split at h <;> first | rfl | cases h

theorem LogicalOp.isPlain_of_ofToken? {k : TokenKind} {op : LogicalOp} (h : ofToken? k = some op) : k.isPlain := by
  unfold ofToken? at h
  split at h <;> first | rfl | cases h

theorem Connective.isPlain_of_ofToken? {k : TokenKind} {op : Connective} (h : ofToken? k = some op) : k.isPlain := by
  unfold ofToken? at h
  split at h
  · next hop => exact LogicalOp.isPlain_of_ofToken? hop
  · obtain ⟨op, hop, -⟩ := Option.map_eq_some_iff.1 h
    exact BinaryOp.isPlain_of_ofToken? hop

/-- An assignment is written with a word of its own, and only with operators that can be part of it. -/
theorem AssignOp.isPlain_of_ofToken? {k : TokenKind} {op : AssignOp} (h : ofToken? k = some op) :
    k.isPlain ∧ op.binary?.all BinaryOp.isAssignable := by
  unfold ofToken? at h
  split at h <;> cases h <;> exact ⟨rfl, rfl⟩

namespace Grammar

/-- What the readers of the grammar give is spelled by the tokens that they take. -/
structure Spelled (g : Grammar) : Prop where
  statement : ∀ ctx s, (g.statement ctx).Yields s fun x s' => s.Reads (.stmt x) s'
  assignment : ∀ ctx s, (g.assignment ctx).Yields s fun e s' => s.Reads (.expr e) s'
  binary : ∀ ctx least s, (g.binary ctx least).Yields s fun e s' => s.Reads (.expr e) s'
  unary : ∀ ctx s, (g.unary ctx).Yields s fun e s' => s.Reads (.expr e) s'
  construct : ∀ ctx s, s.current.kind = .keyword .new → (g.construct ctx).Yields s fun e s' => s.Reads (.expr e) s'

variable {g : Grammar} {ctx : Context}

/-! ### Expressions -/

theorem yields_restOfSequence {item : Reader Expr} (hi : ∀ s, item.Yields s fun e s' => s.Reads (.expr e) s')
    (turns : Nat) :
    (restOfSequence item turns).Yields s fun es s' => s.Passes (es.map .expr) s' ∧ (es = [] → s' = s) := by
  induction turns generalizing s with
  | zero => exact yields_never
  | succ turns ih =>
    refine .of_skipMark (fun s₁ hcomma => ?_) fun _ => yields_pure ⟨.refl s, fun _ => rfl⟩
    refine (hi s₁).bind fun e s₂ he => ih.bind fun es s₃ hes => yields_pure ⟨?_, fun h => by cases h⟩
    exact (hcomma.passes rfl).trans (he.passes.trans hes.1)

theorem yields_sequenceOf {first item : Reader Expr} (hf : first.Yields s fun e s' => s.Reads (.expr e) s')
    (hi : ∀ s, item.Yields s fun e s' => s.Reads (.expr e) s') :
    (sequenceOf first item).Yields s fun e s' => s.Reads (.expr e) s' := by
  refine .of_here (hf.bind fun e s₁ he => .of_turns fun turns => ?_)
  refine (yields_restOfSequence hi turns).bind fun es s₂ hes => ?_
  cases es with
  | nil =>
    cases hes.2 rfl
    exact yields_pure he
  | cons e' es =>
    refine .of_spanFrom (yields_pure ((he.covers.trans hes.1).reads rfl ?_ rfl))
    exact Node.isRegular_iff.2 ⟨by simp [Node.isLawful], List.forall_mem_nil _⟩

theorem yields_leaf {make : Loc → Expr} {k : TokenKind} (hk : s.current.kind = k) (hp : k.isPlain)
    (hl : ∀ loc, (make loc).loc = loc) (hm : ∀ loc, (Node.expr (make loc)).isRegular)
    (hc : ∀ loc, (Node.expr (make loc)).children = []) :
    (leaf make).Yields s fun e s' => s.Reads (.expr e) s' := by
  refine .of_here (.of_advance hk (TokenKind.ne_eof_of_isPlain hp) fun s₁ h => .of_spanFrom (yields_pure ?_))
  exact (h.covers hp).reads (hl _) (hm _) (hc _).symm

section

variable (hg : g.Spelled)

include hg

theorem yields_expression : (g.expression ctx).Yields s fun e s' => s.Reads (.expr e) s' :=
  yields_sequenceOf (hg.assignment ctx s) (hg.assignment ctx)

theorem yields_functionRest : g.functionRest.Yields s fun r s' =>
    s.Covers (r.1.map .ofIdentifier ++ [.stmt (.block r.2)]) s' ∧ areDistinct r.1 ∧
      ∀ x ∈ r.1.map Identifier.name, isBindable x := by
  refine .of_expectMark fun s₁ hl => .of_turns fun turns => (yields_readParameters [] turns).bind fun ps s₂ hps => ?_
  refine .of_expectMark fun s₃ hr => (yields_readBlock (hg.statement _)).bind fun body s₄ hbody => yields_pure ?_
  exact ⟨(hl.encloses hps.1 hr rfl).trans hbody.passes, decide_eq_true hps.2.1, hps.2.2.2⟩

theorem yields_functionExpression (hk : s.current.kind = .keyword .function) :
    g.functionExpression.Yields s fun e s' => s.Reads (.expr e) s' := by
  have hrest {name : Option Identifier} {s₁ : Stream} (h : s.Covers (name.toList.map .ofIdentifier) s₁)
      (hname : ∀ x ∈ name.toList.map Identifier.name, isBindable x) :
      (do
        let r ← g.functionRest
        return .function (← spanFrom s.current.start) name r.1 r.2 : Reader Expr).Yields s₁ fun e s' =>
          s.Reads (.expr e) s' := by
    refine (yields_functionRest hg).bind fun r s₂ hr => .of_spanFrom (yields_pure ?_)
    have hregular : Node.isRegular (.expr (.function (.span s.current.start s₂.previousStop) name r.1 r.2)) :=
      Node.isRegular_iff.2 ⟨hr.2.1, List.forall_mem_append.2 ⟨hname, hr.2.2⟩⟩
    exact (h.trans hr.1.passes).reads rfl hregular (List.append_assoc ..).symm
  refine .of_here (.of_advance hk (by simp) fun s₁ hword => .of_refuseAt ?_)
  have hword := hword.covers rfl
  refine .of_isAt (fun _ => ?_) fun _ => ?_
  · refine .bind (P := fun name s' => s₁.Passes (name.toList.map .ofIdentifier) s' ∧
        ∀ x ∈ name.toList.map Identifier.name, isBindable x) ?_ fun name s₂ hn => ?_
    · exact yields_readIdentifier.map fun i s' hi => ⟨hi.1.passes, List.forall_mem_singleton.2 hi.2⟩
    · exact hrest (hword.trans hn.1) hn.2
  · exact hrest hword (List.forall_mem_nil _)

theorem yields_group (hk : s.current.kind = .punctuator .leftParen) :
    (g.group ctx).Yields s fun e s' => s.Reads (.expr e) s' := by
  refine .of_advance hk (by simp) fun s₁ hl => .of_refuseAt ?_
  refine (yields_expression hg).bind fun e s₂ he => .of_expectMark fun s₃ hr => ?_
  exact .of_refuseAt (yields_pure (hl.groups he hr))

theorem yields_arrayElements (turns : Nat) : (g.arrayElements ctx turns).Yields s fun es s' =>
    s.Passes ((es.flatMap Option.toList).map .expr) s' := by
  induction turns generalizing s with
  | zero => exact yields_never
  | succ turns ih =>
    refine .of_kind ?_
    split
    · exact yields_pure (.refl s)
    · exact yields_pure (.refl s)
    · next hk =>
      refine .of_advance hk (by simp) fun s₁ hcomma => ih.bind fun es s₂ hes => yields_pure ?_
      exact (hcomma.passes rfl).trans hes
    · refine .of_refuseAt ((hg.assignment ctx s).bind fun e s₁ he => ?_)
      refine .of_separate fun s₂ hcomma => ih.bind fun es s₃ hes => yields_pure ?_
      exact he.passes.trans (hcomma.trans hes)

theorem yields_arrayLiteral (hk : s.current.kind = .punctuator .leftBracket) :
    (g.arrayLiteral ctx).Yields s fun e s' => s.Reads (.expr e) s' := by
  refine .of_here (.of_advance hk (by simp) fun s₁ hl => .of_turns fun turns => ?_)
  refine (yields_arrayElements hg turns).bind fun es s₂ hes => .of_expectMark fun s₃ hr => .of_spanFrom ?_
  exact yields_pure ((hl.encloses hes hr rfl).reads rfl rfl rfl)

omit hg in
theorem yields_propertyName : propertyName.Yields s fun name s' => s.Reads (.expr name.expr) s' := by
  refine .of_current ?_
  split
  · next hk =>
    refine .of_advance hk (by simp) fun s₁ h => .of_spanFrom (yields_pure ?_)
    exact (h.covers rfl).reads rfl rfl rfl
  · next hk => exact (yields_readNumberLiteral hk).bind fun n s₁ hn => yields_pure hn
  · exact .of_refuseAt (yields_readPropertyIdentifier.bind fun i s₁ hi => yields_pure hi)

theorem yields_propertyValue : (g.propertyValue ctx).Yields s fun e s' => s.Covers [.expr e] s' := by
  refine .of_kind ?_
  split
  · next hk =>
    refine .of_advance hk (by simp) fun s₁ hcolon => (hg.assignment ctx s₁).mono fun e s₂ he => ?_
    exact (hcolon.covers rfl).trans he.passes
  · exact .of_fail
  · exact .of_fail
  · exact .of_fail
  · next hcolon _ _ _ => exact .of_expectMark fun s₁ h => absurd h.kind hcolon

theorem yields_property : (g.property ctx).Yields s fun p s' => s.Reads (.property p) s' := by
  have haccessor : accessorKind.Yields s fun k s' => s' = s ∧ (k ≠ .init → s.current.kind = .identifier) := by
    refine .of_current (.of_nextKind fun next => ?_)
    split
    · next hk =>
      split
      · exact yields_pure ⟨rfl, fun _ => hk.1⟩
      · split
        · exact yields_pure ⟨rfl, fun _ => hk.1⟩
        · exact yields_pure ⟨rfl, fun h => absurd rfl h⟩
    · exact yields_pure ⟨rfl, fun h => absurd rfl h⟩
  refine .of_here (haccessor.bind fun k s₁ hk => ?_)
  obtain ⟨rfl, hk⟩ := hk
  split
  · refine yields_propertyName.bind fun name s₂ hn => (yields_propertyValue hg).bind fun value s₃ hv => .of_spanFrom ?_
    exact yields_pure ((hn.covers.trans hv.passes).reads rfl rfl rfl)
  · next hinit =>
    refine .of_advance (hk hinit) (by simp) fun s₂ hword => yields_propertyName.bind fun name s₃ hn => .of_here ?_
    refine (yields_functionRest hg).bind fun r s₄ hr => .of_spanFrom (.of_spanFrom (yields_pure ?_))
    have hvalue : s₃.Reads (.expr (.function (.span s₃.current.start s₄.previousStop) none r.1 r.2)) s₄ :=
      hr.1.reads rfl (Node.isRegular_iff.2 hr.2) rfl
    exact ((hword.covers rfl).trans (hn.passes.trans hvalue.passes)).reads rfl rfl rfl

theorem yields_properties (turns : Nat) :
    (g.properties ctx turns).Yields s fun ps s' => s.Passes (ps.map .property) s' := by
  induction turns generalizing s with
  | zero => exact yields_never
  | succ turns ih =>
    refine .of_kind ?_
    split
    · exact yields_pure (.refl s)
    · refine (yields_property hg).bind fun p s₁ hp => .of_separate fun s₂ hcomma => ?_
      exact ih.bind fun ps s₃ hps => yields_pure (hp.passes.trans (hcomma.trans hps))

theorem yields_objectLiteral (hk : s.current.kind = .punctuator .leftBrace) :
    (g.objectLiteral ctx).Yields s fun e s' => s.Reads (.expr e) s' := by
  refine .of_here (.of_advance hk (by simp) fun s₁ hl => .of_turns fun turns => ?_)
  refine (yields_properties hg turns).bind fun ps s₂ hps => .of_expectMark fun s₃ hr => .of_spanFrom ?_
  exact yields_pure ((hl.encloses hps hr rfl).reads rfl rfl rfl)

theorem yields_primary : (g.primary ctx).Yields s fun e s' => s.Reads (.expr e) s' := by
  refine .of_current ?_
  split
  · refine .of_nextKind fun next => .of_failIf fun _ => ?_
    exact yields_readIdentifier.bind fun i s₁ hi => yields_pure hi.1
  · next hk => exact (yields_readNumberLiteral hk).bind fun n s₁ hn => yields_pure hn
  · next hk => exact yields_leaf hk rfl (fun _ => rfl) (fun _ => rfl) (fun _ => rfl)
  · next hk => exact yields_leaf hk rfl (fun _ => rfl) (fun _ => rfl) (fun _ => rfl)
  · next hk => exact yields_leaf hk rfl (fun _ => rfl) (fun _ => rfl) (fun _ => rfl)
  · next hk => exact yields_leaf hk rfl (fun _ => rfl) (fun _ => rfl) (fun _ => rfl)
  · next hk => exact yields_leaf hk rfl (fun _ => rfl) (fun _ => rfl) (fun _ => rfl)
  · next hk => exact yields_leaf hk rfl (fun _ => rfl) (fun _ => rfl) (fun _ => rfl)
  · next hk => exact yields_functionExpression hg hk
  · next hk => exact yields_group hg hk
  · next hk => exact yields_arrayLiteral hg hk
  · next hk => exact yields_objectLiteral hg hk
  iterate 5 exact yields_readNothing

theorem yields_arguments (hk : s.current.kind = .punctuator .leftParen) :
    (g.arguments ctx).Yields s fun es s' => s.Covers (es.map .expr) s' := by
  refine .of_advance hk (by simp) fun s₁ hl => .of_turns fun turns => ?_
  refine (yields_readList .expr _ (fun s => ?_) turns).bind fun es s₂ hes => .of_expectMark fun s₃ hr => ?_
  · exact .of_refuseAt (hg.assignment _ s)
  · exact yields_pure (hl.encloses hes hr rfl)

/-- A property of what was read from another stream. -/
theorem yields_member {object : Expr} (ho : s₀.Reads (.expr object) s)
    (hk : s.current.kind = .punctuator .dot ∨ s.current.kind = .punctuator .leftBracket) :
    (g.member ctx object).Yields s fun e s' => s₀.Reads (.expr e) s' := by
  refine .of_skipMark (fun s₁ hdot => ?_) fun hdot => ?_
  · refine yields_readPropertyIdentifier.bind fun i s₂ hi => .of_spanFrom (yields_pure ?_)
    exact ho.access ((hdot.covers rfl).trans hi.passes) rfl rfl rfl rfl
  · refine .of_advance (hk.resolve_left hdot) (by simp) fun s₁ hl => ?_
    refine (yields_expression hg).bind fun key s₂ hkey => .of_expectMark fun s₃ hr => .of_spanFrom (yields_pure ?_)
    exact ho.access (hl.encloses hkey.passes hr rfl) rfl rfl rfl rfl

theorem yields_calleeMembers (turns : Nat) {callee : Expr} (h : s₀.Reads (.expr callee) s) :
    (g.calleeMembers ctx turns callee).Yields s fun e s' => s₀.Reads (.expr e) s' := by
  induction turns generalizing s callee with
  | zero => exact yields_never
  | succ turns ih =>
    exact .of_isAt_or (fun hk => (yields_member hg h hk).bind fun e s₁ he => ih he) (yields_pure h)

theorem yields_newExpression (hk : s.current.kind = .keyword .new) :
    (g.newExpression ctx).Yields s fun e s' => s.Reads (.expr e) s' := by
  refine .of_here (.of_advance hk (by simp) fun s₁ hword => .of_refuseAt ?_)
  have hrest {inner : Expr} {s₂ : Stream} (hi : s₁.Reads (.expr inner) s₂) :
      (do
        let callee ← g.calleeMembers ctx (← turns) inner
        let args ← if ← isAtMark .leftParen then g.arguments ctx else pure []
        return .new (← spanFrom s.current.start) callee args : Reader Expr).Yields s₂ fun e s' =>
          s.Reads (.expr e) s' := by
    refine .of_turns fun turns => (yields_calleeMembers hg turns hi).bind fun callee s₃ hc => ?_
    have hc := (hword.covers rfl).trans hc.passes
    refine .of_isAt (fun hl => (yields_arguments hg hl).bind fun args s₄ ha => .of_spanFrom ?_) fun _ => ?_
    · exact yields_pure ((hc.trans ha.passes).reads rfl rfl rfl)
    · exact .of_pure (.of_spanFrom (yields_pure (hc.reads rfl rfl rfl)))
  refine .of_isAt (fun hnew => (hg.construct ctx s₁ hnew).bind fun inner s₂ hi => hrest hi) fun _ => ?_
  exact (yields_primary hg).bind fun inner s₂ hi => hrest hi

theorem yields_operandTail (turns : Nat) {e : Expr} (he : s₀.Reads (.expr e) s) :
    (g.operandTail ctx s₀.current.start turns e).Yields s fun e s' => s₀.Reads (.expr e) s' := by
  induction turns generalizing s e with
  | zero => exact yields_never
  | succ turns ih =>
    refine .of_kind ?_
    split
    · next hk => exact (yields_member hg he (.inl hk)).bind fun e s₁ he => ih he
    · next hk => exact (yields_member hg he (.inr hk)).bind fun e s₁ he => ih he
    · next hk =>
      refine (yields_arguments hg hk).bind fun args s₁ ha => .of_spanFrom (ih ?_)
      exact (he.covers.trans ha.passes).reads rfl rfl rfl
    · exact .of_fail
    · exact yields_pure he

theorem yields_operand : (g.operand ctx).Yields s fun e s' => s.Reads (.expr e) s' := by
  have hrest {e : Expr} {s₁ : Stream} (he : s.Reads (.expr e) s₁) :
      (do g.operandTail ctx s.current.start (← turns) e : Reader Expr).Yields s₁ fun e s' => s.Reads (.expr e) s' :=
    .of_turns fun turns => yields_operandTail hg turns he
  refine .of_here (.of_isAt (fun hk => ?_) fun _ => ?_)
  · exact (yields_newExpression hg hk).bind fun e s₁ he => hrest he
  · exact (yields_primary hg).bind fun e s₁ he => hrest he

theorem yields_unaryExpression : (g.unaryExpression ctx).Yields s fun e s' => s.Reads (.expr e) s' := by
  refine .of_current ?_
  split
  · next op hop =>
    have hp := UnaryOp.isPlain_of_ofToken? hop
    refine .of_advance rfl (TokenKind.ne_eof_of_isPlain hp) fun s₁ hword => (hg.unary ctx s₁).bind fun e s₂ he => ?_
    refine .of_failIf fun hname => .of_spanFrom (yields_pure (((hword.covers hp).trans he.passes).reads rfl ?_ rfl))
    refine Node.isRegular_iff.2 ⟨?_, List.forall_mem_nil _⟩
    cases op with
    | delete => cases e <;> first | rfl | exact absurd ⟨rfl, rfl⟩ hname
    | _ => rfl
  · next op hop =>
    have hp := UpdateOp.isPlain_of_ofToken? hop
    refine .of_advance rfl (TokenKind.ne_eof_of_isPlain hp) fun s₁ hword => (hg.unary ctx s₁).bind fun e s₂ he => ?_
    refine .of_failIf fun htarget => .of_spanFrom (yields_pure (((hword.covers hp).trans he.passes).reads rfl ?_ rfl))
    exact Node.isRegular_iff.2 ⟨Decidable.not_not.1 htarget, List.forall_mem_nil _⟩
  · refine (yields_operand hg).bind fun e s₁ he => .of_current ?_
    split
    · next op hop =>
      have hp := UpdateOp.isPlain_of_ofToken? hop
      split
      · exact yields_pure he
      · refine .of_failIf fun htarget => .of_advance rfl (TokenKind.ne_eof_of_isPlain hp) fun s₂ hword => ?_
        refine .of_spanFrom (yields_pure ((he.covers.trans (hword.passes hp)).reads rfl ?_ rfl))
        exact Node.isRegular_iff.2 ⟨Decidable.not_not.1 htarget, List.forall_mem_nil _⟩
    · exact yields_pure he

theorem yields_binaryTail (least : Nat) (turns : Nat) {left : Expr} (hl : s₀.Reads (.expr left) s) :
    (g.binaryTail ctx least s₀.current.start turns left).Yields s fun e s' => s₀.Reads (.expr e) s' := by
  have hop (s : Stream) : (connective? ctx least).Yields s fun op s' => s' = s ∧
      ∀ o ∈ op, s.current.kind.isPlain := by
    refine .of_kind (.of_failIf fun _ => yields_pure ⟨rfl, fun o ho => ?_⟩)
    unfold connectiveOf? at ho
    split at ho
    · cases ho
    · exact Connective.isPlain_of_ofToken? (Option.filter_eq_some_iff.1 ho).1
  induction turns generalizing s left with
  | zero => exact yields_never
  | succ turns ih =>
    refine (hop s).bind fun op s₁ hop => ?_
    obtain ⟨rfl, hop⟩ := hop
    split
    · exact yields_pure hl
    · next op =>
      have hp := hop op rfl
      refine .of_advance rfl (TokenKind.ne_eof_of_isPlain hp) fun s₂ hword => ?_
      refine (hg.binary ctx _ s₂).bind fun right s₃ hr => .of_spanFrom (ih ?_)
      have hcovers := hl.covers.trans ((hword.passes hp).trans hr.passes)
      cases op with
      | binary => exact hcovers.reads rfl rfl rfl
      | logical => exact hcovers.reads rfl rfl rfl

theorem yields_binaryExpression (least : Nat) :
    (g.binaryExpression ctx least).Yields s fun e s' => s.Reads (.expr e) s' :=
  .of_here ((yields_unaryExpression hg).bind fun _ _ hl => .of_turns fun turns => yields_binaryTail hg least turns hl)

theorem yields_conditionalExpression : (g.conditionalExpression ctx).Yields s fun e s' => s.Reads (.expr e) s' := by
  refine .of_here ((yields_binaryExpression hg 0).bind fun test s₁ ht => ?_)
  refine .of_skipMark (fun s₂ hquestion => ?_) fun _ => yields_pure ht
  refine (hg.assignment _ s₂).bind fun consequent s₃ hc => .of_expectMark fun s₄ hcolon => ?_
  refine (hg.assignment ctx s₄).bind fun alternate s₅ ha => .of_spanFrom (yields_pure ?_)
  have hrest := (hquestion.passes rfl).trans (hc.passes.trans ((hcolon.passes rfl).trans ha.passes))
  exact (ht.covers.trans hrest).reads rfl rfl rfl

theorem yields_assignmentExpression : (g.assignmentExpression ctx).Yields s fun e s' => s.Reads (.expr e) s' := by
  refine .of_here ((yields_conditionalExpression hg).bind fun left s₁ hl => .of_refuseAt (.of_kind ?_))
  split
  · exact yields_pure hl
  · next op hop =>
    obtain ⟨hp, hassignable⟩ := AssignOp.isPlain_of_ofToken? hop
    refine .of_failIf fun htarget => .of_advance rfl (TokenKind.ne_eof_of_isPlain hp) fun s₂ hword => ?_
    refine (hg.assignment ctx s₂).bind fun right s₃ hr => .of_spanFrom (yields_pure ?_)
    refine (hl.covers.trans ((hword.passes hp).trans hr.passes)).reads rfl ?_ rfl
    have hlawful := Bool.and_eq_true_iff.2 ⟨Decidable.not_not.1 htarget, hassignable⟩
    exact Node.isRegular_iff.2 ⟨hlawful, List.forall_mem_nil _⟩

theorem yields_fullExpression : (g.fullExpression ctx).Yields s fun e s' => s.Reads (.expr e) s' :=
  yields_sequenceOf (yields_assignmentExpression hg) (hg.assignment ctx)

end

end Grammar

end Stepwise

import Stepwise.Proofs.Parse.SpelledExpression
import Stepwise.Proofs.Tree.Numbering

/-!
# Programs are spelled by their tokens

* `Grammar.Spelled.extend`: readers that use a grammar whose parts are spelled by their tokens give what is.
* `Program.exists_spelled_of_parse`: the tokens of a source spell the program that is read from it.
-/

namespace Stepwise

open Reader

variable {s s₀ : Stream}

namespace Grammar

variable {g : Grammar} {ctx : Context}

/-! ### Statements -/

theorem yields_jumpLabel : jumpLabel.Yields s fun label s' => s.Passes (label.toList.map .ofIdentifier) s' := by
  refine .of_current ?_
  split
  · exact yields_readIdentifier.bind fun i s₁ hi => yields_pure hi.1.passes
  · exact yields_pure (.refl s)

theorem yields_breakStatement (hk : s.current.kind = .keyword .break_) :
    (breakStatement ctx).Yields s fun x s' => s.Reads (.stmt x) s' := by
  refine .of_here (.of_advance hk (by simp) fun s₁ hword => yields_jumpLabel.bind fun label s₂ hl => ?_)
  refine .of_failIf fun _ => .of_endStatement fun s₃ hend => .of_spanFrom (yields_pure ?_)
  exact ((hword.covers rfl).trans (hl.trans hend)).reads rfl rfl (List.append_nil _)

theorem yields_continueStatement (hk : s.current.kind = .keyword .continue_) :
    (continueStatement ctx).Yields s fun x s' => s.Reads (.stmt x) s' := by
  refine .of_here (.of_advance hk (by simp) fun s₁ hword => yields_jumpLabel.bind fun label s₂ hl => ?_)
  refine .of_failIf fun _ => .of_endStatement fun s₃ hend => .of_spanFrom (yields_pure ?_)
  exact ((hword.covers rfl).trans (hl.trans hend)).reads rfl rfl (List.append_nil _)

section

variable (hg : g.Spelled)

include hg

theorem yields_declarator : (g.declarator ctx).Yields s fun d s' => s.Reads (.declarator d) s' := by
  refine .of_here (yields_refusePattern.bind fun _ s₁ hs₁ => ?_)
  subst hs₁
  refine yields_readIdentifier.bind fun i s₁ hi => ?_
  have hregular (loc : Loc) (init : Option Expr) : Node.isRegular (.declarator ⟨loc, i, init⟩) :=
    Node.isRegular_iff.2 ⟨rfl, List.forall_mem_singleton.2 hi.2⟩
  refine .of_skipMark (fun s₂ hassign => ?_) fun _ => ?_
  · refine .bind (P := fun init s' => s₂.Passes (init.toList.map .expr) s') ?_ fun init s₃ hinit => .of_spanFrom ?_
    · exact (hg.assignment ctx s₂).map fun e s' he => he.passes
    · exact yields_pure ((hi.1.covers.trans ((hassign.passes rfl).trans hinit)).reads rfl (hregular _ _) rfl)
  · exact .of_pure (.of_spanFrom (yields_pure (hi.1.covers.reads rfl (hregular _ _) rfl)))

theorem yields_declarators (turns : Nat) :
    (g.declarators ctx turns).Yields s fun ds s' => s.Passes (ds.map .declarator) s' := by
  induction turns generalizing s with
  | zero => exact yields_never
  | succ turns ih =>
    refine (yields_declarator hg).bind fun d s₁ hd => .of_skipMark (fun s₂ hcomma => ?_) fun _ => yields_pure hd.passes
    exact ih.bind fun ds s₃ hds => yields_pure (hd.passes.trans ((hcomma.passes rfl).trans hds))

theorem yields_variableDeclaration (hk : s.current.kind = .keyword .var) :
    (g.variableDeclaration ctx).Yields s fun d s' =>
      s.Covers (d.declarators.map .declarator) s' ∧ d.loc = .span s.current.start s'.previousStop := by
  refine .of_here (.of_advance hk (by simp) fun s₁ hword => .of_turns fun turns => ?_)
  refine (yields_declarators hg turns).bind fun ds s₂ hds => .of_spanFrom (yields_pure ⟨?_, rfl⟩)
  exact (hword.covers rfl).trans hds

theorem yields_condition : (g.condition ctx).Yields s fun e s' => s.Covers [.expr e] s' := by
  refine .of_expectMark fun s₁ hl => (yields_expression hg).bind fun e s₂ he => .of_expectMark fun s₃ hr => ?_
  exact yields_pure (hl.encloses he.passes hr rfl)

theorem yields_block : (g.block ctx).Yields s fun b s' => s.Reads (.stmt (.block b)) s' :=
  yields_readBlock (hg.statement ctx)

theorem yields_loopBody : (g.loopBody ctx).Yields s fun x s' => s.Reads (.stmt x) s' := hg.statement _ s

theorem yields_functionDeclaration (hk : s.current.kind = .keyword .function) :
    g.functionDeclaration.Yields s fun x s' => s.Reads (.stmt x) s' := by
  refine .of_here (.of_advance hk (by simp) fun s₁ hword => .of_refuseAt ?_)
  refine yields_readIdentifier.bind fun i s₂ hi => (yields_functionRest hg).bind fun r s₃ hr => .of_spanFrom ?_
  have hregular : Node.isRegular (.stmt (.function (.span s.current.start s₃.previousStop) i r.1 r.2)) :=
    Node.isRegular_iff.2 ⟨hr.2.1, List.forall_mem_cons.2 ⟨hi.2, hr.2.2⟩⟩
  exact yields_pure (((hword.covers rfl).trans (hi.1.passes.trans hr.1.passes)).reads rfl hregular rfl)

theorem yields_returnStatement (hk : s.current.kind = .keyword .return_) :
    (g.returnStatement ctx).Yields s fun x s' => s.Reads (.stmt x) s' := by
  have hrest {argument : Option Expr} {s₁ : Stream} (h : s.Covers (argument.toList.map .expr) s₁) :
      (do
        endStatement
        return .return_ (← spanFrom s.current.start) argument : Reader Stmt).Yields s₁ fun x s' =>
          s.Reads (.stmt x) s' := by
    refine .of_endStatement fun s₂ hend => .of_spanFrom (yields_pure ?_)
    exact (h.trans hend).reads rfl rfl (List.append_nil _)
  refine .of_here (.of_failIf fun _ => .of_advance hk (by simp) fun s₁ hword => .of_current ?_)
  have hword := hword.covers rfl
  split
  · exact .of_pure (hrest hword)
  · refine .bind (P := fun argument s' => s₁.Passes (argument.toList.map .expr) s') ?_ fun argument s₂ h => ?_
    · exact (yields_expression hg).map fun e s' he => he.passes
    · exact hrest (hword.trans h)

theorem yields_ifStatement (hk : s.current.kind = .keyword .if_) :
    (g.ifStatement ctx).Yields s fun x s' => s.Reads (.stmt x) s' := by
  refine .of_here (.of_advance hk (by simp) fun s₁ hword => (yields_condition hg).bind fun test s₂ ht => ?_)
  refine (hg.statement ctx s₂).bind fun consequent s₃ hc => ?_
  have hc := (hword.covers rfl).trans (ht.passes.trans hc.passes)
  refine .of_isAt (fun helse => ?_) fun _ => .of_spanFrom (yields_pure (hc.reads rfl rfl rfl))
  refine .of_advance helse (by simp) fun s₄ helse => (hg.statement ctx s₄).bind fun alternate s₅ ha => .of_spanFrom ?_
  exact yields_pure ((hc.trans ((helse.passes rfl).trans ha.passes)).reads rfl rfl rfl)

theorem yields_whileStatement (hk : s.current.kind = .keyword .while_) :
    (g.whileStatement ctx).Yields s fun x s' => s.Reads (.stmt x) s' := by
  refine .of_here (.of_advance hk (by simp) fun s₁ hword => (yields_condition hg).bind fun test s₂ ht => ?_)
  refine (yields_loopBody hg).bind fun body s₃ hb => .of_spanFrom (yields_pure ?_)
  exact ((hword.covers rfl).trans (ht.passes.trans hb.passes)).reads rfl rfl rfl

theorem yields_doWhileStatement (hk : s.current.kind = .keyword .do_) :
    (g.doWhileStatement ctx).Yields s fun x s' => s.Reads (.stmt x) s' := by
  refine .of_here (.of_advance hk (by simp) fun s₁ hword => (yields_loopBody hg).bind fun body s₂ hb => ?_)
  refine .of_expect (by simp) fun s₃ hwhile => (yields_condition hg).bind fun test s₄ ht => ?_
  have hsemicolon {s : Stream} : (skipMark .semicolon).Yields s fun _ s' => s.Passes [] s' := by
    refine .of_isAt (fun hk => .of_advance hk (by simp) fun s' h => yields_pure (h.passes rfl)) fun _ => ?_
    exact yields_pure (.refl _)
  refine hsemicolon.bind fun _ s₅ hend => .of_spanFrom (yields_pure ?_)
  have hrest := hb.passes.trans ((hwhile.passes rfl).trans (ht.passes.trans hend))
  exact ((hword.covers rfl).trans hrest).reads rfl rfl rfl

/-! The head of a loop stands in parentheses: `s₀` is the stream before the loop, `s₁` the one before the opening
parenthesis, and `s₂` the one behind it. -/

theorem yields_optionalExpression (close : Punctuator) :
    (g.optionalExpression ctx close).Yields s fun e s' => s.Passes (e.toList.map .expr) s' := by
  refine .of_isAt (fun _ => yields_pure (.refl s)) fun _ => ?_
  exact (yields_expression hg).bind fun e s₁ he => yields_pure he.passes

theorem yields_forInRest {s₁ s₂ : Stream} {left : ForHead} (hword : s₀.Covers [] s₁)
    (hl : s₁.Shifts (.punctuator .leftParen) s₂) (hleft : s₂.Passes [left.node] s) (hslot : left.isSlot)
    (hk : s.current.kind = .keyword .in_) :
    (g.forInRest ctx s₀.current.start left).Yields s fun x s' => s₀.Reads (.stmt x) s' := by
  refine .of_advance hk (by simp) fun s₃ hin => (yields_expression hg).bind fun right s₄ hright => ?_
  refine .of_expectMark fun s₅ hr => (yields_loopBody hg).bind fun body s₆ hb => .of_spanFrom (yields_pure ?_)
  have hhead := hl.encloses (hleft.trans ((hin.passes rfl).trans hright.passes)) hr rfl
  exact (hword.trans (hhead.passes.trans hb.passes)).reads rfl (Node.isRegular_iff.2 ⟨hslot, List.forall_mem_nil _⟩) rfl

theorem yields_forRest {s₁ s₂ : Stream} {init : Option ForHead} (hword : s₀.Covers [] s₁)
    (hl : s₁.Shifts (.punctuator .leftParen) s₂) (hinit : s₂.Passes (init.toList.map ForHead.node) s) :
    (g.forRest ctx s₀.current.start init).Yields s fun x s' => s₀.Reads (.stmt x) s' := by
  refine .of_current (.of_failIf fun _ => .of_expectMark fun s₃ hfirst => ?_)
  refine (yields_optionalExpression hg _).bind fun test s₄ ht => .of_expectMark fun s₅ hsecond => ?_
  refine (yields_optionalExpression hg _).bind fun update s₆ hu => .of_expectMark fun s₇ hr => ?_
  refine (yields_loopBody hg).bind fun body s₈ hb => .of_spanFrom (yields_pure ?_)
  have hsecond := (hsecond.passes rfl).trans hu
  have hhead := hl.encloses (hinit.trans ((hfirst.passes rfl).trans (ht.trans hsecond))) hr rfl
  refine (hword.trans (hhead.passes.trans hb.passes)).reads rfl rfl ?_
  simp [Node.children]

theorem yields_forStatement (hk : s.current.kind = .keyword .for_) :
    (g.forStatement ctx).Yields s fun x s' => s.Reads (.stmt x) s' := by
  refine .of_here (.of_advance hk (by simp) fun s₁ hword => .of_expectMark fun s₂ hl => .of_kind ?_)
  have hword := hword.covers rfl
  split
  · exact yields_forRest hg hword hl (.refl s₂)
  · next hvar =>
    refine (yields_variableDeclaration hg hvar).bind fun decl s₃ hd => ?_
    have hhead := (hd.1.reads (n := .stmt (.var decl)) hd.2 rfl rfl).passes
    refine (yields_isAt _).bind fun isIn s₄ hin => ?_
    obtain ⟨rfl, hin⟩ := hin
    split
    · next hdeclarators =>
      refine yields_forInRest hg hword hl hhead ?_ (hin rfl)
      simp [ForHead.isSlot, hdeclarators]
    · exact yields_forRest hg hword hl hhead
  · exact .of_fail
  · exact .of_fail
  · refine (yields_expression hg).bind fun e s₃ he => .of_isAt (fun hin => ?_) fun _ => ?_
    · split
      · next htarget => exact yields_forInRest hg hword hl he.passes htarget hin
      · exact .of_fail
    · exact yields_forRest hg hword hl he.passes

theorem yields_caseTest (hasDefault : Bool) : (g.caseTest ctx hasDefault).Yields s fun test s' =>
    s.Covers (test.toList.map .expr) s' ∧ (test = none → hasDefault = false) := by
  refine .of_current ?_
  split
  · next hk =>
    refine .of_advance hk (by simp) fun s₁ hword => (yields_expression hg).bind fun e s₂ he => yields_pure ⟨?_, ?_⟩
    · exact (hword.covers rfl).trans he.passes
    · exact fun h => by cases h
  · next hk =>
    refine .of_failIf fun hdefault => .of_advance hk (by simp) fun s₁ hword => yields_pure ⟨hword.covers rfl, fun _ => ?_⟩
    exact Bool.eq_false_iff.2 hdefault
  · exact .of_fail

/-- At most one case is the default, and none is if there was one before. -/
theorem yields_switchCases (hasDefault : Bool) (turns : Nat) :
    (g.switchCases ctx hasDefault turns).Yields s fun cs s' =>
      s.Passes (cs.map .switchCase) s' ∧ cs.countP (·.test.isNone) + hasDefault.toNat ≤ 1 := by
  induction turns generalizing s hasDefault with
  | zero => exact yields_never
  | succ turns ih =>
    refine .of_kind ?_
    split
    · exact yields_pure ⟨.refl s, by cases hasDefault <;> simp⟩
    · refine .of_here ((yields_caseTest hg _).bind fun test s₁ ht => .of_expectMark fun s₂ hcolon => ?_)
      refine .of_turns fun _ => (yields_readStatements (hg.statement ctx) _).bind fun body s₃ hb => .of_spanFrom ?_
      refine (ih _).bind fun cs s₄ hcs => yields_pure ⟨?_, ?_⟩
      · have hcase := ht.1.trans ((hcolon.passes rfl).trans hb.1)
        exact (hcase.reads rfl rfl rfl).passes.trans hcs.1
      · have hcount := hcs.2
        cases test with
        | none =>
          cases ht.2 rfl
          simpa using hcount
        | some e => simpa using hcount

theorem yields_switchStatement (hk : s.current.kind = .keyword .switch) :
    (g.switchStatement ctx).Yields s fun x s' => s.Reads (.stmt x) s' := by
  refine .of_here (.of_advance hk (by simp) fun s₁ hword => (yields_condition hg).bind fun e s₂ he => ?_)
  refine .of_expectMark fun s₃ hl => .of_turns fun turns => (yields_switchCases hg false turns).bind fun cs s₄ hcs => ?_
  refine .of_expectMark fun s₅ hr => .of_spanFrom (yields_pure ?_)
  have hcases := (hl.encloses hcs.1 hr rfl).passes
  have hregular : Node.isRegular (.stmt (.switch (.span s.current.start s₅.previousStop) e cs)) :=
    Node.isRegular_iff.2 ⟨decide_eq_true hcs.2, List.forall_mem_nil _⟩
  exact ((hword.covers rfl).trans (he.passes.trans hcases)).reads rfl hregular rfl

theorem yields_throwStatement (hk : s.current.kind = .keyword .throw) :
    (g.throwStatement ctx).Yields s fun x s' => s.Reads (.stmt x) s' := by
  refine .of_here (.of_advance hk (by simp) fun s₁ hword => .of_current (.of_failIf fun _ => ?_))
  refine (yields_expression hg).bind fun e s₂ he => .of_endStatement fun s₃ hend => .of_spanFrom (yields_pure ?_)
  exact ((hword.covers rfl).trans (he.passes.trans hend)).reads rfl rfl rfl

theorem yields_catchClause : (g.catchClause ctx).Yields s fun handler s' =>
    s.Passes (handler.toList.map .catchClause) s' := by
  refine .of_isAt (fun hk => ?_) fun _ => yields_pure (.refl s)
  refine .of_here (.of_advance hk (by simp) fun s₁ hword => .of_expectMark fun s₂ hl => ?_)
  refine yields_readIdentifier.bind fun i s₃ hi => .of_expectMark fun s₄ hr => (yields_block hg).bind fun b s₅ hb => ?_
  refine .of_spanFrom (yields_pure (Stream.Reads.passes ?_))
  have hparam := (hl.encloses hi.1.passes hr rfl).passes
  have hregular : Node.isRegular (.catchClause ⟨.span s.current.start s₅.previousStop, i, b⟩) :=
    Node.isRegular_iff.2 ⟨rfl, List.forall_mem_singleton.2 hi.2⟩
  exact ((hword.covers rfl).trans (hparam.trans hb.passes)).reads rfl hregular rfl

theorem yields_finallyBlock : (g.finallyBlock ctx).Yields s fun finalizer s' =>
    s.Passes (finalizer.toList.map fun b => .stmt (.block b)) s' := by
  refine .of_isAt (fun hk => .of_advance hk (by simp) fun s₁ hword => ?_) fun _ => yields_pure (.refl s)
  exact (yields_block hg).bind fun b s₂ hb => yields_pure ((hword.passes rfl).trans hb.passes)

theorem yields_tryStatement (hk : s.current.kind = .keyword .try_) :
    (g.tryStatement ctx).Yields s fun x s' => s.Reads (.stmt x) s' := by
  refine .of_here (.of_advance hk (by simp) fun s₁ hword => (yields_block hg).bind fun b s₂ hb => ?_)
  refine (yields_catchClause hg).bind fun handler s₃ hh => (yields_finallyBlock hg).bind fun finalizer s₄ hf => ?_
  refine .of_failIf fun hsome => .of_spanFrom ?_
  refine yields_pure (((hword.covers rfl).trans (hb.passes.trans (hh.trans hf))).reads rfl ?_ rfl)
  refine Node.isRegular_iff.2 ⟨?_, List.forall_mem_nil _⟩
  cases handler <;> cases finalizer <;> first | rfl | exact absurd ⟨rfl, rfl⟩ hsome

theorem yields_withStatement (hk : s.current.kind = .keyword .with_) :
    (g.withStatement ctx).Yields s fun x s' => s.Reads (.stmt x) s' := by
  refine .of_here (.of_advance hk (by simp) fun s₁ hword => (yields_condition hg).bind fun e s₂ he => ?_)
  refine (hg.statement ctx s₂).bind fun body s₃ hb => .of_spanFrom (yields_pure ?_)
  exact ((hword.covers rfl).trans (he.passes.trans hb.passes)).reads rfl rfl rfl

theorem yields_labeledStatement : (g.labeledStatement ctx).Yields s fun x s' => s.Reads (.stmt x) s' := by
  refine .of_here (yields_readIdentifier.bind fun i s₁ hi => .of_expectMark fun s₂ hcolon => ?_)
  refine (hg.statement ctx s₂).bind fun body s₃ hb => .of_spanFrom (yields_pure ?_)
  exact (hi.1.covers.trans ((hcolon.passes rfl).trans hb.passes)).reads rfl rfl rfl

theorem yields_expressionStatement : (g.expressionStatement ctx).Yields s fun x s' => s.Reads (.stmt x) s' := by
  refine .of_here ((yields_fullExpression hg).bind fun e s₁ he => .of_endStatement fun s₂ hend => .of_spanFrom ?_)
  exact yields_pure ((he.covers.trans hend).reads rfl rfl rfl)

theorem yields_anyStatement : (g.anyStatement ctx).Yields s fun x s' => s.Reads (.stmt x) s' := by
  refine .of_here (.of_kind ?_)
  split
  · next hk =>
    refine (yields_variableDeclaration hg hk).bind fun d s₁ hd => .of_endStatement fun s₂ hend => .of_spanFrom ?_
    exact yields_pure ((hd.1.trans hend).reads rfl rfl (List.append_nil _))
  iterate 7 exact .of_fail
  · exact (yields_block hg).bind fun b s₁ hb => yields_pure hb
  · next hk => exact yields_returnStatement hg hk
  · next hk => exact yields_ifStatement hg hk
  · next hk => exact yields_whileStatement hg hk
  · next hk => exact yields_doWhileStatement hg hk
  · next hk => exact yields_forStatement hg hk
  · next hk => exact yields_breakStatement hk
  · next hk => exact yields_continueStatement hk
  · next hk => exact yields_switchStatement hg hk
  · next hk => exact yields_throwStatement hg hk
  · next hk => exact yields_tryStatement hg hk
  · next hk => exact yields_functionDeclaration hg hk
  · next hk =>
    refine .of_advance hk (by simp) fun s₁ hword => .of_endStatement fun s₂ hend => .of_spanFrom (yields_pure ?_)
    exact ((hword.covers rfl).trans hend).reads rfl rfl rfl
  · next hk =>
    refine .of_advance hk (by simp) fun s₁ hword => .of_spanFrom (yields_pure ?_)
    exact (hword.covers rfl).reads rfl rfl rfl
  · next hk => exact yields_withStatement hg hk
  · refine .of_nextKind fun next => ?_
    split
    · exact yields_labeledStatement hg
    · exact yields_expressionStatement hg
  · exact yields_expressionStatement hg

/-- Readers that use a grammar whose parts are spelled by their tokens give what is. -/
theorem Spelled.extend : g.extend.Spelled where
  statement _ _ := yields_anyStatement hg
  assignment _ _ := yields_assignmentExpression hg
  binary _ least _ := yields_binaryExpression hg least
  unary _ _ := yields_unaryExpression hg
  construct _ _ := yields_newExpression hg

end

theorem spelled_nested (n : Nat) : (nested n).Spelled := by
  induction n with
  | zero =>
    exact ⟨fun _ _ => yields_never, fun _ _ => yields_never, fun _ _ _ => yields_never, fun _ _ => yields_never,
      fun _ _ _ => yields_never⟩
  | succ n ih => exact ih.extend

end Grammar

/-! ### Programs -/

/-- The tokens of a source up to the end mark spell the statements of a program, which goes from the start of the source
to the end mark. -/
structure Program.Spelled (source : String) (words : List Token) (last : Token) (p : Program) : Prop where
  tokens : tokenize source = words ++ [last]
  legal : ∀ t ∈ tokenize source, t.IsLegal
  loc : p.loc = .span .start last.stop
  parts : SpellParts words (Node.program p).children

namespace Stream

variable {source : String}

theorem tokens_ofTokens_tokenize (source : String) : (ofTokens (tokenize source)).tokens = tokenize source := by
  have htiles : Tiles source 0 true (tokenize source) :=
    tiles_tokensFrom (Cursor.stands_ofString source) (Nat.lt_succ_self _) false
  obtain ⟨words, last, hts, -⟩ := htiles.ends
  rw [hts]
  cases words <;> rfl

/-- A stream at the start of a source is sound if its first token is legal. -/
theorem isSound_ofTokens (h : (ofTokens (tokenize source)).current.IsLegal) : (ofTokens (tokenize source)).IsSound := by
  have htiles : Tiles source 0 true (ofTokens (tokenize source)).tokens := by
    rw [tokens_ofTokens_tokenize]
    exact tiles_tokensFrom (Cursor.stands_ofString source) (Nat.lt_succ_self _) false
  obtain ⟨words, last, hts, hlast, hwords, -⟩ := htiles.ends
  refine ⟨⟨words, last, hts, hlast, hwords⟩, fun t ht hv => htiles.text_ne ht hv, fun t ht hk => ?_, h⟩
  rw [tokens_ofTokens_tokenize] at ht
  exact ofWord_of_mem_tokenize ht hk

/-- Nothing is left behind the end mark. -/
theorem IsSound.tokens_eq (h : s.IsSound) (hk : s.current.kind = .eof) : s.tokens = [s.current] := by
  obtain ⟨words, last, heq, -, hwords⟩ := h.ends
  cases words with
  | nil =>
    obtain ⟨-, hup⟩ := List.cons.inj heq
    rw [tokens, hup]
  | cons word words =>
    obtain ⟨hword, -⟩ := List.cons.inj heq
    exact absurd (hword ▸ hk) (hwords word List.mem_cons_self)

end Stream

theorem spelled_of_readProgram {g : Grammar} (hg : g.Spelled) {s' : Stream} {body : List Stmt} {stop : Position}
    (hs : s.current.IsLegal → s.IsSound) (h : (readProgram g).Returns s (body, stop) s') :
    s'.IsSound ∧ s.Passes (body.map .stmt) s' ∧ s'.current.kind = .eof ∧ stop = s'.current.stop := by
  have hrest : (do
      let body ← readStatements (· == .eof) (g.statement {}) (← turns)
      return (body, (← current).stop) : Reader (List Stmt × Position)).Yields s fun r s' =>
        s.Passes (r.1.map .stmt) s' ∧ s'.current.kind = .eof ∧ r.2 = s'.current.stop := by
    refine .of_turns fun turns => (yields_readStatements (hg.statement {}) turns).bind fun body s₁ hb => .of_current ?_
    exact yields_pure ⟨hb.1, beq_iff_eq.1 hb.2, rfl⟩
  obtain ⟨u, s₁, hx, hrun⟩ := h.exists_of_bind
  obtain ⟨rfl, hlegal⟩ := of_returns_checkLegal hx
  exact hrest (hs hlegal) _ _ hrun

/-- The tokens of a source spell the program that is read from it. -/
theorem Program.exists_spelled_of_parse {source name : String} {first : Int} {p : Program}
    (h : Program.parse source first name = .ok p) : ∃ words last q, Program.Spelled source words last q ∧
      p.code = source ∧ (Node.program p).outline = (Node.program q).outline := by
  obtain ⟨body, stop, s', hr, rfl⟩ := Program.exists_read_of_parse h
  obtain ⟨hs', ⟨ts, htook, hparts⟩, heof, rfl⟩ :=
    spelled_of_readProgram (Grammar.spelled_nested _) Stream.isSound_ofTokens hr
  have htokens : tokenize source = ts ++ [s'.current] := by
    rw [← Stream.tokens_ofTokens_tokenize, htook.tokens, hs'.tokens_eq heof]
  refine ⟨ts, s'.current, ⟨.span .start s'.current.stop, body, source⟩, ⟨htokens, ?_, rfl, hparts⟩, rfl, ?_⟩
  · rw [htokens]
    exact List.forall_mem_append.2 ⟨htook.legal, List.forall_mem_singleton.2 hs'.legal⟩
  · exact Program.outline_number _ first name

theorem Program.exists_of_any_parse {source name : String} {first : Int} {P : Program → Bool}
    (h : (Program.parse source first name).toOption.any P) : ∃ p, Program.parse source first name = .ok p ∧ P p := by
  cases hp : Program.parse source first name with
  | error e =>
    rw [hp] at h
    cases h
  | ok p =>
    rw [hp] at h
    exact ⟨p, rfl, h⟩

end Stepwise

import Stepwise.Proofs.Parse.AgreeExpression
import Stepwise.Proofs.Token.Tiling

/-!
# Reading ends with a tree or with one error

* `Grammar.Agrees.extend`: readers that use grammars which agree make grammars which agree where one token more is left.
* `Stream.ends_tokenize`: the tokens of a source end.
* `Program.parse_settles`: no bound on nesting or on loops is ever used up, not even after an error, and there is one
  error at most, at a token of the source.
-/

namespace Stepwise

open Reader

variable {s : Stream}

namespace Grammar

variable {g g' : Grammar} {ctx : Context} {n turns : Nat}

/-! ### Statements -/

theorem agrees_jumpLabel : jumpLabel.Agrees jumpLabel s fun _ _ => True := by
  refine .of_current ?_
  split
  · exact agrees_readIdentifier.bind fun _ _ _ _ => agrees_pure trivial
  · exact agrees_pure trivial

theorem agrees_breakStatement (hk : s.current.kind = .keyword .break_) :
    (breakStatement ctx).Agrees (breakStatement ctx) s s.Past := by
  refine .of_here (.of_take (by simp [hk]) fun s₁ hword => agrees_jumpLabel.bind fun label s₂ hle _ => ?_)
  exact .of_failIf fun s₃ _ => .of_endStatement fun s₄ hend => .of_spanFrom (agrees_pure (by omega))

theorem agrees_continueStatement (hk : s.current.kind = .keyword .continue_) :
    (continueStatement ctx).Agrees (continueStatement ctx) s s.Past := by
  refine .of_here (.of_take (by simp [hk]) fun s₁ hword => agrees_jumpLabel.bind fun label s₂ hle _ => ?_)
  exact .of_failIf fun s₃ _ => .of_endStatement fun s₄ hend => .of_spanFrom (agrees_pure (by omega))

section

variable (hg : g.Agrees n g')

include hg

theorem agrees_declarator (hn : s.ahead ≤ n) : (g.declarator ctx).Agrees (g'.declarator ctx) s s.Past := by
  refine .of_here (agrees_refusePattern.bind fun _ s₁ _ _ => agrees_readIdentifier.bind fun i s₂ _ hi => ?_)
  refine .of_skipMark (fun s₃ hassign => ?_) fun _ => .of_pure (.of_spanFrom (agrees_pure (by omega)))
  refine .bind (P := fun _ _ => True) ?_ fun init s₄ hle _ => .of_spanFrom (agrees_pure (by omega))
  exact (hg.assignment ctx s₃ (by omega)).map fun _ _ _ _ => trivial

theorem agrees_declarators (hn : s.ahead ≤ n) (ht : s.ahead < turns) :
    (g.declarators ctx turns).Agrees (g'.declarators ctx turns) s fun _ _ => True := by
  refine Stream.turn_induction hn ht fun turns s hn ih => ?_
  refine (agrees_declarator hg hn).bind fun d s₁ _ hd => ?_
  refine .of_skipMark (fun s₂ hcomma => ?_) fun _ => agrees_pure trivial
  exact (ih s₂ (by omega)).bind fun _ _ _ _ => agrees_pure trivial

theorem agrees_variableDeclaration (hn : s.ahead ≤ n) (hk : s.current.kind = .keyword .var) :
    (g.variableDeclaration ctx).Agrees (g'.variableDeclaration ctx) s s.Past := by
  refine .of_here (.of_take (by simp [hk]) fun s₁ hword => .of_turns fun turns ht => ?_)
  exact (agrees_declarators hg (by omega) ht).bind fun ds s₂ hle _ => .of_spanFrom (agrees_pure (by omega))

theorem agrees_condition (hn : s.ahead < n) : (g.condition ctx).Agrees (g'.condition ctx) s s.Past := by
  refine .of_expectMark fun s₁ hl => (agrees_expression hg (by omega)).bind fun e s₂ _ he => ?_
  exact .of_expectMark fun s₃ hr => agrees_pure (by omega)

theorem agrees_block (hn : s.ahead ≤ n) : (g.block ctx).Agrees (g'.block ctx) s s.Past :=
  agrees_readBlock (hg.statement ctx) hn

theorem agrees_loopBody (hn : s.ahead < n) : (g.loopBody ctx).Agrees (g'.loopBody ctx) s s.Past := hg.statement _ s hn

theorem agrees_functionDeclaration (hn : s.ahead ≤ n) (hk : s.current.kind = .keyword .function) :
    g.functionDeclaration.Agrees g'.functionDeclaration s s.Past := by
  refine .of_here (.of_take (by simp [hk]) fun s₁ hword => .of_refuseAt fun s₂ _ => ?_)
  refine agrees_readIdentifier.bind fun i s₃ _ hi => (agrees_functionRest hg (by omega)).bind fun r s₄ _ hr => ?_
  exact .of_spanFrom (agrees_pure (by omega))

theorem agrees_returnStatement (hn : s.ahead ≤ n) (hk : s.current.kind = .keyword .return_) :
    (g.returnStatement ctx).Agrees (g'.returnStatement ctx) s s.Past := by
  have hrest (argument : Option Expr) {s₁ : Stream} (h : s.Past () s₁) :
      (do
        endStatement
        return .return_ (← spanFrom s.current.start) argument : Reader Stmt).Agrees (do
        endStatement
        return .return_ (← spanFrom s.current.start) argument) s₁ s.Past :=
    .of_endStatement fun s₂ hend => .of_spanFrom (agrees_pure (by omega))
  refine .of_here (.of_word (by simp [hk]) fun hpos => .of_failIf fun s₁ _ => .of_advance fun s₂ hword => ?_)
  refine .of_current ?_
  split
  · exact .of_pure (hrest none (by omega))
  · refine .bind (P := fun _ _ => True) ?_ fun argument s₃ hle _ => hrest argument (by omega)
    exact (agrees_expression hg (by omega)).map fun _ _ _ _ => trivial

theorem agrees_ifStatement (hn : s.ahead ≤ n) (hk : s.current.kind = .keyword .if_) :
    (g.ifStatement ctx).Agrees (g'.ifStatement ctx) s s.Past := by
  refine .of_here (.of_take (by simp [hk]) fun s₁ hword => ?_)
  refine (agrees_condition hg (by omega)).bind fun test s₂ _ htest => ?_
  refine (hg.statement ctx s₂ (by omega)).bind fun consequent s₃ _ hc => ?_
  refine .of_isAt (fun helse => ?_) fun _ => .of_spanFrom (agrees_pure (by omega))
  refine .of_take (by simp [helse]) fun s₄ helse => (hg.statement ctx s₄ (by omega)).bind fun alternate s₅ _ ha => ?_
  exact .of_spanFrom (agrees_pure (by omega))

theorem agrees_whileStatement (hn : s.ahead ≤ n) (hk : s.current.kind = .keyword .while_) :
    (g.whileStatement ctx).Agrees (g'.whileStatement ctx) s s.Past := by
  refine .of_here (.of_take (by simp [hk]) fun s₁ hword => ?_)
  refine (agrees_condition hg (by omega)).bind fun test s₂ _ htest => ?_
  exact (agrees_loopBody hg (by omega)).bind fun body s₃ _ hb => .of_spanFrom (agrees_pure (by omega))

theorem agrees_doWhileStatement (hn : s.ahead ≤ n) (hk : s.current.kind = .keyword .do_) :
    (g.doWhileStatement ctx).Agrees (g'.doWhileStatement ctx) s s.Past := by
  refine .of_here (.of_take (by simp [hk]) fun s₁ hword => ?_)
  refine (agrees_loopBody hg (by omega)).bind fun body s₂ _ hb => .of_expect fun s₃ hwhile => ?_
  refine (agrees_condition hg (by omega)).bind fun test s₄ _ htest => ?_
  have hsemicolon {s : Stream} : (skipMark .semicolon).Agrees (skipMark .semicolon) s fun _ _ => True := by
    refine .of_isAt (fun hk => ?_) fun _ => agrees_pure trivial
    exact .of_take (by simp [hk]) fun _ _ => agrees_pure trivial
  exact hsemicolon.bind fun _ s₅ hle _ => .of_spanFrom (agrees_pure (by omega))

theorem agrees_optionalExpression (hn : s.ahead < n) (close : Punctuator) :
    (g.optionalExpression ctx close).Agrees (g'.optionalExpression ctx close) s fun _ _ => True := by
  refine .of_isAt (fun _ => agrees_pure trivial) fun _ => ?_
  exact (agrees_expression hg hn).bind fun _ _ _ _ => agrees_pure trivial

theorem agrees_forInRest (hn : s.ahead ≤ n) (start : Position) (left : ForHead) (hk : s.current.kind = .keyword .in_) :
    (g.forInRest ctx start left).Agrees (g'.forInRest ctx start left) s s.Past := by
  refine .of_take (by simp [hk]) fun s₁ hin => (agrees_expression hg (by omega)).bind fun right s₂ _ hright => ?_
  refine .of_expectMark fun s₃ hr => (agrees_loopBody hg (by omega)).bind fun body s₄ _ hb => ?_
  exact .of_spanFrom (agrees_pure (by omega))

theorem agrees_forRest (hn : s.ahead < n) (start : Position) (init : Option ForHead) :
    (g.forRest ctx start init).Agrees (g'.forRest ctx start init) s s.Past := by
  refine .of_current (.of_failIf fun s₁ _ => .of_expectMark fun s₂ hfirst => ?_)
  refine (agrees_optionalExpression hg (by omega) _).bind fun test s₃ _ _ => .of_expectMark fun s₄ hsecond => ?_
  refine (agrees_optionalExpression hg (by omega) _).bind fun update s₅ _ _ => .of_expectMark fun s₆ hr => ?_
  exact (agrees_loopBody hg (by omega)).bind fun body s₇ _ hb => .of_spanFrom (agrees_pure (by omega))

theorem agrees_forStatement (hn : s.ahead ≤ n) (hk : s.current.kind = .keyword .for_) :
    (g.forStatement ctx).Agrees (g'.forStatement ctx) s s.Past := by
  have hrest (init : Option ForHead) {s₁ : Stream} (h : s₁.ahead < s.ahead) :
      (g.forRest ctx s.current.start init).Agrees (g'.forRest ctx s.current.start init) s₁ s.Past :=
    (agrees_forRest hg (by omega) _ _).mono fun _ _ _ _ => by omega
  have hrefused (what : Unsupported) {s₁ : Stream} (h : s₁.ahead < s.ahead) :
      (g.refusedFor ctx s.current.start what).Agrees (g'.refusedFor ctx s.current.start what) s₁ s.Past :=
    .of_fail fun s₂ _ => hrest none (by omega)
  have hin (left : ForHead) {s₁ : Stream} (h : s₁.ahead < s.ahead) (hk : s₁.current.kind = .keyword .in_) :
      (g.forInRest ctx s.current.start left).Agrees (g'.forInRest ctx s.current.start left) s₁ s.Past :=
    (agrees_forInRest hg (by omega) _ _ hk).mono fun _ _ _ _ => by omega
  refine .of_here (.of_take (by simp [hk]) fun s₁ hword => .of_expectMark fun s₂ hl => .of_kind ?_)
  split
  · exact hrest none (by omega)
  · next hvar =>
    refine (agrees_variableDeclaration hg (by omega) hvar).bind fun decl s₃ _ hd => ?_
    refine (agrees_isAt _).bind fun isIn s₄ _ hk => ?_
    obtain ⟨rfl, hk⟩ := hk
    split
    · exact hin _ (by omega) (hk rfl)
    · exact hrest _ (by omega)
  · exact hrefused _ (by omega)
  · exact hrefused _ (by omega)
  · refine (agrees_expression hg (by omega)).bind fun e s₃ _ he => .of_isAt (fun hk => ?_) fun _ => ?_
    · split
      · exact hin _ (by omega) hk
      · exact .of_fail fun s₄ _ => hrest _ (by omega)
    · exact hrest _ (by omega)

theorem agrees_caseTest (hn : s.ahead ≤ n) (hasDefault : Bool) :
    (g.caseTest ctx hasDefault).Agrees (g'.caseTest ctx hasDefault) s s.Past := by
  refine .of_current ?_
  split
  · next hk =>
    refine .of_take (by simp [hk]) fun s₁ hword => (agrees_expression hg (by omega)).bind fun e s₂ _ he => ?_
    exact agrees_pure (by omega)
  · next hk => exact .of_failIf fun s₁ _ => .of_advance fun s₂ hword => agrees_pure (by omega)
  · exact .of_fail fun s₁ _ => agrees_pure (by omega)

theorem agrees_switchCases (hn : s.ahead ≤ n - 1) (ht : s.ahead < turns) : ∀ hasDefault,
    (g.switchCases ctx hasDefault turns).Agrees (g'.switchCases ctx hasDefault turns) s fun _ _ => True := by
  refine Stream.turn_induction hn ht fun turns s hn ih hasDefault => .of_kind ?_
  split
  · exact agrees_pure trivial
  · next hend =>
    refine .of_here (.of_word (fun he => hend (by simp [he, endsBlock])) fun hpos => ?_)
    refine (agrees_caseTest hg (by omega) _).bind fun test s₁ _ htest => .of_expectMark fun s₂ hcolon => ?_
    refine .of_turns fun _ hu => ?_
    refine (agrees_readStatements rfl (hg.statement ctx) (by omega) hu).bind fun body s₃ hle _ => .of_spanFrom ?_
    exact (ih s₃ (by omega) _).bind fun _ _ _ _ => agrees_pure trivial

theorem agrees_switchStatement (hn : s.ahead ≤ n) (hk : s.current.kind = .keyword .switch) :
    (g.switchStatement ctx).Agrees (g'.switchStatement ctx) s s.Past := by
  refine .of_here (.of_take (by simp [hk]) fun s₁ hword => ?_)
  refine (agrees_condition hg (by omega)).bind fun e s₂ _ he => .of_expectMark fun s₃ hl => ?_
  refine .of_turns fun turns ht => (agrees_switchCases hg (by omega) ht false).bind fun cs s₄ hle _ => ?_
  exact .of_expectMark fun s₅ hr => .of_spanFrom (agrees_pure (by omega))

theorem agrees_throwStatement (hn : s.ahead ≤ n) (hk : s.current.kind = .keyword .throw) :
    (g.throwStatement ctx).Agrees (g'.throwStatement ctx) s s.Past := by
  refine .of_here (.of_take (by simp [hk]) fun s₁ hword => .of_current (.of_failIf fun s₂ _ => ?_))
  refine (agrees_expression hg (by omega)).bind fun e s₃ _ he => .of_endStatement fun s₄ hend => ?_
  exact .of_spanFrom (agrees_pure (by omega))

theorem agrees_catchClause (hn : s.ahead ≤ n) :
    (g.catchClause ctx).Agrees (g'.catchClause ctx) s fun _ _ => True := by
  refine .of_isAt (fun hk => ?_) fun _ => agrees_pure trivial
  refine .of_here (.of_take (by simp [hk]) fun s₁ hword => .of_expectMark fun s₂ hl => ?_)
  refine agrees_readIdentifier.bind fun i s₃ _ hi => .of_expectMark fun s₄ hr => ?_
  exact (agrees_block hg (by omega)).bind fun b s₅ _ _ => .of_spanFrom (agrees_pure trivial)

theorem agrees_finallyBlock (hn : s.ahead ≤ n) :
    (g.finallyBlock ctx).Agrees (g'.finallyBlock ctx) s fun _ _ => True := by
  refine .of_isAt (fun hk => .of_take (by simp [hk]) fun s₁ hword => ?_) fun _ => agrees_pure trivial
  exact (agrees_block hg (by omega)).bind fun _ _ _ _ => agrees_pure trivial

theorem agrees_tryStatement (hn : s.ahead ≤ n) (hk : s.current.kind = .keyword .try_) :
    (g.tryStatement ctx).Agrees (g'.tryStatement ctx) s s.Past := by
  refine .of_here (.of_take (by simp [hk]) fun s₁ hword => (agrees_block hg (by omega)).bind fun b s₂ _ hb => ?_)
  refine (agrees_catchClause hg (by omega)).bind fun handler s₃ _ _ => ?_
  refine (agrees_finallyBlock hg (by omega)).bind fun finalizer s₄ _ _ => ?_
  exact .of_failIf fun s₅ _ => .of_spanFrom (agrees_pure (by omega))

theorem agrees_withStatement (hn : s.ahead ≤ n) (hk : s.current.kind = .keyword .with_) :
    (g.withStatement ctx).Agrees (g'.withStatement ctx) s s.Past := by
  refine .of_here (.of_take (by simp [hk]) fun s₁ hword => ?_)
  refine (agrees_condition hg (by omega)).bind fun e s₂ _ he => ?_
  exact (hg.statement ctx s₂ (by omega)).bind fun body s₃ _ hb => .of_spanFrom (agrees_pure (by omega))

theorem agrees_labeledStatement (hn : s.ahead ≤ n) (hk : s.current.kind = .identifier) :
    (g.labeledStatement ctx).Agrees (g'.labeledStatement ctx) s s.Past := by
  refine .of_here (.of_word (by simp [hk]) fun hpos => agrees_readIdentifier.bind fun i s₁ _ hi =>
    .of_expectMark fun s₂ hcolon => ?_)
  exact (hg.statement ctx s₂ (by omega)).bind fun body s₃ _ hb => .of_spanFrom (agrees_pure (by omega))

theorem agrees_expressionStatement (hn : s.ahead ≤ n) :
    (g.expressionStatement ctx).Agrees (g'.expressionStatement ctx) s s.Past := by
  refine .of_here ((agrees_fullExpression hg hn).bind fun e s₁ _ he => .of_endStatement fun s₂ hend => ?_)
  exact .of_spanFrom (agrees_pure (by omega))

theorem agrees_refusedStatement (hn : s.ahead ≤ n) (what : Unsupported) :
    (g.refusedStatement ctx what).Agrees (g'.refusedStatement ctx what) s s.Past :=
  .of_fail fun s₁ _ => (agrees_expressionStatement hg (by omega)).mono fun _ _ _ _ => by omega

theorem agrees_anyStatement (hn : s.ahead ≤ n) : (g.anyStatement ctx).Agrees (g'.anyStatement ctx) s s.Past := by
  refine .of_here (.of_kind ?_)
  split
  · next hk =>
    refine (agrees_variableDeclaration hg hn hk).bind fun d s₁ _ hd => .of_endStatement fun s₂ hend => ?_
    exact .of_spanFrom (agrees_pure (by omega))
  iterate 7 exact agrees_refusedStatement hg hn _
  · exact (agrees_block hg hn).bind fun _ _ _ hb => agrees_pure hb
  · next hk => exact agrees_returnStatement hg hn hk
  · next hk => exact agrees_ifStatement hg hn hk
  · next hk => exact agrees_whileStatement hg hn hk
  · next hk => exact agrees_doWhileStatement hg hn hk
  · next hk => exact agrees_forStatement hg hn hk
  · next hk => exact agrees_breakStatement hk
  · next hk => exact agrees_continueStatement hk
  · next hk => exact agrees_switchStatement hg hn hk
  · next hk => exact agrees_throwStatement hg hn hk
  · next hk => exact agrees_tryStatement hg hn hk
  · next hk => exact agrees_functionDeclaration hg hn hk
  · next hk =>
    refine .of_take (by simp [hk]) fun s₁ hword => .of_endStatement fun s₂ hend => .of_spanFrom (agrees_pure ?_)
    omega
  · exact .of_advance fun s₁ hword => .of_spanFrom (agrees_pure hword)
  · next hk => exact agrees_withStatement hg hn hk
  · next hk =>
    refine .of_nextKind fun next => ?_
    split
    · exact agrees_labeledStatement hg hn hk
    · exact agrees_expressionStatement hg hn
  · exact agrees_expressionStatement hg hn

/-- Readers that use grammars which agree do so where one token more is left. -/
theorem Agrees.extend : g.extend.Agrees (n + 1) g'.extend where
  statement _ _ hn := agrees_anyStatement hg (Nat.le_of_lt_succ hn)
  assignment _ _ hn := agrees_assignmentExpression hg (Nat.le_of_lt_succ hn)
  binary _ least _ hn := agrees_binaryExpression hg least (Nat.le_of_lt_succ hn)
  unary _ _ hn := agrees_unaryExpression hg (Nat.le_of_lt_succ hn)
  construct _ _ hn := agrees_newExpression hg (Nat.le_of_lt_succ hn)

end

/-- A grammar for parts nested as deep as there are tokens agrees with every deeper one. -/
theorem agrees_nested (n extra : Nat) : (nested n).Agrees n (nested (n + extra)) := by
  induction n with
  | zero =>
    have hno {p : Prop} (s : Stream) (h : s.ahead < 0) : p := absurd h (Nat.not_lt_zero _)
    exact ⟨fun _ s => hno s, fun _ s => hno s, fun _ _ s => hno s, fun _ s => hno s, fun _ s => hno s⟩
  | succ n ih =>
    rw [Nat.add_right_comm]
    exact ih.extend

end Grammar

/-! ### Programs -/

theorem agrees_readProgram {g g' : Grammar} {n : Nat} (hg : g.Agrees n g') (hn : s.ahead < n) :
    (readProgram g).Agrees (readProgram g') s fun _ _ => True := by
  refine agrees_checkLegal.bind fun _ s₁ _ _ => .of_turns fun turns ht => ?_
  refine (agrees_readStatements rfl (hg.statement {}) (by omega) ht).bind fun body s₂ _ _ => ?_
  exact .of_current (agrees_pure trivial)

/-- The stream of a source's tokens holds all of them, and ends. -/
theorem Stream.ends_tokenize (source : String) :
    let s := ofTokens (tokenize source)
    s.current :: s.upcoming = tokenize source ∧ s.errors = [] ∧ s.ahead < (tokenize source).length ∧ s.Ends := by
  have htiles : Tiles source 0 true (tokenize source) :=
    tiles_tokensFrom (Cursor.stands_ofString source) (Nat.lt_succ_self _) false
  obtain ⟨words, last, hts, hlast, hwords, -⟩ := htiles.ends
  cases hsource : tokenize source with
  | nil => simp [hsource] at hts
  | cons t ts =>
    exact ⟨rfl, rfl, Nat.lt_succ_self _, ⟨words, last, hsource.symm.trans hts, hlast, hwords⟩, fun h => absurd rfl h⟩

/-- Reading ends with a tree or with one error. An error does not stop the readers that are at work: each of them goes on
at an end mark and comes back to the one that called it. No bound on a loop and no bound on the nesting is used up, before
an error or after it: there is a result, and deeper grammars come to the same. Either no error is reported, or one is, at
a token of the source, which starts and ends in it. -/
theorem Program.parse_settles (source : String) (first : Int) (name : String) :
    ∃ body stop s, readSource source = some ((body, stop), s) ∧
      (∀ depth, (readProgram (.nested ((tokenize source).length + depth))).run (.ofTokens (tokenize source)) =
        some ((body, stop), s)) ∧
      ((s.errors = [] ∧ ∃ p, Program.parse source first name = .ok p) ∨
        ∃ e, s.errors = [e] ∧ Program.parse source first name = .error e ∧
          ∃ t ∈ tokenize source, e.start = t.start ∧ e.stop = t.stop ∧ t.start.offset ≤ t.stop.offset ∧
            t.stop.offset ≤ byteLength source.toList) := by
  obtain ⟨hleft, herrors, hahead, hends⟩ := Stream.ends_tokenize source
  have hagrees (depth : Nat) := agrees_readProgram (Grammar.agrees_nested (tokenize source).length depth) hahead
  obtain ⟨⟨body, stop⟩, s, hrun, -, -, hleads, -⟩ := hagrees 0 hends
  have hread : readSource source = some ((body, stop), s) := hrun
  refine ⟨body, stop, s, hread, fun depth => ?_, ?_⟩
  · obtain ⟨x, s', hrun', hdeep, -⟩ := hagrees depth hends
    obtain ⟨rfl, rfl⟩ := Prod.mk.inj (Option.some.inj (hrun'.symm.trans hrun))
    exact hdeep
  · rcases hleads with ⟨hs, -⟩ | ⟨-, -, cause, t, ht, he⟩
    · have hs : s.errors = [] := hs.trans herrors
      refine .inl ⟨hs, ?_⟩
      simp only [Program.parse, hread, hs]
      exact ⟨_, rfl⟩
    · rw [hleft] at ht
      have hlies := (tiles_tokensFrom (Cursor.stands_ofString source) (Nat.lt_succ_self _) false).lies t ht
      obtain ⟨cs, ⟨before, after, hsource, -, hoffset⟩, -⟩ := hlies.word
      refine .inr ⟨_, he, by simp only [Program.parse, hread, he], t, ht, rfl, rfl, hlies.ordered, ?_⟩
      rw [hsource, byteLength_append, hoffset]
      exact Nat.le_add_right ..

end Stepwise

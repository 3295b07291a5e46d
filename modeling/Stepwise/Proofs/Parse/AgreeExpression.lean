import Stepwise.Proofs.Parse.Agree

/-!
# Expressions do not depend on the bounds

* `Grammar.Agrees`: two grammars whose readers agree, and take a token, where few tokens are left.
* `Grammar.agrees_assignmentExpression` and the like: readers of expressions that use such grammars agree where one
  token more is left, since they take a token first.
-/

namespace Stepwise

open Reader

variable {s : Stream}

/-! ### Words and lists -/

theorem agrees_readIdentifier : readIdentifier.Agrees readIdentifier s s.Past := by
  have htake : (takeName s.current).Agrees (takeName s.current) s s.Past := by
    unfold takeName
    split
    · exact agrees_advance
    · exact (agrees_fail _).mono fun _ _ _ h => by omega
    · exact (agrees_fail _).mono fun _ _ _ h => by omega
  exact .of_current (htake.bind fun _ s₁ _ h => .of_spanFrom (agrees_pure h))

theorem agrees_readPropertyIdentifier : readPropertyIdentifier.Agrees readPropertyIdentifier s s.Past := by
  have htake : (takePropertyName s.current).Agrees (takePropertyName s.current) s s.Past := by
    unfold takePropertyName
    split
    · exact agrees_advance
    · exact agrees_advance
    · exact (agrees_fail _).mono fun _ _ _ h => by omega
  exact .of_current (htake.bind fun _ s₁ _ h => .of_spanFrom (agrees_pure h))

theorem agrees_readNumberLiteral : readNumberLiteral.Agrees readNumberLiteral s s.Past := by
  refine .of_current (.of_failIf fun s₁ hle => .of_advance fun s₂ h => .of_spanFrom (agrees_pure ?_))
  omega

theorem agrees_readNothing {cause : ParseCause} : (readNothing cause).Agrees (readNothing cause) s s.Past :=
  .of_here (.of_fail fun _ h => .of_spanFrom (agrees_pure (by omega)))

theorem agrees_refusePattern : refusePattern.Agrees refusePattern s fun _ _ => True := by
  have hbind : (refusePattern >>= pure).Agrees (refusePattern >>= pure) s fun _ _ => True := by
    unfold refusePattern
    rw [bind_assoc]
    exact .of_kind (.of_failIf fun _ _ => agrees_pure trivial)
  rwa [bind_pure] at hbind

/-! ### Loops -/

section

variable {n turns : Nat}

theorem agrees_readList {α : Type} {item item' : Reader α} (close : Punctuator)
    (hi : ∀ s : Stream, s.ahead < n → item.Agrees item' s s.Past) (hn : s.ahead ≤ n - 1)
    (ht : s.ahead < turns) : (readList close item turns).Agrees (readList close item' turns) s fun _ _ => True := by
  refine Stream.turn_induction hn ht fun turns s hn ih => ?_
  refine .of_isAt_or (fun _ => agrees_pure trivial) fun hk => .of_word (fun he => hk (.inr he)) fun hpos => ?_
  refine (hi s (by omega)).bind fun x s₁ _ hx => .of_skipMark (fun s₂ hcomma => ?_) fun _ => agrees_pure trivial
  exact (ih s₂ (by omega)).bind fun l s₃ _ _ => agrees_pure trivial

theorem agrees_readStatements {ends : TokenKind → Bool} (hends : ends .eof) {statement statement' : Reader Stmt}
    (hs : ∀ s : Stream, s.ahead < n → statement.Agrees statement' s s.Past) (hn : s.ahead ≤ n - 1)
    (ht : s.ahead < turns) :
    (readStatements ends statement turns).Agrees (readStatements ends statement' turns) s fun _ _ => True := by
  refine Stream.turn_induction hn ht fun turns s hn ih => .of_kind ?_
  split
  · exact agrees_pure trivial
  · next hk =>
    refine .of_word (fun he => hk (he ▸ hends)) fun hpos => (hs s (by omega)).bind fun x s₁ _ hx => ?_
    exact (ih s₁ (by omega)).bind fun l s₂ _ _ => agrees_pure trivial

theorem agrees_readBlock {statement statement' : Reader Stmt}
    (hs : ∀ s : Stream, s.ahead < n → statement.Agrees statement' s s.Past) (hn : s.ahead ≤ n) :
    (readBlock statement).Agrees (readBlock statement') s s.Past := by
  refine .of_here (.of_expectMark fun s₁ hl => .of_turns fun turns ht => ?_)
  refine (agrees_readStatements rfl hs (by omega) ht).bind fun body s₂ hle _ => ?_
  exact .of_expectMark fun s₃ hr => .of_spanFrom (agrees_pure (by omega))

theorem agrees_readParameters (ht : s.ahead < turns) : ∀ seen,
    (readParameters seen turns).Agrees (readParameters seen turns) s fun _ _ => True := by
  refine Stream.turn_induction (Nat.le_refl _) ht fun turns s _ ih seen => ?_
  refine .of_isAt_or (fun _ => agrees_pure trivial) fun hk => .of_word (fun he => hk (.inr he)) fun hpos => ?_
  refine .of_refuseAt fun s₁ _ => agrees_refusePattern.bind fun _ s₂ _ _ => agrees_readIdentifier.bind fun i s₃ _ hi => ?_
  refine .of_failIf fun s₄ _ => .of_refuseAt fun s₅ _ => .of_skipMark (fun s₆ hcomma => ?_) fun _ => agrees_pure trivial
  exact (ih s₆ (by omega) _).bind fun ps s₇ _ _ => agrees_pure trivial

end

/-! ### Operators -/

theorem UnaryOp.ne_eof_of_ofToken? {k : TokenKind} {op : UnaryOp} (h : ofToken? k = some op) : k ≠ .eof := by
  rintro rfl
  cases h

theorem UpdateOp.ne_eof_of_ofToken? {k : TokenKind} {op : UpdateOp} (h : ofToken? k = some op) : k ≠ .eof := by
  rintro rfl
  cases h

theorem Connective.ne_eof_of_ofToken? {k : TokenKind} {op : Connective} (h : ofToken? k = some op) : k ≠ .eof := by
  rintro rfl
  cases h

theorem AssignOp.ne_eof_of_ofToken? {k : TokenKind} {op : AssignOp} (h : ofToken? k = some op) : k ≠ .eof := by
  rintro rfl
  cases h

namespace Grammar

/-- Where fewer tokens are left than the number, the readers of the grammars agree, and they take a token. -/
structure Agrees (n : Nat) (g g' : Grammar) : Prop where
  statement : ∀ ctx (s : Stream), s.ahead < n → (g.statement ctx).Agrees (g'.statement ctx) s s.Past
  assignment : ∀ ctx (s : Stream), s.ahead < n → (g.assignment ctx).Agrees (g'.assignment ctx) s s.Past
  binary : ∀ ctx least (s : Stream), s.ahead < n → (g.binary ctx least).Agrees (g'.binary ctx least) s s.Past
  unary : ∀ ctx (s : Stream), s.ahead < n → (g.unary ctx).Agrees (g'.unary ctx) s s.Past
  construct : ∀ ctx (s : Stream), s.ahead < n → s.current.kind = .keyword .new →
    (g.construct ctx).Agrees (g'.construct ctx) s s.Past

variable {g g' : Grammar} {ctx : Context} {n turns : Nat}

/-! ### Expressions -/

theorem agrees_restOfSequence {item item' : Reader Expr}
    (hi : ∀ s : Stream, s.ahead < n → item.Agrees item' s s.Past) (hn : s.ahead ≤ n) (ht : s.ahead < turns) :
    (restOfSequence item turns).Agrees (restOfSequence item' turns) s fun _ _ => True := by
  refine Stream.turn_induction hn ht fun turns s hn ih => ?_
  refine .of_skipMark (fun s₁ hcomma => ?_) fun _ => agrees_pure trivial
  exact (hi s₁ (by omega)).bind fun e s₂ _ he => (ih s₂ (by omega)).bind fun es s₃ _ _ => agrees_pure trivial

theorem agrees_sequenceOf {first first' item item' : Reader Expr} (hf : first.Agrees first' s s.Past)
    (hi : ∀ s : Stream, s.ahead < n → item.Agrees item' s s.Past) (hn : s.ahead ≤ n) :
    (sequenceOf first item).Agrees (sequenceOf first' item') s s.Past := by
  refine .of_here (hf.bind fun e s₁ _ he => .of_turns fun turns ht => ?_)
  refine (agrees_restOfSequence hi (by omega) ht).bind fun es s₂ hle _ => ?_
  split
  · exact agrees_pure (by omega)
  · exact .of_spanFrom (agrees_pure (by omega))

theorem agrees_leaf {make : Loc → Expr} : (leaf make).Agrees (leaf make) s s.Past :=
  .of_here (.of_advance fun _ hs' => .of_spanFrom (agrees_pure hs'))

theorem agrees_propertyName : propertyName.Agrees propertyName s s.Past := by
  refine .of_current ?_
  split
  · exact .of_advance fun s₁ h => .of_spanFrom (agrees_pure h)
  · exact agrees_readNumberLiteral.bind fun _ _ _ hn => agrees_pure hn
  · refine .of_refuseAt fun s₁ _ => agrees_readPropertyIdentifier.bind fun _ s₂ _ hi => agrees_pure ?_
    omega

theorem agrees_accessorKind : accessorKind.Agrees accessorKind s fun k s' =>
    s' = s ∧ (k ≠ .init → s.current.kind = .identifier) := by
  refine .of_current (.of_nextKind fun next => ?_)
  split
  · next hk =>
    split
    · exact agrees_pure ⟨rfl, fun _ => hk.1⟩
    · split
      · exact agrees_pure ⟨rfl, fun _ => hk.1⟩
      · exact agrees_pure ⟨rfl, fun h => absurd rfl h⟩
  · exact agrees_pure ⟨rfl, fun h => absurd rfl h⟩

section

variable (hg : g.Agrees n g')

include hg

theorem agrees_expression (hn : s.ahead < n) : (g.expression ctx).Agrees (g'.expression ctx) s s.Past :=
  agrees_sequenceOf (hg.assignment ctx s hn) (hg.assignment ctx) (Nat.le_of_lt hn)

theorem agrees_functionRest (hn : s.ahead ≤ n) : g.functionRest.Agrees g'.functionRest s s.Past := by
  refine .of_expectMark fun s₁ hl => .of_turns fun turns ht => ?_
  refine (agrees_readParameters ht []).bind fun ps s₂ _ _ => .of_expectMark fun s₃ hr => ?_
  exact (agrees_readBlock (hg.statement _) (by omega)).bind fun body s₄ _ hbody => agrees_pure (by omega)

theorem agrees_functionExpression (hn : s.ahead ≤ n) (hk : s.current.kind = .keyword .function) :
    g.functionExpression.Agrees g'.functionExpression s s.Past := by
  have hrest (name : Option Identifier) {s₁ : Stream} (h : s₁.ahead < s.ahead) :
      (do
        let r ← g.functionRest
        return .function (← spanFrom s.current.start) name r.1 r.2 : Reader Expr).Agrees (do
        let r ← g'.functionRest
        return .function (← spanFrom s.current.start) name r.1 r.2) s₁ s.Past :=
    (agrees_functionRest hg (by omega)).bind fun r s₂ _ hr => .of_spanFrom (agrees_pure (by omega))
  refine .of_here (.of_take (by simp [hk]) fun s₁ hword => .of_refuseAt fun s₂ _ => ?_)
  refine .of_isAt (fun _ => ?_) fun _ => hrest none (by omega)
  refine .bind (P := fun _ _ => True) ?_ fun name s₃ hle _ => hrest name (by omega)
  exact agrees_readIdentifier.map fun _ _ _ _ => trivial

theorem agrees_group (hn : s.ahead ≤ n) (hk : s.current.kind = .punctuator .leftParen) :
    (g.group ctx).Agrees (g'.group ctx) s s.Past := by
  refine .of_take (by simp [hk]) fun s₁ hl => .of_refuseAt fun s₂ _ => ?_
  refine (agrees_expression hg (by omega)).bind fun e s₃ _ he => .of_expectMark fun s₄ hr => ?_
  exact .of_refuseAt fun s₅ _ => agrees_pure (by omega)

theorem agrees_arrayElements (hn : s.ahead ≤ n - 1) (ht : s.ahead < turns) :
    (g.arrayElements ctx turns).Agrees (g'.arrayElements ctx turns) s fun _ _ => True := by
  refine Stream.turn_induction hn ht fun turns s hn ih => .of_kind ?_
  split
  · exact agrees_pure trivial
  · exact agrees_pure trivial
  · next hk =>
    exact .of_take (by simp [hk]) fun s₁ hcomma => (ih s₁ hcomma).bind fun _ _ _ _ => agrees_pure trivial
  · next hend _ =>
    refine .of_word hend fun hpos => .of_refuseAt fun s₁ _ => (hg.assignment ctx s₁ (by omega)).bind fun e s₂ _ he => ?_
    exact .of_separate fun s₃ _ => (ih s₃ (by omega)).bind fun _ _ _ _ => agrees_pure trivial

theorem agrees_arrayLiteral (hn : s.ahead ≤ n) (hk : s.current.kind = .punctuator .leftBracket) :
    (g.arrayLiteral ctx).Agrees (g'.arrayLiteral ctx) s s.Past := by
  refine .of_here (.of_take (by simp [hk]) fun s₁ hl => .of_turns fun turns ht => ?_)
  refine (agrees_arrayElements hg (by omega) ht).bind fun es s₂ hle _ => .of_expectMark fun s₃ hr => ?_
  exact .of_spanFrom (agrees_pure (by omega))

theorem agrees_propertyValue (hn : s.ahead ≤ n) :
    (g.propertyValue ctx).Agrees (g'.propertyValue ctx) s fun _ _ => True := by
  refine .of_kind ?_
  split
  · next hk =>
    refine .of_take (by simp [hk]) fun s₁ hcolon => (hg.assignment ctx s₁ (by omega)).mono fun _ _ _ _ => trivial
  · exact .of_fail fun _ _ => agrees_pure trivial
  · exact .of_fail fun _ _ => agrees_pure trivial
  · exact .of_fail fun _ _ => agrees_pure trivial
  · exact .of_expectMark fun _ _ => agrees_pure trivial

theorem agrees_property (hn : s.ahead ≤ n) : (g.property ctx).Agrees (g'.property ctx) s s.Past := by
  refine .of_here (agrees_accessorKind.bind fun k s₁ _ hk => ?_)
  obtain ⟨rfl, hk⟩ := hk
  split
  · refine agrees_propertyName.bind fun name s₂ _ hname => ?_
    exact (agrees_propertyValue hg (by omega)).bind fun value s₃ _ _ => .of_spanFrom (agrees_pure (by omega))
  · next hinit =>
    refine .of_take (by simp [hk hinit]) fun s₂ hword => agrees_propertyName.bind fun name s₃ _ hname => .of_here ?_
    refine (agrees_functionRest hg (by omega)).bind fun r s₄ _ hr => .of_spanFrom (.of_spanFrom (agrees_pure ?_))
    omega

theorem agrees_properties (hn : s.ahead ≤ n - 1) (ht : s.ahead < turns) :
    (g.properties ctx turns).Agrees (g'.properties ctx turns) s fun _ _ => True := by
  refine Stream.turn_induction hn ht fun turns s hn ih => .of_kind ?_
  split
  · exact agrees_pure trivial
  · next hk =>
    refine .of_word (fun he => hk (by simp [he, endsBlock])) fun hpos => ?_
    refine (agrees_property hg (by omega)).bind fun p s₁ _ hp => .of_separate fun s₂ _ => ?_
    exact (ih s₂ (by omega)).bind fun _ _ _ _ => agrees_pure trivial

theorem agrees_objectLiteral (hn : s.ahead ≤ n) (hk : s.current.kind = .punctuator .leftBrace) :
    (g.objectLiteral ctx).Agrees (g'.objectLiteral ctx) s s.Past := by
  refine .of_here (.of_take (by simp [hk]) fun s₁ hl => .of_turns fun turns ht => ?_)
  refine (agrees_properties hg (by omega) ht).bind fun ps s₂ hle _ => .of_expectMark fun s₃ hr => ?_
  exact .of_spanFrom (agrees_pure (by omega))

theorem agrees_primary (hn : s.ahead ≤ n) : (g.primary ctx).Agrees (g'.primary ctx) s s.Past := by
  refine .of_current ?_
  split
  · refine .of_nextKind fun next => .of_failIf fun s₁ _ => agrees_readIdentifier.bind fun _ s₂ _ hi => agrees_pure ?_
    omega
  · exact agrees_readNumberLiteral.bind fun _ _ _ hn => agrees_pure hn
  iterate 6 exact agrees_leaf
  · next hk => exact agrees_functionExpression hg hn hk
  · next hk => exact agrees_group hg hn hk
  · next hk => exact agrees_arrayLiteral hg hn hk
  · next hk => exact agrees_objectLiteral hg hn hk
  iterate 5 exact agrees_readNothing

theorem agrees_arguments (hn : s.ahead ≤ n) (hk : s.current.kind = .punctuator .leftParen) :
    (g.arguments ctx).Agrees (g'.arguments ctx) s fun _ s' => s'.ahead < s.ahead := by
  refine .of_take (by simp [hk]) fun s₁ hl => .of_turns fun turns ht => ?_
  refine (agrees_readList (n := n) _ (fun s hs => ?_) (by omega) ht).bind fun es s₂ hle _ => ?_
  · exact .of_refuseAt fun s₁ _ => (hg.assignment _ s₁ (by omega)).mono fun _ _ _ _ => by omega
  · exact .of_expectMark fun s₃ hr => agrees_pure (by omega)

theorem agrees_member (hn : s.ahead ≤ n) {object : Expr}
    (hk : s.current.kind = .punctuator .dot ∨ s.current.kind = .punctuator .leftBracket) :
    (g.member ctx object).Agrees (g'.member ctx object) s fun _ s' => s'.ahead < s.ahead := by
  refine .of_skipMark (fun s₁ hdot => ?_) fun hdot => ?_
  · exact agrees_readPropertyIdentifier.bind fun i s₂ _ hi => .of_spanFrom (agrees_pure (by omega))
  · refine .of_take (by simp [hk.resolve_left hdot]) fun s₁ hl => ?_
    refine (agrees_expression hg (by omega)).bind fun key s₂ _ hkey => .of_expectMark fun s₃ hr => ?_
    exact .of_spanFrom (agrees_pure (by omega))

theorem agrees_calleeMembers (hn : s.ahead ≤ n) (ht : s.ahead < turns) : ∀ callee,
    (g.calleeMembers ctx turns callee).Agrees (g'.calleeMembers ctx turns callee) s fun _ _ => True := by
  refine Stream.turn_induction hn ht fun turns s hn ih callee => ?_
  refine .of_isAt_or (fun hk => ?_) fun _ => agrees_pure trivial
  exact (agrees_member hg hn hk).bind fun e s₁ _ he => ih s₁ he e

theorem agrees_newExpression (hn : s.ahead ≤ n) (hk : s.current.kind = .keyword .new) :
    (g.newExpression ctx).Agrees (g'.newExpression ctx) s s.Past := by
  refine .of_here (.of_take (by simp [hk]) fun s₁ hword => .of_refuseAt fun s₂ hle => ?_)
  have hrest (inner : Expr) {s₂ : Stream} (hi : s₂.ahead ≤ s₁.ahead) :
      (do
        let callee ← g.calleeMembers ctx (← turns) inner
        let args ← if ← isAtMark .leftParen then g.arguments ctx else pure []
        return .new (← spanFrom s.current.start) callee args : Reader Expr).Agrees (do
        let callee ← g'.calleeMembers ctx (← turns) inner
        let args ← if ← isAtMark .leftParen then g'.arguments ctx else pure []
        return .new (← spanFrom s.current.start) callee args) s₂ s.Past := by
    refine .of_turns fun turns ht => ?_
    refine (agrees_calleeMembers hg (by omega) ht inner).bind fun callee s₃ hle _ => .of_isAt (fun hl => ?_) fun _ => ?_
    · exact (agrees_arguments hg (by omega) hl).bind fun args s₄ _ ha => .of_spanFrom (agrees_pure (by omega))
    · exact .of_pure (.of_spanFrom (agrees_pure (by omega)))
  refine .of_isAt (fun hnew => ?_) fun _ => ?_
  · exact (hg.construct ctx s₂ (by omega) hnew).bind fun inner s₃ _ _ => hrest inner (by omega)
  · exact (agrees_primary hg (by omega)).bind fun inner s₃ _ _ => hrest inner (by omega)

theorem agrees_operandTail (start : Position) (hn : s.ahead ≤ n) (ht : s.ahead < turns) :
    ∀ e, (g.operandTail ctx start turns e).Agrees (g'.operandTail ctx start turns e) s fun _ _ => True := by
  refine Stream.turn_induction hn ht fun turns s hn ih e => .of_kind ?_
  split
  · next hk => exact (agrees_member hg hn (.inl hk)).bind fun e s₁ _ he => ih s₁ he e
  · next hk => exact (agrees_member hg hn (.inr hk)).bind fun e s₁ _ he => ih s₁ he e
  · next hk => exact (agrees_arguments hg hn hk).bind fun args s₁ _ ha => .of_spanFrom (ih s₁ ha _)
  · exact .of_fail fun _ _ => agrees_pure trivial
  · exact agrees_pure trivial

theorem agrees_operand (hn : s.ahead ≤ n) : (g.operand ctx).Agrees (g'.operand ctx) s s.Past := by
  have hrest (e : Expr) {s₁ : Stream} (he : s₁.ahead ≤ s.ahead - 1) :
      (do g.operandTail ctx s.current.start (← turns) e : Reader Expr).Agrees
        (do g'.operandTail ctx s.current.start (← turns) e) s₁ s.Past := by
    refine .of_turns fun turns ht => ?_
    exact (agrees_operandTail hg _ (by omega) ht e).mono fun _ s₂ hle _ => by omega
  refine .of_here (.of_isAt (fun hk => ?_) fun _ => ?_)
  · exact (agrees_newExpression hg hn hk).bind fun e s₁ _ he => hrest e he
  · exact (agrees_primary hg hn).bind fun e s₁ _ he => hrest e he

theorem agrees_unaryExpression (hn : s.ahead ≤ n) : (g.unaryExpression ctx).Agrees (g'.unaryExpression ctx) s s.Past := by
  refine .of_current ?_
  split
  · next op hop =>
    refine .of_take (UnaryOp.ne_eof_of_ofToken? hop) fun s₁ hword => ?_
    refine (hg.unary ctx s₁ (by omega)).bind fun e s₂ _ he => ?_
    exact .of_failIf fun s₃ _ => .of_spanFrom (agrees_pure (by omega))
  · next op hop =>
    refine .of_take (UpdateOp.ne_eof_of_ofToken? hop) fun s₁ hword => ?_
    refine (hg.unary ctx s₁ (by omega)).bind fun e s₂ _ he => ?_
    exact .of_failIf fun s₃ _ => .of_spanFrom (agrees_pure (by omega))
  · refine (agrees_operand hg hn).bind fun e s₁ _ he => .of_current ?_
    split
    · split
      · exact agrees_pure he
      · exact .of_failIf fun s₂ _ => .of_advance fun s₃ _ => .of_spanFrom (agrees_pure (by omega))
    · exact agrees_pure he

omit hg in
theorem agrees_connective? (least : Nat) : (connective? ctx least).Agrees (connective? ctx least) s fun op s' =>
    ∀ o ∈ op, s'.current.kind ≠ .eof := by
  have hword {k : TokenKind} {o : Connective} (ho : o ∈ connectiveOf? ctx least k) : Connective.ofToken? k = some o := by
    unfold connectiveOf? at ho
    split at ho
    · cases ho
    · exact (Option.filter_eq_some_iff.1 ho).1
  refine .of_kind (.of_failIf_cases (fun hk s₁ _ => agrees_pure fun o ho => ?_) fun _ => agrees_pure fun o ho => ?_)
  · have ho := hword ho
    rw [hk] at ho
    cases ho
  · exact Connective.ne_eof_of_ofToken? (hword ho)

theorem agrees_binaryTail (least : Nat) (start : Position) (hn : s.ahead ≤ n) (ht : s.ahead < turns) : ∀ left,
    (g.binaryTail ctx least start turns left).Agrees (g'.binaryTail ctx least start turns left) s fun _ _ => True := by
  refine Stream.turn_induction hn ht fun turns s hn ih left => ?_
  refine (agrees_connective? least).bind fun op s₁ hle hop => ?_
  split
  · exact agrees_pure trivial
  · refine .of_take (hop _ rfl) fun s₂ hword => (hg.binary ctx _ s₂ (by omega)).bind fun right s₃ _ hr => ?_
    exact .of_spanFrom (ih s₃ (by omega) _)

theorem agrees_binaryExpression (least : Nat) (hn : s.ahead ≤ n) :
    (g.binaryExpression ctx least).Agrees (g'.binaryExpression ctx least) s s.Past := by
  refine .of_here ((agrees_unaryExpression hg hn).bind fun left s₁ _ hl => .of_turns fun turns ht => ?_)
  exact (agrees_binaryTail hg least _ (by omega) ht left).mono fun _ s₂ hle _ => by omega

theorem agrees_conditionalExpression (hn : s.ahead ≤ n) :
    (g.conditionalExpression ctx).Agrees (g'.conditionalExpression ctx) s s.Past := by
  refine .of_here ((agrees_binaryExpression hg 0 hn).bind fun test s₁ _ htest => ?_)
  refine .of_skipMark (fun s₂ hquestion => ?_) fun _ => agrees_pure htest
  refine (hg.assignment _ s₂ (by omega)).bind fun consequent s₃ _ hc => .of_expectMark fun s₄ hcolon => ?_
  exact (hg.assignment ctx s₄ (by omega)).bind fun alternate s₅ _ ha => .of_spanFrom (agrees_pure (by omega))

theorem agrees_assignmentExpression (hn : s.ahead ≤ n) :
    (g.assignmentExpression ctx).Agrees (g'.assignmentExpression ctx) s s.Past := by
  refine .of_here ((agrees_conditionalExpression hg hn).bind fun left s₁ _ hl => .of_refuseAt fun s₂ hle => .of_kind ?_)
  split
  · exact agrees_pure (by omega)
  · next op hop =>
    refine .of_word (AssignOp.ne_eof_of_ofToken? hop) fun hpos => .of_failIf fun s₃ _ => .of_advance fun s₄ _ => ?_
    exact (hg.assignment ctx s₄ (by omega)).bind fun right s₅ _ hr => .of_spanFrom (agrees_pure (by omega))

theorem agrees_fullExpression (hn : s.ahead ≤ n) : (g.fullExpression ctx).Agrees (g'.fullExpression ctx) s s.Past :=
  agrees_sequenceOf (agrees_assignmentExpression hg hn) (hg.assignment ctx) hn

end

end Grammar

end Stepwise

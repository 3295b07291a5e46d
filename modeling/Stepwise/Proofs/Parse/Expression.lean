import Stepwise.Proofs.Decimal.Text
import Stepwise.Proofs.Parse.List

/-!
# Reading printed expressions

* `Grammar.Covers`: a grammar reads the printed expressions up to a length.
* `bare_takes`: with such a grammar for the parts, a reader reads the expressions that are one token longer.
* `Grammar.covers_nested`: the grammar for parts nested to a depth reads those that are shorter than it.
-/

namespace Stepwise

open Reader

variable {g : Grammar} {ctx : Context} {before after : List Lexeme} {post : Expr → Prop} {least : Nat}

/-! ### Operands -/

theorem readIdentifier_takes {i : Identifier} (h : i.Plain) :
    readIdentifier.Takes (.word i.name :: after) after (i.name = ·.name) := by
  refine takes_current.bind fun t ht => ?_
  have htake : (takeName t).Takes (.word i.name :: after) after fun _ => True := by
    unfold takeName
    rw [show t.kind = .identifier from ht.kind.trans h.2]
    exact takes_advance
  exact htake.bind fun _ _ => (takes_spanFrom _).bind fun _ _ => .pure ht.text.symm

theorem literalValue?_toString {k : Nat} {value : Float} (h : nearestFloat false k 1 = (value, false)) :
    literalValue? (toString k) = some value := by
  have hread : readFloat? (toString k) = some value := by
    rw [readFloat?_toString, h]
    rfl
  have hdigits : AllDigits (toString k).toList := by
    rw [show (toString k).toList = Nat.toDigits 10 k from String.toList_ofList]
    exact .toDigits k
  unfold literalValue?
  split
  · next heq => exact absurd (hdigits 'x' (by rw [heq]; simp)) (by decide)
  · next heq => exact absurd (hdigits 'X' (by rw [heq]; simp)) (by decide)
  · exact hread

theorem leaf_takes {l : Lexeme} {make : Loc → Expr} (hmake : ∀ loc, post (make loc)) :
    (Grammar.leaf make).Takes (l :: after) after post :=
  takes_here.bind fun _ _ => takes_advance.bind fun _ _ => (takes_spanFrom _).bind fun _ _ => .pure (hmake _)

/-- An expression without parts is read as it is printed. -/
theorem primary_leaf {e : Expr} (he : e.Plain) (hcompound : ¬e.isCompound) (hafter : 0 < (headKind after).joins) :
    (g.primary ctx).Takes (e.lexemes ++ after) after e.Alike := by
  cases e with
  | identifier i =>
    show Takes _ (.word i.name :: after) _ _
    refine takes_current.bind fun t ht => ?_
    rw [show t.kind = .identifier from ht.kind.trans he.2]
    refine takes_nextKind.bind ?_
    rintro _ rfl
    refine (takes_failIf (ne_of_joins (.punctuator .arrow) hafter)).bind fun _ _ => ?_
    exact (readIdentifier_takes he).bind fun j hj => .pure (.identifier hj)
  | number l value raw =>
    obtain ⟨k, rfl, hvalue⟩ := he
    refine takes_current.bind fun t ht => ?_
    rw [show t.kind = .number from ht.kind]
    have hread : readNumberLiteral.Takes (.number (toString k) :: after) after (·.2 = (value, toString k)) := by
      refine takes_current.bind fun t ht => ?_
      rw [show t.text = toString k from ht.text, literalValue?_toString hvalue]
      refine (takes_failIf (by simp)).bind fun _ _ => takes_advance.bind fun _ _ => ?_
      exact (takes_spanFrom _).bind fun _ _ => .pure rfl
    refine hread.bind ?_
    rintro ⟨l', _⟩ rfl
    exact .pure .number
  | string l value =>
    refine takes_current.bind fun t ht => ?_
    rw [show t.kind = .string from ht.kind, show t.text = value from ht.text]
    exact leaf_takes fun _ => .string
  | boolean l value =>
    refine takes_current.bind fun t ht => ?_
    cases value
    · rw [show t.kind = .keyword .false_ from ht.kind.trans (ofWord_keyword _)]
      exact leaf_takes fun _ => .boolean
    · rw [show t.kind = .keyword .true_ from ht.kind.trans (ofWord_keyword _)]
      exact leaf_takes fun _ => .boolean
  | null l =>
    refine takes_current.bind fun t ht => ?_
    rw [show t.kind = .keyword .null from ht.kind.trans (ofWord_keyword _)]
    exact leaf_takes fun _ => .null
  | this l =>
    refine takes_current.bind fun t ht => ?_
    rw [show t.kind = .keyword .this from ht.kind.trans (ofWord_keyword _)]
    exact leaf_takes fun _ => .this
  | _ => exact absurd rfl hcompound

theorem calleeMembers_stop {turns : Nat} {callee : Expr} (hcallee : post callee) :
    (g.calleeMembers ctx (turns + 1) callee).Takes (.mark .leftParen :: after) (.mark .leftParen :: after) post := by
  refine (takes_isAtMark _).bind ?_
  rintro _ rfl
  refine (takes_isAtMark _).bind ?_
  rintro _ rfl
  rw [if_neg (by simp [Lexeme.kind])]
  exact .pure hcallee

theorem Expr.Alike.isTarget {e e' : Expr} (h : e.Alike e') : e'.isTarget = e.isTarget := by
  cases h <;> rfl

/-! ### Grammars that read printed expressions -/

/-- The readers of nested parts read the printed expressions that are shorter than `n`. -/
structure Grammar.Covers (g : Grammar) (n : Nat) : Prop where
  /-- Inside parentheses an expression that is no sequence stands as it is. -/
  bare {e : Expr} {ctx : Context} {after : List Lexeme} (he : e.Plain) (hn : e.lexemes.length < n)
    (hsequence : ¬e.isSequence) (hctx : ctx.noIn = false) (hafter : 5 < (headKind after).joins) :
    (g.assignment ctx).Takes (e.lexemes ++ after) after e.Alike
  assignment {e : Expr} {ctx : Context} {after : List Lexeme} (he : e.Plain) (hn : e.enclosed.length < n)
    (hctx : ctx.noIn = false) (hafter : 5 < (headKind after).joins) :
    (g.assignment ctx).Takes (e.enclosed ++ after) after e.Alike
  binary {e : Expr} {ctx : Context} {least : Nat} {after : List Lexeme} (he : e.Plain) (hn : e.enclosed.length < n)
    (hctx : ctx.noIn = false) (hafter : 3 < (headKind after).joins) :
    (g.binary ctx least).Takes (e.enclosed ++ after) after e.Alike
  unary {e : Expr} {ctx : Context} {after : List Lexeme} (he : e.Plain) (hn : e.enclosed.length < n)
    (hctx : ctx.noIn = false) (hafter : 2 < (headKind after).joins) :
    (g.unary ctx).Takes (e.enclosed ++ after) after e.Alike

section

variable {n : Nat} (hg : g.Covers n) {e : Expr}

include hg

theorem takesEach_assignment {es : List Expr} (hes : plainList es) (hn : (listLexemes es).length < n)
    (hctx : ctx.noIn = false) : (g.assignment ctx).TakesEach es := fun e he =>
  ⟨plain_of_mem hes e he, fun _ hafter =>
    hg.assignment (plain_of_mem hes e he) ((length_enclosed_of_mem he).trans_lt hn) hctx hafter⟩

/-- A sequence is read part by part. -/
theorem sequence_takes {first : Reader Expr} {l : Loc} {es : List Expr} (he : (Expr.sequence l es).Plain)
    (hn : (listLexemes es).length ≤ n) (hctx : ctx.noIn = false)
    (hfirst : ∀ {e : Expr} {after : List Lexeme}, e.Plain → e.enclosed.length < n → 5 < (headKind after).joins →
      first.Takes (e.enclosed ++ after) after e.Alike) (hafter : 6 < (headKind after).joins) :
    (Grammar.sequenceOf first (g.assignment ctx)).Takes (listLexemes es ++ after) after (Expr.sequence l es).Alike := by
  obtain ⟨hlength, hes⟩ := he
  obtain _ | ⟨e, _ | ⟨e₁, es⟩⟩ := es
  · cases hlength
  · exact absurd hlength (by simp)
  · -- the other parts are shorter than the whole
    have htail : listTail (e₁ :: es) = .mark .comma :: listLexemes (e₁ :: es) := rfl
    rw [listLexemes_cons, htail, List.length_append, List.length_cons] at hn
    have hitem : (g.assignment ctx).TakesEach (e₁ :: es) := takesEach_assignment hg hes.2 (by omega) hctx
    rw [listLexemes_cons, List.append_assoc]
    refine takes_here.bind fun start _ => ?_
    refine (hfirst hes.1 (by omega) (joins_listTail (e₁ :: es) (by omega))).bind fun e' he' => takes_turns.bind ?_
    rintro _ rfl
    have hturns : (e₁ :: es).length < (listTail (e₁ :: es) ++ after).length + 1 := by
      have := length_le_listLexemes (plain_of_mem hes.2)
      rw [htail, List.length_append, List.length_cons (a := Lexeme.mark .comma)]
      omega
    refine (restOfSequence_takes hitem hturns hafter).bind fun es' hes' => ?_
    cases hes' with
    | cons he₁ hes' => exact (takes_spanFrom _).bind fun _ _ => .pure (.sequence (.cons he' (.cons he₁ hes')))

/-- Inside parentheses an expression is read as it is printed. -/
theorem expression_takes (he : e.Plain) (hn : e.lexemes.length < n) (hctx : ctx.noIn = false)
    (hafter : 6 < (headKind after).joins) : (g.expression ctx).Takes (e.lexemes ++ after) after e.Alike := by
  by_cases hsequence : e.isSequence
  · cases e with
    | sequence l es =>
      exact sequence_takes hg he (Nat.le_of_lt hn) hctx (fun he hn hafter => hg.assignment he hn hctx hafter) hafter
    | _ => cases hsequence
  · exact sequenceOf_of_first (hg.bare he hn hsequence hctx (by omega)) hafter

/-- An expression that has no parts or stands in parentheses is read as one that no operator joins. -/
theorem primary_takes (he : e.Plain) (hn : e.enclosed.length ≤ n) (hafter : 0 < (headKind after).joins) :
    (g.primary ctx).Takes (e.enclosed ++ after) after e.Alike := by
  by_cases hcompound : e.isCompound
  · have henclosed : e.enclosed = .mark .leftParen :: (e.lexemes ++ [Lexeme.mark .rightParen]) := if_pos hcompound
    rw [henclosed] at hn ⊢
    rw [List.cons_append, List.append_assoc]
    simp only [List.length_cons, List.length_append, List.length_nil] at hn
    refine takes_current.bind fun t ht => ?_
    rw [show t.kind = .punctuator .leftParen from ht.kind]
    have hstart : headKind (e.lexemes ++ Lexeme.mark .rightParen :: after) ≠ .punctuator .rightParen := by
      by_cases hobject : e.isObject
      · cases e with
        | object => exact headKind_mark_ne (by decide)
        | _ => cases hobject
      · intro hk
        exact absurd (hk ▸ startsExpression_lexemes he hobject (.mark .rightParen :: after)) (by decide)
    refine takes_advance.bind fun _ _ => (takes_refuseAt hstart).bind fun _ _ => ?_
    have hinner : (g.expression ctx.allowIn).Takes (e.lexemes ++ Lexeme.mark .rightParen :: after)
        (.mark .rightParen :: after) e.Alike := expression_takes hg he (by omega) rfl (show 6 < 7 by decide)
    refine hinner.bind fun e' he' => ?_
    refine (takes_expectMark .rightParen).bind fun _ _ => ?_
    exact (takes_refuseAt (ne_of_joins (.punctuator .arrow) hafter)).bind fun _ _ => .pure he'
  · have henclosed : e.enclosed = e.lexemes := if_neg hcompound
    rw [henclosed]
    exact primary_leaf he hcompound hafter

/-- An operand is an expression that no operator joins, with what follows it. -/
theorem operand_of_tail {rest : List Lexeme} {Q : Expr → Prop} (he : e.Plain) (hn : e.enclosed.length ≤ n)
    (hrest : 0 < (headKind rest).joins)
    (htail : ∀ start e', e.Alike e' → (g.operandTail ctx start (rest.length + 1) e').Takes rest after Q) :
    (g.operand ctx).Takes (e.enclosed ++ rest) after Q := by
  refine takes_here.bind fun start _ => (takes_isAt _).bind ?_
  rintro _ rfl
  rw [if_neg (by simpa using ne_of_startsOperand _ (startsOperand_enclosed he rest) rfl)]
  refine (primary_takes hg he hn hrest).bind fun e' he' => takes_turns.bind ?_
  rintro _ rfl
  exact htail start e' he'

/-- Behind an operand another operator may follow. -/
theorem unary_takes (he : e.Plain) (hn : e.enclosed.length ≤ n) (hafter : 2 < (headKind after).joins) :
    (g.unaryExpression ctx).Takes (e.enclosed ++ after) after e.Alike :=
  unary_of_primary (primary_takes hg he hn (by omega)) (startsPrimary_of_operand (startsOperand_enclosed he _)) hafter

theorem binary_takes (he : e.Plain) (hn : e.enclosed.length ≤ n) (hctx : ctx.noIn = false)
    (hafter : 3 < (headKind after).joins) : (g.binaryExpression ctx least).Takes (e.enclosed ++ after) after e.Alike :=
  binary_of_unary (unary_takes hg he hn (by omega)) hctx hafter

/-! ### Compound expressions -/

theorem arguments_takes {es : List Expr} (hes : plainList es) (hn : (listLexemes es).length < n) :
    (g.arguments ctx).Takes (.mark .leftParen :: (listLexemes es ++ Lexeme.mark .rightParen :: after)) after
      (AlikeList es) := by
  refine takes_advance.bind fun _ _ => takes_turns.bind ?_
  rintro _ rfl
  have hitem : (g.assignment ctx.allowIn).TakesEach es := takesEach_assignment hg hes hn rfl
  have hitem : Reader.TakesEach (do refuseAt (.punctuator .ellipsis) .spread; g.assignment ctx.allowIn) es := by
    intro e he
    obtain ⟨hplain, hread⟩ := hitem e he
    refine ⟨hplain, fun after hafter => ?_⟩
    have hstart := ne_of_startsOperand (.punctuator .ellipsis) (startsOperand_enclosed hplain after) rfl
    exact (takes_refuseAt hstart).bind fun _ _ => hread after hafter
  have hturns := length_le_listLexemes (plain_of_mem hes)
  refine (readList_takes hitem (by simp only [List.length_append, List.length_cons]; omega)).bind fun es' hes' => ?_
  exact (takes_expectMark .rightParen).bind fun _ _ => .pure hes'

theorem call_takes {l : Loc} {callee : Expr} {es : List Expr} (he : (Expr.call l callee es).Plain)
    (hn : (Expr.call l callee es).lexemes.length ≤ n) (hafter : 1 < (headKind after).joins) :
    (g.operand ctx).Takes ((Expr.call l callee es).lexemes ++ after) after (Expr.call l callee es).Alike := by
  have hlexemes : (Expr.call l callee es).lexemes = callee.enclosed ++
      .mark .leftParen :: (listLexemes es ++ [Lexeme.mark .rightParen]) := rfl
  rw [hlexemes] at hn ⊢
  simp only [List.length_append, List.length_cons, List.length_nil] at hn
  simp only [List.append_assoc, List.cons_append, List.nil_append]
  refine operand_of_tail hg he.1 (by omega) (by exact Nat.zero_lt_one) fun start callee' hcallee => takes_kind.bind ?_
  rintro _ rfl
  refine (arguments_takes hg he.2 (by omega)).bind fun es' hes' => (takes_spanFrom _).bind fun l' _ => ?_
  exact operandTail_stop hafter (.call hcallee hes')

theorem new_takes {l : Loc} {callee : Expr} {es : List Expr} (he : (Expr.new l callee es).Plain)
    (hn : (Expr.new l callee es).lexemes.length ≤ n) (hafter : 1 < (headKind after).joins) :
    (g.operand ctx).Takes ((Expr.new l callee es).lexemes ++ after) after (Expr.new l callee es).Alike := by
  have hlexemes : (Expr.new l callee es).lexemes = .ofToken (.keyword .new) :: (callee.enclosed ++
      .mark .leftParen :: (listLexemes es ++ [Lexeme.mark .rightParen])) := rfl
  rw [hlexemes] at hn ⊢
  simp only [List.length_append, List.length_cons, List.length_nil] at hn
  simp only [List.append_assoc, List.cons_append, List.nil_append]
  refine takes_here.bind fun start _ => (takes_isAt _).bind ?_
  rintro _ rfl
  rw [headKind_cons, kind_ofToken rfl, if_pos (beq_self_eq_true _)]
  have hnew : (g.newExpression ctx).Takes (.ofToken (.keyword .new) :: (callee.enclosed ++
      .mark .leftParen :: (listLexemes es ++ Lexeme.mark .rightParen :: after))) after (Expr.new l callee es).Alike := by
    have hstart := startsOperand_enclosed he.1 (.mark .leftParen :: (listLexemes es ++ Lexeme.mark .rightParen :: after))
    refine takes_here.bind fun start _ => takes_advance.bind fun _ _ => ?_
    refine (takes_refuseAt (ne_of_startsOperand _ hstart rfl)).bind fun _ _ => (takes_isAt _).bind ?_
    rintro _ rfl
    rw [if_neg (by simpa using ne_of_startsOperand _ hstart rfl)]
    refine (primary_takes hg he.1 (by omega) (by exact Nat.zero_lt_one)).bind fun callee' hcallee => takes_turns.bind ?_
    rintro _ rfl
    -- the parenthesis of the arguments ends the callee
    refine (calleeMembers_stop hcallee).bind fun callee' hcallee => (takes_isAtMark _).bind ?_
    rintro _ rfl
    rw [if_pos (by simp [Lexeme.kind])]
    refine (arguments_takes hg he.2 (by omega)).bind fun es' hes' => ?_
    exact (takes_spanFrom _).bind fun _ _ => .pure (.new hcallee hes')
  refine hnew.bind fun e' he' => takes_turns.bind ?_
  rintro _ rfl
  exact operandTail_stop hafter he'

theorem member_takes {l : Loc} {object : Expr} {name : Identifier} (he : (Expr.member l object name).Plain)
    (hn : (Expr.member l object name).lexemes.length ≤ n) (hafter : 1 < (headKind after).joins) :
    (g.operand ctx).Takes ((Expr.member l object name).lexemes ++ after) after (Expr.member l object name).Alike := by
  have hlexemes : (Expr.member l object name).lexemes = object.enclosed ++ [Lexeme.mark .dot, .word name.name] := rfl
  rw [hlexemes] at hn ⊢
  simp only [List.length_append, List.length_cons, List.length_nil] at hn
  simp only [List.append_assoc, List.cons_append, List.nil_append]
  refine operand_of_tail hg he.1 (by omega) (by exact Nat.zero_lt_one) fun start object' hobject => takes_kind.bind ?_
  rintro _ rfl
  have hmember : (g.member ctx object').Takes (.mark .dot :: .word name.name :: after) after
      (Expr.member l object name).Alike := by
    refine (takes_skipMark .dot).bind ?_
    rintro _ rfl
    exact readPropertyIdentifier_takes.bind fun i hi => (takes_spanFrom _).bind fun _ _ => .pure (.member hobject hi)
  exact hmember.bind fun e' he' => operandTail_stop hafter he'

theorem index_takes {l : Loc} {object key : Expr} (he : (Expr.index l object key).Plain)
    (hn : (Expr.index l object key).lexemes.length ≤ n) (hafter : 1 < (headKind after).joins) :
    (g.operand ctx).Takes ((Expr.index l object key).lexemes ++ after) after (Expr.index l object key).Alike := by
  have hlexemes : (Expr.index l object key).lexemes = object.enclosed ++
      .mark .leftBracket :: (key.enclosed ++ [Lexeme.mark .rightBracket]) := rfl
  rw [hlexemes] at hn ⊢
  simp only [List.length_append, List.length_cons, List.length_nil] at hn
  simp only [List.append_assoc, List.cons_append, List.nil_append]
  refine operand_of_tail hg he.1 (by omega) (by exact Nat.zero_lt_one) fun start object' hobject => takes_kind.bind ?_
  rintro _ rfl
  have hmember : (g.member ctx object').Takes (.mark .leftBracket :: (key.enclosed ++ Lexeme.mark .rightBracket :: after))
      after (Expr.index l object key).Alike := by
    refine (takes_skipMark_none (headKind_mark_ne (by decide))).bind ?_
    rintro _ rfl
    have hkey : (g.expression ctx.allowIn).Takes (key.enclosed ++ Lexeme.mark .rightBracket :: after)
        (.mark .rightBracket :: after) key.Alike :=
      sequenceOf_of_first (hg.assignment he.2 (by omega) rfl (show 5 < 7 by decide)) (show 6 < 7 by decide)
    refine takes_advance.bind fun _ _ => hkey.bind fun key' hkey => (takes_expectMark _).bind fun _ _ => ?_
    exact (takes_spanFrom _).bind fun _ _ => .pure (.index hobject hkey)
  exact hmember.bind fun e' he' => operandTail_stop hafter he'

theorem array_takes {l : Loc} {es : List (Option Expr)} (he : (Expr.array l es).Plain)
    (hn : (Expr.array l es).lexemes.length ≤ n) :
    (g.primary ctx).Takes ((Expr.array l es).lexemes ++ after) after (Expr.array l es).Alike := by
  have hlexemes : (Expr.array l es).lexemes = .mark .leftBracket :: (elementLexemes es ++ [Lexeme.mark .rightBracket]) := rfl
  rw [hlexemes] at hn ⊢
  simp only [List.length_append, List.length_cons, List.length_nil] at hn
  simp only [List.append_assoc, List.cons_append, List.nil_append]
  refine takes_current.bind fun t ht => ?_
  rw [show t.kind = .punctuator .leftBracket from ht.kind]
  refine takes_here.bind fun start _ => takes_advance.bind fun _ _ => takes_turns.bind ?_
  rintro _ rfl
  have hitem : (g.assignment ctx.allowIn).TakesEach (es.flatMap Option.toList) := by
    intro e hmem
    obtain ⟨hplain, hlength⟩ := plain_of_mem_elements he hmem
    exact ⟨hplain, fun _ hafter => hg.assignment hplain (by omega) rfl hafter⟩
  have hturns : es.length < (elementLexemes es ++ Lexeme.mark .rightBracket :: after).length + 1 := by
    have := length_le_elementLexemes he
    rw [List.length_append]
    omega
  refine (arrayElements_takes hitem hturns).bind fun es' hes' => (takes_expectMark _).bind fun _ _ => ?_
  exact (takes_spanFrom _).bind fun _ _ => .pure (.array hes')

theorem object_takes {l : Loc} {ps : List Property} (he : (Expr.object l ps).Plain)
    (hn : (Expr.object l ps).lexemes.length ≤ n) :
    (g.primary ctx).Takes ((Expr.object l ps).lexemes ++ after) after (Expr.object l ps).Alike := by
  have hlexemes : (Expr.object l ps).lexemes = .mark .leftBrace :: (propertyLexemes ps ++ [Lexeme.mark .rightBrace]) := rfl
  rw [hlexemes] at hn ⊢
  simp only [List.length_append, List.length_cons, List.length_nil] at hn
  simp only [List.append_assoc, List.cons_append, List.nil_append]
  refine takes_current.bind fun t ht => ?_
  rw [show t.kind = .punctuator .leftBrace from ht.kind]
  refine takes_here.bind fun start _ => takes_advance.bind fun _ _ => takes_turns.bind ?_
  rintro _ rfl
  refine (properties_takes he ?_ ?_).bind fun ps' hps' => (takes_expectMark _).bind fun _ _ => ?_
  · intro p hmem after hafter
    obtain ⟨hplain, hlength⟩ := plain_of_mem_properties he hmem
    exact hg.assignment hplain (by omega) rfl hafter
  · have := length_le_propertyLexemes ps
    rw [List.length_append]
    omega
  · exact (takes_spanFrom _).bind fun _ _ => .pure (.object hps')

theorem unaryOperator_takes {l : Loc} {op : UnaryOp} {argument : Expr} (he : (Expr.unary l op argument).Plain)
    (hn : (Expr.unary l op argument).lexemes.length ≤ n) (hctx : ctx.noIn = false)
    (hafter : 2 < (headKind after).joins) :
    (g.unaryExpression ctx).Takes ((Expr.unary l op argument).lexemes ++ after) after
      (Expr.unary l op argument).Alike := by
  have hlexemes : (Expr.unary l op argument).lexemes = .ofToken op.token :: argument.enclosed := rfl
  rw [hlexemes] at hn ⊢
  rw [List.length_cons] at hn
  refine takes_current.bind fun t ht => ?_
  rw [show t.kind = op.token from ht.kind.trans (kind_ofToken (unaryOp_isFixed op)), unaryOp_token]
  refine takes_advance.bind fun _ _ => (hg.unary he.1 (by omega) hctx hafter).bind fun argument' hargument => ?_
  have hends : (do return .unary (← spanFrom t.start) op argument' : Reader Expr).Takes after after
      (Expr.unary l op argument).Alike := (takes_spanFrom _).bind fun _ _ => .pure (.unary hargument)
  cases hargument with
  | identifier => exact (takes_failIf fun hdelete => he.2 ⟨hdelete.1, rfl⟩).bind fun _ _ => hends
  | _ => exact (takes_failIf fun hdelete => Bool.false_ne_true hdelete.2).bind fun _ _ => hends

theorem update_takes {l : Loc} {op : UpdateOp} {leading : Bool} {argument : Expr}
    (he : (Expr.update l op leading argument).Plain) (hn : (Expr.update l op leading argument).lexemes.length ≤ n)
    (hctx : ctx.noIn = false) (hafter : 2 < (headKind after).joins) :
    (g.unaryExpression ctx).Takes ((Expr.update l op leading argument).lexemes ++ after) after
      (Expr.update l op leading argument).Alike := by
  cases leading with
  | true =>
    have hlexemes : (Expr.update l op true argument).lexemes = .ofToken op.token :: argument.enclosed := rfl
    rw [hlexemes] at hn ⊢
    rw [List.length_cons] at hn
    have hunary : UnaryOp.ofToken? op.token = none := by cases op <;> rfl
    refine takes_current.bind fun t ht => ?_
    rw [show t.kind = op.token from ht.kind.trans (kind_ofToken (updateOp_isFixed op)), hunary, updateOp_token]
    refine takes_advance.bind fun _ _ => (hg.unary he.1 (by omega) hctx hafter).bind fun argument' hargument => ?_
    refine (takes_failIf (by simp [hargument.isTarget.trans he.2])).bind fun _ _ => ?_
    exact (takes_spanFrom _).bind fun _ _ => .pure (.update hargument)
  | false =>
    have hlexemes : (Expr.update l op false argument).lexemes = argument.enclosed ++ [Lexeme.ofToken op.token] := rfl
    rw [hlexemes] at hn ⊢
    rw [List.length_append, List.length_singleton] at hn
    rw [List.append_assoc, List.singleton_append]
    have hstart := startsPrimary_of_operand (startsOperand_enclosed he.1 (.ofToken op.token :: after))
    have hjoins : (headKind (.ofToken op.token :: after)).joins = 2 := by
      rw [headKind_cons, kind_ofToken (updateOp_isFixed op)]
      cases op <;> rfl
    refine takes_token.bind fun t ht => ?_
    rw [ht, unaryOp_of_startsPrimary hstart, updateOp_of_startsPrimary hstart]
    have hprimary : (g.primary ctx).Takes _ _ _ :=
      primary_takes hg he.1 (by omega) (show 0 < (headKind (.ofToken op.token :: after)).joins by omega)
    have hoperand := operand_of_primary hprimary (ne_new_of_startsPrimary hstart) (by omega)
    refine hoperand.bind fun argument' hargument => takes_current.bind fun next hnext => ?_
    rw [show next.kind = op.token from hnext.kind.trans (kind_ofToken (updateOp_isFixed op)), updateOp_token]
    dsimp only
    rw [hnext.sameLine, if_neg Bool.false_ne_true]
    refine (takes_failIf (by simp [hargument.isTarget.trans he.2])).bind fun _ _ => ?_
    exact takes_advance.bind fun _ _ => (takes_spanFrom _).bind fun _ _ => .pure (.update hargument)

/-! ### Operators between two expressions -/

/-- Two operands with an operator between them. -/
theorem connective_takes (op : Connective) {token : TokenKind} {left right : Expr} (hfixed : token.isFixed)
    (htoken : Connective.ofToken? token = some op) (hjoins : token.joins = 3) (hleft : left.Plain)
    (hright : right.Plain)
    (hn : (left.enclosed ++ Lexeme.ofToken token :: right.enclosed).length ≤ n) (hctx : ctx.noIn = false)
    (hpost : ∀ l left' right', left.Alike left' → right.Alike right' → post (Grammar.joined op l left' right'))
    (hafter : 3 < (headKind after).joins) :
    (g.binaryExpression ctx 0).Takes (left.enclosed ++ Lexeme.ofToken token :: right.enclosed ++ after) after post := by
  have hprecedence : 0 < op.precedence := by
    cases op with
    | binary op => cases op <;> decide
    | logical op => cases op <;> decide
  have hjoins : (headKind (.ofToken token :: (right.enclosed ++ after))).joins = 3 := by
    rw [headKind_cons, kind_ofToken hfixed, hjoins]
  simp only [List.length_append, List.length_cons] at hn
  rw [List.append_assoc, List.cons_append]
  refine takes_here.bind fun start _ => (unary_takes hg hleft (by omega) (by omega)).bind fun left' hleft' => ?_
  refine takes_turns.bind ?_
  rintro _ rfl
  have hconnective : (Grammar.connective? ctx 0).Takes (.ofToken token :: (right.enclosed ++ after))
      (.ofToken token :: (right.enclosed ++ after)) (· = some op) := by
    refine takes_kind.bind ?_
    rintro _ rfl
    have hpower : token ≠ .punctuator .power := by
      rintro rfl
      cases htoken
    rw [headKind_cons, kind_ofToken hfixed]
    refine (takes_failIf hpower).bind fun _ _ => ?_
    refine .pure ?_
    rw [Grammar.connectiveOf?, if_neg (by simp [hctx]), htoken]
    exact Option.filter_some_pos (by simpa using hprecedence)
  refine hconnective.bind ?_
  rintro _ rfl
  refine takes_advance.bind fun _ _ => (hg.binary hright (by omega) hctx hafter).bind fun right' hright' => ?_
  refine (takes_spanFrom _).bind fun l _ => (connective_of_joins hafter hctx).bind ?_
  rintro _ rfl
  exact .pure (hpost l left' right' hleft' hright')

theorem assign_takes {l : Loc} {op : AssignOp} {left right : Expr} (he : (Expr.assign l op left right).Plain)
    (hn : (Expr.assign l op left right).lexemes.length ≤ n) (hctx : ctx.noIn = false)
    (hafter : 5 < (headKind after).joins) :
    (g.assignmentExpression ctx).Takes ((Expr.assign l op left right).lexemes ++ after) after
      (Expr.assign l op left right).Alike := by
  obtain ⟨hop, hleft, htarget, hright⟩ := he
  have hlexemes : (Expr.assign l op left right).lexemes = left.enclosed ++ Lexeme.mark op.mark :: right.enclosed := rfl
  rw [hlexemes] at hn ⊢
  simp only [List.length_append, List.length_cons] at hn
  rw [List.append_assoc, List.cons_append]
  have hjoins : (headKind (.mark op.mark :: (right.enclosed ++ after))).joins = 5 := by
    cases op with
    | plain => rfl
    | compound op => cases op <;> rfl
  have hconditional : (g.conditionalExpression ctx).Takes (left.enclosed ++ Lexeme.mark op.mark :: (right.enclosed ++ after))
      (.mark op.mark :: (right.enclosed ++ after)) left.Alike :=
    conditional_of_binary (binary_takes hg hleft (by omega) hctx (by omega)) (by omega)
  refine takes_here.bind fun start _ => hconditional.bind fun left' hleft' => ?_
  refine (takes_refuseAt (ne_of_joins (.punctuator .arrow) (hjoins ▸ Nat.succ_pos 4))).bind fun _ _ => ?_
  refine takes_kind.bind ?_
  rintro _ rfl
  rw [headKind_cons, Lexeme.kind, hop]
  refine (takes_failIf (by simp [hleft'.isTarget.trans htarget])).bind fun _ _ => ?_
  refine takes_advance.bind fun _ _ => (hg.assignment hright (by omega) hctx hafter).bind fun right' hright' => ?_
  exact (takes_spanFrom _).bind fun _ _ => .pure (.assign hleft' hright')

theorem conditional_takes {l : Loc} {test consequent alternate : Expr}
    (he : (Expr.conditional l test consequent alternate).Plain)
    (hn : (Expr.conditional l test consequent alternate).lexemes.length ≤ n) (hctx : ctx.noIn = false)
    (hafter : 5 < (headKind after).joins) :
    (g.conditionalExpression ctx).Takes ((Expr.conditional l test consequent alternate).lexemes ++ after) after
      (Expr.conditional l test consequent alternate).Alike := by
  obtain ⟨htest, hconsequent, halternate⟩ := he
  have hlexemes : (Expr.conditional l test consequent alternate).lexemes = test.enclosed ++
      .mark .question :: (consequent.enclosed ++ Lexeme.mark .colon :: alternate.enclosed) := rfl
  rw [hlexemes] at hn ⊢
  simp only [List.length_append, List.length_cons] at hn
  simp only [List.append_assoc, List.cons_append]
  refine takes_here.bind fun start _ => ?_
  refine (binary_takes hg htest (by omega) hctx (by exact (show 3 < 4 by decide))).bind fun test' htest' => ?_
  refine (takes_skipMark .question).bind ?_
  rintro _ rfl
  have hfirst : (g.assignment ctx.allowIn).Takes (consequent.enclosed ++ Lexeme.mark .colon :: (alternate.enclosed ++ after))
      (.mark .colon :: (alternate.enclosed ++ after)) consequent.Alike :=
    hg.assignment hconsequent (by omega) rfl (show 5 < 7 by decide)
  refine hfirst.bind fun consequent' hconsequent' => (takes_expectMark .colon).bind fun _ _ => ?_
  refine (hg.assignment halternate (by omega) hctx hafter).bind fun alternate' halternate' => ?_
  exact (takes_spanFrom _).bind fun _ _ => .pure (.conditional htest' hconsequent' halternate')

/-- An expression without parentheses around it is read as an assignment, unless it is a sequence. -/
theorem bare_takes (he : e.Plain) (hn : e.lexemes.length ≤ n) (hsequence : ¬e.isSequence)
    (hctx : ctx.noIn = false) (hafter : 5 < (headKind after).joins) :
    (g.assignmentExpression ctx).Takes (e.lexemes ++ after) after e.Alike := by
  have hoperand {before : List Lexeme} (h : (g.operand ctx).Takes before after e.Alike)
      (hbefore : (headKind before).startsPrimary ∨ headKind before = .keyword .new) :
      (g.assignmentExpression ctx).Takes before after e.Alike := by
    refine assignment_of_unary (unary_of_operand h ?_ ?_ (by omega)) hctx hafter
    · rcases hbefore with hbefore | hbefore
      · exact unaryOp_of_startsPrimary hbefore
      · rw [hbefore]
        rfl
    · rcases hbefore with hbefore | hbefore
      · exact updateOp_of_startsPrimary hbefore
      · rw [hbefore]
        rfl
  have hpart {part : Expr} (hpart : part.Plain) (more : List Lexeme) :
      (headKind (part.enclosed ++ more ++ after)).startsPrimary := by
    rw [List.append_assoc]
    exact startsPrimary_of_operand (startsOperand_enclosed hpart _)
  have hbinary (h : (g.binaryExpression ctx 0).Takes (e.lexemes ++ after) after e.Alike) :
      (g.assignmentExpression ctx).Takes (e.lexemes ++ after) after e.Alike :=
    assignment_of_conditional (conditional_of_binary h (by omega)) hafter
  by_cases hcompound : e.isCompound
  · cases e with
    | array => exact assignment_of_unary (unary_of_primary (array_takes hg he hn) rfl (by omega)) hctx hafter
    | object => exact assignment_of_unary (unary_of_primary (object_takes hg he hn) rfl (by omega)) hctx hafter
    | unary => exact assignment_of_unary (unaryOperator_takes hg he hn hctx (by omega)) hctx hafter
    | update => exact assignment_of_unary (update_takes hg he hn hctx (by omega)) hctx hafter
    | binary l op left right =>
      exact hbinary (connective_takes hg (.binary op) (binaryOp_isFixed op) (by cases op <;> rfl)
        (by cases op <;> rfl) he.1 he.2 hn hctx (fun _ _ _ hl hr => .binary hl hr) (by omega))
    | logical l op left right =>
      exact hbinary (connective_takes hg (.logical op) (by cases op <;> rfl) (by cases op <;> rfl)
        (by cases op <;> rfl) he.1 he.2 hn hctx (fun _ _ _ hl hr => .logical hl hr) (by omega))
    | assign => exact assign_takes hg he hn hctx hafter
    | conditional => exact assignment_of_conditional (conditional_takes hg he hn hctx hafter) hafter
    | call => exact hoperand (call_takes hg he hn (by omega)) (.inl (hpart he.1 _))
    | new => exact hoperand (new_takes hg he hn (by omega)) (.inr (ofWord_keyword .new))
    | member => exact hoperand (member_takes hg he hn (by omega)) (.inl (hpart he.1 _))
    | index => exact hoperand (index_takes hg he hn (by omega)) (.inl (hpart he.1 _))
    | sequence => exact absurd rfl hsequence
    | regexp | function => cases he
    | _ => cases hcompound
  · have hstart := startsOperand_enclosed he after
    rw [show e.enclosed = e.lexemes from if_neg hcompound] at hstart
    exact assignment_of_unary (unary_of_primary (primary_leaf he hcompound (by omega))
      (startsPrimary_of_operand hstart) (by omega)) hctx hafter

theorem covers_extend : g.extend.Covers (n + 1) where
  bare he hn hsequence hctx hafter := bare_takes hg he (Nat.le_of_lt_succ hn) hsequence hctx hafter
  assignment he hn hctx hafter :=
    assignment_of_unary (unary_takes hg he (Nat.le_of_lt_succ hn) (by omega)) hctx hafter
  binary he hn hctx hafter := binary_takes hg he (Nat.le_of_lt_succ hn) hctx hafter
  unary he hn _ hafter := unary_takes hg he (Nat.le_of_lt_succ hn) hafter

end

/-- The grammar for parts nested to a depth reads the printed expressions that are shorter than it. -/
theorem Grammar.covers_nested (n : Nat) : (nested n).Covers n := by
  induction n with
  | zero => exact ⟨fun _ hn => absurd hn (Nat.not_lt_zero _), fun _ hn => absurd hn (Nat.not_lt_zero _),
      fun _ hn => absurd hn (Nat.not_lt_zero _), fun _ hn => absurd hn (Nat.not_lt_zero _)⟩
  | succ n ih => exact covers_extend ih

end Stepwise

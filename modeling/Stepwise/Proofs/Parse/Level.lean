import Stepwise.Parse.Program
import Stepwise.Proofs.Parse.Printed
import Stepwise.Proofs.Parse.Stream

/-!
# Levels of expressions

* `TokenKind.joins`: the level of expressions that a token goes on with.
* `operand_of_primary`, …, `assignment_of_conditional`: a reader of one level reads what the level below reads, if
  the token behind it does not go on with the level.
* `startsExpression_lexemes`: where a printed expression starts.
-/

namespace Stepwise

open Reader

/-! ### What follows an expression -/

/-- The level of expressions that a token goes on with: properties and calls, counting, operators, choices,
assignments and sequences. Other tokens end all of them. -/
def TokenKind.joins : TokenKind → Nat
  | .punctuator .arrow => 0
  | .punctuator .dot | .punctuator .leftBracket | .punctuator .leftParen | .template => 1
  | .punctuator .increment | .punctuator .decrement => 2
  | .punctuator .power => 3
  | .punctuator .question => 4
  | .punctuator .comma => 6
  | k => if (Connective.ofToken? k).isSome then 3 else if (AssignOp.ofToken? k).isSome then 5 else 7

variable {g : Grammar} {ctx : Context} {before after ls : List Lexeme} {post : Expr → Prop} {least : Nat}

theorem ne_of_joins {k : TokenKind} (k' : TokenKind) (h : k'.joins < k.joins) : k ≠ k' := by
  rintro rfl
  exact Nat.lt_irrefl _ h

theorem updateOp_of_joins {k : TokenKind} (h : 2 < k.joins) : UpdateOp.ofToken? k = none := by
  unfold UpdateOp.ofToken?
  split
  · exact absurd h (by decide)
  · exact absurd h (by decide)
  · rfl

theorem connectiveOp_of_joins {k : TokenKind} (h : 3 < k.joins) : Connective.ofToken? k = none := by
  unfold TokenKind.joins at h
  split at h
  case h_11 =>
    split at h
    · omega
    · next hk => simpa using hk
  all_goals rfl

theorem assignOp_of_joins {k : TokenKind} (h : 5 < k.joins) : AssignOp.ofToken? k = none := by
  unfold TokenKind.joins at h
  split at h
  case h_11 =>
    split at h
    · omega
    · split at h
      · omega
      · next hk => simpa using hk
  all_goals rfl

theorem operandTail_stop {start : Position} {turns : Nat} {e : Expr} (hafter : 1 < (headKind after).joins)
    (he : post e) : (g.operandTail ctx start (turns + 1) e).Takes after after post := by
  refine takes_kind.bind ?_
  rintro _ rfl
  split
  · next hk => simp [hk, TokenKind.joins] at hafter
  · next hk => simp [hk, TokenKind.joins] at hafter
  · next hk => simp [hk, TokenKind.joins] at hafter
  · next hk => simp [hk, TokenKind.joins] at hafter
  · exact .pure he

theorem operand_of_primary (h : (g.primary ctx).Takes before after post) (hnew : headKind before ≠ .keyword .new)
    (hafter : 1 < (headKind after).joins) : (g.operand ctx).Takes before after post := by
  refine takes_here.bind fun start _ => (takes_isAt _).bind ?_
  rintro _ rfl
  rw [if_neg (by simpa using hnew)]
  refine h.bind fun e he => takes_turns.bind ?_
  rintro _ rfl
  exact operandTail_stop hafter he

theorem unary_of_operand (h : (g.operand ctx).Takes before after post)
    (hunary : UnaryOp.ofToken? (headKind before) = none)
    (hupdate : UpdateOp.ofToken? (headKind before) = none) (hafter : 2 < (headKind after).joins) :
    (g.unaryExpression ctx).Takes before after post := by
  refine takes_token.bind fun t ht => ?_
  rw [ht, hunary, hupdate]
  refine h.bind fun e he => takes_token.bind fun next hnext => ?_
  rw [hnext, updateOp_of_joins hafter]
  exact .pure he

theorem connective_of_joins (h : 3 < (headKind after).joins) (hctx : ctx.noIn = false) :
    (Grammar.connective? ctx least).Takes after after (· = none) := by
  refine takes_kind.bind ?_
  rintro _ rfl
  refine (takes_failIf (ne_of_joins (.punctuator .power) h)).bind fun _ _ => ?_
  refine .pure ?_
  rw [Grammar.connectiveOf?, if_neg (by simp [hctx]), connectiveOp_of_joins h, Option.filter_none]

theorem binary_of_unary (h : (g.unaryExpression ctx).Takes before after post) (hctx : ctx.noIn = false)
    (hafter : 3 < (headKind after).joins) : (g.binaryExpression ctx least).Takes before after post := by
  refine takes_here.bind fun start _ => h.bind fun e he => takes_turns.bind ?_
  rintro _ rfl
  refine (connective_of_joins hafter hctx).bind ?_
  rintro _ rfl
  exact .pure he

theorem conditional_of_binary (h : (g.binaryExpression ctx 0).Takes before after post)
    (hafter : 4 < (headKind after).joins) : (g.conditionalExpression ctx).Takes before after post := by
  refine takes_here.bind fun start _ => h.bind fun e he => ?_
  refine (takes_skipMark_none (ne_of_joins (.punctuator .question) hafter)).bind ?_
  rintro _ rfl
  exact .pure he

theorem assignment_of_conditional (h : (g.conditionalExpression ctx).Takes before after post)
    (hafter : 5 < (headKind after).joins) : (g.assignmentExpression ctx).Takes before after post := by
  refine takes_here.bind fun start _ => h.bind fun e he => ?_
  refine (takes_refuseAt (ne_of_joins (.punctuator .arrow) (Nat.zero_lt_of_lt hafter))).bind fun _ _ => takes_kind.bind ?_
  rintro _ rfl
  rw [assignOp_of_joins hafter]
  exact .pure he

/-! ### Where an expression starts -/

/-- Where an operand starts that is printed in parentheses or has no parts. -/
def TokenKind.startsOperand : TokenKind → Bool
  | identifier | number | string | punctuator .leftParen => true
  | keyword .true_ | keyword .false_ | keyword .null | keyword .this => true
  | _ => false

theorem ne_of_startsOperand {k : TokenKind} (k' : TokenKind) (h : k.startsOperand) (h' : k'.startsOperand = false) :
    k ≠ k' := by
  rintro rfl
  exact Bool.noConfusion (h.symm.trans h')

theorem startsOperand_enclosed {e : Expr} (he : e.Plain) (after : List Lexeme) :
    (headKind (e.enclosed ++ after)).startsOperand := by
  unfold Expr.enclosed Expr.enclose
  split
  · rfl
  · next hcompound =>
    cases e with
    | identifier i => exact (congrArg TokenKind.startsOperand he.2).trans rfl
    | number | string => rfl
    | boolean l value =>
      cases value
      · exact congrArg TokenKind.startsOperand (ofWord_keyword .false_)
      · exact congrArg TokenKind.startsOperand (ofWord_keyword .true_)
    | null => exact congrArg TokenKind.startsOperand (ofWord_keyword .null)
    | this => exact congrArg TokenKind.startsOperand (ofWord_keyword .this)
    | _ => exact absurd rfl hcompound

theorem headKind_mark_ne {p q : Punctuator} (h : p ≠ q) : headKind (.mark p :: after) ≠ .punctuator q := by
  simpa [Lexeme.kind] using h

/-- Where an expression starts that is no object literal. -/
def TokenKind.startsExpression (k : TokenKind) : Bool :=
  k.startsOperand || k == .punctuator .leftBracket || k == .keyword .new || (UnaryOp.ofToken? k).isSome ||
    (UpdateOp.ofToken? k).isSome

theorem unaryOp_token (op : UnaryOp) : UnaryOp.ofToken? op.token = some op := by
  cases op <;> rfl

theorem updateOp_token (op : UpdateOp) : UpdateOp.ofToken? op.token = some op := by
  cases op <;> rfl

theorem unaryOp_isFixed (op : UnaryOp) : op.token.isFixed := by
  cases op <;> rfl

theorem updateOp_isFixed (op : UpdateOp) : op.token.isFixed := by
  cases op <;> rfl

theorem binaryOp_isFixed (op : BinaryOp) : op.token.isFixed := by
  cases op <;> rfl

theorem startsExpression_of_operand {k : TokenKind} (h : k.startsOperand) : k.startsExpression := by
  simp [TokenKind.startsExpression, h]

theorem startsExpression_lexemes {e : Expr} (he : e.Plain) (hobject : ¬e.isObject) (after : List Lexeme) :
    (headKind (e.lexemes ++ after)).startsExpression := by
  have hpart {part : Expr} (hp : part.Plain) (more : List Lexeme) :
      (headKind (part.enclosed ++ more ++ after)).startsExpression := by
    rw [List.append_assoc]
    exact startsExpression_of_operand (startsOperand_enclosed hp _)
  by_cases hcompound : e.isCompound
  · cases e with
    | array => rfl
    | object => exact absurd rfl hobject
    | regexp | function => cases he
    | unary l op a =>
      show TokenKind.startsExpression (Lexeme.ofToken op.token).kind
      rw [kind_ofToken (unaryOp_isFixed op)]
      simp [TokenKind.startsExpression, unaryOp_token]
    | update l op leading a =>
      cases leading with
      | true =>
        show TokenKind.startsExpression (Lexeme.ofToken op.token).kind
        rw [kind_ofToken (updateOp_isFixed op)]
        simp [TokenKind.startsExpression, updateOp_token]
      | false => exact hpart he.1 _
    | binary | logical | conditional | call | member | index => exact hpart he.1 _
    | assign => exact hpart he.2.1 _
    | new =>
      show TokenKind.startsExpression (Lexeme.ofToken (.keyword .new)).kind
      rw [kind_ofToken rfl]
      rfl
    | sequence l es =>
      obtain ⟨hlength, hes⟩ := he
      cases es with
      | nil => cases hlength
      | cons e es => exact hpart hes.1 _
    | _ => cases hcompound
  · have h := startsOperand_enclosed he after
    unfold Expr.enclosed Expr.enclose at h
    rw [if_neg hcompound] at h
    exact startsExpression_of_operand h

/-- Where an expression starts that no operator joins. -/
def TokenKind.startsPrimary (k : TokenKind) : Bool :=
  k.startsOperand || k == .punctuator .leftBracket || k == .punctuator .leftBrace

theorem ne_new_of_startsPrimary {k : TokenKind} (h : k.startsPrimary) : k ≠ .keyword .new := by
  rintro rfl
  exact absurd h (by decide)

theorem unaryOp_of_startsPrimary {k : TokenKind} (h : k.startsPrimary) : UnaryOp.ofToken? k = none := by
  unfold UnaryOp.ofToken?
  split
  all_goals first | rfl | exact absurd h (by decide)

theorem updateOp_of_startsPrimary {k : TokenKind} (h : k.startsPrimary) : UpdateOp.ofToken? k = none := by
  unfold UpdateOp.ofToken?
  split
  all_goals first | rfl | exact absurd h (by decide)

theorem startsPrimary_of_operand {k : TokenKind} (h : k.startsOperand) : k.startsPrimary := by
  simp [TokenKind.startsPrimary, h]

theorem unary_of_primary (h : (g.primary ctx).Takes before after post) (hbefore : (headKind before).startsPrimary)
    (hafter : 2 < (headKind after).joins) : (g.unaryExpression ctx).Takes before after post :=
  unary_of_operand (operand_of_primary h (ne_new_of_startsPrimary hbefore) (by omega))
    (unaryOp_of_startsPrimary hbefore) (updateOp_of_startsPrimary hbefore) hafter

theorem assignment_of_unary (h : (g.unaryExpression ctx).Takes before after post) (hctx : ctx.noIn = false)
    (hafter : 5 < (headKind after).joins) : (g.assignmentExpression ctx).Takes before after post :=
  assignment_of_conditional (conditional_of_binary (binary_of_unary h hctx (by omega)) (by omega)) hafter

end Stepwise

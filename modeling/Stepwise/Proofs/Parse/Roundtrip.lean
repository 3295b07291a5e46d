import Stepwise.Proofs.Parse.Expression

/-!
# Printed expressions are read back

* `Expr.IsReadFrom`: a source is one statement, and this is an expression that differs in locations only.
* `Expr.isReadFrom_printed`: a printed expression with a semicolon is such a source.
-/

namespace Stepwise

open Reader

/-- The text of lexemes and a semicolon. -/
def statementText (ls : List Lexeme) : String := String.ofList (Lexeme.spaced (ls ++ [Lexeme.mark .semicolon]))

/-- A source is read as one statement, and this is the expression up to locations. -/
def Expr.IsReadFrom (e : Expr) (source : String) : Prop :=
  ∃ p l e', Program.ofSource source = .ok p ∧ p.body = [.expression l e'] ∧ e.Alike e'

/-- Lexemes that are the expression, with parentheses around it or without. -/
def Expr.PrintedAs (e : Expr) (ls : List Lexeme) : Prop := ls = e.enclosed ∨ (ls = e.lexemes ∧ ¬e.isObject)

variable {g : Grammar} {ctx : Context} {n : Nat} {e : Expr} {ls : List Lexeme}

theorem fullExpression_takes (hg : g.Covers n) (he : e.Plain) (hls : e.PrintedAs ls) (hn : ls.length ≤ n)
    (hctx : ctx.noIn = false) {after : List Lexeme} (hafter : 6 < (headKind after).joins) :
    (g.fullExpression ctx).Takes (ls ++ after) after e.Alike := by
  have hassignment {e : Expr} {after : List Lexeme} (he : e.Plain) (hn : e.enclosed.length ≤ n)
      (hafter : 5 < (headKind after).joins) : (g.assignmentExpression ctx).Takes (e.enclosed ++ after) after e.Alike :=
    assignment_of_unary (unary_takes hg he hn (by omega)) hctx hafter
  rcases hls with rfl | ⟨rfl, -⟩
  · exact sequenceOf_of_first (hassignment he hn (by omega)) hafter
  · by_cases hsequence : e.isSequence
    · cases e with
      | sequence l es =>
        exact sequence_takes hg he hn hctx (fun he hn hafter => hassignment he (Nat.le_of_lt hn) hafter) hafter
      | _ => cases hsequence
    · exact sequenceOf_of_first (bare_takes hg he hn hsequence hctx (by omega)) hafter

/-- A name at the start of an expression is no label. -/
theorem second_enclosed {part : Expr} {l : Lexeme} (hl : l.kind ≠ .punctuator .colon) (more : List Lexeme)
    (hhead : headKind (part.enclosed ++ l :: more) = .identifier) :
    headKind (part.enclosed ++ l :: more).tail ≠ .punctuator .colon := by
  unfold Expr.enclosed Expr.enclose at *
  split at hhead
  · cases hhead
  · next hcompound =>
    rw [if_neg hcompound]
    cases part <;> first | exact hl | exact absurd rfl hcompound

theorem second_printed (he : e.Plain) (hls : e.PrintedAs ls) (after : List Lexeme)
    (hhead : headKind (ls ++ Lexeme.mark .semicolon :: after) = .identifier) :
    headKind (ls ++ Lexeme.mark .semicolon :: after).tail ≠ .punctuator .colon := by
  have hmark {p : Punctuator} (hp : p ≠ .colon) : (Lexeme.mark p).kind ≠ .punctuator .colon := by
    simpa [Lexeme.kind] using hp
  have htoken {k : TokenKind} (hk : k.isFixed) (hcolon : k ≠ .punctuator .colon) :
      (Lexeme.ofToken k).kind ≠ .punctuator .colon := by
    rwa [kind_ofToken hk]
  have hfirst {part : Expr} {l : Lexeme} {more : List Lexeme} (hl : l.kind ≠ .punctuator .colon)
      (hhead : headKind (part.enclosed ++ l :: more ++ Lexeme.mark .semicolon :: after) = .identifier) :
      headKind (part.enclosed ++ l :: more ++ Lexeme.mark .semicolon :: after).tail ≠ .punctuator .colon := by
    rw [List.append_assoc] at hhead ⊢
    exact second_enclosed hl _ hhead
  rcases hls with rfl | ⟨rfl, -⟩
  · exact second_enclosed (hmark (by decide)) _ hhead
  · by_cases hcompound : e.isCompound
    · cases e with
      | array | object => cases hhead
      | regexp | function => cases he
      | unary l op a =>
        have hhead : (Lexeme.ofToken op.token).kind = .identifier := hhead
        rw [kind_ofToken (unaryOp_isFixed op)] at hhead
        cases op <;> cases hhead
      | update l op leading a =>
        cases leading with
        | true =>
          have hhead : (Lexeme.ofToken op.token).kind = .identifier := hhead
          rw [kind_ofToken (updateOp_isFixed op)] at hhead
          cases op <;> cases hhead
        | false => exact hfirst (htoken (updateOp_isFixed op) (by cases op <;> decide)) hhead
      | binary l op => exact hfirst (htoken (binaryOp_isFixed op) (by cases op <;> decide)) hhead
      | logical l op => exact hfirst (htoken (by cases op <;> rfl) (by cases op <;> decide)) hhead
      | assign l op =>
        refine hfirst (hmark ?_) hhead
        cases op with
        | plain => decide
        | compound op => cases op <;> decide
      | conditional | call | member | index => exact hfirst (hmark (by decide)) hhead
      | new =>
        have hhead : (Lexeme.ofToken (.keyword .new)).kind = .identifier := hhead
        rw [kind_ofToken rfl] at hhead
        cases hhead
      | sequence l es =>
        obtain ⟨hlength, -⟩ := he
        obtain _ | ⟨e, _ | ⟨e₁, es⟩⟩ := es
        · cases hlength
        · exact absurd hlength (by simp)
        · exact hfirst (hmark (by decide)) hhead
      | _ => cases hcompound
    · rw [show e.lexemes = e.enclosed from (if_neg hcompound).symm] at hhead ⊢
      exact second_enclosed (hmark (by decide)) _ hhead

/-- A printed expression and a semicolon are read as one statement. -/
theorem anyStatement_takes (hg : g.Covers n) (he : e.Plain) (hls : e.PrintedAs ls) (hn : ls.length ≤ n)
    (hctx : ctx.noIn = false) :
    (g.anyStatement ctx).Takes (ls ++ [Lexeme.mark .semicolon]) [] fun s => ∃ l e', s = .expression l e' ∧ e.Alike e' := by
  have hexpression : (g.expressionStatement ctx).Takes (ls ++ [Lexeme.mark .semicolon]) []
      fun s => ∃ l e', s = .expression l e' ∧ e.Alike e' := by
    have hread : (g.fullExpression ctx).Takes (ls ++ [Lexeme.mark .semicolon]) [.mark .semicolon] e.Alike :=
      fullExpression_takes hg he hls hn hctx (show 6 < 7 by decide)
    refine takes_here.bind fun start _ => hread.bind fun e' he' => takes_endStatement.bind fun _ _ => ?_
    exact (takes_spanFrom _).bind fun l _ => .pure ⟨l, e', rfl, he'⟩
  have hstart : (headKind (ls ++ [Lexeme.mark .semicolon])).startsExpression := by
    rcases hls with rfl | ⟨rfl, hobject⟩
    · exact startsExpression_of_operand (startsOperand_enclosed he _)
    · exact startsExpression_lexemes he hobject _
  have hlabel := second_printed he hls []
  refine takes_here.bind fun start _ => takes_kind.bind ?_
  rintro _ rfl
  split
  case h_24 hk =>
    cases hall : ls ++ [Lexeme.mark .semicolon] with
    | nil => exact absurd hall (by simp)
    | cons l more =>
      rw [hall] at hk hlabel hexpression
      refine takes_nextKind.bind ?_
      rintro _ rfl
      rw [if_neg (show headKind more ≠ .punctuator .colon from hlabel hk)]
      exact hexpression
  case h_25 => exact hexpression
  -- no other statement starts like an expression
  all_goals
    rename_i hk
    rw [hk] at hstart
    exact absurd hstart (by decide)

/-! ### Programs -/

theorem Stream.before_ofTokens {ts : List Token} {last : Token} (hts : List.Forall₂ Lexeme.Reads ls ts)
    (hlast : last.kind = .eof) : (Stream.ofTokens (ts ++ [last])).Before ls := by
  cases ts with
  | nil => exact ⟨rfl, [], last, rfl, hts, hlast⟩
  | cons t ts => exact ⟨rfl, t :: ts, last, rfl, hts, hlast⟩

theorem readProgram_takes (hg : g.Covers n) (he : e.Plain) (hls : e.PrintedAs ls) (hn : ls.length ≤ n) :
    (readProgram g.extend).Takes (ls ++ [Lexeme.mark .semicolon]) []
      fun r => ∃ l e', r.1 = [.expression l e'] ∧ e.Alike e' := by
  refine takes_checkLegal.bind fun _ _ => takes_turns.bind ?_
  rintro _ rfl
  have hstart : headKind (ls ++ [Lexeme.mark .semicolon]) ≠ .eof := by
    cases ls with
    | nil => exact fun h => TokenKind.noConfusion h
    | cons l ls => exact l.kind_ne_eof
  have hbody : (readStatements (· == .eof) (g.extend.statement {}) ((ls ++ [Lexeme.mark .semicolon]).length + 1)).Takes
      (ls ++ [Lexeme.mark .semicolon]) [] fun body => ∃ l e', body = [.expression l e'] ∧ e.Alike e' := by
    refine takes_kind.bind ?_
    rintro _ rfl
    rw [if_neg (by simpa using hstart)]
    refine (anyStatement_takes hg he hls hn rfl).bind ?_
    rintro _ ⟨l, e', rfl, he'⟩
    have hend : (readStatements (· == .eof) (g.extend.statement {}) (ls ++ [Lexeme.mark .semicolon]).length).Takes [] []
        (· = []) := by
      rw [List.length_append]
      refine takes_kind.bind ?_
      rintro _ rfl
      exact .pure rfl
    refine hend.bind ?_
    rintro _ rfl
    exact .pure ⟨l, e', rfl, he'⟩
  refine hbody.bind fun body hbody => takes_token.bind fun t _ => ?_
  exact .pure hbody

/-- A printed expression with a semicolon is read back: one statement with the same expression up to locations. The
expression may stand in parentheses, and stands without if it is no object literal. -/
theorem Expr.isReadFrom_printed (he : e.Plain) (hls : e.PrintedAs ls) : e.IsReadFrom (statementText ls) := by
  have hfits : Lexeme.Separable false (ls ++ [Lexeme.mark .semicolon]) := by
    rcases hls with rfl | ⟨rfl, -⟩
    · exact (((e.prints he).enclosed false).append (.mark rfl .nil)).separable
    · obtain ⟨b, hb, -⟩ := e.prints he false
      exact (hb.append (.mark rfl .nil)).separable
  obtain ⟨ts, last, htokens, hreads, hlast⟩ := Lexeme.tokenize_spaced hfits
  have hlength : (tokenize (statementText ls)).length = ls.length + 1 + 1 := by
    rw [statementText, htokens, List.length_append, ← hreads.length_eq, List.length_append]
    rfl
  obtain ⟨⟨body, stop⟩, s, hrun, hs, l, e', hbody, he'⟩ :=
    readProgram_takes (Grammar.covers_nested (ls.length + 1)) he hls (Nat.le_succ _) _
      (Stream.before_ofTokens hreads hlast)
  have hbody : body = [.expression l e'] := hbody
  subst hbody
  have hparse : Program.ofSource (statementText ls) =
      .ok ((Program.mk (.span .start stop) [.expression l e'] (statementText ls)).number 1 "") := by
    have hread : readSource (statementText ls) = some (([.expression l e'], stop), s) := by
      unfold readSource
      dsimp only
      rw [hlength, statementText, htokens]
      exact hrun
    unfold Program.ofSource Program.parse
    rw [hread]
    dsimp only
    rw [hs.1]
  exact ⟨_, _, _, hparse, rfl, e'.alike_renumber "" _ he'⟩

/-- A division by a quotient, in which a slash has both meanings. -/
theorem Expr.isReadFrom_printed_quotient :
    let name (s : String) : Expr := .identifier ⟨default, s⟩
    let e := Expr.assign default (.compound .divide) (name "a")
      (.binary default .divide (name "b") (.number default (nearestFloat false 2 1).1 "2"))
    e.Plain ∧ e.PrintedAs e.lexemes ∧ statementText e.lexemes = "a /= ( b / 2 ) ;" ∧
      e.IsReadFrom "a /= ( b / 2 ) ;" := by
  intro name e
  have hname : ∀ s ∈ ["a", "b"], (name s).Plain := by
    have h : ∀ s ∈ ["a", "b"], isWordText s ∧ TokenKind.ofWord s = .identifier := by decide +kernel
    exact h
  have hplain : e.Plain := by
    refine ⟨rfl, hname "a" (by simp), rfl, hname "b" (by simp), 2, rfl, ?_⟩
    decide +kernel
  have hprinted : e.PrintedAs e.lexemes := .inr ⟨rfl, Bool.false_ne_true⟩
  have htext : statementText e.lexemes = "a /= ( b / 2 ) ;" := by decide +kernel
  exact ⟨hplain, hprinted, htext, htext ▸ e.isReadFrom_printed hplain hprinted⟩

end Stepwise

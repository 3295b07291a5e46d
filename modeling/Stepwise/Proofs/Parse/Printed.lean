import Stepwise.Parse.Expression
import Stepwise.Proofs.Token.Lexeme
import Stepwise.Tree.Number

/-!
# Printed expressions

* `Expr.lexemes`: the tokens of an expression, with every compound part in parentheses.
* `Expr.Plain`: an expression without functions and regular expressions that obeys the static rules.
* `Expr.Alike`: two such expressions differ in their locations only.
* `Expr.separable_lexemes`: a slash in a printed expression stands behind an operand.
* `Expr.Alike.renumber`: numbering changes locations only.
-/

namespace Stepwise

/-! ### Printing -/

/-- The lexeme that is read as a token of an operator. -/
def Lexeme.ofToken : TokenKind → Lexeme
  | .keyword k => .word k.text
  | .punctuator p => .mark p
  | k => .word k.name

/-- The token of an assignment; there is none for a combination with a comparison. -/
def AssignOp.mark : AssignOp → Punctuator
  | .compound .add => .plusAssign
  | .compound .subtract => .minusAssign
  | .compound .multiply => .timesAssign
  | .compound .divide => .divideAssign
  | .compound .modulo => .percentAssign
  | .compound .bitAnd => .andAssign
  | .compound .bitOr => .orAssign
  | .compound .bitXor => .xorAssign
  | .compound .shiftLeft => .shiftLeftAssign
  | .compound .shiftRight => .shiftRightAssign
  | .compound .unsignedShift => .unsignedShiftAssign
  | _ => .assign

/-- Whether an expression has parts. -/
def Expr.isCompound : Expr → Bool
  | identifier _ | number .. | string .. | boolean .. | null _ | this _ => false
  | _ => true

/-- Whether an expression is a sequence. -/
def Expr.isSequence : Expr → Bool
  | sequence .. => true
  | _ => false

/-- Whether an expression is an object literal, which is a block where a statement starts. -/
def Expr.isObject : Expr → Bool
  | object .. => true
  | _ => false

/-- The lexemes of an expression inside another one. -/
def Expr.enclose (e : Expr) (ls : List Lexeme) : List Lexeme :=
  if e.isCompound then .mark .leftParen :: (ls ++ [.mark .rightParen]) else ls

/-- The lexeme of the name of a property in an object literal. -/
def PropertyName.lexeme : PropertyName → Lexeme
  | identifier i => .word i.name
  | string _ value => .string value
  | number _ _ raw => .number raw

mutual

/-- The lexemes of an expression, with parentheses around every compound part. -/
def Expr.lexemes : Expr → List Lexeme
  | .identifier i => [.word i.name]
  | .number _ _ raw => [.number raw]
  | .string _ value => [.string value]
  | .boolean _ value => [.ofToken (.keyword (if value then .true_ else .false_))]
  | .null _ => [.ofToken (.keyword .null)]
  | .this _ => [.ofToken (.keyword .this)]
  | .regexp .. | .function .. => []
  | .array _ elements => .mark .leftBracket :: (elementLexemes elements ++ [.mark .rightBracket])
  | .object _ properties => .mark .leftBrace :: (propertyLexemes properties ++ [.mark .rightBrace])
  | .unary _ op argument => .ofToken op.token :: argument.enclose argument.lexemes
  | .update _ op true argument => .ofToken op.token :: argument.enclose argument.lexemes
  | .update _ op false argument => argument.enclose argument.lexemes ++ [.ofToken op.token]
  | .binary _ op left right => left.enclose left.lexemes ++ .ofToken op.token :: right.enclose right.lexemes
  | .logical _ op left right => left.enclose left.lexemes ++ .ofToken op.token :: right.enclose right.lexemes
  | .assign _ op left right => left.enclose left.lexemes ++ Lexeme.mark op.mark :: right.enclose right.lexemes
  | .conditional _ test consequent alternate =>
    test.enclose test.lexemes ++ .mark .question :: (consequent.enclose consequent.lexemes ++
      .mark .colon :: alternate.enclose alternate.lexemes)
  | .call _ callee arguments =>
    callee.enclose callee.lexemes ++ .mark .leftParen :: (listLexemes arguments ++ [.mark .rightParen])
  | .new _ callee arguments =>
    .ofToken (.keyword .new) :: (callee.enclose callee.lexemes ++
      .mark .leftParen :: (listLexemes arguments ++ [.mark .rightParen]))
  | .member _ object name => object.enclose object.lexemes ++ [.mark .dot, .word name.name]
  | .index _ object key =>
    object.enclose object.lexemes ++ .mark .leftBracket :: (key.enclose key.lexemes ++ [.mark .rightBracket])
  | .sequence _ expressions => listLexemes expressions
termination_by structural e => e

/-- The lexemes of expressions with commas between them. -/
def listLexemes : List Expr → List Lexeme
  | [] => []
  | e :: es => e.enclose e.lexemes ++ if es.isEmpty then [] else .mark .comma :: listLexemes es
termination_by structural es => es

/-- The lexemes of an expression that may be missing. -/
def lexemes? : Option Expr → List Lexeme
  | none => []
  | some e => e.enclose e.lexemes
termination_by structural e => e

/-- The lexemes of the elements of an array; a hole is just a comma, also behind the last element. -/
def elementLexemes : List (Option Expr) → List Lexeme
  | [] => []
  | e :: es => lexemes? e ++ if e.isSome && es.isEmpty then [] else .mark .comma :: elementLexemes es
termination_by structural es => es

/-- The lexemes of a property. -/
def Property.lexemes : Property → List Lexeme
  | ⟨_, name, value, _⟩ => name.lexeme :: .mark .colon :: value.enclose value.lexemes
termination_by structural p => p

/-- The lexemes of properties with commas between them. -/
def propertyLexemes : List Property → List Lexeme
  | [] => []
  | p :: ps => p.lexemes ++ if ps.isEmpty then [] else .mark .comma :: propertyLexemes ps
termination_by structural ps => ps

end

/-- The lexemes of an expression inside another one. -/
def Expr.enclosed (e : Expr) : List Lexeme := e.enclose e.lexemes

/-! ### Expressions that can be printed -/

/-- A name that is no keyword. -/
def Identifier.Plain (i : Identifier) : Prop := isWordText i.name ∧ TokenKind.ofWord i.name = .identifier

/-- A name after a dot, or one of a property, may be a keyword. -/
def PropertyName.Plain : PropertyName → Prop
  | identifier i => isWordText i.name
  | string .. => True
  | number .. => False

mutual

/-- An expression without functions and regular expressions that obeys the static rules. -/
def Expr.Plain : Expr → Prop
  | .identifier i => i.Plain
  | .number _ value raw => ∃ n : Nat, raw = toString n ∧ nearestFloat false n 1 = (value, false)
  | .string .. | .boolean .. | .null _ | .this _ => True
  | .regexp .. | .function .. => False
  | .array _ elements => plainElements elements
  | .object _ properties => plainProperties properties
  | .unary _ op argument => argument.Plain ∧ ¬(op = .delete ∧ argument matches .identifier _)
  | .update _ _ _ argument => argument.Plain ∧ argument.isTarget
  | .binary _ _ left right | .logical _ _ left right => left.Plain ∧ right.Plain
  | .assign _ op left right =>
    AssignOp.ofToken? (.punctuator op.mark) = some op ∧ left.Plain ∧ left.isTarget ∧ right.Plain
  | .conditional _ test consequent alternate => test.Plain ∧ consequent.Plain ∧ alternate.Plain
  | .call _ callee arguments | .new _ callee arguments => callee.Plain ∧ plainList arguments
  | .member _ object name => object.Plain ∧ isWordText name.name
  | .index _ object key => object.Plain ∧ key.Plain
  | .sequence _ expressions => 2 ≤ expressions.length ∧ plainList expressions
termination_by structural e => e

/-- Expressions that can be printed. -/
def plainList : List Expr → Prop
  | [] => True
  | e :: es => e.Plain ∧ plainList es
termination_by structural es => es

/-- An expression that can be printed, or none. -/
def plain? : Option Expr → Prop
  | none => True
  | some e => e.Plain
termination_by structural e => e

/-- Elements of an array that can be printed. -/
def plainElements : List (Option Expr) → Prop
  | [] => True
  | e :: es => plain? e ∧ plainElements es
termination_by structural es => es

/-- A property with a plain value that can be printed. -/
def Property.Plain : Property → Prop
  | ⟨_, name, value, kind⟩ => name.Plain ∧ value.Plain ∧ kind = .init
termination_by structural p => p

/-- Properties that can be printed. -/
def plainProperties : List Property → Prop
  | [] => True
  | p :: ps => p.Plain ∧ plainProperties ps
termination_by structural ps => ps

end

/-! ### Expressions up to locations -/

/-- Two names of properties differ in their locations only. -/
inductive PropertyName.Alike : PropertyName → PropertyName → Prop where
  | identifier {i j : Identifier} (h : i.name = j.name) : PropertyName.Alike (.identifier i) (.identifier j)
  | string {l l' : Loc} {s : String} : PropertyName.Alike (.string l s) (.string l' s)

mutual

/-- Two expressions differ in their locations only. Functions and regular expressions are left out. -/
inductive Expr.Alike : Expr → Expr → Prop where
  | identifier {i j : Identifier} (h : i.name = j.name) : Expr.Alike (.identifier i) (.identifier j)
  | number {l l' : Loc} {value : Float} {raw : String} : Expr.Alike (.number l value raw) (.number l' value raw)
  | string {l l' : Loc} {value : String} : Expr.Alike (.string l value) (.string l' value)
  | boolean {l l' : Loc} {value : Bool} : Expr.Alike (.boolean l value) (.boolean l' value)
  | null {l l' : Loc} : Expr.Alike (.null l) (.null l')
  | this {l l' : Loc} : Expr.Alike (.this l) (.this l')
  | array {l l' : Loc} {es es' : List (Option Expr)} (h : AlikeElements es es') :
      Expr.Alike (.array l es) (.array l' es')
  | object {l l' : Loc} {ps ps' : List Property} (h : AlikeProperties ps ps') :
      Expr.Alike (.object l ps) (.object l' ps')
  | unary {l l' : Loc} {op : UnaryOp} {a a' : Expr} (h : a.Alike a') : Expr.Alike (.unary l op a) (.unary l' op a')
  | update {l l' : Loc} {op : UpdateOp} {leading : Bool} {a a' : Expr} (h : a.Alike a') :
      Expr.Alike (.update l op leading a) (.update l' op leading a')
  | binary {l l' : Loc} {op : BinaryOp} {a a' b b' : Expr} (ha : a.Alike a') (hb : b.Alike b') :
      Expr.Alike (.binary l op a b) (.binary l' op a' b')
  | logical {l l' : Loc} {op : LogicalOp} {a a' b b' : Expr} (ha : a.Alike a') (hb : b.Alike b') :
      Expr.Alike (.logical l op a b) (.logical l' op a' b')
  | assign {l l' : Loc} {op : AssignOp} {a a' b b' : Expr} (ha : a.Alike a') (hb : b.Alike b') :
      Expr.Alike (.assign l op a b) (.assign l' op a' b')
  | conditional {l l' : Loc} {a a' b b' c c' : Expr} (ha : a.Alike a') (hb : b.Alike b') (hc : c.Alike c') :
      Expr.Alike (.conditional l a b c) (.conditional l' a' b' c')
  | call {l l' : Loc} {a a' : Expr} {es es' : List Expr} (ha : a.Alike a') (hes : AlikeList es es') :
      Expr.Alike (.call l a es) (.call l' a' es')
  | new {l l' : Loc} {a a' : Expr} {es es' : List Expr} (ha : a.Alike a') (hes : AlikeList es es') :
      Expr.Alike (.new l a es) (.new l' a' es')
  | member {l l' : Loc} {a a' : Expr} {i j : Identifier} (ha : a.Alike a') (h : i.name = j.name) :
      Expr.Alike (.member l a i) (.member l' a' j)
  | index {l l' : Loc} {a a' b b' : Expr} (ha : a.Alike a') (hb : b.Alike b') :
      Expr.Alike (.index l a b) (.index l' a' b')
  | sequence {l l' : Loc} {es es' : List Expr} (h : AlikeList es es') : Expr.Alike (.sequence l es) (.sequence l' es')

/-- Expressions that differ in their locations only. -/
inductive AlikeList : List Expr → List Expr → Prop where
  | nil : AlikeList [] []
  | cons {e e' : Expr} {es es' : List Expr} (he : e.Alike e') (h : AlikeList es es') : AlikeList (e :: es) (e' :: es')

/-- Elements of arrays that differ in their locations only. -/
inductive AlikeElements : List (Option Expr) → List (Option Expr) → Prop where
  | nil : AlikeElements [] []
  | hole {es es' : List (Option Expr)} (h : AlikeElements es es') : AlikeElements (none :: es) (none :: es')
  | cons {e e' : Expr} {es es' : List (Option Expr)} (he : e.Alike e') (h : AlikeElements es es') :
      AlikeElements (some e :: es) (some e' :: es')

/-- Properties that differ in their locations only. -/
inductive AlikeProperties : List Property → List Property → Prop where
  | nil : AlikeProperties [] []
  | cons {l l' : Loc} {name name' : PropertyName} {value value' : Expr} {kind : PropertyKind} {ps ps' : List Property}
      (hname : name.Alike name') (hvalue : value.Alike value') (h : AlikeProperties ps ps') :
      AlikeProperties (⟨l, name, value, kind⟩ :: ps) (⟨l', name', value', kind⟩ :: ps')

end

theorem PropertyName.alike_renumber (s : String) {p q : PropertyName} (n : Int) (h : q.Alike p) :
    q.Alike (p.renumber s n).1 := by
  cases h with
  | identifier h => exact .identifier h
  | string => exact .string

-- Numbering keeps everything but the locations, in each kind of part.

mutual

theorem Expr.alike_renumber (s : String) :
    ∀ (a : Expr) {e : Expr} (n : Int), e.Alike a → e.Alike (a.renumber s n).1
  | .identifier _, _, _, .identifier h => .identifier h
  | .number .., _, _, .number => .number
  | .string .., _, _, .string => .string
  | .boolean .., _, _, .boolean => .boolean
  | .null _, _, _, .null => .null
  | .this _, _, _, .this => .this
  | .array _ es, _, _, .array h => .array (alike_renumberElements s es _ h)
  | .object _ ps, _, _, .object h => .object (alike_renumberProperties s ps _ h)
  | .unary _ _ a, _, _, .unary h => .unary (a.alike_renumber s _ h)
  | .update _ _ _ a, _, _, .update h => .update (a.alike_renumber s _ h)
  | .binary _ _ a b, _, _, .binary ha hb => .binary (a.alike_renumber s _ ha) (b.alike_renumber s _ hb)
  | .logical _ _ a b, _, _, .logical ha hb => .logical (a.alike_renumber s _ ha) (b.alike_renumber s _ hb)
  | .assign _ _ a b, _, _, .assign ha hb => .assign (a.alike_renumber s _ ha) (b.alike_renumber s _ hb)
  | .conditional _ a b c, _, _, .conditional ha hb hc =>
    .conditional (a.alike_renumber s _ ha) (b.alike_renumber s _ hb) (c.alike_renumber s _ hc)
  | .call _ a es, _, _, .call ha h => .call (a.alike_renumber s _ ha) (alike_renumberExprs s es _ h)
  | .new _ a es, _, _, .new ha h => .new (a.alike_renumber s _ ha) (alike_renumberExprs s es _ h)
  | .member _ a _, _, _, .member ha h => .member (a.alike_renumber s _ ha) h
  | .index _ a b, _, _, .index ha hb => .index (a.alike_renumber s _ ha) (b.alike_renumber s _ hb)
  | .sequence _ es, _, _, .sequence h => .sequence (alike_renumberExprs s es _ h)
termination_by structural a => a

theorem alike_renumberExprs (s : String) :
    ∀ (es : List Expr) {es' : List Expr} (n : Int), AlikeList es' es → AlikeList es' (renumberExprs s es n).1
  | [], _, _, .nil => .nil
  | e :: es, _, _, .cons he h => .cons (e.alike_renumber s _ he) (alike_renumberExprs s es _ h)
termination_by structural es => es

theorem alike_renumberElements (s : String) : ∀ (es : List (Option Expr)) {es' : List (Option Expr)} (n : Int),
    AlikeElements es' es → AlikeElements es' (renumberElements s es n).1
  | [], _, _, .nil => .nil
  | none :: es, _, _, .hole h => .hole (alike_renumberElements s es _ h)
  | some e :: es, _, _, .cons he h => .cons (e.alike_renumber s _ he) (alike_renumberElements s es _ h)
termination_by structural es => es

theorem alike_renumberProperties (s : String) : ∀ (ps : List Property) {ps' : List Property} (n : Int),
    AlikeProperties ps' ps → AlikeProperties ps' (renumberProperties s ps n).1
  | [], _, _, .nil => .nil
  | ⟨_, name, value, _⟩ :: ps, _, _, .cons hname hvalue h =>
    .cons (name.alike_renumber s _ hname) (value.alike_renumber s _ hvalue) (alike_renumberProperties s ps _ h)
termination_by structural ps => ps

end

/-! ### Slashes -/

/-- Lexemes that can stand behind a token: a slash divides before them if it does at their start, and it divides
behind them if it does at their end. -/
structure Lexeme.Fits (starts : Bool) (ls : List Lexeme) (ends : Bool) : Prop where
  separable : Separable starts ls
  ends : ls.foldl (fun _ l => l.kind.endsOperand) starts = ends

namespace Lexeme.Fits

variable {a b c : Bool} {l : Lexeme} {ls ms : List Lexeme}

theorem nil : Fits a [] a := ⟨trivial, rfl⟩

theorem cons (hl : l.Legible) (hslash : l.isSlash → a) (h : Fits l.kind.endsOperand ls c) : Fits a (l :: ls) c :=
  ⟨⟨hl, hslash, h.separable⟩, h.ends⟩

theorem append (h : Fits a ls b) (h' : Fits b ms c) : Fits a (ls ++ ms) c := by
  induction ls generalizing a with
  | nil =>
    obtain ⟨-, rfl⟩ := h
    exact h'
  | cons l ls ih =>
    obtain ⟨⟨hl, hslash, hls⟩, hends⟩ := h
    exact .cons hl hslash (ih ⟨hls, hends⟩)

theorem mark {p : Punctuator} (hp : (mark p).isSlash = false) (h : Fits (mark p).kind.endsOperand ls c) :
    Fits a (mark p :: ls) c :=
  .cons trivial (fun hs => absurd (hp.symm.trans hs) Bool.false_ne_true) h

end Lexeme.Fits

open Lexeme (Fits)

theorem isWordText_keyword (k : Keyword) : isWordText k.text := by
  cases k <;> decide

theorem ofWord_keyword (k : Keyword) : TokenKind.ofWord k.text = .keyword k := by
  cases k <;> decide

/-- Whether a token is written as a word or with a punctuator. -/
def TokenKind.isFixed : TokenKind → Bool
  | keyword _ | punctuator _ => true
  | _ => false

theorem kind_ofToken {k : TokenKind} (h : k.isFixed) : (Lexeme.ofToken k).kind = k := by
  cases k with
  | keyword w => exact ofWord_keyword w
  | punctuator p => rfl
  | _ => cases h

theorem legible_ofToken {k : TokenKind} (h : k.isFixed) : (Lexeme.ofToken k).Legible := by
  cases k with
  | keyword w => exact isWordText_keyword w
  | punctuator p => trivial
  | _ => cases h

/-- An operator with a slash stands behind its left operand. -/
theorem Lexeme.Fits.ofToken {k : TokenKind} {ls : List Lexeme} {c : Bool} (h : k.isFixed)
    (hls : Fits k.endsOperand ls c) : Fits true (.ofToken k :: ls) c :=
  .cons (legible_ofToken h) (fun _ => rfl) (by rwa [kind_ofToken h])

/-- A word is no slash. -/
theorem Lexeme.Fits.keyword {w : Keyword} {ls : List Lexeme} {a c : Bool}
    (hls : Fits (TokenKind.keyword w).endsOperand ls c) : Fits a (.ofToken (.keyword w) :: ls) c :=
  .cons (isWordText_keyword w) (fun h => absurd h Bool.false_ne_true) (by rwa [kind_ofToken rfl])

/-- The lexemes fit in behind any token, and where they stand alone a slash behind them divides. -/
def Prints (e : Expr) : Prop := ∀ a, ∃ b, Fits a e.lexemes b ∧ (e.isCompound ∨ b = true)

/-- Inside another expression a slash always divides behind an expression. -/
theorem Prints.enclosed {e : Expr} (h : Prints e) (a : Bool) : Fits a (e.enclose e.lexemes) true := by
  unfold Expr.enclose
  split
  · obtain ⟨b, hb, -⟩ := h false
    exact .mark rfl (hb.append (.mark rfl .nil))
  · next hcompound =>
    obtain ⟨b, hb, he⟩ := h a
    exact he.resolve_left hcompound ▸ hb

/-- A property is printed with its name before its value. -/
theorem Prints.property {l : Loc} {name : PropertyName} {value : Expr} {kind : PropertyKind} (hname : name.Plain)
    (h : Prints value) (a : Bool) : Fits a (Property.lexemes ⟨l, name, value, kind⟩) true := by
  have hvalue : Fits name.lexeme.kind.endsOperand (.mark .colon :: value.enclose value.lexemes) true :=
    .mark rfl (h.enclosed _)
  cases name with
  | identifier i => exact .cons hname (fun h => absurd h Bool.false_ne_true) hvalue
  | string l value => exact .cons trivial (fun h => absurd h Bool.false_ne_true) hvalue
  | number => cases hname

private theorem prints_compound {e : Expr} (hcompound : e.isCompound) (b : Bool) (h : ∀ a, Fits a e.lexemes b) :
    Prints e := fun a => ⟨b, h a, .inl hcompound⟩

mutual

theorem Expr.prints : ∀ e : Expr, e.Plain → Prints e
  | .identifier i, h => fun _ => ⟨true, .cons h.1 nofun (by rw [Lexeme.kind, h.2]; exact .nil), .inr rfl⟩
  | .number .., ⟨n, hn, _⟩ => fun _ => ⟨true, .cons ⟨n, hn⟩ nofun .nil, .inr rfl⟩
  | .string .., _ => fun _ => ⟨true, .cons trivial nofun .nil, .inr rfl⟩
  | .boolean _ true, _ | .boolean _ false, _ | .null _, _ | .this _, _ => fun _ => ⟨true, .keyword .nil, .inr rfl⟩
  | .array _ es, h => prints_compound rfl true fun _ =>
    let ⟨_, hes⟩ := fits_elements es h false
    .mark rfl (hes.append (.mark rfl .nil))
  | .object _ ps, h => prints_compound rfl true fun _ =>
    let ⟨_, hps⟩ := fits_properties ps h false
    .mark rfl (hps.append (.mark rfl .nil))
  | .unary _ op a, h => prints_compound rfl true fun _ => by
    have ha := (a.prints h.1).enclosed op.token.endsOperand
    cases op <;> first | exact .keyword ha | exact .mark rfl ha
  | .update _ op true a, h => prints_compound rfl true fun _ => by
    have ha := (a.prints h.1).enclosed op.token.endsOperand
    cases op <;> exact .mark rfl ha
  | .update _ op false a, h => prints_compound rfl true fun _ => by
    have ha := fun b => (a.prints h.1).enclosed b
    cases op <;> exact (ha _).append (.mark rfl .nil)
  | .binary _ op l r, h => prints_compound rfl true fun _ =>
    ((l.prints h.1).enclosed _).append (.ofToken (by cases op <;> rfl) ((r.prints h.2).enclosed _))
  | .logical _ op l r, h => prints_compound rfl true fun _ =>
    ((l.prints h.1).enclosed _).append (.ofToken (by cases op <;> rfl) ((r.prints h.2).enclosed _))
  | .assign _ op l r, h => prints_compound rfl true fun _ =>
    ((l.prints h.2.1).enclosed _).append (.cons trivial (fun _ => rfl) ((r.prints h.2.2.2).enclosed _))
  | .conditional _ t c a, h => prints_compound rfl true fun _ =>
    ((t.prints h.1).enclosed _).append (.mark rfl (((c.prints h.2.1).enclosed _).append
      (.mark rfl ((a.prints h.2.2).enclosed _))))
  | .call _ c es, h => prints_compound rfl true fun _ =>
    let ⟨_, hes⟩ := fits_list es h.2 false
    ((c.prints h.1).enclosed _).append (.mark rfl (hes.append (.mark rfl .nil)))
  | .new _ c es, h => prints_compound rfl true fun _ =>
    let ⟨_, hes⟩ := fits_list es h.2 false
    .keyword (((c.prints h.1).enclosed _).append (.mark rfl (hes.append (.mark rfl .nil))))
  | .member _ o i, h => fun _ =>
    ⟨_, ((o.prints h.1).enclosed _).append (.mark rfl (.cons h.2 nofun .nil)), .inl rfl⟩
  | .index _ o k, h => prints_compound rfl true fun _ =>
    ((o.prints h.1).enclosed _).append (.mark rfl (((k.prints h.2).enclosed _).append (.mark rfl .nil)))
  | .sequence _ es, h => fun a =>
    let ⟨b, hes⟩ := fits_list es h.2 a
    ⟨b, hes, .inl rfl⟩
termination_by structural e => e

private theorem fits_list : ∀ es : List Expr, plainList es → ∀ a, ∃ b, Fits a (listLexemes es) b
  | [], _, a => ⟨a, .nil⟩
  | [e], h, a => ⟨true, ((e.prints h.1).enclosed a).append .nil⟩
  | e :: e' :: es, h, a =>
    let ⟨b, hes⟩ := fits_list (e' :: es) h.2 false
    ⟨b, ((e.prints h.1).enclosed a).append (.mark rfl hes)⟩
termination_by structural es => es

private theorem fits_elements : ∀ es : List (Option Expr), plainElements es → ∀ a, ∃ b, Fits a (elementLexemes es) b
  | [], _, a => ⟨a, .nil⟩
  | none :: es, h, _ =>
    let ⟨b, hes⟩ := fits_elements es h.2 false
    ⟨b, .mark rfl hes⟩
  | [some e], h, a => ⟨true, ((e.prints h.1).enclosed a).append .nil⟩
  | some e :: e' :: es, h, a =>
    let ⟨b, hes⟩ := fits_elements (e' :: es) h.2 false
    ⟨b, ((e.prints h.1).enclosed a).append (.mark rfl hes)⟩
termination_by structural es => es

private theorem fits_properties : ∀ ps : List Property, plainProperties ps → ∀ a, ∃ b, Fits a (propertyLexemes ps) b
  | [], _, a => ⟨a, .nil⟩
  | [⟨_, _, value, _⟩], h, a => ⟨true, (Prints.property h.1.1 (value.prints h.1.2.1) a).append .nil⟩
  | ⟨_, _, value, _⟩ :: p :: ps, h, a =>
    let ⟨b, hps⟩ := fits_properties (p :: ps) h.2 false
    ⟨b, (Prints.property h.1.1 (value.prints h.1.2.1) a).append (.mark rfl hps)⟩
termination_by structural ps => ps

end

end Stepwise

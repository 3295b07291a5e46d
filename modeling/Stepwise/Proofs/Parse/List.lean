import Stepwise.Proofs.Parse.Level

/-!
# Lists of printed parts

* `Reader.TakesEach`: a reader reads each of some expressions.
* `restOfSequence_takes`, `readList_takes`, `arrayElements_takes`, `properties_takes`: then lists of them are read.
-/

namespace Stepwise

open Reader

variable {g : Grammar} {ctx : Context} {before after : List Lexeme} {post : Expr → Prop}

/-! ### Expressions -/

/-- The reader of one part reads each of the expressions. -/
def Reader.TakesEach (item : Reader Expr) (es : List Expr) : Prop :=
  ∀ e ∈ es, e.Plain ∧ ∀ after, 5 < (headKind after).joins → item.Takes (e.enclosed ++ after) after e.Alike

/-- What stands behind the first of some expressions in a list. -/
def listTail (es : List Expr) : List Lexeme := if es.isEmpty then [] else .mark .comma :: listLexemes es

theorem listLexemes_cons (e : Expr) (es : List Expr) : listLexemes (e :: es) = e.enclosed ++ listTail es := rfl

theorem joins_listTail (es : List Expr) {after : List Lexeme} (hafter : 5 < (headKind after).joins) :
    5 < (headKind (listTail es ++ after)).joins := by
  cases es with
  | nil => exact hafter
  | cons e es => exact (show 5 < 6 by decide)

theorem length_enclosed_pos {e : Expr} (he : e.Plain) : 0 < e.enclosed.length := by
  refine List.length_pos_of_ne_nil fun hnil => ?_
  have h := startsOperand_enclosed he []
  rw [hnil] at h
  cases h

theorem length_le_listLexemes {es : List Expr} (he : ∀ e ∈ es, e.Plain) : es.length ≤ (listLexemes es).length := by
  induction es with
  | nil => exact Nat.le_refl _
  | cons e es ih =>
    have hpos := length_enclosed_pos (he e List.mem_cons_self)
    have htail := ih fun e h => he e (List.mem_cons_of_mem _ h)
    rw [listLexemes_cons, List.length_append, List.length_cons, listTail]
    split
    · next hnil =>
      rw [List.isEmpty_iff.1 hnil]
      exact hpos
    · rw [List.length_cons]
      omega

variable {item : Reader Expr} {turns : Nat}

theorem restOfSequence_takes {es : List Expr} (hitem : item.TakesEach es) (hturns : es.length < turns)
    (hafter : 6 < (headKind after).joins) :
    (Grammar.restOfSequence item turns).Takes (listTail es ++ after) after (AlikeList es) := by
  induction es generalizing turns with
  | nil =>
    cases turns with
    | zero => cases hturns
    | succ turns =>
      refine (takes_skipMark_none (ne_of_joins (.punctuator .comma) hafter)).bind ?_
      rintro _ rfl
      exact .pure .nil
  | cons e es ih =>
    cases turns with
    | zero => cases hturns
    | succ turns =>
      refine (takes_skipMark .comma).bind ?_
      rintro _ rfl
      rw [if_pos rfl]
      show Takes _ (listLexemes (e :: es) ++ after) _ _
      rw [listLexemes_cons, List.append_assoc]
      refine ((hitem e List.mem_cons_self).2 _ (joins_listTail es (by omega))).bind fun e' he => ?_
      refine (ih (fun e h => hitem e (List.mem_cons_of_mem _ h)) (by simpa using hturns)).bind fun es' hes => ?_
      exact .pure (.cons he hes)

/-- The arguments of a call are read up to the closing parenthesis. -/
theorem readList_takes {es : List Expr} (hitem : item.TakesEach es) (hturns : es.length < turns) :
    (readList .rightParen item turns).Takes (listLexemes es ++ .mark .rightParen :: after) (.mark .rightParen :: after)
      (AlikeList es) := by
  induction es generalizing turns with
  | nil =>
    cases turns with
    | zero => cases hturns
    | succ turns =>
      refine (takes_isAtMark _).bind ?_
      rintro _ rfl
      exact .pure .nil
  | cons e es ih =>
    cases turns with
    | zero => cases hturns
    | succ turns =>
      obtain ⟨hplain, he⟩ := hitem e List.mem_cons_self
      have hstart := startsOperand_enclosed hplain (listTail es ++ .mark .rightParen :: after)
      rw [listLexemes_cons, List.append_assoc]
      refine (takes_isAtMark _).bind ?_
      rintro _ rfl
      refine (takes_isAt _).bind ?_
      rintro _ rfl
      rw [if_neg (by simp [ne_of_startsOperand (.punctuator .rightParen) hstart rfl,
        ne_of_startsOperand .eof hstart rfl])]
      have hjoins : 5 < (headKind (.mark .rightParen :: after)).joins := (show 5 < 7 by decide)
      refine (he _ (joins_listTail es hjoins)).bind fun e' he' => ?_
      cases es with
      | nil =>
        refine (takes_skipMark_none (headKind_mark_ne (by decide))).bind ?_
        rintro _ rfl
        exact .pure (.cons he' .nil)
      | cons e₁ es =>
        refine (takes_skipMark .comma).bind ?_
        rintro _ rfl
        rw [if_pos rfl]
        refine (ih (fun e h => hitem e (List.mem_cons_of_mem _ h)) (by simpa using hturns)).bind fun es' hes => ?_
        exact .pure (.cons he' hes)

theorem sequenceOf_of_first {first item : Reader Expr} (h : first.Takes before after post)
    (hafter : 6 < (headKind after).joins) : (Grammar.sequenceOf first item).Takes before after post := by
  refine takes_here.bind fun start _ => h.bind fun e he => takes_turns.bind ?_
  rintro _ rfl
  have hitem : item.TakesEach [] := by simp [TakesEach]
  refine (restOfSequence_takes hitem (Nat.succ_pos _) hafter).bind fun es hes => ?_
  cases hes
  exact .pure he

theorem plain_of_mem {es : List Expr} (h : plainList es) : ∀ e ∈ es, e.Plain := by
  induction es with
  | nil => simp
  | cons e es ih => exact List.forall_mem_cons.2 ⟨h.1, ih h.2⟩

theorem length_enclosed_of_mem {es : List Expr} {e : Expr} (he : e ∈ es) :
    e.enclosed.length ≤ (listLexemes es).length := by
  induction es with
  | nil => cases he
  | cons e₁ es ih =>
    rw [listLexemes_cons, List.length_append]
    rcases List.mem_cons.1 he with rfl | he
    · exact Nat.le_add_right ..
    · have := ih he
      rw [listTail, if_neg (by simpa using List.ne_nil_of_mem he), List.length_cons]
      omega

/-! ### Elements -/

/-- What stands behind an element that is no hole. -/
def elementTail (es : List (Option Expr)) : List Lexeme := if es.isEmpty then [] else .mark .comma :: elementLexemes es

theorem arrayElements_takes {es : List (Option Expr)} (hitem : (g.assignment ctx).TakesEach (es.flatMap Option.toList))
    (hturns : es.length < turns) :
    (g.arrayElements ctx turns).Takes (elementLexemes es ++ .mark .rightBracket :: after) (.mark .rightBracket :: after)
      (AlikeElements es) := by
  induction es generalizing turns with
  | nil =>
    cases turns with
    | zero => cases hturns
    | succ turns =>
      refine takes_kind.bind ?_
      rintro _ rfl
      exact .pure .nil
  | cons e es ih =>
    cases turns with
    | zero => cases hturns
    | succ turns =>
      have hlt : es.length < turns := Nat.lt_of_succ_lt_succ hturns
      have ih := ih (fun e he => hitem e (by simp_all)) hlt
      cases e with
      | none =>
        refine takes_kind.bind ?_
        rintro _ rfl
        refine takes_advance.bind fun _ _ => ?_
        exact ih.bind fun es' hes => .pure (.hole hes)
      | some e =>
        obtain ⟨hplain, he⟩ := hitem e (by simp)
        have hstart := startsOperand_enclosed hplain (elementTail es ++ .mark .rightBracket :: after)
        show Takes _ (e.enclosed ++ elementTail es ++ .mark .rightBracket :: after) _ _
        rw [List.append_assoc]
        refine takes_kind.bind ?_
        rintro _ rfl
        split
        · next hk => exact absurd hk (ne_of_startsOperand _ hstart rfl)
        · next hk => exact absurd hk (ne_of_startsOperand _ hstart rfl)
        · next hk => exact absurd hk (ne_of_startsOperand _ hstart rfl)
        · refine (takes_refuseAt (ne_of_startsOperand _ hstart rfl)).bind fun _ _ => ?_
          cases es with
          | nil =>
            refine (he (.mark .rightBracket :: after) (show 5 < 7 by decide)).bind fun e' he' => ?_
            refine (takes_separate .rightBracket).bind fun _ _ => ?_
            exact ih.bind fun es' hes => .pure (.cons he' hes)
          | cons e₁ es =>
            refine (he (.mark .comma :: (elementLexemes (e₁ :: es) ++ .mark .rightBracket :: after))
              (show 5 < 6 by decide)).bind fun e' he' => ?_
            refine (takes_separate_comma (by decide)).bind fun _ _ => ?_
            exact ih.bind fun es' hes => .pure (.cons he' hes)

/-! ### Properties -/

theorem readPropertyIdentifier_takes {name : String} :
    readPropertyIdentifier.Takes (.word name :: after) after (name = ·.name) := by
  refine takes_current.bind fun t ht => ?_
  have hkind : t.kind = .ofWord name := ht.kind
  have htake : (takePropertyName t).Takes (.word name :: after) after fun _ => True := by
    unfold takePropertyName
    rw [hkind, TokenKind.ofWord]
    cases Keyword.ofText? name with
    | none => exact takes_advance
    | some k => exact takes_advance
  exact htake.bind fun _ _ => (takes_spanFrom _).bind fun _ _ => .pure ht.text.symm

theorem endsBlock_ofWord (s : String) : endsBlock (.ofWord s) = false := by
  unfold TokenKind.ofWord
  cases Keyword.ofText? s <;> rfl

theorem propertyName_takes {name : PropertyName} (h : name.Plain) :
    Grammar.propertyName.Takes (name.lexeme :: after) after name.Alike := by
  refine takes_current.bind fun t ht => ?_
  cases name with
  | identifier i =>
    have hmark : headKind (.word i.name :: after) ≠ .punctuator .leftBracket := by
      show TokenKind.ofWord i.name ≠ _
      unfold TokenKind.ofWord
      cases Keyword.ofText? i.name <;> simp
    have hread : (do
        refuseAt (.punctuator .leftBracket) .computedProperty
        return .identifier (← readPropertyIdentifier) : Reader PropertyName).Takes
        (.word i.name :: after) after (PropertyName.identifier i).Alike :=
      (takes_refuseAt hmark).bind fun _ _ => readPropertyIdentifier_takes.bind fun j hj => .pure (.identifier hj)
    have hkind : t.kind = .ofWord i.name := ht.kind
    rw [hkind]
    unfold TokenKind.ofWord
    cases Keyword.ofText? i.name with
    | none => exact hread
    | some k => exact hread
  | string l value =>
    have hkind : t.kind = .string := ht.kind
    have htext : t.text = value := ht.text
    rw [hkind, htext]
    exact takes_advance.bind fun _ _ => (takes_spanFrom _).bind fun _ _ => .pure .string
  | number => cases h

theorem accessorKind_takes {l : Lexeme} :
    Grammar.accessorKind.Takes (l :: .mark .colon :: after) (l :: .mark .colon :: after) (· = .init) := by
  refine takes_current.bind fun t _ => takes_nextKind.bind ?_
  rintro _ rfl
  rw [if_neg (by simp [Grammar.endsPropertyName, Lexeme.kind])]
  exact .pure rfl

/-- Two properties differ in their locations only. -/
def Property.Alike (p q : Property) : Prop := p.name.Alike q.name ∧ p.value.Alike q.value ∧ q.kind = p.kind

theorem AlikeProperties.of_property {p q : Property} {ps qs : List Property} (hp : p.Alike q)
    (h : AlikeProperties ps qs) : AlikeProperties (p :: ps) (q :: qs) := by
  obtain ⟨l, name, value, kind⟩ := p
  obtain ⟨l', name', value', _⟩ := q
  obtain ⟨hname, hvalue, rfl⟩ := hp
  exact .cons hname hvalue h

theorem property_takes {p : Property} (hp : p.Plain)
    (hvalue : ∀ after, 5 < (headKind after).joins →
      (g.assignment ctx).Takes (p.value.enclosed ++ after) after p.value.Alike)
    (hafter : 5 < (headKind after).joins) :
    (g.property ctx).Takes (p.lexemes ++ after) after
      p.Alike := by
  obtain ⟨l, name, value, kind⟩ := p
  obtain ⟨hname, -, rfl⟩ := hp
  refine takes_here.bind fun start _ => accessorKind_takes.bind ?_
  rintro _ rfl
  have hread : (g.propertyValue ctx).Takes (.mark .colon :: (value.enclosed ++ after)) after value.Alike := by
    refine takes_kind.bind ?_
    rintro _ rfl
    exact takes_advance.bind fun _ _ => hvalue after hafter
  refine (propertyName_takes hname).bind fun name' hname' => hread.bind fun value' hvalue' => ?_
  exact (takes_spanFrom _).bind fun _ _ => .pure ⟨hname', hvalue', rfl⟩

theorem properties_takes {ps : List Property} (hps : plainProperties ps)
    (hvalue : ∀ p ∈ ps, ∀ after, 5 < (headKind after).joins →
      (g.assignment ctx).Takes (p.value.enclosed ++ after) after p.value.Alike) (hturns : ps.length < turns) :
    (g.properties ctx turns).Takes (propertyLexemes ps ++ .mark .rightBrace :: after) (.mark .rightBrace :: after)
      (AlikeProperties ps) := by
  induction ps generalizing turns with
  | nil =>
    cases turns with
    | zero => cases hturns
    | succ turns =>
      refine takes_kind.bind ?_
      rintro _ rfl
      exact .pure .nil
  | cons p ps ih =>
    cases turns with
    | zero => cases hturns
    | succ turns =>
      obtain ⟨hp, hps⟩ := hps
      have ih := ih hps (fun p h => hvalue p (List.mem_cons_of_mem _ h)) (Nat.lt_of_succ_lt_succ hturns)
      have hread (after : List Lexeme) (hafter : 5 < (headKind after).joins) :=
        property_takes hp (hvalue p List.mem_cons_self) hafter
      refine takes_kind.bind ?_
      rintro _ rfl
      have hends : endsBlock (headKind (propertyLexemes (p :: ps) ++ .mark .rightBrace :: after)) = false := by
        obtain ⟨l, name, value, kind⟩ := p
        cases name with
        | identifier i => exact endsBlock_ofWord i.name
        | string => rfl
        | number => cases hp.1
      rw [if_neg (Bool.eq_false_iff.1 hends)]
      cases ps with
      | nil =>
        show Takes _ (p.lexemes ++ [] ++ .mark .rightBrace :: after) _ _
        rw [List.append_nil]
        refine (hread (.mark .rightBrace :: after) (show 5 < 7 by decide)).bind ?_
        intro q hq
        refine (takes_separate .rightBrace).bind fun _ _ => ?_
        exact ih.bind fun ps' hps' => .pure (.of_property hq hps')
      | cons p₁ ps =>
        show Takes _ (p.lexemes ++ .mark .comma :: propertyLexemes (p₁ :: ps) ++ .mark .rightBrace :: after) _ _
        rw [List.append_assoc]
        refine (hread (.mark .comma :: (propertyLexemes (p₁ :: ps) ++ .mark .rightBrace :: after))
          (show 5 < 6 by decide)).bind ?_
        intro q hq
        refine (takes_separate_comma (by decide)).bind fun _ _ => ?_
        exact ih.bind fun ps' hps' => .pure (.of_property hq hps')

/-! ### Lengths -/

theorem elementLexemes_cons (e : Option Expr) (es : List (Option Expr)) : elementLexemes (e :: es) =
    lexemes? e ++ if e.isSome && es.isEmpty then [] else .mark .comma :: elementLexemes es := rfl

theorem plain_of_mem_elements {es : List (Option Expr)} (h : plainElements es) {e : Expr}
    (he : e ∈ es.flatMap Option.toList) : e.Plain ∧ e.enclosed.length ≤ (elementLexemes es).length := by
  induction es with
  | nil => simp at he
  | cons e₁ es ih =>
    rw [elementLexemes_cons, List.length_append]
    rw [List.flatMap_cons, List.mem_append] at he
    rcases he with he | he
    · cases e₁ with
      | none => cases he
      | some e₁ =>
        obtain rfl := List.mem_singleton.1 he
        exact ⟨h.1, Nat.le_add_right ..⟩
    · obtain ⟨hplain, hlength⟩ := ih h.2 he
      have hne : es.isEmpty = false := by
        cases es with
        | nil => simp at he
        | cons => rfl
      rw [hne, Bool.and_false, if_neg Bool.false_ne_true, List.length_cons]
      exact ⟨hplain, by omega⟩

theorem length_le_elementLexemes {es : List (Option Expr)} (h : plainElements es) :
    es.length ≤ (elementLexemes es).length := by
  induction es with
  | nil => exact Nat.le_refl _
  | cons e es ih =>
    have ih := ih h.2
    rw [elementLexemes_cons, List.length_append, List.length_cons]
    split
    · next hlast =>
      obtain ⟨hsome, hnil⟩ := Bool.and_eq_true_iff.1 hlast
      obtain ⟨e, rfl⟩ := Option.isSome_iff_exists.1 hsome
      have hpos := length_enclosed_pos h.1
      rw [List.isEmpty_iff.1 hnil]
      exact hpos
    · rw [List.length_cons]
      omega

theorem propertyLexemes_cons (p : Property) (ps : List Property) : propertyLexemes (p :: ps) =
    p.lexemes ++ if ps.isEmpty then [] else .mark .comma :: propertyLexemes ps := rfl

theorem length_lexemes_property (p : Property) : p.lexemes.length = p.value.enclosed.length + 2 := by
  obtain ⟨l, name, value, kind⟩ := p
  rfl

theorem plain_of_mem_properties {ps : List Property} (h : plainProperties ps) {p : Property} (hp : p ∈ ps) :
    p.value.Plain ∧ p.value.enclosed.length ≤ (propertyLexemes ps).length := by
  induction ps with
  | nil => cases hp
  | cons p₁ ps ih =>
    rw [propertyLexemes_cons, List.length_append]
    rcases List.mem_cons.1 hp with rfl | hp
    · rw [length_lexemes_property]
      obtain ⟨l, name, value, kind⟩ := p
      exact ⟨h.1.2.1, by omega⟩
    · obtain ⟨hplain, hlength⟩ := ih h.2 hp
      rw [if_neg (by simpa using List.ne_nil_of_mem hp), List.length_cons]
      exact ⟨hplain, by omega⟩

theorem length_le_propertyLexemes (ps : List Property) : ps.length ≤ (propertyLexemes ps).length := by
  induction ps with
  | nil => exact Nat.le_refl _
  | cons p ps ih =>
    rw [propertyLexemes_cons, List.length_append, List.length_cons, length_lexemes_property]
    split
    · next hnil =>
      rw [List.isEmpty_iff.1 hnil]
      simp
    · rw [List.length_cons]
      omega

end Stepwise

import Mathlib.Algebra.Group.Nat.Even
import Mathlib.Data.List.DropRight
import Stepwise.Proofs.Token.Lexeme
import Stepwise.Proofs.Token.Position

/-!
# String literals

* `tokenize_quoted`: a string between double quotes is one token, with the string as its text.
* `splitEscapes`: a text cut at the backslashes that are not escaped.
* `isWellFormedEscape`: whether an escape has the digits that it needs.
* `escapes_of_string`: the escapes of every string token are well-formed, but for one `\u` behind the first half of a
  surrogate pair.
-/

namespace Stepwise

/-! ### Whole texts -/

theorem isQuote_ne_backslash {quote : Char} (hquote : quote = '"' ∨ quote = '\x27') : quote ≠ '\\' := by
  rcases hquote with rfl | rfl <;> decide

/-- A text that is read as a string up to its end is one token. -/
theorem tokenize_literal {quote : Char} (hquote : quote = '"' ∨ quote = '\x27') {body : List Char} {s : String}
    {stop : Position}
    (h : readString quote [] (body.length + 2) ⟨body ++ [quote], Position.start.after quote⟩ = (.ok s, ⟨[], stop⟩)) :
    tokenize (String.ofList (quote :: (body ++ [quote]))) =
      [⟨.string, s, .start, Position.start.afterAll (quote :: (body ++ [quote])), false⟩,
        ⟨.eof, "", Position.start.afterAll (quote :: (body ++ [quote])),
          Position.start.afterAll (quote :: (body ++ [quote])), false⟩] := by
  have hread : readToken false ⟨quote :: (body ++ [quote]), .start⟩ = ((.string, s), ⟨[], stop⟩) := by
    rcases hquote with rfl | rfl
    · simp [readToken, Cursor.advance, h]
    · simp [readToken, Cursor.advance, h]
  -- where the scanner stops follows from the text that it has gone over
  have hstop : stop = Position.start.afterAll (quote :: (body ++ [quote])) := by
    obtain ⟨word, hword⟩ :=
      Cursor.exists_finds_readToken (c := ⟨quote :: (body ++ [quote]), .start⟩) false rfl
    rw [hread] at hword
    obtain ⟨hrest, hpos⟩ := hword.overruns.walks
    rw [List.append_nil] at hrest
    rw [← hrest] at hpos
    exact hpos
  have hgap : skipGap .blank false .start (quote :: (body ++ [quote])) = (⟨quote :: (body ++ [quote]), .start⟩, false) := by
    rcases hquote with rfl | rfl
    · exact Lexeme.skipGap_stop (by decide) (by decide) (by decide) ..
    · exact Lexeme.skipGap_stop (by decide) (by decide) (by decide) ..
  subst hstop
  unfold tokenize Cursor.ofString
  rw [String.toList_ofList]
  dsimp only
  rw [tokensFrom, hgap]
  dsimp only
  rw [hread]
  rfl

/-- A string between double quotes, with backslashes, quotes and line breaks escaped, is one token that goes from one end
of the text to the other. -/
theorem tokenize_quoted (s : String) :
    tokenize (String.ofList (Lexeme.string s).chars) =
      [⟨.string, s, .start, Position.start.afterAll (Lexeme.string s).chars, false⟩,
        ⟨.eof, "", Position.start.afterAll (Lexeme.string s).chars, Position.start.afterAll (Lexeme.string s).chars,
          false⟩] := by
  have hlength := Lexeme.length_le_flatMap_quotedChar s.toList
  obtain ⟨stop, hstop⟩ := Lexeme.readString_quoted s.toList [] [] (Position.start.after '"')
    (show s.toList.length < (s.toList.flatMap Lexeme.quotedChar).length + 2 by omega)
  rw [List.reverse_nil, List.nil_append, String.ofList_toList] at hstop
  exact tokenize_literal (.inl rfl) hstop

/-! ### Tokens of a source -/

/-- A string token starts with a quote. -/
theorem stringRead_of_readToken {slashDivides : Bool} {c stop : Cursor} {s : String}
    (h : readToken slashDivides c = ((.string, s), stop)) :
    ∃ quote rest, (quote = '"' ∨ quote = '\x27') ∧ c.rest = quote :: rest ∧ StringRead quote c.advance (.ok s, stop) := by
  unfold readToken at h
  split at h
  · cases h
  · next ch rest hc =>
    split at h
    · split at h <;> cases h
    · split at h
      · split at h <;> cases h
      · split at h
        · next hquote =>
          refine ⟨ch, rest, hquote, hc, ?_⟩
          have hread := stringRead ch [] (rest.length + 1) c.advance
          split at h
          · next hn =>
            cases h
            rwa [hn] at hread
          · cases h
        · split at h
          · split at h <;> cases h
          · split at h
            · cases h
            · split at h
              · have hverbatim := Cursor.ofWord_isVerbatim (c.textUpTo (c.dropWhile isIdentifierPart))
                have hkind : TokenKind.ofWord (c.textUpTo (c.dropWhile isIdentifierPart)) = .string :=
                  congrArg (fun found => found.1.1) h
                rw [hkind] at hverbatim
                cases hverbatim
              · cases h

/-- The characters of a string token are what stands between two quotes. -/
theorem exists_stringBody_of_mem {source : String} {t : Token} (ht : t ∈ tokenize source) (hkind : t.kind = .string) :
    ∃ quote rest body, (quote = '"' ∨ quote = '\x27') ∧ t.chars source = quote :: (body ++ [quote]) ∧
      IsStringBody quote (quote :: rest) body := by
  obtain ⟨start, stop, slashDivides, hstart, hread, hstartPos, hstopPos⟩ :=
    exists_readToken_of_mem (Cursor.stands_ofString source) ht
  rw [hkind] at hread
  obtain ⟨quote, rest, hquote, hrest, hstring⟩ := stringRead_of_readToken hread
  cases hstring with
  | @closed body _ _ hbody hwalks =>
    have hword : start.Walks (quote :: (body ++ [quote])) stop := (Cursor.walks_advance hrest).trans hwalks
    refine ⟨quote, stop.rest, body, hquote, ?_, hbody⟩
    unfold Token.chars
    rw [hstartPos, hstopPos]
    exact (hstart.slice hword.reads).eq_takeBytes

/-! ### Escapes -/

/-- The characters before the first backslash that is not escaped, and those behind each of them up to the next one. -/
def splitEscapes : List Char → List Char × List (List Char)
  | [] => ([], [])
  | '\\' :: c :: cs => ([], (c :: (splitEscapes cs).1) :: (splitEscapes cs).2)
  | c :: cs => (c :: (splitEscapes cs).1, (splitEscapes cs).2)

/-- The escapes in a text, each with what stands between its backslash and the next escape. -/
def escapes (cs : List Char) : List (List Char) := (splitEscapes cs).2

/-- Whether an escape has the digits that it needs: two hexadecimal ones for an `x`, four for a `u`, and no other escape
is a number but for a zero that no digit follows. -/
def isWellFormedEscape : List Char → Bool
  | 'x' :: cs => 2 ≤ (cs.takeWhile isHexDigit).length
  | 'u' :: cs => 4 ≤ (cs.takeWhile isHexDigit).length
  | '0' :: cs => !cs.head?.any Char.isDigit
  | c :: _ => !c.isDigit
  | [] => false

/-- Whether an escape is the first half of a surrogate pair, with nothing behind it. -/
def isHighEscape : List Char → Bool
  | 'u' :: ds => ds.length == 4 && ds.all isHexDigit && isHighSurrogate (digitsValue 16 ds)
  | _ => false

/-- Escapes that are well-formed, but for a `u` that an odd number of first halves stands right in front of; `odd` says
whether the number in front of all of them is odd. -/
def AreEscapes (odd : Bool) : List (List Char) → Prop
  | [] => True
  | e :: es => (isWellFormedEscape e ∨ (e.head? = some 'u' ∧ odd)) ∧ AreEscapes (isHighEscape e && !odd) es

section

variable {quote : Char} {rest cs w : List Char}

theorem splitEscapes_cons {c : Char} (hc : c ≠ '\\') (cs : List Char) :
    splitEscapes (c :: cs) = (c :: (splitEscapes cs).1, (splitEscapes cs).2) := by
  rw [splitEscapes]
  exact fun _ _ h => absurd h hc

theorem splitEscapes_backslash (c : Char) (cs : List Char) : (splitEscapes ('\\' :: c :: cs)).1 = [] := rfl

theorem splitEscapes_append {ds : List Char} (hds : ∀ d ∈ ds, d ≠ '\\') (cs : List Char) :
    splitEscapes (ds ++ cs) = (ds ++ (splitEscapes cs).1, (splitEscapes cs).2) := by
  induction ds with
  | nil => rfl
  | cons d ds ih =>
    obtain ⟨hd, hds⟩ := List.forall_mem_cons.1 hds
    rw [List.cons_append, splitEscapes_cons hd, ih hds]
    rfl

/-- What stands before the first escape is at the front of the text. -/
theorem head?_of_splitEscapes {c : Char} (h : (splitEscapes cs).1.head? = some c) : cs.head? = some c := by
  unfold splitEscapes at h
  split at h
  · cases h
  · cases h
  · exact h

/-- A text with an escape at its front and a quote at its end. -/
theorem exists_escape_of_splitEscapes (hquote : quote ≠ '\\') (h : (splitEscapes (cs ++ [quote])).1 = []) :
    ∃ c e es, (splitEscapes (cs ++ [quote])).2 = (c :: e) :: es ∧ ∀ rest, (cs ++ quote :: rest).take 2 = ['\\', c] := by
  cases cs with
  | nil =>
    rw [List.nil_append, splitEscapes_cons hquote] at h
    cases h
  | cons a cs =>
    by_cases ha : a = '\\'
    · subst ha
      cases cs with
      | nil => exact ⟨quote, _, _, rfl, fun _ => rfl⟩
      | cons b cs => exact ⟨b, _, _, rfl, fun _ => rfl⟩
    · rw [List.cons_append, splitEscapes_cons ha] at h
      cases h

theorem le_length_takeWhile {p : Char → Bool} {ds : List Char} (hds : ∀ d ∈ ds, p d) (cs : List Char) :
    ds.length ≤ ((ds ++ cs).takeWhile p).length := by
  rw [List.takeWhile_append_of_pos hds, List.length_append]
  exact Nat.le_add_right ..

/-- Digits behind a `u` that are four make it well-formed, whatever is behind them. -/
theorem SpellsUnit.isWellFormedEscape_append {ds : List Char} {n : Nat} (hds : SpellsUnit ds n) (cs : List Char) :
    isWellFormedEscape ('u' :: (ds ++ cs)) := by
  have h := le_length_takeWhile hds.digits cs
  rw [hds.length] at h
  exact decide_eq_true h

theorem SpellsUnit.isHighEscape_eq {ds : List Char} {n : Nat} (hds : SpellsUnit ds n) :
    isHighEscape ('u' :: ds) = isHighSurrogate n := by
  have hall : ds.all isHexDigit := List.all_eq_true.2 hds.digits
  rw [isHighEscape, hds.length, hall, hds.value]
  rfl

theorem SpellsUnit.eq_nil_of_isHighEscape {ds : List Char} {n : Nat} (hds : SpellsUnit ds n)
    (h : isHighEscape ('u' :: (ds ++ cs))) : cs = [] := by
  rw [isHighEscape, Bool.and_eq_true, Bool.and_eq_true, beq_iff_eq, List.length_append, hds.length] at h
  exact List.eq_nil_of_length_eq_zero (Nat.add_left_cancel h.1.1)

/-- An escape with what stands between its first character and the next escape. -/
theorem escapes_escape (c : Char) {ds : List Char} (hds : ∀ d ∈ ds, d ≠ '\\') (cs : List Char) :
    escapes ('\\' :: c :: (ds ++ cs)) = (c :: (ds ++ (splitEscapes cs).1)) :: escapes cs := by
  unfold escapes
  rw [splitEscapes, splitEscapes_append hds]

theorem isHighEscape_of_head {e : List Char} (he : e.head? ≠ some 'u') : isHighEscape e = false := by
  unfold isHighEscape
  split
  · exact absurd rfl he
  · rfl

/-- Behind a well-formed escape that is no first half, the escapes are as on their own. -/
theorem AreEscapes.cons {e : List Char} {es : List (List Char)} (he : isWellFormedEscape e)
    (hhigh : isHighEscape e = false) (hes : AreEscapes false es) (odd : Bool) : AreEscapes odd (e :: es) := by
  refine ⟨.inl he, ?_⟩
  rw [hhigh, Bool.false_and]
  exact hes

/-- In front of an escape that is no `u`, it does not matter what stands before. -/
theorem AreEscapes.of_head {e : List Char} {es : List (List Char)} (he : e.head? ≠ some 'u') {odd odd' : Bool}
    (h : AreEscapes odd (e :: es)) : AreEscapes odd' (e :: es) := by
  obtain ⟨hwell, hes⟩ := h
  rw [isHighEscape_of_head he, Bool.false_and] at hes
  exact .cons (hwell.resolve_right fun h => he h.1) (isHighEscape_of_head he) hes odd'

theorem isWellFormedEscape_cons {c : Char} {e : List Char} (hx : c ≠ 'x') (hu : c ≠ 'u')
    (hd : c.isDigit → c = '0' ∧ e.head?.any Char.isDigit = false) : isWellFormedEscape (c :: e) := by
  unfold isWellFormedEscape
  split
  · next hc => exact absurd (List.cons.inj hc).1 hx
  · next hc => exact absurd (List.cons.inj hc).1 hu
  · next hc =>
    obtain ⟨rfl, rfl⟩ := List.cons.inj hc
    rw [(hd (by decide)).2]
    rfl
  · next hzero hc =>
    obtain ⟨rfl, rfl⟩ := List.cons.inj hc
    cases hdigit : c.isDigit with
    | false => rfl
    | true =>
      obtain ⟨rfl, -⟩ := hd hdigit
      exact absurd rfl hzero
  · next hc => cases hc

/-- The escapes of a string, behind an escape that is read. -/
theorem IsEscape.areEscapes (hquote : quote ≠ '\\') (hw : IsEscape (cs ++ quote :: rest) w)
    (h : AreEscapes false (escapes (cs ++ [quote]))) :
    AreEscapes false (escapes ('\\' :: (w ++ (cs ++ [quote])))) := by
  cases hw with
  | @mark c hx hu hd =>
    rw [List.cons_append, escapes_escape c (List.forall_mem_nil _)]
    refine .cons (isWellFormedEscape_cons hx hu fun hc => ?_) (isHighEscape_of_head fun h => hu (Option.some.inj h)) h false
    obtain ⟨rfl, hnext⟩ := hd hc
    refine ⟨rfl, ?_⟩
    rw [List.nil_append]
    cases hfirst : (splitEscapes (cs ++ [quote])).1.head? with
    | none => rfl
    | some d =>
      have hd := head?_of_splitEscapes hfirst
      rw [List.head?_append] at hnext hd
      exact hd ▸ hnext
  | lineBreak =>
    rw [List.cons_append, escapes_escape '\r' (by simp : ∀ d ∈ ['\n'], d ≠ '\\')]
    exact .cons (isWellFormedEscape_cons (by decide) (by decide) fun hd => absurd hd (by decide))
      (isHighEscape_of_head (by simp)) h false
  | @hex a b ha hb =>
    have hds : ∀ d ∈ [a, b], isHexDigit d := by simp [ha, hb]
    rw [List.cons_append, escapes_escape 'x' (digits_ne_backslash hds)]
    refine .cons ?_ (isHighEscape_of_head (by simp)) h false
    exact decide_eq_true (le_length_takeWhile hds (splitEscapes (cs ++ [quote])).1)
  | @unit ds n hds hrest =>
    rw [List.cons_append, escapes_escape 'u' (digits_ne_backslash hds.digits)]
    refine ⟨.inl (hds.isWellFormedEscape_append _), ?_⟩
    rw [Bool.not_false, Bool.and_true]
    cases hhigh : isHighEscape ('u' :: (ds ++ (splitEscapes (cs ++ [quote])).1)) with
    | false => exact h
    | true =>
      -- the escape behind a first half is no unit, or it would have been read with it
      have hnil : (splitEscapes (cs ++ [quote])).1 = [] := hds.eq_nil_of_isHighEscape hhigh
      rw [hnil, List.append_nil, hds.isHighEscape_eq] at hhigh
      obtain ⟨c, e, es, hes, htake⟩ := exists_escape_of_splitEscapes hquote hnil
      rw [escapes, hes] at h ⊢
      refine h.of_head fun hc => hrest hhigh ?_
      rw [htake, Option.some.inj hc]
  | @pair ds es high low hds hhigh hes => 
    rw [List.cons_append, List.append_assoc, escapes_escape 'u' (digits_ne_backslash hds.digits), List.cons_append,
      List.cons_append, escapes_escape 'u' (digits_ne_backslash hes.digits)]
    refine ⟨.inl (hds.isWellFormedEscape_append _), ?_⟩
    rw [splitEscapes_backslash, List.append_nil, hds.isHighEscape_eq, hhigh, Bool.not_false, Bool.and_true]
    exact ⟨.inl (hes.isWellFormedEscape_append _), by rwa [Bool.not_true, Bool.and_false]⟩
  | @broken ds es high hds hhigh hes hlength => 
    rw [List.cons_append, List.append_assoc, escapes_escape 'u' (digits_ne_backslash hds.digits), List.cons_append,
      List.cons_append, escapes_escape 'u' (digits_ne_backslash hes)]
    refine ⟨.inl (hds.isWellFormedEscape_append _), ?_⟩
    rw [splitEscapes_backslash, List.append_nil, hds.isHighEscape_eq, hhigh, Bool.not_false, Bool.and_true]
    -- the second escape may lack digits, but the first one is a first half in front of it
    exact ⟨.inr ⟨rfl, rfl⟩, by rwa [Bool.not_true, Bool.and_false]⟩

theorem IsStringBody.areEscapes (hquote : quote ≠ '\\') {body : List Char}
    (h : IsStringBody quote (quote :: rest) body) : AreEscapes false (escapes (body ++ [quote])) := by
  induction h with
  | nil =>
    rw [List.nil_append, escapes, splitEscapes_cons hquote]
    trivial
  | plain _ _ hslash _ ih =>
    rw [List.cons_append, escapes, splitEscapes_cons hslash]
    exact ih
  | escape hw _ ih =>
    rw [List.cons_append, List.append_assoc]
    exact hw.areEscapes hquote ih

end

/-- Counting from the front, a run at the end is odd. -/
theorem foldl_odd_iff {α : Type} (p : α → Bool) (l : List α) :
    l.foldl (fun odd a => p a && !odd) false = true ↔ Odd (l.rtakeWhile p).length := by
  induction l using List.reverseRecOn with
  | nil => simp
  | append_singleton l a ih =>
    rw [List.foldl_append, List.foldl_cons, List.foldl_nil]
    cases hp : p a with
    | false =>
      rw [List.rtakeWhile_concat_neg _ _ _ (by simp [hp])]
      simp
    | true =>
      rw [List.rtakeWhile_concat_pos _ _ _ hp, List.length_append, List.length_singleton, Nat.odd_add_one, ← ih]
      simp

theorem AreEscapes.of_append {odd : Bool} {before after : List (List Char)} {e : List Char}
    (h : AreEscapes odd (before ++ e :: after)) :
    isWellFormedEscape e ∨ (e.head? = some 'u' ∧ before.foldl (fun odd e => isHighEscape e && !odd) odd) := by
  induction before generalizing odd with
  | nil => exact h.1
  | cons b before ih => exact ih h.2

/-- The escapes of a string token are well-formed, but for a `u` that an odd number of first halves of surrogate pairs
stands right in front of. -/
theorem escapes_of_string {source : String} {t : Token} (ht : t ∈ tokenize source) (hkind : t.kind = .string)
    {before after : List (List Char)} {e : List Char} (h : escapes (t.chars source) = before ++ e :: after) :
    isWellFormedEscape e ∨ (e.head? = some 'u' ∧ Odd (before.rtakeWhile isHighEscape).length) := by
  obtain ⟨quote, rest, body, hquote, hchars, hbody⟩ := exists_stringBody_of_mem ht hkind
  have hslash : quote ≠ '\\' := isQuote_ne_backslash hquote
  have hescapes : AreEscapes false (escapes (body ++ [quote])) := hbody.areEscapes hslash
  rw [hchars, escapes, splitEscapes_cons hslash] at h
  rw [escapes, h] at hescapes
  exact hescapes.of_append.imp_right fun hu => ⟨hu.1, (foldl_odd_iff isHighEscape before).1 hu.2⟩

/-- Of three units, the last one is behind a pair, so that an escape with no digits may follow it. -/
theorem escapes_of_string_lone :
    ∃ t ∈ tokenize "'\\uD83D\\uDE00\\uD83D\\u\\x41'", t.kind = .string ∧
      ∃ before after, escapes (t.chars "'\\uD83D\\uDE00\\uD83D\\u\\x41'") = before ++ ['u'] :: after ∧
        (isWellFormedEscape ['u'] ∨ (['u'].head? = some 'u' ∧ Odd (before.rtakeWhile isHighEscape).length)) := by
  have ht : ⟨.string, "😀\uFFFD\uFFFDA", .start, ⟨26, 1, 26⟩, false⟩ ∈
      tokenize "'\\uD83D\\uDE00\\uD83D\\u\\x41'" := by decide
  have hescapes : escapes (Token.chars "'\\uD83D\\uDE00\\uD83D\\u\\x41'"
      ⟨.string, "😀\uFFFD\uFFFDA", .start, ⟨26, 1, 26⟩, false⟩) =
      [['u', 'D', '8', '3', 'D'], ['u', 'D', 'E', '0', '0'], ['u', 'D', '8', '3', 'D']] ++
        ['u'] :: [['x', '4', '1', '\x27']] := by decide
  exact ⟨_, ht, rfl, _, _, hescapes, escapes_of_string ht rfl hescapes⟩

/-- A string with an escape that has no digits. -/
theorem tokenize_lone_escape :
    ∃ t ∈ tokenize "'\\uD800\\u'", t.kind = .string ∧
      ∃ e ∈ escapes (t.chars "'\\uD800\\u'"), isWellFormedEscape e = false := by
  decide

end Stepwise

import Stepwise.Proofs.Decimal.Text
import Stepwise.Proofs.Token.Word

/-!
# Printed tokens

* `Lexeme`: a token as it is printed: a word, a decimal number, a string between double quotes or a punctuator.
* `Lexeme.spaced`: lexemes with a space between them.
* `Lexeme.tokenize_spaced`: such a text is cut into these lexemes, if a slash stands only where it divides.
-/

namespace Stepwise

/-- A token as it is printed. -/
inductive Lexeme where
  | word (s : String)
  | number (s : String)
  | string (s : String)
  | mark (p : Punctuator)

/-- Whether a text is a name or a keyword. -/
def isWordText (s : String) : Bool :=
  match s.toList with
  | [] => false
  | c :: cs => isIdentifierStart c && cs.all isIdentifierPart

namespace Lexeme

/-- How a character is written between double quotes. -/
def quotedChar (c : Char) : List Char :=
  if c = '"' then ['\\', '"']
  else if c = '\\' then ['\\', '\\']
  else if c = '\n' then ['\\', 'n']
  else [c]

/-- How a lexeme is written. -/
def chars : Lexeme → List Char
  | word s | number s => s.toList
  | string s => '"' :: (s.toList.flatMap quotedChar ++ ['"'])
  | mark p => p.chars

/-- The kind of the token that a lexeme is. -/
def kind : Lexeme → TokenKind
  | word s => .ofWord s
  | number _ => .number
  | string _ => .string
  | mark p => .punctuator p

/-- The text of the token that a lexeme is. -/
def text : Lexeme → String
  | word s | number s | string s => s
  | mark p => p.text

/-- A word is one, and a number is the decimal text of one. -/
def Legible : Lexeme → Prop
  | word s => isWordText s
  | number s => ∃ n : Nat, s = toString n
  | string _ | mark _ => True

/-- Whether a lexeme starts with a slash. -/
def isSlash : Lexeme → Bool
  | mark .divide | mark .divideAssign => true
  | _ => false

/-- Lexemes with a space between them. -/
def spaced : List Lexeme → List Char
  | [] => []
  | [l] => l.chars
  | l :: l' :: ls => l.chars ++ ' ' :: spaced (l' :: ls)

/-- All lexemes are legible, and a slash stands only behind an operand. -/
def Separable (slashDivides : Bool) : List Lexeme → Prop
  | [] => True
  | l :: ls => l.Legible ∧ (l.isSlash → slashDivides) ∧ Separable l.kind.endsOperand ls

/-- The token is what a lexeme is read as. -/
structure Reads (l : Lexeme) (t : Token) : Prop where
  kind : t.kind = l.kind
  text : t.text = l.text
  sameLine : t.newlineBefore = false

end Lexeme

/-! ### Characters -/

theorem ne_of_isIdentifierStart {c d : Char} (hc : isIdentifierStart c) (hd : isIdentifierStart d = false) : c ≠ d := by
  rintro rfl
  exact Bool.noConfusion (hc.symm.trans hd)

theorem not_isDigit_of_isIdentifierStart {c : Char} (hc : isIdentifierStart c) : ¬c.isDigit := by
  intro hd
  have h := Char.isDigit_iff_toNat.1 hd
  have h9 : '9'.toNat = 57 := rfl
  have h0 : '0'.toNat = 48 := rfl
  have hmem : c.toNat ∈ List.range' 48 10 := List.mem_range'_1.2 ⟨h.1, by omega⟩
  have hchar : ∀ n ∈ List.range' 48 10, isIdentifierStart (Char.ofNat n) = false := by decide
  have := hchar _ hmem
  rw [Char.ofNat_toNat] at this
  exact Bool.noConfusion (hc.symm.trans this)

/-- No white space outside the first 128 characters is a letter. -/
theorem not_isIdentifierStart_wide {c : Char} (hc : c = '\u00A0' ∨ c = '\uFEFF') : isIdentifierStart c = false := by
  -- the letters are searched as a list, which the kernel can evaluate
  have hletters (n : Nat) (hn : n = 0xA0 ∨ n = 0xFEFF) :
      (CodePoints.letters.ranges.toList.any fun range => range.1 ≤ n && n ≤ range.2) = false := by
    rcases hn with rfl | rfl
    · decide +kernel
    · decide +kernel
  have hwide : c.toNat = 0xA0 ∨ c.toNat = 0xFEFF := by
    rcases hc with rfl | rfl
    · exact .inl rfl
    · exact .inr rfl
  have hmark : (c == '_' || c == '$') = false := by
    rcases hc with rfl | rfl
    · rfl
    · rfl
  rw [isIdentifierStart, hmark, isLetter, if_neg (by omega), CodePoints.contains, ← Array.any_toList, hletters _ hwide]
  rfl

theorem Punctuator.not_isIdentifierStart_head (p : Punctuator) : p.chars.head?.all (! isIdentifierStart ·) := by
  cases p <;> rfl

theorem longestAt?_of_isIdentifierStart {c : Char} (hc : isIdentifierStart c) (rest : List Char) :
    Punctuator.longestAt? (c :: rest) = none := by
  rw [Punctuator.longestAt?, List.find?_eq_none]
  intro p _ hp
  obtain ⟨tail, htail⟩ := List.isPrefixOf_iff_prefix.1 hp
  obtain ⟨d, ds, hd⟩ := List.exists_cons_of_ne_nil p.chars_ne_nil
  have hhead := p.not_isIdentifierStart_head
  rw [hd, List.cons_append] at htail
  obtain ⟨rfl, -⟩ := List.cons.inj htail
  simp [hd, hc] at hhead

theorem skipWhile_append {p : Char → Bool} {cs rest : List Char} (pos : Position) (hcs : cs.all p)
    (hrest : ∀ c ∈ rest.head?, p c = false) : Cursor.skipWhile p pos (cs ++ rest) = ⟨rest, pos.afterAll cs⟩ := by
  induction cs generalizing pos with
  | nil =>
    cases rest with
    | nil => rfl
    | cons c rest =>
      rw [List.nil_append, Cursor.skipWhile, if_neg (by simp [hrest c rfl])]
      rfl
  | cons c cs ih =>
    rw [List.all_cons, Bool.and_eq_true] at hcs
    obtain ⟨hc, hcs⟩ := hcs
    rw [List.cons_append, Cursor.skipWhile, if_pos hc, ih _ hcs]
    rfl

namespace Lexeme

/-- Where a lexeme may end: before a space or at the end of the text. -/
def Ends (rest : List Char) : Prop := ∀ c ∈ rest.head?, c = ' '

variable {rest : List Char} {pos : Position}

theorem Ends.head (h : Ends rest) {p : Char → Bool} (hp : p ' ' = false) : ∀ c ∈ rest.head?, p c = false :=
  fun c hc => h c hc ▸ hp

theorem Ends.peek (h : Ends rest) {c : Char} (hc : ' ' ≠ c) : rest.head? ≠ some c := fun he => hc (h c he).symm

theorem Ends.any (h : Ends rest) {p : Char → Bool} (hp : p ' ' = false) : rest.head?.any p = false := by
  cases rest with
  | nil => rfl
  | cons c rest => exact (h c rfl) ▸ hp

theorem textUpTo_afterAll (cs rest : List Char) (pos : Position) :
    (⟨cs ++ rest, pos⟩ : Cursor).textUpTo ⟨rest, pos.afterAll cs⟩ = String.ofList cs :=
  Cursor.Reads.textUpTo ⟨rfl, pos.offset_afterAll cs, fun _ => rfl⟩

theorem readToken_word {s : String} (hs : isWordText s) (hrest : Ends rest) (slashDivides : Bool) :
    ∃ stop, readToken slashDivides ⟨s.toList ++ rest, pos⟩ = ((.ofWord s, s), ⟨rest, stop⟩) := by
  unfold isWordText at hs
  split at hs
  · cases hs
  · next c cs hcs =>
    obtain ⟨hc, hpart⟩ := Bool.and_eq_true_iff.1 hs
    have hall : (c :: cs).all isIdentifierPart := by simp [isIdentifierPart, hc] at hpart ⊢; exact hpart
    have hstop : (⟨c :: cs ++ rest, pos⟩ : Cursor).dropWhile isIdentifierPart = ⟨rest, pos.afterAll (c :: cs)⟩ :=
      skipWhile_append pos hall (hrest.head (by decide))
    have hne {d : Char} (hd : isIdentifierStart d = false) : c ≠ d := ne_of_isIdentifierStart hc hd
    refine ⟨pos.afterAll (c :: cs), ?_⟩
    rw [hcs]
    simp only [readToken, List.cons_append, not_isDigit_of_isIdentifierStart hc, longestAt?_of_isIdentifierStart hc,
      hc, hne (d := '.') (by decide), hne (d := '/') (by decide), hne (d := '"') (by decide),
      hne (d := '\x27') (by decide), hne (d := '\x60') (by decide), false_and, Bool.false_eq_true, or_self, if_true,
      if_false]
    rw [← List.cons_append, hstop, textUpTo_afterAll, ← hcs, String.ofList_toList]

/-! ### Numbers -/

theorem readNumber_digits (n : Nat) (pos : Position) (hrest : Ends rest) :
    readNumber ⟨Nat.toDigits 10 n ++ rest, pos⟩ = (none, ⟨rest, pos.afterAll (Nat.toDigits 10 n)⟩) := by
  have hdigits := AllDigits.toDigits n
  have hdecimal : readNumber.decimal ⟨Nat.toDigits 10 n ++ rest, pos⟩ =
      (none, ⟨rest, pos.afterAll (Nat.toDigits 10 n)⟩) := by
    have hstop : (⟨Nat.toDigits 10 n ++ rest, pos⟩ : Cursor).dropWhile Char.isDigit =
        ⟨rest, pos.afterAll (Nat.toDigits 10 n)⟩ :=
      skipWhile_append pos (List.all_eq_true.2 hdigits) (hrest.head (by decide))
    unfold readNumber.decimal
    dsimp only
    rw [hstop]
    simp [Cursor.peek?, hrest.peek, readNumber.ending, hrest.any (p := isIdentifierStart) (by decide)]
  unfold readNumber
  split
  · next d ds heq =>
    have hzero : n = 0 := by
      by_contra hn
      have := toDigits_head (Nat.pos_of_ne_zero hn)
      cases hd : Nat.toDigits 10 n with
      | nil => exact absurd hd Nat.toDigits_ne_nil
      | cons c cs => simp_all
    subst hzero
    obtain ⟨-, heq⟩ := List.cons.inj (show '0' :: rest = '0' :: d :: ds from heq)
    have hd : d = ' ' := hrest d (by rw [heq]; rfl)
    subst hd
    exact hdecimal
  · exact hdecimal

theorem readToken_number (n : Nat) (hrest : Ends rest) (slashDivides : Bool) :
    ∃ stop, readToken slashDivides ⟨(toString n).toList ++ rest, pos⟩ = ((.number, toString n), ⟨rest, stop⟩) := by
  have htext : toString n = String.ofList (Nat.toDigits 10 n) := rfl
  have hread := readNumber_digits n pos hrest
  refine ⟨pos.afterAll (Nat.toDigits 10 n), ?_⟩
  rw [htext, String.toList_ofList]
  cases hd : Nat.toDigits 10 n with
  | nil => exact absurd hd Nat.toDigits_ne_nil
  | cons c cs =>
    have hc : c.isDigit := AllDigits.toDigits n c (by simp [hd])
    rw [hd] at hread
    simp only [readToken, List.cons_append, hc, true_or, if_true]
    rw [← List.cons_append, hread]
    dsimp only
    rw [textUpTo_afterAll]

/-! ### Strings -/

theorem readString_quoted (cs acc rest : List Char) (pos : Position) {turns : Nat} (hturns : cs.length < turns) :
    ∃ stop, readString '"' acc turns ⟨cs.flatMap quotedChar ++ ('"' :: rest), pos⟩ =
      (.ok (String.ofList (acc.reverse ++ cs)), ⟨rest, stop⟩) := by
  induction cs generalizing acc turns pos with
  | nil =>
    cases turns with
    | zero => cases hturns
    | succ turns => exact ⟨_, by simp [readString]; rfl⟩
  | cons c cs ih =>
    cases turns with
    | zero => cases hturns
    | succ turns =>
      have hlt : cs.length < turns := Nat.lt_of_succ_lt_succ hturns
      rw [show acc.reverse ++ c :: cs = (c :: acc).reverse ++ cs by simp, List.flatMap_cons, List.append_assoc]
      unfold quotedChar
      split
      · next hc =>
        subst hc
        exact ih ('"' :: acc) _ hlt
      · split
        · next hc =>
          subst hc
          exact ih ('\\' :: acc) _ hlt
        · split
          · next hc =>
            subst hc
            exact ih ('\n' :: acc) _ hlt
          · next hquote hslash hbreak =>
            simp only [List.cons_append, List.nil_append, readString, hquote, hslash, hbreak, if_false]
            exact ih (c :: acc) _ hlt

theorem length_le_flatMap_quotedChar (cs : List Char) : cs.length ≤ (cs.flatMap quotedChar).length := by
  induction cs with
  | nil => exact Nat.le_refl _
  | cons c cs ih =>
    have hc : 1 ≤ (quotedChar c).length := by
      unfold quotedChar
      split
      · decide
      · split
        · decide
        · split
          · decide
          · exact Nat.le_refl _
    rw [List.flatMap_cons, List.length_append, List.length_cons]
    omega

theorem readToken_string (s : String) (slashDivides : Bool) :
    ∃ stop, readToken slashDivides ⟨(string s).chars ++ rest, pos⟩ = ((.string, s), ⟨rest, stop⟩) := by
  have hlength := length_le_flatMap_quotedChar s.toList
  have hturns : s.toList.length < (s.toList.flatMap quotedChar ++ ('"' :: rest)).length + 1 := by
    rw [List.length_append]
    omega
  obtain ⟨stop, hstop⟩ := readString_quoted s.toList [] rest (pos.after '"') hturns
  refine ⟨stop, ?_⟩
  have hshape : (string s).chars ++ rest = '"' :: (s.toList.flatMap quotedChar ++ ('"' :: rest)) := by simp [chars]
  rw [hshape]
  generalize s.toList.flatMap quotedChar ++ ('"' :: rest) = tail at hstop
  simp [readToken, Cursor.advance, hstop]

/-! ### Punctuators -/

theorem readToken_mark (p : Punctuator) (hrest : Ends rest) {slashDivides : Bool}
    (hslash : (mark p).isSlash → slashDivides) :
    readToken slashDivides ⟨p.chars ++ rest, pos⟩ = ((.punctuator p, p.text), ⟨rest, pos.afterAll p.chars⟩) := by
  have hspace : rest = [] ∨ ∃ more, rest = ' ' :: more := by
    cases rest with
    | nil => exact .inl rfl
    | cons c more => exact .inr ⟨more, by rw [hrest c rfl]⟩
  rcases hspace with rfl | ⟨more, rfl⟩
  · cases p with
    | divide | divideAssign => rw [hslash rfl]; rfl
    | _ => rfl
  · cases p with
    | divide | divideAssign => rw [hslash rfl]; rfl
    | _ => rfl

/-! ### Texts -/

variable {l : Lexeme} {slashDivides : Bool}

theorem readToken_lexeme (pos : Position) (hl : l.Legible) (hrest : Ends rest) (hslash : l.isSlash → slashDivides) :
    ∃ stop, readToken slashDivides ⟨l.chars ++ rest, pos⟩ = ((l.kind, l.text), ⟨rest, stop⟩) := by
  cases l with
  | word s => exact readToken_word hl hrest slashDivides
  | number s =>
    obtain ⟨n, rfl⟩ := hl
    exact readToken_number n hrest slashDivides
  | string s => exact readToken_string s slashDivides
  | mark p => exact ⟨_, readToken_mark p hrest hslash⟩

theorem skipGap_stop {c : Char} (hbreak : c ≠ '\n') (hseparator : isSeparator c = false) (hslash : c ≠ '/')
    (newline : Bool) (cs : List Char) : skipGap .blank newline pos (c :: cs) = (⟨c :: cs, pos⟩, newline) := by
  cases cs <;> simp [skipGap, hbreak, hseparator, hslash]

/-- No lexeme starts with white space or a comment. -/
theorem skipGap_lexeme (hl : l.Legible) (hrest : Ends rest) (newline : Bool) :
    skipGap .blank newline pos (l.chars ++ rest) = (⟨l.chars ++ rest, pos⟩, newline) := by
  cases l with
  | word s =>
    have hs : isWordText s := hl
    unfold isWordText at hs
    split at hs
    · cases hs
    · next c cs hcs =>
      have hne {d : Char} (hd : isIdentifierStart d = false) : c ≠ d :=
        ne_of_isIdentifierStart (Bool.and_eq_true_iff.1 hs).1 hd
      have hseparator : isSeparator c = false := by
        simp [isSeparator, hne (d := ' ') (by decide), hne (d := '\t') (by decide), hne (d := '\r') (by decide),
          hne (d := '\x0b') (by decide), hne (d := '\x0c') (by decide), hne (not_isIdentifierStart_wide (.inl rfl)),
          hne (not_isIdentifierStart_wide (.inr rfl))]
      rw [chars, hcs]
      exact skipGap_stop (hne (by decide)) hseparator (hne (by decide)) ..
  | number s =>
    obtain ⟨n, rfl⟩ := hl
    have htext : (number (toString n)).chars = Nat.toDigits 10 n := String.toList_ofList
    rw [htext]
    cases hd : Nat.toDigits 10 n with
    | nil => exact absurd hd Nat.toDigits_ne_nil
    | cons c cs =>
      have hc : c.isDigit := AllDigits.toDigits n c (by simp [hd])
      have hseparator : isSeparator c = false := by
        simp [isSeparator, ne_of_isDigit hc (d := ' ') rfl, ne_of_isDigit hc (d := '\t') rfl,
          ne_of_isDigit hc (d := '\r') rfl, ne_of_isDigit hc (d := '\x0b') rfl, ne_of_isDigit hc (d := '\x0c') rfl,
          ne_of_isDigit hc (d := '\u00A0') rfl, ne_of_isDigit hc (d := '\uFEFF') rfl]
      exact skipGap_stop (ne_of_isDigit hc rfl) hseparator (ne_of_isDigit hc rfl) ..
  | string s => exact skipGap_stop (by decide) (by decide) (by decide) ..
  | mark p =>
    cases rest with
    | nil => cases p <;> rfl
    | cons c more =>
      obtain rfl : c = ' ' := hrest c rfl
      cases p <;> rfl

theorem chars_ne_nil (hl : l.Legible) : l.chars ≠ [] := by
  cases l with
  | word s =>
    rintro hs
    have hl : isWordText s := hl
    simp only [chars] at hs
    simp [isWordText, hs] at hl
  | number s =>
    obtain ⟨n, rfl⟩ := hl
    exact fun h => Nat.toDigits_ne_nil (String.toList_ofList.symm.trans h)
  | string s => exact List.cons_ne_nil _ _
  | mark p => exact p.chars_ne_nil

theorem kind_ne_eof (l : Lexeme) : l.kind ≠ .eof := by
  cases l with
  | word s =>
    intro he
    have hv := Cursor.ofWord_isVerbatim s
    rw [show TokenKind.ofWord s = .eof from he] at hv
    cases hv
  | number | string | mark => exact fun h => TokenKind.noConfusion h

/-- A lexeme at the front of the text, or behind a space, is the first token. -/
theorem tokensFrom_lexeme (pos : Position) (hl : l.Legible) (hrest : Ends rest) (hslash : l.isSlash → slashDivides)
    (isFirst : Bool) (turns : Nat) {text : List Char} (htext : text = l.chars ++ rest ∨ text = ' ' :: (l.chars ++ rest)) :
    ∃ t stop, tokensFrom isFirst slashDivides (turns + 1) ⟨text, pos⟩ =
      t :: tokensFrom false l.kind.endsOperand turns ⟨rest, stop⟩ ∧ l.Reads t := by
  have hgap : ∃ start, skipGap .blank false pos text = (⟨l.chars ++ rest, start⟩, false) := by
    rcases htext with rfl | rfl
    · exact ⟨pos, skipGap_lexeme hl hrest false⟩
    · refine ⟨pos.after ' ', ?_⟩
      rw [← skipGap_lexeme hl hrest false]
      obtain ⟨c, cs, hcs⟩ := List.exists_cons_of_ne_nil (chars_ne_nil hl)
      rw [hcs]
      rfl
  obtain ⟨start, hstart⟩ := hgap
  obtain ⟨stop, hstop⟩ := readToken_lexeme start hl hrest hslash
  refine ⟨⟨l.kind, l.text, start, stop, false && !isFirst⟩, stop, ?_, rfl, rfl, rfl⟩
  rw [tokensFrom]
  simp only [hstart, hstop, if_neg l.kind_ne_eof]

/-- What follows a lexeme: nothing, or a space and the next ones. -/
def trail : List Lexeme → List Char
  | [] => []
  | l :: ls => ' ' :: (l.chars ++ trail ls)

theorem spaced_cons (l : Lexeme) (ls : List Lexeme) : spaced (l :: ls) = l.chars ++ trail ls := by
  induction ls generalizing l with
  | nil => simp [spaced, trail]
  | cons l' ls ih => rw [spaced, ih, trail]

theorem ends_trail (ls : List Lexeme) : Ends (trail ls) := by
  cases ls with
  | nil => simp [trail, Ends]
  | cons l ls => simp [trail, Ends]

variable {ls : List Lexeme}

theorem tokensFrom_trail (pos : Position) (hls : Separable slashDivides ls) {turns : Nat}
    (hturns : (trail ls).length < turns) :
    ∃ (ts : List Token) (last : Token), tokensFrom false slashDivides turns ⟨trail ls, pos⟩ = ts ++ [last] ∧
      List.Forall₂ Reads ls ts ∧
      last.kind = .eof := by
  induction ls generalizing slashDivides turns pos with
  | nil =>
    cases turns with
    | zero => cases hturns
    | succ turns => exact ⟨[], _, rfl, .nil, rfl⟩
  | cons l ls ih =>
    cases turns with
    | zero => cases hturns
    | succ turns =>
      obtain ⟨hl, hslash, hls⟩ := hls
      obtain ⟨t, stop, ht, hread⟩ := tokensFrom_lexeme pos hl (ends_trail ls) hslash false turns (.inr rfl)
      have hlength : (trail ls).length < turns := by
        simp only [trail, List.length_cons, List.length_append] at hturns
        omega
      obtain ⟨ts, last, hts, hreads, hlast⟩ := ih stop hls hlength
      refine ⟨t :: ts, last, ?_, .cons hread hreads, hlast⟩
      rw [trail, ht, hts, List.cons_append]

/-- Lexemes with a space between them are the tokens of their text. -/
theorem tokenize_spaced (hls : Separable false ls) :
    ∃ (ts : List Token) (last : Token), tokenize (String.ofList (spaced ls)) = ts ++ [last] ∧
      List.Forall₂ Reads ls ts ∧ last.kind = .eof := by
  unfold tokenize Cursor.ofString
  rw [String.toList_ofList]
  cases ls with
  | nil => exact ⟨[], _, rfl, .nil, rfl⟩
  | cons l ls =>
    obtain ⟨hl, hslash, hls⟩ := hls
    rw [spaced_cons]
    dsimp only
    obtain ⟨t, stop, ht, hread⟩ := tokensFrom_lexeme .start hl (ends_trail ls) hslash true
      (l.chars ++ trail ls).length (.inl rfl)
    have hlength : (trail ls).length < (l.chars ++ trail ls).length := by
      have := List.length_pos_of_ne_nil (chars_ne_nil hl)
      rw [List.length_append]
      omega
    obtain ⟨ts, last, hts, hreads, hlast⟩ := tokensFrom_trail stop hls hlength
    refine ⟨t :: ts, last, ?_, .cons hread hreads, hlast⟩
    rw [ht, hts, List.cons_append]

end Lexeme

end Stepwise

import Stepwise.Proofs.Token.Cursor

/-!
# Words

What the scanner of strings takes for a string, and what the scanner of tokens takes for a word:

* `isEscapeOpen`: whether the character behind a text is escaped.
* `IsEscape`, `IsStringBody`: what is an escape, and the inside of a string.
* `stringRead`: the scanner of strings reads such an inside up to the closing quote, or stops at what is none.
* `TokenKind.overrun`: how often the scanner of a token reads past the end of the source.
* `Cursor.Finds`: the scanner goes over the characters of a word and then past the end, and the text of a token that is
  no string and not illegal is this word.
* `Cursor.exists_finds_readToken`: it finds a word that is not empty.
-/

namespace Stepwise

/-! ### Backslashes -/

/-- Whether the character behind a text is escaped: the last backslash of the text is its last character, and is not
escaped itself. -/
def isEscapeOpen : List Char → Bool
  | [] => false
  | ['\\'] => true
  | '\\' :: _ :: cs => isEscapeOpen cs
  | _ :: cs => isEscapeOpen cs

@[simp] theorem isEscapeOpen_escaped (c : Char) (cs : List Char) : isEscapeOpen ('\\' :: c :: cs) = isEscapeOpen cs := rfl

theorem isEscapeOpen_cons {c : Char} (hc : c ≠ '\\') (cs : List Char) : isEscapeOpen (c :: cs) = isEscapeOpen cs := by
  rw [isEscapeOpen]
  · exact fun h => absurd h hc
  · exact fun _ _ h => absurd h hc

theorem isEscapeOpen_append {ds : List Char} (hds : ∀ d ∈ ds, d ≠ '\\') (cs : List Char) :
    isEscapeOpen (ds ++ cs) = isEscapeOpen cs := by
  induction ds with
  | nil => rfl
  | cons d ds ih =>
    obtain ⟨hd, hds⟩ := List.forall_mem_cons.1 hds
    rw [List.cons_append, isEscapeOpen_cons hd, ih hds]

/-! ### Digits -/

/-- The number that hexadecimal digits stand for behind those of `value`. -/
def hexFrom (value : Nat) (ds : List Char) : Nat := (ds.filterMap (digitBelow? 16)).foldl (fun n d => n * 16 + d) value

theorem hexFrom_cons {d : Char} {digit : Nat} (h : digitBelow? 16 d = some digit) (value : Nat) (ds : List Char) :
    hexFrom value (d :: ds) = hexFrom (value * 16 + digit) ds := by
  unfold hexFrom
  rw [List.filterMap_cons_some h, List.foldl_cons]

/-- Four hexadecimal digits and the unit that they stand for. -/
structure SpellsUnit (ds : List Char) (unit : Nat) : Prop where
  length : ds.length = 4
  digits : ∀ d ∈ ds, isHexDigit d
  value : digitsValue 16 ds = unit

theorem ne_of_isHexDigit {c d : Char} (hc : isHexDigit c) (hd : isHexDigit d = false) : c ≠ d := by
  rintro rfl
  exact Bool.noConfusion (hc.symm.trans hd)

theorem digits_ne_backslash {ds : List Char} (hds : ∀ d ∈ ds, isHexDigit d) : ∀ d ∈ ds, d ≠ '\\' :=
  fun d hd => ne_of_isHexDigit (hds d hd) (by decide)

/-- The digits that are there are read, up to `n` of them. -/
theorem exists_readHex (n value : Nat) (c : Cursor) :
    ∃ ds, c.Walks ds (readHex n value c).2 ∧ (∀ d ∈ ds, isHexDigit d) ∧
      ((ds.length = n ∧ (readHex n value c).1 = some (hexFrom value ds)) ∨
        (ds.length < n ∧ (readHex n value c).1 = none)) := by
  induction n generalizing value c with
  | zero => exact ⟨[], .refl c, List.forall_mem_nil _, .inl ⟨rfl, rfl⟩⟩
  | succ n ih =>
    unfold readHex
    split
    · next digit hdigit =>
      obtain ⟨ch, hch, hvalue⟩ := Option.bind_eq_some_iff.1 hdigit
      obtain ⟨rest, hrest⟩ := List.head?_eq_some_iff.1 hch
      obtain ⟨ds, hwalks, hds, hlength⟩ := ih (value * 16 + digit) c.advance
      refine ⟨ch :: ds, (Cursor.walks_advance hrest).trans hwalks, ?_, ?_⟩
      · exact List.forall_mem_cons.2 ⟨Option.isSome_iff_exists.2 ⟨digit, hvalue⟩, hds⟩
      · rw [hexFrom_cons hvalue, List.length_cons]
        exact hlength.imp (fun h => ⟨congrArg (· + 1) h.1, h.2⟩) (fun h => ⟨Nat.succ_lt_succ h.1, h.2⟩)
    · exact ⟨[], .refl c, List.forall_mem_nil _, .inr ⟨Nat.succ_pos n, rfl⟩⟩

/-! ### Escapes -/

/-- What the scanner takes for an escape, without its backslash, in front of `rest`. -/
inductive IsEscape (rest : List Char) : List Char → Prop where
  /-- A character that stands for itself or for a control character, or a line break, which stands for nothing. -/
  | mark {c : Char} (hx : c ≠ 'x') (hu : c ≠ 'u') (hd : c.isDigit → c = '0' ∧ rest.head?.any Char.isDigit = false) :
    IsEscape rest [c]
  | lineBreak : IsEscape rest ['\r', '\n']
  | hex {a b : Char} (ha : isHexDigit a) (hb : isHexDigit b) : IsEscape rest ['x', a, b]
  /-- A unit on its own. Behind the first half of a pair there is no other one. -/
  | unit {ds : List Char} {n : Nat} (hds : SpellsUnit ds n)
    (hrest : isHighSurrogate n → rest.take 2 ≠ ['\\', 'u']) : IsEscape rest ('u' :: ds)
  /-- Behind the first half of a pair, any other unit. -/
  | pair {ds es : List Char} {high low : Nat} (hds : SpellsUnit ds high) (hhigh : isHighSurrogate high)
    (hes : SpellsUnit es low) : IsEscape rest ('u' :: (ds ++ '\\' :: 'u' :: es))
  /-- Behind the first half of a pair, digits may be missing. -/
  | broken {ds es : List Char} {high : Nat} (hds : SpellsUnit ds high) (hhigh : isHighSurrogate high)
    (hes : ∀ e ∈ es, isHexDigit e) (hlength : es.length < 4) : IsEscape rest ('u' :: (ds ++ '\\' :: 'u' :: es))

/-- What the scanner reads of an escape behind its backslash before it finds an error, and how often it reads past the
end. -/
inductive EscapeBreaks : LexError → List Char → Nat → Prop where
  | octal : EscapeBreaks .octalEscape [] 0
  | hex (c : Char) : EscapeBreaks .malformedHexEscape ['x', c] 0
  | hexEnd : EscapeBreaks .malformedHexEscape ['x'] 1
  | codePoint : EscapeBreaks .codePointEscape ['u'] 0
  | unicode (ds : List Char) : EscapeBreaks .malformedUnicodeEscape ('u' :: ds) 0

/-- What the scanner of escapes does behind a backslash. -/
inductive EscapeRead (c : Cursor) : Except LexError (List Char) × Cursor → Prop where
  | nothing {cs : List Char} {d : Cursor} (h : c.Overruns [] 1 d) : EscapeRead c (.ok cs, d)
  | escape {cs w : List Char} {d : Cursor} (hw : IsEscape d.rest w) (h : c.Walks w d) : EscapeRead c (.ok cs, d)
  | breaks {e : LexError} {w : List Char} {n : Nat} {d : Cursor} (hw : EscapeBreaks e w n) (h : c.Overruns w n d) :
    EscapeRead c (.error e, d)

section

variable {c d : Cursor} {ch : Char} {rest : List Char}

theorem escapeRead_unicode (hc : c.rest = 'u' :: rest) : EscapeRead c (readUnicodeEscape c.advance) := by
  have hu : c.Walks ['u'] c.advance := Cursor.walks_advance hc
  unfold readUnicodeEscape
  split
  · exact .breaks .codePoint hu.overruns
  · obtain ⟨ds, hwalks, hds, hread⟩ := exists_readHex 4 0 c.advance
    generalize readHex 4 0 c.advance = found at hwalks hread
    obtain ⟨value, after⟩ := found
    have hunit : c.Walks ('u' :: ds) after := hu.trans hwalks
    rcases hread with ⟨hlength, rfl⟩ | ⟨-, rfl⟩
    · have hspells : SpellsUnit ds (hexFrom 0 ds) := ⟨hlength, hds, rfl⟩
      dsimp only
      split
      · next hhigh =>
        obtain ⟨hhigh, hnext⟩ := hhigh
        -- the second escape is read whether or not it completes the pair
        have hmark : after.rest = ['\\', 'u'] ++ after.rest.drop 2 := by rw [← hnext, List.take_append_drop]
        obtain ⟨es, hwalks', hes, hread'⟩ := exists_readHex 4 0 (after.advanceBy 2)
        generalize readHex 4 0 (after.advanceBy 2) = found at hwalks' hread'
        obtain ⟨value', last⟩ := found
        have hpair : c.Walks ('u' :: (ds ++ '\\' :: 'u' :: es)) last :=
          hunit.trans ((after.walks_advanceBy hmark).trans hwalks')
        rcases hread' with ⟨hlength', rfl⟩ | ⟨hlength', rfl⟩
        · dsimp only
          split
          · exact .escape (.pair hspells hhigh ⟨hlength', hes, rfl⟩) hpair
          · exact .escape (.pair hspells hhigh ⟨hlength', hes, rfl⟩) hpair
        · exact .escape (.broken hspells hhigh hes hlength') hpair
      · next hhigh => exact .escape (.unit hspells fun h hnext => hhigh ⟨h, hnext⟩) hunit
    · exact .breaks (.unicode ds) hunit.overruns

/-- An escape of one character that is no digit. -/
theorem escapeRead_mark (hc : c.rest = ch :: rest) (hx : ch ≠ 'x') (hu : ch ≠ 'u') (hd : ch.isDigit = false)
    (cs : List Char) : EscapeRead c (.ok cs, c.advance) :=
  .escape (.mark hx hu fun h => absurd h (by simp [hd])) (Cursor.walks_advance hc)

theorem escapeRead (c : Cursor) : EscapeRead c (readEscape c) := by
  unfold readEscape
  split
  case h_7 _ rest hc =>
    have hx : c.Walks ['x'] c.advance := Cursor.walks_advance hc
    dsimp only
    split
    · next a b ha hb =>
      obtain ⟨first, hfirst, ha⟩ := Option.bind_eq_some_iff.1 ha
      obtain ⟨second, hsecond, hb⟩ := Option.bind_eq_some_iff.1 hb
      obtain ⟨tail, htail⟩ := List.head?_eq_some_iff.1 hfirst
      obtain ⟨last, hlast⟩ := List.head?_eq_some_iff.1 hsecond
      refine .escape (.hex ?_ ?_) (hx.trans ((Cursor.walks_advance htail).trans (Cursor.walks_advance hlast)))
      · exact Option.isSome_iff_exists.2 ⟨a, ha⟩
      · exact Option.isSome_iff_exists.2 ⟨b, hb⟩
    · cases htail : c.advance.rest with
      | nil => exact .breaks .hexEnd (hx.trans_overruns (Cursor.overruns_advance htail))
      | cons a tail => exact .breaks (.hex a) (hx.trans (Cursor.walks_advance htail)).overruns
  case h_8 _ rest hc => exact escapeRead_unicode hc
  case h_9 _ rest hc => exact .escape .lineBreak (c.walks_advanceBy (show c.rest = ['\r', '\n'] ++ rest from hc))
  case h_12 _ rest hc =>
    split
    · exact .breaks .octal (Cursor.Walks.refl c).overruns
    · next hd =>
      have hzero : c.Walks ['0'] c.advance := Cursor.walks_advance hc
      have hrest : c.advance.rest = rest := (List.cons.inj (hzero.rest.symm.trans hc)).2
      exact .escape (.mark (by decide) (by decide) fun _ => ⟨rfl, by rw [hrest]; simpa using hd⟩) hzero
  case h_13 _ ch rest _ _ _ _ _ _ hx hu _ _ _ _ hc =>
    split
    · exact .breaks .octal (Cursor.Walks.refl c).overruns
    · next hd => exact escapeRead_mark hc hx hu (by simpa using hd) _
  case h_14 _ hc => exact .nothing (Cursor.overruns_advance hc)
  all_goals
    rename_i hc
    exact escapeRead_mark hc (by decide) (by decide) (by decide) _

end

theorem IsEscape.isEscapeOpen {rest w : List Char} (h : IsEscape rest w) (cs : List Char) :
    isEscapeOpen ('\\' :: (w ++ cs)) = isEscapeOpen cs := by
  cases h with
  | mark => rfl
  | lineBreak => exact isEscapeOpen_cons (by decide) cs
  | @hex a b ha hb =>
    have hds : ∀ d ∈ [a, b], isHexDigit d := by simp [ha, hb]
    rw [List.cons_append, isEscapeOpen_escaped]
    exact isEscapeOpen_append (digits_ne_backslash hds) cs
  | unit hds =>
    rw [List.cons_append, isEscapeOpen_escaped]
    exact isEscapeOpen_append (digits_ne_backslash hds.digits) cs
  | pair hds _ hes =>
    rw [List.cons_append, List.append_assoc, isEscapeOpen_escaped, isEscapeOpen_append (digits_ne_backslash hds.digits)]
    rw [List.cons_append, List.cons_append, isEscapeOpen_escaped]
    exact isEscapeOpen_append (digits_ne_backslash hes.digits) cs
  | broken hds _ hes =>
    rw [List.cons_append, List.append_assoc, isEscapeOpen_escaped, isEscapeOpen_append (digits_ne_backslash hds.digits)]
    rw [List.cons_append, List.cons_append, isEscapeOpen_escaped]
    exact isEscapeOpen_append (digits_ne_backslash hes) cs

/-! ### Strings -/

/-- What the scanner takes for the inside of a string, in front of `rest`. -/
inductive IsStringBody (quote : Char) (rest : List Char) : List Char → Prop where
  | nil : IsStringBody quote rest []
  | plain {c : Char} {cs : List Char} (hquote : c ≠ quote) (hbreak : c ≠ '\n') (hslash : c ≠ '\\')
    (h : IsStringBody quote rest cs) : IsStringBody quote rest (c :: cs)
  | escape {w cs : List Char} (hw : IsEscape (cs ++ rest) w) (h : IsStringBody quote rest cs) :
    IsStringBody quote rest ('\\' :: (w ++ cs))

theorem IsStringBody.isEscapeOpen {quote : Char} {rest body : List Char} (h : IsStringBody quote rest body)
    (cs : List Char) : isEscapeOpen (body ++ cs) = isEscapeOpen cs := by
  induction h with
  | nil => rfl
  | plain _ _ hslash _ ih => rw [List.cons_append, isEscapeOpen_cons hslash, ih]
  | escape hw _ ih => rw [List.cons_append, List.append_assoc, hw.isEscapeOpen, ih]

/-- What the scanner of strings does behind an opening quote. -/
inductive StringRead (quote : Char) (c : Cursor) : Except LexError String × Cursor → Prop where
  | closed {body : List Char} {s : String} {d : Cursor} (hbody : IsStringBody quote (quote :: d.rest) body)
    (h : c.Walks (body ++ [quote]) d) : StringRead quote c (.ok s, d)
  | unclosed {body : List Char} {d : Cursor} (hbody : IsStringBody quote d.rest body) (h : c.Walks body d) :
    StringRead quote c (.error .unterminatedString, d)
  | openEscape {body : List Char} {d : Cursor} (hbody : IsStringBody quote ['\\'] body)
    (h : c.Overruns (body ++ ['\\']) 1 d) : StringRead quote c (.error .unterminatedString, d)
  | breaks {body w : List Char} {e : LexError} {n : Nat} {d : Cursor}
    (hbody : IsStringBody quote ('\\' :: (w ++ d.rest)) body) (hw : EscapeBreaks e w n)
    (h : c.Overruns (body ++ '\\' :: w) n d) : StringRead quote c (.error e, d)

section

variable {quote : Char} {c d : Cursor} {piece : List Char} {found : Except LexError String × Cursor}

/-- What is read behind a character or an escape is read with it. -/
theorem StringRead.cons (h : StringRead quote d found) (hpiece : c.Walks piece d)
    (hbody : ∀ body rest, d.rest = body ++ rest → IsStringBody quote rest body → IsStringBody quote rest (piece ++ body)) :
    StringRead quote c found := by
  cases h with
  | closed hb hw =>
    refine .closed (hbody _ _ ?_ hb) ?_
    · rw [hw.rest, List.append_assoc]
      rfl
    · rw [List.append_assoc]
      exact hpiece.trans hw
  | unclosed hb hw => exact .unclosed (hbody _ _ hw.rest hb) (hpiece.trans hw)
  | openEscape hb hw =>
    refine .openEscape (hbody _ _ ?_ hb) ?_
    · rw [hw.rest, hw.ends Nat.one_ne_zero, List.append_nil]
    · rw [List.append_assoc]
      exact hpiece.trans_overruns hw
  | breaks hb he hw =>
    refine .breaks (hbody _ _ ?_ hb) he ?_
    · rw [hw.rest, List.append_assoc]
      rfl
    · rw [List.append_assoc]
      exact hpiece.trans_overruns hw

/-- A string is not closed where nothing is left. -/
theorem readString_of_rest (hd : d.rest = []) (acc : List Char) (turns : Nat) :
    readString quote acc turns d = (.error .unterminatedString, d) := by
  cases turns with
  | zero => rfl
  | succ turns => rw [readString, hd]

theorem stringRead (quote : Char) (acc : List Char) (turns : Nat) (c : Cursor) :
    StringRead quote c (readString quote acc turns c) := by
  have hstop (c : Cursor) : StringRead quote c (.error .unterminatedString, c) := .unclosed .nil (.refl c)
  induction turns generalizing acc c with
  | zero => exact hstop c
  | succ turns ih =>
    unfold readString
    split
    · exact hstop c
    · next ch rest hc =>
      have hch : c.Walks [ch] c.advance := Cursor.walks_advance hc
      split
      · next hquote =>
        subst hquote
        exact .closed .nil hch
      · next hquote =>
        split
        · exact hstop c
        · next hbreak =>
          split
          · next hslash =>
            subst hslash
            have hread := escapeRead c.advance
            generalize readEscape c.advance = found at hread
            cases hread with
            | nothing hend =>
              dsimp only
              rw [readString_of_rest (hend.ends Nat.one_ne_zero)]
              exact .openEscape .nil (hch.trans_overruns hend)
            | escape hw hwalks =>
              refine (ih _ _).cons (hch.trans hwalks) fun body rest hd hb => ?_
              rw [hd] at hw
              exact .escape hw hb
            | breaks hw hend => exact .breaks .nil hw (hch.trans_overruns hend)
          · next hslash => exact (ih _ _).cons hch fun body rest _ hb => .plain hquote hbreak hslash hb

end

/-! ### Words -/

/-- How often the scanner of a token reads past the end behind a word. It does so once where a string or a template that
is not closed ends with a backslash that escapes nothing, and where a string ends with the mark of a hexadecimal
escape. -/
def TokenKind.overrun (kind : TokenKind) (word : List Char) : Nat :=
  match kind with
  | .illegal .unterminatedString | .illegal .unterminatedTemplate => if isEscapeOpen word then 1 else 0
  | .illegal .malformedHexEscape => if ['\\', 'x'].isSuffixOf word then 1 else 0
  | _ => 0

/-- Only an illegal token may go past the end. -/
theorem TokenKind.overrun_eq_zero {kind : TokenKind} (h : ∀ e, kind ≠ .illegal e) (word : List Char) :
    kind.overrun word = 0 := by
  cases kind with
  | illegal e => exact absurd rfl (h e)
  | _ => rfl

namespace Cursor

variable {c d : Cursor} {ch : Char} {rest : List Char}

/-- A template that is not closed goes on to the end. -/
theorem overruns_of_readTemplate {depth : Nat} {pos : Position} {cs : List Char}
    (h : readTemplate depth pos cs = (false, d)) :
    (⟨cs, pos⟩ : Cursor).Overruns cs (if isEscapeOpen cs then 1 else 0) d := by
  have hplain {pos : Position} {ch : Char} {rest : List Char} (hnil : ch = '\\' → rest = [] → False)
      (hcons : ∀ (c : Char) (tail : List Char), ch = '\\' → rest = c :: tail → False)
      (ih : (⟨rest, pos.after ch⟩ : Cursor).Overruns rest (if isEscapeOpen rest then 1 else 0) d) :
      (⟨ch :: rest, pos⟩ : Cursor).Overruns (ch :: rest) (if isEscapeOpen (ch :: rest) then 1 else 0) d := by
    have hslash : ch ≠ '\\' := by
      intro he
      cases rest with
      | nil => exact hnil he rfl
      | cons c tail => exact hcons c tail he rfl
    rw [isEscapeOpen_cons hslash]
    exact (walks_advance (c := ⟨ch :: rest, pos⟩) rfl).trans_overruns ih
  fun_induction readTemplate depth pos cs with
  | case1 =>
    cases h
    exact (Walks.refl _).overruns
  | case2 depth pos =>
    cases h
    exact ⟨rfl, rfl, fun _ => rfl⟩
  | case3 depth pos ch rest ih =>
    have hescape : (⟨'\\' :: ch :: rest, pos⟩ : Cursor).Walks ['\\', ch] ⟨rest, _⟩ := walks_advanceBy _ rfl
    exact hescape.trans_overruns (ih h)
  | case4 depth pos rest ih =>
    have hmark : (⟨'$' :: '\x7b' :: rest, pos⟩ : Cursor).Walks ['$', '\x7b'] ⟨rest, _⟩ := walks_advanceBy _ rfl
    exact hmark.trans_overruns (ih h)
  | case5 depth pos ch rest hnil hcons _ _ ih => exact hplain hnil hcons (ih h)
  | case6 depth pos ch rest => cases h
  | case7 depth pos ch rest hnil hcons _ _ _ ih => exact hplain hnil hcons (ih h)

/-- A string that is not closed goes on to the end or to an escape that is none. -/
theorem exists_overruns_of_stringRead {quote : Char} {e : LexError} (hquote : quote ≠ '\\')
    (h : StringRead quote c (.error e, d)) :
    ∃ cs, c.Overruns cs ((TokenKind.illegal e).overrun (quote :: cs)) d := by
  cases h with
  | @unclosed body _ hbody hw =>
    have hopen : isEscapeOpen (quote :: body) = false := by
      rw [isEscapeOpen_cons hquote, ← body.append_nil, hbody.isEscapeOpen]
      rfl
    refine ⟨body, ?_⟩
    rw [TokenKind.overrun, hopen]
    exact hw.overruns
  | @openEscape body _ hbody hw =>
    have hopen : isEscapeOpen (quote :: (body ++ ['\\'])) = true := by
      rw [isEscapeOpen_cons hquote, hbody.isEscapeOpen]
      rfl
    refine ⟨body ++ ['\\'], ?_⟩
    rw [TokenKind.overrun, hopen]
    exact hw
  | @breaks body w _ _ _ hbody hbreaks hw =>
    refine ⟨body ++ '\\' :: w, ?_⟩
    cases hbreaks with
    | hex a =>
      have hmark : ['\\', 'x'].isSuffixOf (quote :: (body ++ ['\\', 'x', a])) = false := by
        rw [Bool.eq_false_iff, ne_eq, List.isSuffixOf_iff_suffix]
        rintro ⟨before, hbefore⟩
        have hcut : before ++ ['\\', 'x'] = (quote :: (body ++ ['\\'])) ++ ['x', a] := by rw [hbefore]; simp
        exact absurd (List.append_inj' hcut rfl).2 (by simp)
      rw [TokenKind.overrun, hmark]
      exact hw
    | hexEnd =>
      have hmark : ['\\', 'x'].isSuffixOf (quote :: (body ++ ['\\', 'x'])) = true :=
        List.isSuffixOf_iff_suffix.2 ⟨quote :: body, rfl⟩
      rw [TokenKind.overrun, hmark]
      exact hw
    | octal | codePoint | unicode => exact hw

theorem overrun_of_ending {c stop : Cursor} {e : LexError} (h : readNumber.ending c = (some e, stop))
    (word : List Char) : (TokenKind.illegal e).overrun word = 0 := by
  unfold readNumber.ending at h
  split at h
  · cases h
    rfl
  · cases h

theorem overrun_of_decimal {c stop : Cursor} {e : LexError} (h : readNumber.decimal c = (some e, stop))
    (word : List Char) : (TokenKind.illegal e).overrun word = 0 := by
  unfold readNumber.decimal at h
  dsimp only at h
  generalize (if (c.dropWhile Char.isDigit).peek? = some '.'
    then (c.dropWhile Char.isDigit).advance.dropWhile Char.isDigit else c.dropWhile Char.isDigit) = d at h
  split at h
  · generalize (if d.advance.peek? = some '+' ∨ d.advance.peek? = some '-' then d.advance.advance
      else d.advance) = sign at h
    split at h
    · exact overrun_of_ending h word
    · cases h
      rfl
  · exact overrun_of_ending h word

/-- No scanner of numbers goes past the end. -/
theorem overrun_of_readNumber {c stop : Cursor} {e : LexError} (h : readNumber c = (some e, stop)) (word : List Char) :
    (TokenKind.illegal e).overrun word = 0 := by
  unfold readNumber at h
  split at h
  · dsimp only at h
    split at h
    · split at h
      · cases h
      · cases h
        rfl
    · split at h
      · cases h
        rfl
      · split at h
        · cases h
          rfl
        · exact overrun_of_decimal h word
  · exact overrun_of_decimal h word

/-- What the scanner of a token finds: a kind and a text for the characters of a word. -/
structure Finds (c : Cursor) (found : (TokenKind × String) × Cursor) (word : List Char) : Prop where
  overruns : c.Overruns word (found.1.1.overrun word) found.2
  nonempty : word ≠ []
  goesOn : found.1.1 ≠ .eof
  text : found.1.1.isVerbatim → found.1.2 = String.ofList word

theorem exists_finds_of_overruns {e : LexError} {stop : Cursor} {cs : List Char} (hc : c.rest = ch :: rest)
    (h : c.advance.Overruns cs ((TokenKind.illegal e).overrun (ch :: cs)) stop) :
    ∃ word, c.Finds (illegalToken e, stop) word :=
  ⟨ch :: cs, (walks_advance hc).trans_overruns h, List.cons_ne_nil _ _, fun he => TokenKind.noConfusion he,
    fun hv => by cases hv⟩

theorem exists_finds_of_arrives {found : (TokenKind × String) × Cursor} (hc : c.rest = ch :: rest)
    (h : c.advance.Arrives found.2) (hn : ∀ word, found.1.1.overrun word = 0) (he : found.1.1 ≠ .eof)
    (ht : found.1.1.isVerbatim → found.1.2 = c.textUpTo found.2) : ∃ word, c.Finds found word := by
  obtain ⟨cs, hcs⟩ := h
  have hword : c.Walks (ch :: cs) found.2 := (walks_advance hc).trans hcs
  refine ⟨ch :: cs, ?_, List.cons_ne_nil _ _, he, fun hv => ?_⟩
  · rw [hn]
    exact hword.overruns
  · exact (ht hv).trans hword.reads.textUpTo

/-- The scanner of a token goes over a word. -/
theorem exists_finds_readToken (slashDivides : Bool) (hc : c.rest = ch :: rest) :
    ∃ word, c.Finds (readToken slashDivides c) word := by
  have hadvance : c.advance = ⟨rest, c.pos.after ch⟩ := by rw [advance, hc]
  unfold readToken
  rw [hc]
  dsimp only
  split
  · next hd =>
    have h := advance_arrives_readNumber hc (hd.imp_right And.left)
    split
    · next hn =>
      rw [hn] at h
      exact exists_finds_of_arrives hc h (overrun_of_readNumber hn) (by simp [illegalToken]) fun hv => by cases hv
    · next hn =>
      rw [hn] at h
      exact exists_finds_of_arrives hc h (fun _ => rfl) (by simp) fun _ => rfl
  · split
    · have h := arrives_readRegExp false (c.pos.after ch) rest
      rw [← hadvance] at h
      split
      · next hn =>
        rw [hn] at h
        exact exists_finds_of_arrives hc (h.trans (arrives_dropWhile _ _)) (fun _ => rfl) (by simp) fun _ => rfl
      · next hn =>
        rw [hn] at h
        exact exists_finds_of_arrives hc h (fun _ => rfl) (by simp [illegalToken]) fun hv => by cases hv
    · split
      · next hquote =>
        have h := stringRead ch [] (rest.length + 1) c.advance
        split
        · next hn =>
          rw [hn] at h
          cases h with
          | closed _ hw => exact exists_finds_of_arrives hc ⟨_, hw⟩ (fun _ => rfl) (by simp) fun hv => by cases hv
        · next hn =>
          rw [hn] at h
          have hslash : ch ≠ '\\' := by rcases hquote with rfl | rfl <;> decide
          obtain ⟨cs, hcs⟩ := exists_overruns_of_stringRead hslash h
          exact exists_finds_of_overruns hc hcs
      · split
        · next hquote =>
          split
          · next hn =>
            have h := arrives_of_readTemplate hn
            rw [← hadvance] at h
            exact exists_finds_of_arrives hc h (fun _ => rfl) (by simp) fun _ => rfl
          · next hn =>
            have h := overruns_of_readTemplate hn
            have hslash : ch ≠ '\\' := by rw [hquote]; decide
            rw [← hadvance, ← isEscapeOpen_cons hslash] at h
            exact exists_finds_of_overruns hc h
        · split
          · next p hp =>
            obtain ⟨tail, htail⟩ := Punctuator.append_of_longestAt? hp
            have h := c.walks_advanceBy (hc.trans htail)
            exact ⟨p.chars, h.overruns, p.chars_ne_nil, by simp, fun _ => rfl⟩
          · split
            · next hs =>
              have hp : isIdentifierPart ch := by simp [isIdentifierPart, hs]
              have hverbatim := ofWord_isVerbatim (c.textUpTo (c.dropWhile isIdentifierPart))
              have hne {kind : TokenKind} (hk : kind.isVerbatim = false) :
                  TokenKind.ofWord (c.textUpTo (c.dropWhile isIdentifierPart)) ≠ kind := by
                rintro rfl
                exact Bool.noConfusion (hk.symm.trans hverbatim)
              exact exists_finds_of_arrives hc (advance_arrives_dropWhile hc hp)
                (TokenKind.overrun_eq_zero fun e => hne rfl) (hne rfl) fun _ => rfl
            · exact exists_finds_of_arrives hc (.refl _) (fun _ => rfl) (by simp [illegalToken]) fun hv => by cases hv

end Cursor

end Stepwise

import Mathlib.Data.List.Chain
import Stepwise.Proofs.Token.Word

/-!
# Tokens tile the source

* `IsGap`: white space and comments.
* `IsSlice`: the characters of a source between two offsets.
* `Tiles`: tokens follow each other from one end of a source to the other, with nothing but gaps between them.
* `tokenize_tiles`: the tokens of a source do so.
* `exists_readToken_of_mem`: each of them is read somewhere in the source.
-/

namespace Stepwise

/-! ### White space and comments -/

/-- White space and comments that stand before `rest`. Only at the end of a source may a comment be left open. -/
inductive IsGap (rest : List Char) : List Char → Prop where
  | nil : IsGap rest []
  | blank {c : Char} {cs : List Char} (hc : c = '\n' ∨ isSeparator c) (h : IsGap rest cs) : IsGap rest (c :: cs)
  /-- A comment that goes on to the end of its line. -/
  | line {body cs : List Char} (hbody : '\n' ∉ body) (hend : ∀ c ∈ (cs ++ rest).head?, c = '\n')
      (h : IsGap rest cs) : IsGap rest ('/' :: '/' :: (body ++ cs))
  /-- A comment that goes on to the first mark that closes it. -/
  | block {body cs : List Char} (hbody : ¬['*', '/'] <:+: body) (h : IsGap rest cs) :
      IsGap rest ('/' :: '*' :: (body ++ '*' :: '/' :: cs))
  | unclosed {body : List Char} (hbody : ¬['*', '/'] <:+: body) (hrest : rest = []) : IsGap rest ('/' :: '*' :: body)

/-- What is skipped from the inside of white space or of a comment. -/
def Gap.Skips (rest : List Char) : Gap → List Char → Prop
  | .blank, cs => IsGap rest cs
  | .lineComment, cs => ∃ body tail, cs = body ++ tail ∧ '\n' ∉ body ∧ (∀ c ∈ (tail ++ rest).head?, c = '\n') ∧
      IsGap rest tail
  | .blockComment, cs =>
      (∃ body tail, cs = body ++ '*' :: '/' :: tail ∧ ¬['*', '/'] <:+: body ∧ IsGap rest tail) ∨
        (¬['*', '/'] <:+: cs ∧ rest = [])

/-- What `skipGap` goes over from a cursor, and whether it finds a line break. -/
def Gap.Skipped (gap : Gap) (newline : Bool) (c : Cursor) (found : Cursor × Bool) : Prop :=
  ∃ skipped, c.Walks skipped found.1 ∧ gap.Skips found.1.rest skipped ∧
    found.2 = (newline || decide ('\n' ∈ skipped))

section

variable {gap gap' : Gap} {newline newline' : Bool} {c d : Cursor} {found : Cursor × Bool} {word : List Char}

theorem Gap.Skipped.stop (h : gap.Skips c.rest []) : gap.Skipped newline c (c, newline) :=
  ⟨[], .refl c, h, by simp⟩

/-- What is skipped after a character is skipped with it. -/
theorem Gap.Skipped.cons {ch : Char} {cs : List Char} {pos : Position}
    (h : gap'.Skipped newline' ⟨cs, pos.after ch⟩ found) (hn : newline' = (newline || ch == '\n'))
    (hs : ∀ skipped rest, cs = skipped ++ rest → gap'.Skips rest skipped → gap.Skips rest (ch :: skipped)) :
    gap.Skipped newline ⟨ch :: cs, pos⟩ found := by
  obtain ⟨skipped, hr, hg, hf⟩ := h
  refine ⟨ch :: skipped, (Cursor.walks_advance (c := ⟨ch :: cs, pos⟩) rfl).trans hr, hs skipped _ hr.rest hg, ?_⟩
  rw [hf, hn, Bool.or_assoc]
  simp [eq_comm, Bool.beq_eq_decide_eq]

/-- What is skipped after a mark of two characters is skipped with it. -/
theorem Gap.Skipped.mark {a b : Char} {cs : List Char} {pos : Position}
    (h : gap'.Skipped newline ⟨cs, (pos.after a).after b⟩ found) (ha : a ≠ '\n') (hb : b ≠ '\n')
    (hs : ∀ skipped rest, gap'.Skips rest skipped → gap.Skips rest (a :: b :: skipped)) :
    gap.Skipped newline ⟨a :: b :: cs, pos⟩ found := by
  obtain ⟨skipped, hr, hg, hf⟩ := h
  have hmark : Cursor.Walks ⟨a :: b :: cs, pos⟩ [a, b] ⟨cs, (pos.after a).after b⟩ := Cursor.walks_advanceBy _ rfl
  refine ⟨a :: b :: skipped, hmark.trans hr, hs skipped _ hg, ?_⟩
  rw [hf]
  simp [ha.symm, hb.symm]

/-- No mark closes a comment that starts with `ch` if none closes the rest and `ch` does not start one. -/
theorem not_closes_cons {ch : Char} {cs : List Char} (h : ¬(ch = '*' ∧ cs.head? = some '/'))
    (hcs : ¬['*', '/'] <:+: cs) : ¬['*', '/'] <:+: ch :: cs := by
  intro hi
  rcases List.infix_cons_iff.1 hi with hp | hi
  · obtain ⟨hc, hp⟩ := List.cons_prefix_cons.1 hp
    obtain ⟨tail, ht⟩ := hp
    exact h ⟨hc.symm, by rw [← ht]; rfl⟩
  · exact hcs hi

theorem skips_line_cons {ch : Char} {skipped rest : List Char} (hc : ch ≠ '\n')
    (h : Gap.lineComment.Skips rest skipped) : Gap.lineComment.Skips rest (ch :: skipped) := by
  obtain ⟨body, tail, rfl, hbody, hend, hg⟩ := h
  exact ⟨ch :: body, tail, rfl, by simp [hc.symm, hbody], hend, hg⟩

theorem skips_line_break {skipped rest : List Char} (h : IsGap rest skipped) :
    Gap.lineComment.Skips rest ('\n' :: skipped) :=
  ⟨[], '\n' :: skipped, rfl, by simp, by simp, .blank (.inl rfl) h⟩

theorem skips_block_cons {ch : Char} {skipped rest : List Char} (hc : ¬(ch = '*' ∧ (skipped ++ rest).head? = some '/'))
    (h : Gap.blockComment.Skips rest skipped) : Gap.blockComment.Skips rest (ch :: skipped) := by
  rcases h with ⟨body, tail, rfl, hbody, hg⟩ | ⟨hbody, rfl⟩
  · refine .inl ⟨ch :: body, tail, rfl, not_closes_cons (fun h => hc ⟨h.1, ?_⟩) hbody, hg⟩
    cases body with
    | nil => cases h.2
    | cons d body => exact h.2
  · rw [List.append_nil] at hc
    exact .inr ⟨not_closes_cons hc hbody, rfl⟩

theorem skipGap_skips (gap : Gap) (newline : Bool) (pos : Position) (cs : List Char) :
    gap.Skipped newline ⟨cs, pos⟩ (skipGap gap newline pos cs) := by
  have hblank (newline : Bool) (c : Cursor) : Gap.blank.Skipped newline c (c, newline) := .stop .nil
  have hline : Gap.lineComment.Skips [] [] := ⟨[], [], rfl, by simp, by simp, .nil⟩
  have hblock : Gap.blockComment.Skips [] [] := .inr ⟨by simp, rfl⟩
  fun_induction skipGap gap newline pos cs with
  | case1 gap newline pos =>
    cases gap with
    | blank => exact .stop .nil
    | lineComment => exact .stop hline
    | blockComment => exact .stop hblock
  | case2 newline pos => exact .cons (hblank _ _) (by simp) fun _ _ _ h => .blank (.inl rfl) h
  | case3 newline pos c hc hs =>
    exact .cons (hblank _ _) (by simp [hc]) fun _ _ _ h => .blank (.inr hs) h
  | case4 => exact .stop .nil
  | case5 newline pos c =>
    by_cases hc : c = '\n'
    · rw [hc]
      exact .cons (hblank _ _) rfl fun _ _ _ h => skips_line_break h
    · exact .cons (.stop hline) rfl fun _ _ _ h => skips_line_cons hc h
  | case6 newline pos c =>
    refine .cons (.stop hblock) rfl fun skipped rest he h => skips_block_cons ?_ h
    rw [← he]
    simp
  | case7 newline pos d rest ih => exact .cons ih (by simp) fun _ _ _ h => .blank (.inl rfl) h
  | case8 newline pos c d rest hc hs ih => exact .cons ih (by simp [hc]) fun _ _ _ h => .blank (.inr hs) h
  | case9 newline pos c d rest hc _ hm ih =>
    obtain ⟨rfl, rfl⟩ := hm
    refine .mark ih (by decide) (by decide) ?_
    rintro _ rest ⟨body, tail, rfl, hbody, hend, hg⟩
    exact .line hbody hend hg
  | case10 newline pos c d rest hc _ _ hm ih =>
    obtain ⟨rfl, rfl⟩ := hm
    refine .mark ih (by decide) (by decide) ?_
    rintro _ rest (⟨body, tail, rfl, hbody, hg⟩ | ⟨hbody, rfl⟩)
    · exact .block hbody hg
    · exact .unclosed hbody rfl
  | case11 => exact .stop .nil
  | case12 newline pos d rest ih => exact .cons ih (by simp) fun _ _ _ h => skips_line_break h
  | case13 newline pos c d rest hc ih => exact .cons ih (by simp [hc]) fun _ _ _ h => skips_line_cons hc h
  | case14 newline pos c d rest hm ih =>
    obtain ⟨rfl, rfl⟩ := hm
    exact .mark ih (by decide) (by decide) fun skipped _ h => .inl ⟨[], skipped, rfl, by simp, h⟩
  | case15 newline pos c d rest hm ih =>
    refine .cons ih rfl fun skipped rest he h => skips_block_cons ?_ h
    rw [← he]
    simpa using hm

end

/-! ### Tiles -/

/-- The characters of a source between two offsets. -/
def IsSlice (source : String) (start stop : Nat) (cs : List Char) : Prop :=
  ∃ before after, source.toList = before ++ cs ++ after ∧ byteLength before = start ∧
    byteLength (before ++ cs) = stop

theorem IsSlice.eq_takeBytes {source : String} {start stop : Nat} {cs : List Char} (h : IsSlice source start stop cs) :
    takeBytes (stop - start) (dropBytes start source.toList) = cs := by
  obtain ⟨before, after, hsource, rfl, rfl⟩ := h
  rw [hsource, List.append_assoc, dropBytes_append, byteLength_append, Nat.add_sub_cancel_left, takeBytes_append]

/-- How a token lies behind the one before it, which ends at an offset: nothing but a gap is between them. -/
structure Token.Follows (source : String) (stop : Nat) (isFirst : Bool) (t : Token) : Prop where
  start : stop ≤ t.start.offset
  gap : ∃ cs after, IsSlice source stop t.start.offset cs ∧
    IsSlice source t.start.offset (byteLength source.toList) after ∧ IsGap after cs ∧
    t.newlineBefore = (decide ('\n' ∈ cs) && !isFirst)

/-- How a token lies in a source. Only the end mark is empty. -/
structure Token.Lies (source : String) (t : Token) : Prop where
  ordered : t.start.offset ≤ t.stop.offset
  nonempty : t.kind ≠ .eof → t.start.offset < t.stop.offset
  word : ∃ cs, IsSlice source t.start.offset t.stop.offset cs ∧ (t.kind.isVerbatim → t.text = String.ofList cs)

/-- Tokens that cover a source from an offset on. -/
structure Tiles (source : String) (offset : Nat) (isFirst : Bool) (tokens : List Token) : Prop where
  /-- The end mark is the last token, and no other. -/
  ends : ∃ (words : List Token) (last : Token), tokens = words ++ [last] ∧ last.kind = .eof ∧ (∀ t ∈ words, t.kind ≠ .eof) ∧
    last.start.offset = byteLength source.toList
  lies : ∀ t ∈ tokens, t.Lies source
  first : ∀ t ∈ tokens.head?, t.Follows source offset isFirst
  chain : tokens.IsChain fun s t => t.Follows source s.stop.offset false

section

variable {source : String} {offset : Nat} {isFirst : Bool} {t : Token} {ts : List Token}

theorem Tiles.last (hf : t.Follows source offset isFirst) (hl : t.Lies source) (hk : t.kind = .eof)
    (ho : t.start.offset = byteLength source.toList) : Tiles source offset isFirst [t] where
  ends := ⟨[], t, rfl, hk, by simp, ho⟩
  lies := by simpa using hl
  first := by simpa using hf
  chain := .singleton t

theorem Tiles.cons (hf : t.Follows source offset isFirst) (hl : t.Lies source) (hk : t.kind ≠ .eof)
    (h : Tiles source t.stop.offset false ts) : Tiles source offset isFirst (t :: ts) where
  ends := by
    obtain ⟨words, last, rfl, hlast, hwords, ho⟩ := h.ends
    exact ⟨t :: words, last, rfl, hlast, List.forall_mem_cons.2 ⟨hk, hwords⟩, ho⟩
  lies := List.forall_mem_cons.2 ⟨hl, h.lies⟩
  first := by simpa using hf
  chain := List.isChain_cons.2 ⟨h.first, h.chain⟩

/-- A cursor that stands in a source. -/
def Cursor.Stands (source : String) (c : Cursor) : Prop :=
  ∃ before, source.toList = before ++ c.rest ∧ byteLength before = c.pos.offset

theorem Cursor.stands_ofString (source : String) : (Cursor.ofString source).Stands source := ⟨[], rfl, rfl⟩

variable {c d : Cursor} {cs : List Char}

theorem Cursor.Stands.slice (hs : c.Stands source) (h : c.Reads cs d) :
    IsSlice source c.pos.offset d.pos.offset cs := by
  obtain ⟨before, hb, ho⟩ := hs
  refine ⟨before, d.rest, ?_, ho, ?_⟩
  · rw [hb, h.rest, List.append_assoc]
  · rw [byteLength_append, ho, h.offset]

theorem Cursor.Stands.reads (hs : c.Stands source) (h : c.Reads cs d) : d.Stands source := by
  obtain ⟨before, hb, ho⟩ := hs
  refine ⟨before ++ cs, ?_, ?_⟩
  · rw [hb, h.rest, List.append_assoc]
  · rw [byteLength_append, ho, h.offset]

/-- What is left to read goes on to the end of the source. -/
theorem Cursor.Stands.slice_rest (hs : c.Stands source) :
    IsSlice source c.pos.offset (byteLength source.toList) c.rest := by
  obtain ⟨before, hb, ho⟩ := hs
  exact ⟨before, [], by rw [hb, List.append_nil], ho, by rw [hb]⟩

/-- The scanner of tokens covers what is left to read. -/
theorem tiles_tokensFrom {turns : Nat} (hs : c.Stands source) (ht : c.rest.length < turns) (slashDivides : Bool) :
    Tiles source c.pos.offset isFirst (tokensFrom isFirst slashDivides turns c) := by
  induction turns generalizing c isFirst slashDivides with
  | zero => cases ht
  | succ turns ih =>
    unfold tokensFrom
    obtain ⟨gap, hgap, hskips, hnewline⟩ := skipGap_skips .blank false c.pos c.rest
    generalize skipGap .blank false c.pos c.rest = found at hgap hskips hnewline
    obtain ⟨start, newline⟩ := found
    have hgap : c.Reads gap start := hgap.reads
    have hstart := hs.reads hgap
    have hfollows {t : Token} (hp : t.start = start.pos) (hn : t.newlineBefore = (newline && !isFirst)) :
        t.Follows source c.pos.offset isFirst := by
      refine ⟨?_, gap, start.rest, ?_, ?_, hskips, ?_⟩
      · rw [hp, hgap.offset]
        exact Nat.le_add_right ..
      · exact hp ▸ hs.slice hgap
      · exact hp ▸ hstart.slice_rest
      · have hnewline : newline = (false || decide ('\n' ∈ gap)) := hnewline
        rw [hn, hnewline, Bool.false_or]
    dsimp only
    cases hrest : start.rest with
    | nil =>
      have hend : start.pos.offset = byteLength source.toList := by
        obtain ⟨before, hb, ho⟩ := hstart
        rw [hb, hrest, List.append_nil, ho]
      simp only [readToken, hrest]
      refine .last (hfollows rfl rfl) ⟨Nat.le_refl _, fun h => absurd rfl h, [], hstart.slice (.refl _), ?_⟩ rfl hend
      exact fun h => by cases h
    | cons ch rest =>
      obtain ⟨word, hword⟩ := Cursor.exists_finds_readToken slashDivides hrest
      generalize readToken slashDivides start = found at hword
      obtain ⟨⟨kind, text⟩, stop⟩ := found
      have hreads : start.Reads word stop := hword.overruns.reads
      have hpos := byteLength_pos hword.nonempty
      have hstop := hreads.offset
      simp only [if_neg (show ¬kind = .eof from hword.goesOn)]
      refine .cons (hfollows rfl rfl) ⟨?_, fun _ => ?_, word, hstart.slice hreads, hword.text⟩ hword.goesOn
        (ih (hstart.reads hreads) ?_ _)
      · show start.pos.offset ≤ stop.pos.offset
        omega
      · show start.pos.offset < stop.pos.offset
        omega
      · -- a word takes at least one of the characters
        have hlen := congrArg List.length (hgap.rest.trans (congrArg _ hreads.rest))
        have := List.length_pos_of_ne_nil hword.nonempty
        simp only [List.length_append] at hlen
        omega

/-- A token with the text of the source is not empty. -/
theorem Tiles.text_ne (h : Tiles source offset isFirst ts) (ht : t ∈ ts) (hv : t.kind.isVerbatim) : t.text ≠ "" := by
  obtain ⟨cs, ⟨before, after, -, hstart, hstop⟩, hword⟩ := (h.lies t ht).word
  have hkind : t.kind ≠ .eof := by
    intro he
    rw [he] at hv
    cases hv
  have hlt := (h.lies t ht).nonempty hkind
  intro htext
  have hcs : cs = [] := by
    rw [hword hv] at htext
    simpa using htext
  rw [hcs, List.append_nil] at hstop
  omega

end

/-- The tokens of a source cover it: they end with the only end mark, none is empty but this one, and what lies
between two of them is white space and comments. -/
theorem tokenize_tiles (source : String) : Tiles source 0 true (tokenize source) :=
  tiles_tokensFrom (Cursor.stands_ofString source) (Nat.lt_succ_self _) false

/-! ### Where tokens come from -/

/-- A token is what the scanner of tokens finds somewhere in the source. -/
theorem exists_readToken_of_mem {source : String} {t : Token} {isFirst slashDivides : Bool} {turns : Nat} {c : Cursor}
    (hc : c.Stands source) (h : t ∈ tokensFrom isFirst slashDivides turns c) :
    ∃ (start stop : Cursor) (slashDivides : Bool), start.Stands source ∧
      readToken slashDivides start = ((t.kind, t.text), stop) ∧ t.start = start.pos ∧ t.stop = stop.pos := by
  induction turns generalizing c isFirst slashDivides with
  | zero => cases h
  | succ turns ih =>
    unfold tokensFrom at h
    obtain ⟨gap, hgap, -, -⟩ := skipGap_skips .blank false c.pos c.rest
    generalize skipGap .blank false c.pos c.rest = found at hgap h
    obtain ⟨start, newline⟩ := found
    have hstart : start.Stands source := hc.reads hgap.reads
    dsimp only at h
    cases hrest : start.rest with
    | nil =>
      simp only [readToken, hrest, if_true, List.mem_singleton] at h
      subst h
      exact ⟨start, start, slashDivides, hstart, by simp [readToken, hrest], rfl, rfl⟩
    | cons ch rest =>
      obtain ⟨word, hword⟩ := Cursor.exists_finds_readToken slashDivides hrest
      generalize hread : readToken slashDivides start = found at hword h
      obtain ⟨⟨kind, text⟩, stop⟩ := found
      simp only [if_neg (show ¬kind = .eof from hword.goesOn)] at h
      rcases List.mem_cons.1 h with rfl | h
      · exact ⟨start, stop, slashDivides, hstart, hread, rfl, rfl⟩
      · exact ih (hstart.reads hword.overruns.reads) h

/-- A token that is a name is a word that is no keyword. -/
theorem ofWord_of_readToken {slashDivides : Bool} {c stop : Cursor} {text : String}
    (h : readToken slashDivides c = ((.identifier, text), stop)) : TokenKind.ofWord text = .identifier := by
  unfold readToken at h
  repeat' split at h
  -- only a word is read as a name
  all_goals simp only [illegalToken, Prod.mk.injEq, reduceCtorEq, false_and] at h
  obtain ⟨⟨hword, rfl⟩, -⟩ := h
  exact hword

theorem ofWord_of_mem_tokenize {source : String} {t : Token} (ht : t ∈ tokenize source) (hk : t.kind = .identifier) :
    TokenKind.ofWord t.text = .identifier := by
  obtain ⟨start, stop, slashDivides, -, hread, -, -⟩ := exists_readToken_of_mem (Cursor.stands_ofString source) ht
  rw [hk] at hread
  exact ofWord_of_readToken hread

end Stepwise

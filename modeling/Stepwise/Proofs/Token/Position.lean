import Mathlib.Data.List.DropRight
import Stepwise.Proofs.Token.Tiling

/-!
# Lines and columns of tokens

* `Position.IsIn`: a position of a source, whose line and column are those of its offset.
* `Position.IsBeyond`: such a position, or one at the end whose column also counts the reads past it.
* `tokenize_isIn`: if all tokens of a source are legal, they start and end at positions of it.
* `tokenize_arePlaced`: all tokens do, but for those that end with reads past the end, and the end mark behind them.
-/

namespace Stepwise

/-! ### Positions of a source -/

/-- A position between the characters of a source: before it stand the bytes and line breaks that it counts, and behind
the last of these line breaks the characters of its column. -/
def Position.IsIn (source : String) (p : Position) : Prop :=
  ∃ before after, source.toList = before ++ after ∧ p.offset = byteLength before ∧
    p.line = before.count '\n' + 1 ∧ p.column = (before.rtakeWhile (· ≠ '\n')).length

namespace Position

theorem afterAll_concat (p : Position) (cs : List Char) (c : Char) : p.afterAll (cs ++ [c]) = (p.afterAll cs).after c :=
  p.afterAll_append cs [c]

theorem line_afterAll_start (cs : List Char) : (start.afterAll cs).line = cs.count '\n' + 1 := by
  induction cs using List.reverseRecOn with
  | nil => rfl
  | append_singleton cs c ih =>
    rw [afterAll_concat, after]
    split
    · next hc => simp [hc, ih]
    · next hc => simp [hc, ih]

theorem column_afterAll_start (cs : List Char) :
    (start.afterAll cs).column = (cs.rtakeWhile (· ≠ '\n')).length := by
  induction cs using List.reverseRecOn with
  | nil => rfl
  | append_singleton cs c ih =>
    rw [afterAll_concat, after, List.rtakeWhile_concat]
    split
    · next hc => simp [hc]
    · next hc => simp [hc, ih]

variable {source : String}

theorem isIn_start (source : String) : start.IsIn source := ⟨[], source.toList, rfl, rfl, rfl, rfl⟩

/-- A position of a source, or one at its end with one column more for each of `n` reads past it. -/
def IsBeyond (source : String) (n : Nat) (p : Position) : Prop :=
  ∃ q : Position, q.IsIn source ∧ p = q.past n ∧ (n ≠ 0 → q.offset = byteLength source.toList)

theorem IsBeyond.isIn {p : Position} (h : p.IsBeyond source 0) : p.IsIn source := by
  obtain ⟨q, hq, rfl, -⟩ := h
  exact hq

/-- Counting from the start of a source leads to a position of it, and then beyond its end. -/
theorem isBeyond_of_overruns {c : Cursor} {before : List Char} {n : Nat}
    (h : (Cursor.ofString source).Overruns before n c) : c.pos.IsBeyond source n := by
  have hoffset : (start.afterAll before).offset = byteLength before := (offset_afterAll _ _).trans (Nat.zero_add _)
  refine ⟨start.afterAll before, ⟨before, c.rest, h.rest, hoffset, ?_, ?_⟩, h.pos, fun hn => ?_⟩
  · exact line_afterAll_start before
  · exact column_afterAll_start before
  · have hsource : source.toList = before ++ c.rest := h.rest
    rw [hoffset, hsource, h.ends hn, List.append_nil]

theorem IsIn.offset_le {p : Position} (h : p.IsIn source) : p.offset ≤ byteLength source.toList := by
  obtain ⟨before, after, hsource, hoffset, -⟩ := h
  rw [hsource, byteLength_append, hoffset]
  exact Nat.le_add_right ..

end Position

/-! ### Tokens -/

/-- Whether a token is a word of the language. -/
def Token.IsLegal (t : Token) : Prop := ∀ e, t.kind ≠ .illegal e

/-- A token starts and ends at positions of a source. -/
structure Token.IsIn (source : String) (t : Token) : Prop where
  start : t.start.IsIn source
  stop : t.stop.IsIn source

variable {source : String}

/-- The characters of a token in its source. -/
def Token.chars (source : String) (t : Token) : List Char :=
  takeBytes (t.stop.offset - t.start.offset) (dropBytes t.start.offset source.toList)

/-- How often the end of a source is read behind a token. -/
def Token.overrun (source : String) (t : Token) : Nat := t.kind.overrun (t.chars source)

/-- A token behind `n` reads past the end starts and ends at positions of its source, with one column more for each read
past the end. Behind such reads there is only the end mark. -/
structure Token.IsPlaced (source : String) (n : Nat) (t : Token) : Prop where
  start : t.start.IsBeyond source n
  stop : t.stop.IsBeyond source (if t.kind = .eof then n else t.overrun source)
  last : n ≠ 0 → t.kind = .eof

/-- Tokens in a row, behind `n` reads past the end of their source. -/
def ArePlaced (source : String) : Nat → List Token → Prop
  | _, [] => True
  | n, t :: ts => t.IsPlaced source n ∧ ArePlaced source (t.overrun source) ts

theorem Token.overrun_eq_zero {t : Token} (h : t.IsLegal) : t.overrun source = 0 := TokenKind.overrun_eq_zero h _

theorem Token.IsPlaced.isIn {t : Token} (h : t.IsPlaced source 0) (ht : t.IsLegal) : t.IsIn source := by
  obtain ⟨hstart, hstop, -⟩ := h
  rw [overrun_eq_zero ht, ite_self] at hstop
  exact ⟨hstart.isIn, hstop.isIn⟩

theorem ArePlaced.isIn {ts : List Token} (h : ArePlaced source 0 ts) (hlegal : ∀ t ∈ ts, t.IsLegal) :
    ∀ t ∈ ts, t.IsIn source := by
  induction ts with
  | nil => exact List.forall_mem_nil _
  | cons t ts ih =>
    obtain ⟨ht, hts⟩ := List.forall_mem_cons.1 hlegal
    obtain ⟨hplaced, h⟩ := h
    rw [Token.overrun_eq_zero ht] at h
    exact List.forall_mem_cons.2 ⟨hplaced.isIn ht, ih h hts⟩

/-- The scanner of tokens counts lines and columns. -/
theorem arePlaced_tokensFrom {isFirst slashDivides : Bool} {turns n : Nat} {c : Cursor} {before : List Char}
    (hc : (Cursor.ofString source).Overruns before n c) :
    ArePlaced source n (tokensFrom isFirst slashDivides turns c) := by
  induction turns generalizing c isFirst slashDivides n before with
  | zero => trivial
  | succ turns ih =>
    unfold tokensFrom
    obtain ⟨gap, hgap, -, -⟩ := skipGap_skips .blank false c.pos c.rest
    generalize skipGap .blank false c.pos c.rest = found at hgap
    obtain ⟨start, newline⟩ := found
    have hstart : (Cursor.ofString source).Overruns (before ++ gap) n start := hc.trans_walks hgap
    dsimp only
    cases hrest : start.rest with
    | nil =>
      simp only [readToken, hrest]
      have hbeyond := Position.isBeyond_of_overruns hstart
      exact ⟨⟨hbeyond, hbeyond, fun _ => rfl⟩, trivial⟩
    | cons ch rest =>
      -- a token is left, so that the end has not been read yet
      have hn : n = 0 := by
        by_contra hn
        rw [hstart.ends hn] at hrest
        cases hrest
      subst hn
      obtain ⟨word, hword⟩ := Cursor.exists_finds_readToken slashDivides hrest
      generalize readToken slashDivides start = found at hword
      obtain ⟨⟨kind, text⟩, stop⟩ := found
      have hkind : kind ≠ .eof := hword.goesOn
      simp only [if_neg hkind]
      have hstop := hstart.walks.trans_overruns hword.overruns
      have hchars : takeBytes (stop.pos.offset - start.pos.offset) (dropBytes start.pos.offset source.toList) = word :=
        (Cursor.Stands.slice (Cursor.Stands.reads (Cursor.stands_ofString source) hstart.reads)
          hword.overruns.reads).eq_takeBytes
      have hoverrun : (⟨kind, text, start.pos, stop.pos, newline && !isFirst⟩ : Token).overrun source =
          kind.overrun word := congrArg kind.overrun hchars
      refine ⟨⟨Position.isBeyond_of_overruns hstart, ?_, fun hn => absurd rfl hn⟩, ?_⟩
      · rw [if_neg hkind, hoverrun]
        exact Position.isBeyond_of_overruns hstop
      · rw [hoverrun]
        exact ih hstop

/-- If all tokens of a source are legal, they start and end at positions of it. -/
theorem tokenize_isIn (hlegal : ∀ t ∈ tokenize source, t.IsLegal) : ∀ t ∈ tokenize source, t.IsIn source :=
  (arePlaced_tokensFrom (Cursor.Walks.refl _).overruns).isIn hlegal

/-- The tokens of a source start and end at positions of it, but for the reads past its end: behind a string or a
template that is not closed and ends with a backslash that escapes nothing, and behind a string that ends with the mark
of a hexadecimal escape, the column is too large by one. -/
theorem tokenize_arePlaced (source : String) : ArePlaced source 0 (tokenize source) :=
  arePlaced_tokensFrom (Cursor.Walks.refl _).overruns

theorem Position.IsIn.column_le {p : Position} (h : p.IsIn source) : p.column ≤ source.toList.length := by
  obtain ⟨before, after, hsource, -, -, hcolumn⟩ := h
  rw [hsource, hcolumn, List.length_append]
  exact Nat.le_add_right_of_le (List.rtakeWhile_suffix _ before).length_le

/-- A template that ends with a backslash ends beyond its source. -/
theorem tokenize_beyond : ∃ t ∈ tokenize "\x60\\", t.stop = ⟨2, 1, 3⟩ ∧ ¬t.stop.IsIn "\x60\\" := by
  refine ⟨⟨.illegal .unterminatedTemplate, "unterminated template literal", .start, ⟨2, 1, 3⟩, false⟩, ?_, rfl, ?_⟩
  · decide
  · intro h
    exact absurd h.column_le (by decide)

end Stepwise

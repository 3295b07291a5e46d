import Stepwise.Proofs.Text.Bytes
import Stepwise.Token.Lexer

/-!
# Cursors that move forward

* `Cursor.Reads`: a cursor went over some characters, and its offset grew by their bytes.
* `Cursor.Walks`: it did so and kept count of lines and columns.
* `Cursor.Overruns`: it did so and then read past the end, which counts as columns.
* `Cursor.Arrives`: it kept count over any characters. The scanners of numbers and regular expressions do, and those of
  templates that are closed.
-/

namespace Stepwise

/-! ### Positions -/

@[simp] theorem Position.offset_after (p : Position) (c : Char) : (p.after c).offset = p.offset + c.utf8Size := by
  unfold after
  split <;> rfl

@[simp] theorem Position.offset_afterAll (p : Position) (cs : List Char) :
    (p.afterAll cs).offset = p.offset + byteLength cs := by
  induction cs generalizing p with
  | nil => rfl
  | cons c cs ih =>
    rw [byteLength, ← Nat.add_assoc, ← p.offset_after, ← ih]
    rfl

theorem Position.afterAll_append (p : Position) (cs ds : List Char) :
    p.afterAll (cs ++ ds) = (p.afterAll cs).afterAll ds := List.foldl_append

/-- The position that `n` reads past the end lead to. -/
def Position.past (p : Position) (n : Nat) : Position := { p with column := p.column + n }

namespace Cursor

/-! ### Reading characters -/

/-- The cursor `d` stands where `c` has gone over the characters `cs`. Going past the end moves no offset, but the
column. -/
structure Reads (c : Cursor) (cs : List Char) (d : Cursor) : Prop where
  rest : c.rest = cs ++ d.rest
  offset : d.pos.offset = c.pos.offset + byteLength cs
  pos : d.rest ≠ [] → d.pos = c.pos.afterAll cs

variable {c d e : Cursor} {cs ds : List Char}

theorem Reads.refl (c : Cursor) : c.Reads [] c := ⟨rfl, rfl, fun _ => rfl⟩

theorem Reads.textUpTo (h : c.Reads cs d) : c.textUpTo d = String.ofList cs := by
  rw [Cursor.textUpTo, h.offset, h.rest, Nat.add_sub_cancel_left, takeBytes_append]

/-- The cursor `d` stands where `c` has gone over the characters `cs` and not past the end. -/
structure Walks (c : Cursor) (cs : List Char) (d : Cursor) : Prop where
  rest : c.rest = cs ++ d.rest
  pos : d.pos = c.pos.afterAll cs

theorem Walks.reads (h : c.Walks cs d) : c.Reads cs d :=
  ⟨h.rest, by rw [h.pos, Position.offset_afterAll], fun _ => h.pos⟩

theorem Walks.refl (c : Cursor) : c.Walks [] c := ⟨rfl, rfl⟩

theorem Walks.trans (h : c.Walks cs d) (h' : d.Walks ds e) : c.Walks (cs ++ ds) e := by
  refine ⟨?_, ?_⟩
  · rw [h.rest, h'.rest, List.append_assoc]
  · rw [h'.pos, h.pos, Position.afterAll_append]

theorem walks_advance {ch : Char} {rest : List Char} (hc : c.rest = ch :: rest) : c.Walks [ch] c.advance := by
  obtain ⟨cs, pos⟩ := c
  cases hc
  exact ⟨rfl, rfl⟩

theorem walks_skipWhile (p : Char → Bool) (pos : Position) (cs : List Char) :
    (⟨cs, pos⟩ : Cursor).Walks (cs.takeWhile p) (skipWhile p pos cs) := by
  induction cs generalizing pos with
  | nil => exact .refl _
  | cons ch cs ih =>
    unfold skipWhile
    rw [List.takeWhile_cons]
    split
    · exact (walks_advance (c := ⟨ch :: cs, pos⟩) rfl).trans (ih _)
    · exact .refl _

/-! ### Reading past the end -/

variable {n : Nat}

/-- The cursor `d` stands where `c` has gone over the characters `cs` and then read `n` times past the end. -/
structure Overruns (c : Cursor) (cs : List Char) (n : Nat) (d : Cursor) : Prop where
  rest : c.rest = cs ++ d.rest
  pos : d.pos = (c.pos.afterAll cs).past n
  ends : n ≠ 0 → d.rest = []

theorem Walks.overruns (h : c.Walks cs d) : c.Overruns cs 0 d := ⟨h.rest, h.pos, fun hn => absurd rfl hn⟩

theorem Overruns.walks (h : c.Overruns cs 0 d) : c.Walks cs d := ⟨h.rest, h.pos⟩

theorem Overruns.reads (h : c.Overruns cs n d) : c.Reads cs d := by
  refine ⟨h.rest, ?_, fun hd => ?_⟩
  · rw [h.pos]
    exact c.pos.offset_afterAll cs
  · have hn : n = 0 := Classical.not_not.1 fun hn => hd (h.ends hn)
    rw [h.pos, hn]
    rfl

theorem Walks.trans_overruns (h : c.Walks cs d) (h' : d.Overruns ds n e) : c.Overruns (cs ++ ds) n e := by
  refine ⟨?_, ?_, h'.ends⟩
  · rw [h.rest, h'.rest, List.append_assoc]
  · rw [h'.pos, h.pos, Position.afterAll_append]

theorem Overruns.trans_walks (h : c.Overruns cs n d) (h' : d.Walks ds e) : c.Overruns (cs ++ ds) n e := by
  by_cases hn : n = 0
  · subst hn
    exact (h.walks.trans h').overruns
  · -- at the end nothing is left to walk over
    have hd := h'.rest
    rw [h.ends hn] at hd
    obtain ⟨rfl, he⟩ := List.append_eq_nil_iff.1 hd.symm
    refine ⟨?_, ?_, fun _ => he⟩
    · rw [h.rest, h.ends hn, he, List.append_nil, List.append_nil]
    · rw [h'.pos, h.pos, List.append_nil]
      rfl

theorem overruns_advance (hc : c.rest = []) : c.Overruns [] 1 c.advance := by
  have hd : c.advance = ⟨[], c.pos.beyond⟩ := by rw [advance, hc]
  rw [hd]
  exact ⟨hc, rfl, fun _ => rfl⟩

/-! ### Going forward -/

/-- The cursor `d` stands at `c` or after it, and not past the end. -/
def Arrives (c d : Cursor) : Prop := ∃ cs, c.Walks cs d

theorem Arrives.refl (c : Cursor) : c.Arrives c := ⟨[], .refl c⟩

theorem Arrives.trans (h : c.Arrives d) (h' : d.Arrives e) : c.Arrives e :=
  let ⟨_, hw⟩ := h
  let ⟨_, hw'⟩ := h'
  ⟨_, hw.trans hw'⟩

theorem arrives_advance {ch : Char} {rest : List Char} (hc : c.rest = ch :: rest) : c.Arrives c.advance :=
  ⟨_, walks_advance hc⟩

theorem arrives_advance_of_peek? {ch : Char} (h : c.peek? = some ch) : c.Arrives c.advance := by
  obtain ⟨rest, hc⟩ := List.head?_eq_some_iff.1 h
  exact arrives_advance hc

theorem arrives_dropWhile (c : Cursor) (p : Char → Bool) : c.Arrives (c.dropWhile p) :=
  ⟨_, walks_skipWhile p c.pos c.rest⟩

/-- A run of characters that is not empty starts with the next one. -/
theorem advance_arrives_dropWhile {p : Char → Bool} {ch : Char} {rest : List Char} (hc : c.rest = ch :: rest)
    (hp : p ch) : c.advance.Arrives (c.dropWhile p) := by
  obtain ⟨cs, pos⟩ := c
  cases hc
  unfold dropWhile skipWhile
  rw [if_pos hp]
  exact arrives_dropWhile ⟨rest, pos.after ch⟩ p

/-! ### Scanners -/

theorem arrives_of_readTemplate {depth : Nat} {pos : Position} {cs : List Char}
    (h : readTemplate depth pos cs = (true, d)) : (⟨cs, pos⟩ : Cursor).Arrives d := by
  fun_induction readTemplate depth pos cs with
  | case1 => cases h
  | case2 => cases h
  | case3 depth pos ch rest ih =>
    exact (arrives_advance (c := ⟨_, pos⟩) rfl).trans ((arrives_advance (c := ⟨ch :: rest, _⟩) rfl).trans (ih h))
  | case4 depth pos rest ih =>
    exact (arrives_advance (c := ⟨_, pos⟩) rfl).trans ((arrives_advance (c := ⟨'\x7b' :: rest, _⟩) rfl).trans (ih h))
  | case5 depth pos ch rest _ _ _ _ ih => exact (arrives_advance (c := ⟨ch :: rest, pos⟩) rfl).trans (ih h)
  | case6 depth pos ch rest =>
    cases h
    exact arrives_advance (c := ⟨ch :: rest, pos⟩) rfl
  | case7 depth pos ch rest _ _ _ _ _ ih => exact (arrives_advance (c := ⟨ch :: rest, pos⟩) rfl).trans (ih h)

theorem arrives_readRegExp (inClass : Bool) (pos : Position) (cs : List Char) :
    (⟨cs, pos⟩ : Cursor).Arrives (readRegExp inClass pos cs).2 := by
  fun_induction readRegExp inClass pos cs with
  | case1 => exact .refl _
  | case2 inClass pos => exact arrives_advance (c := ⟨['\\'], pos⟩) rfl
  | case3 inClass pos rest => exact arrives_advance (c := ⟨'\\' :: '\n' :: rest, pos⟩) rfl
  | case4 inClass pos ch rest _ ih =>
    exact (arrives_advance (c := ⟨_, pos⟩) rfl).trans ((arrives_advance (c := ⟨ch :: rest, _⟩) rfl).trans ih)
  | case5 => exact .refl _
  | case6 inClass pos rest _ _ _ ih => exact (arrives_advance (c := ⟨'[' :: rest, pos⟩) rfl).trans ih
  | case7 inClass pos rest _ _ _ _ ih => exact (arrives_advance (c := ⟨']' :: rest, pos⟩) rfl).trans ih
  | case8 inClass pos ch rest => exact arrives_advance (c := ⟨ch :: rest, pos⟩) rfl
  | case9 inClass pos ch rest _ _ _ _ _ _ ih => exact (arrives_advance (c := ⟨ch :: rest, pos⟩) rfl).trans ih

theorem arrives_ending (c : Cursor) : c.Arrives (readNumber.ending c).2 := by
  unfold readNumber.ending
  split <;> exact .refl c

/-- A digit is read before anything else, and a point that stands for one too. -/
theorem advance_arrives_decimal {ch : Char} {rest : List Char} (hc : c.rest = ch :: rest) (hd : ch.isDigit ∨ ch = '.') :
    c.advance.Arrives (readNumber.decimal c).2 := by
  have hpoint : c.advance.Arrives (if (c.dropWhile Char.isDigit).peek? = some '.'
      then (c.dropWhile Char.isDigit).advance.dropWhile Char.isDigit else c.dropWhile Char.isDigit) := by
    split
    · next hp =>
      refine Arrives.trans ?_ (arrives_dropWhile _ _)
      rcases hd with hd | rfl
      · exact (advance_arrives_dropWhile hc hd).trans (arrives_advance_of_peek? hp)
      · obtain ⟨cs, pos⟩ := c
        cases hc
        exact .refl _
    · next hp =>
      rcases hd with hd | rfl
      · exact advance_arrives_dropWhile hc hd
      · obtain ⟨cs, pos⟩ := c
        cases hc
        exact absurd rfl hp
  refine hpoint.trans ?_
  unfold readNumber.decimal
  dsimp only
  generalize (if (c.dropWhile Char.isDigit).peek? = some '.'
    then (c.dropWhile Char.isDigit).advance.dropWhile Char.isDigit else c.dropWhile Char.isDigit) = d
  have hsign (he : d.peek? = some 'e' ∨ d.peek? = some 'E') :
      d.Arrives (if d.advance.peek? = some '+' ∨ d.advance.peek? = some '-' then d.advance.advance else d.advance) := by
    have hd : d.Arrives d.advance := he.elim arrives_advance_of_peek? arrives_advance_of_peek?
    split
    · next hs => exact hd.trans (hs.elim arrives_advance_of_peek? arrives_advance_of_peek?)
    · exact hd
  generalize (if d.advance.peek? = some '+' ∨ d.advance.peek? = some '-' then d.advance.advance
    else d.advance) = e at hsign ⊢
  split
  · next he =>
    split
    · exact (hsign he).trans ((arrives_dropWhile _ _).trans (arrives_ending _))
    · exact hsign he
  · exact arrives_ending d

theorem advance_arrives_readNumber {ch : Char} {rest : List Char} (hc : c.rest = ch :: rest)
    (hd : ch.isDigit ∨ ch = '.') : c.advance.Arrives (readNumber c).2 := by
  unfold readNumber
  split
  · next d tail hr =>
    have htwo : c.advance.Arrives (c.advanceBy 2) := by
      obtain ⟨cs, pos⟩ := c
      cases hr
      exact arrives_advance (c := ⟨d :: tail, _⟩) rfl
    dsimp only
    split
    · split
      · exact htwo.trans (arrives_dropWhile _ _)
      · exact htwo
    · split
      · exact htwo.trans (arrives_dropWhile _ _)
      · split
        · exact advance_arrives_dropWhile hr (by decide)
        · exact advance_arrives_decimal hc hd
  · exact advance_arrives_decimal hc hd

end Cursor

/-! ### Tokens -/

/-- Whether the text of a token is the text of the source. -/
def TokenKind.isVerbatim : TokenKind → Bool
  | .illegal _ | .eof | .string => false
  | _ => true

namespace Punctuator

theorem chars_ne_nil (p : Punctuator) : p.chars ≠ [] := by
  cases p <;> exact List.cons_ne_nil _ _

theorem append_of_longestAt? {p : Punctuator} {cs : List Char} (h : longestAt? cs = some p) :
    ∃ rest, cs = p.chars ++ rest := by
  unfold longestAt? at h
  have hp := List.find?_some (p := fun q : Punctuator => q.chars.isPrefixOf cs) h
  obtain ⟨rest, hr⟩ := List.isPrefixOf_iff_prefix.1 hp
  exact ⟨rest, hr.symm⟩

end Punctuator

namespace Cursor

variable {c : Cursor} {ch : Char} {rest : List Char}

theorem ofWord_isVerbatim (s : String) : (TokenKind.ofWord s).isVerbatim := by
  unfold TokenKind.ofWord
  cases Keyword.ofText? s <;> rfl

/-- Within what is left, nothing goes past the end. -/
theorem walks_advanceBy (c : Cursor) {cs rest : List Char} (hc : c.rest = cs ++ rest) :
    c.Walks cs (c.advanceBy cs.length) := by
  induction cs generalizing c with
  | nil => exact .refl c
  | cons ch cs ih =>
    have hnext : c.advance.rest = cs ++ rest := by
      rw [advance, hc]
      rfl
    exact (walks_advance hc).trans (ih _ hnext)

end Cursor

end Stepwise

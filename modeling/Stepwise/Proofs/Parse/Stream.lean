import Stepwise.Parse.Stream
import Stepwise.Proofs.Token.Lexeme

/-!
# Readers over printed tokens

* `Stream.Before`: the tokens that are left are read as some lexemes.
* `Reader.Takes`: a reader takes lexemes from the front and gives a result with a property.
-/

namespace Stepwise

/-- The tokens that are left are those of the lexemes, and the end mark, and no error is reported. -/
def Stream.Before (s : Stream) (ls : List Lexeme) : Prop :=
  s.errors = [] ∧ ∃ (ts : List Token) (last : Token), s.current :: s.upcoming = ts ++ [last] ∧
    List.Forall₂ Lexeme.Reads ls ts ∧ last.kind = .eof

/-- The kind of the first token of lexemes. -/
def headKind (ls : List Lexeme) : TokenKind := (ls.head?.map Lexeme.kind).getD .eof

@[simp] theorem headKind_cons (l : Lexeme) (ls : List Lexeme) : headKind (l :: ls) = l.kind := rfl

@[simp] theorem headKind_nil : headKind [] = .eof := rfl

theorem Lexeme.kind_ne_illegal (l : Lexeme) (e : LexError) : l.kind ≠ .illegal e := by
  cases l with
  | word s =>
    intro he
    have hv := Cursor.ofWord_isVerbatim s
    rw [show TokenKind.ofWord s = .illegal e from he] at hv
    cases hv
  | number | string | mark => exact fun h => TokenKind.noConfusion h

theorem headKind_ne_illegal (ls : List Lexeme) (e : LexError) : headKind ls ≠ .illegal e := by
  cases ls with
  | nil => exact fun h => TokenKind.noConfusion h
  | cons l ls => exact l.kind_ne_illegal e

namespace Stream.Before

variable {s : Stream} {l : Lexeme} {ls : List Lexeme}

theorem current (h : s.Before (l :: ls)) : l.Reads s.current := by
  obtain ⟨-, ts, last, hs, hreads, -⟩ := h
  cases hreads with
  | cons hl hreads => exact (List.cons.inj hs).1 ▸ hl

theorem kind (h : s.Before ls) : s.current.kind = headKind ls := by
  cases ls with
  | nil =>
    obtain ⟨-, ts, last, hs, hreads, hlast⟩ := h
    cases hreads
    exact (List.cons.inj hs).1 ▸ hlast
  | cons l ls => exact h.current.kind

theorem length (h : s.Before ls) : s.upcoming.length = ls.length := by
  obtain ⟨-, ts, last, hs, hreads, -⟩ := h
  have := congrArg List.length hs
  have := hreads.length_eq
  simp only [List.length_cons, List.length_append, List.length_nil] at *
  omega

/-- Behind the first token stand the next ones. -/
theorem next (h : s.Before (l :: ls)) : s.next.Before ls := by
  obtain ⟨hs, ts, last, hts, hreads, hlast⟩ := h
  obtain ⟨stop, current, upcoming, errors⟩ := s
  cases hreads with
  | cons hl hreads =>
    obtain ⟨-, hts⟩ := List.cons.inj hts
    cases upcoming with
    | nil => exact absurd hts (by simp)
    | cons t upcoming =>
      cases hs
      exact ⟨rfl, _, last, hts, hreads, hlast⟩

end Stream.Before

namespace Reader

variable {α β : Type}

/-- From a stream before the first lexemes the reader gives a result with a property, and leaves the stream before
the others. -/
def Takes (r : Reader α) (before after : List Lexeme) (post : α → Prop) : Prop :=
  ∀ s : Stream, s.Before before → ∃ a s', r.run s = some (a, s') ∧ s'.Before after ∧ post a

variable {r : Reader α} {before between after : List Lexeme} {p : α → Prop} {q : β → Prop} {l : Lexeme}
  {ls : List Lexeme}

theorem Takes.bind {k : α → Reader β} (hr : r.Takes before between p) (hk : ∀ a, p a → (k a).Takes between after q) :
    (r >>= k).Takes before after q := by
  intro s hs
  obtain ⟨a, s', hrun, hs', ha⟩ := hr s hs
  obtain ⟨b, s'', hrun', hs'', hb⟩ := hk a ha s' hs'
  refine ⟨b, s'', ?_, hs'', hb⟩
  rw [run_bind, hrun]
  exact hrun'

theorem Takes.pure {a : α} (h : p a) : (Pure.pure a : Reader α).Takes before before p := fun s hs => ⟨a, s, rfl, hs, h⟩

theorem takes_current : current.Takes (l :: ls) (l :: ls) l.Reads := fun s hs => ⟨_, s, rfl, hs, hs.current⟩

theorem takes_token : current.Takes ls ls (·.kind = headKind ls) := fun s hs => ⟨_, s, rfl, hs, hs.kind⟩

theorem takes_kind : kind.Takes ls ls (· = headKind ls) := fun s hs => ⟨_, s, rfl, hs, hs.kind⟩

theorem takes_nextKind : nextKind.Takes (l :: ls) (l :: ls) (· = headKind ls) := by
  intro s hs
  refine ⟨_, s, rfl, hs, ?_⟩
  have hnext := hs.next.kind
  obtain ⟨herrors, ts, last, hts, hreads, -⟩ := hs
  obtain ⟨stop, current, upcoming, errors⟩ := s
  cases herrors
  cases upcoming with
  | nil =>
    cases hreads
    exact absurd (List.cons.inj hts).2 (by simp)
  | cons t upcoming => exact hnext

theorem takes_failIf {p : Prop} [Decidable p] {cause : ParseCause} (h : ¬p) : (failIf p cause).Takes ls ls fun _ => True := by
  unfold failIf
  rw [if_neg h]
  exact .pure trivial

theorem takes_refuseAt {k : TokenKind} {what : Unsupported} (h : headKind ls ≠ k) :
    (refuseAt k what).Takes ls ls fun _ => True := by
  refine takes_kind.bind ?_
  rintro _ rfl
  exact takes_failIf h

theorem takes_isAt (k : TokenKind) : (isAt k).Takes ls ls (· = (headKind ls == k)) := by
  refine takes_kind.bind ?_
  rintro _ rfl
  exact .pure rfl

theorem takes_isAtMark (p : Punctuator) : (isAtMark p).Takes ls ls (· = (headKind ls == .punctuator p)) := takes_isAt _

theorem takes_checkLegal : checkLegal.Takes ls ls fun _ => True := by
  refine takes_kind.bind ?_
  rintro _ rfl
  split
  · next e he => exact absurd he (headKind_ne_illegal ls e)
  · exact .pure trivial

theorem takes_advance : advance.Takes (l :: ls) ls fun _ => True := by
  have hshift : shift.Takes (l :: ls) ls fun _ => True := fun s hs => ⟨(), s.next, rfl, hs.next, trivial⟩
  exact hshift.bind fun _ _ => takes_checkLegal

theorem takes_expect {k : TokenKind} (hk : l.kind = k) : (expect k).Takes (l :: ls) ls fun _ => True := by
  refine takes_current.bind fun t ht => ?_
  rw [if_pos (ht.kind.trans hk)]
  exact takes_advance

theorem takes_expectMark (p : Punctuator) : (expectMark p).Takes (.mark p :: ls) ls fun _ => True := takes_expect rfl

theorem takes_skipMark (p : Punctuator) : (skipMark p).Takes (.mark p :: ls) ls (· = true) := by
  refine (takes_isAtMark p).bind ?_
  rintro _ rfl
  rw [if_pos (by simp [Lexeme.kind])]
  exact takes_advance.bind fun _ _ => .pure rfl

theorem takes_skipMark_none {p : Punctuator} (h : headKind ls ≠ .punctuator p) :
    (skipMark p).Takes ls ls (· = false) := by
  refine (takes_isAtMark p).bind ?_
  rintro _ rfl
  rw [if_neg (by simpa using h)]
  exact .pure rfl

theorem takes_separate (close : Punctuator) :
    (separate close).Takes (.mark close :: ls) (.mark close :: ls) fun _ => True := by
  refine (takes_isAtMark close).bind ?_
  rintro _ rfl
  rw [if_neg (by simp [Lexeme.kind])]
  exact .pure trivial

theorem takes_separate_comma {close : Punctuator} (h : close ≠ .comma) :
    (separate close).Takes (.mark .comma :: ls) ls fun _ => True := by
  refine (takes_isAtMark close).bind ?_
  rintro _ rfl
  rw [if_pos (by simpa [Lexeme.kind] using h.symm)]
  exact takes_expectMark .comma

theorem takes_here : here.Takes ls ls fun _ => True := fun s hs => ⟨_, s, rfl, hs, trivial⟩

theorem takes_spanFrom (start : Position) : (spanFrom start).Takes ls ls fun _ => True :=
  fun s hs => ⟨_, s, rfl, hs, trivial⟩

theorem takes_turns : turns.Takes ls ls (· = ls.length + 1) :=
  fun s hs => ⟨_, s, rfl, hs, congrArg (· + 1) hs.length⟩

theorem takes_endStatement : endStatement.Takes (.mark .semicolon :: ls) ls fun _ => True := by
  refine takes_current.bind fun t ht => ?_
  rw [if_pos (show t.kind = .punctuator .semicolon from ht.kind)]
  exact takes_advance

end Reader

end Stepwise

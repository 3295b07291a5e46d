import Stepwise.Parse.Error
import Stepwise.Tree.Basic

/-!
# The token stream

Reading goes on token by token with one token of lookahead. Once an error is reported, an end mark stands at the front
and no token is taken any more, so that every loop comes to its end; what is read from there on is not kept.

* `Reader`: takes tokens from the front of the stream and gives a result.
* `Reader.Returns`: a reader gives a result, and no error is reported.
-/

namespace Stepwise

/-- The tokens that are left, where the last one taken ended, and the errors reported so far. -/
structure Stream where
  previousStop : Position
  current : Token
  upcoming : List Token
  errors : List ParseError

namespace Stream

/-- The stream once the token at its front is taken. After an error there is no next token. -/
def next (s : Stream) : Stream :=
  match s.errors, s.upcoming with
  | [], t :: rest => { s with previousStop := s.current.stop, current := t, upcoming := rest }
  | _, _ => s

/-- The stream once an error is reported at its front: only an end mark is left, where the token was. Later errors are
not reported. -/
def report (s : Stream) (cause : ParseCause) : Stream :=
  match s.errors with
  | [] =>
    let start := s.current.start
    let stop := s.current.stop
    { s with current := ⟨.eof, "", start, stop, false⟩, upcoming := [], errors := [⟨cause, start, stop⟩] }
  | _ => s

/-- How readers may change a stream: after an error it stays as it is, and before that they report one at most. -/
def Onward (s s' : Stream) : Prop := s' = s ∨ s.errors = [] ∧ s'.errors.length ≤ 1

variable {s s' s'' : Stream}

theorem Onward.trans (h : s.Onward s') (h' : s'.Onward s'') : s.Onward s'' := by
  rcases h with rfl | ⟨hs, hle⟩
  · exact h'
  · rcases h' with rfl | ⟨-, hle'⟩
    · exact .inr ⟨hs, hle⟩
    · exact .inr ⟨hs, hle'⟩

/-- Where no error is reported, none was before. -/
theorem Onward.errors_eq_nil (h : s.Onward s') (hs' : s'.errors = []) : s.errors = [] := by
  rcases h with rfl | ⟨hs, -⟩
  · exact hs'
  · exact hs

theorem onward_next (s : Stream) : s.Onward s.next := by
  unfold next
  split
  · next hs _ => exact .inr ⟨hs, by simp [hs]⟩
  · exact .inl rfl

theorem onward_report (s : Stream) (cause : ParseCause) : s.Onward (s.report cause) := by
  unfold report
  split
  · next hs => exact .inr ⟨hs, Nat.le_refl 1⟩
  · exact .inl rfl

theorem errors_report_ne_nil (s : Stream) (cause : ParseCause) : (s.report cause).errors ≠ [] := by
  unfold report
  split
  · exact List.cons_ne_nil _ _
  · next h => exact fun hs => h hs

end Stream

/-- Takes tokens and gives a result, unless a bound on turns or on nesting is used up. -/
@[ext]
structure Reader (α : Type) where
  run : Stream → Option (α × Stream)
  onward : ∀ s a s', run s = some (a, s') → s.Onward s'

namespace Reader

variable {α β : Type}

/-- Looks at the stream. -/
def inspect (f : Stream → α) : Reader α where
  run s := some (f s, s)
  onward := by
    intro s a s' h
    cases h
    exact .inl rfl

/-- One reader after another. -/
protected def bind (r : Reader α) (k : α → Reader β) : Reader β where
  run s := (r.run s).bind fun x => (k x.1).run x.2
  onward := by
    intro s b s'' h
    obtain ⟨⟨a, s'⟩, hr, hk⟩ := Option.bind_eq_some_iff.1 h
    exact (r.onward s a s' hr).trans ((k a).onward s' b s'' hk)

instance : Monad Reader where
  pure a := inspect fun _ => a
  bind := Reader.bind

theorem run_bind (r : Reader α) (k : α → Reader β) (s : Stream) :
    (r >>= k).run s = (r.run s).bind fun x => (k x.1).run x.2 := rfl

theorem bind_pure_run (r : Reader α) : r.bind (inspect fun _ => ·) = r := by
  ext1
  funext s
  show ((r.run s).bind fun x => some (x.1, x.2)) = r.run s
  cases r.run s <;> rfl

theorem bind_assoc_run {γ : Type} (r : Reader α) (k : α → Reader β) (l : β → Reader γ) :
    (r.bind k).bind l = r.bind fun a => (k a).bind l := by
  ext1
  funext s
  exact Option.bind_assoc ..

instance : LawfulMonad Reader := LawfulMonad.mk' Reader bind_pure_run (fun _ _ => rfl) bind_assoc_run

/-- No result: a bound is used up. -/
def never : Reader α where
  run _ := none
  onward := by
    intro s a s' h
    cases h

/-- The token at the front. -/
def current : Reader Token := inspect Stream.current

/-- The kind of the token at the front. -/
def kind : Reader TokenKind := inspect (·.current.kind)

/-- The kind of the token after that. -/
def nextKind : Reader TokenKind := inspect fun s => (s.upcoming.head?.map Token.kind).getD .eof

/-- Reports an error at the current token. -/
def fail (cause : ParseCause) : Reader Unit where
  run s := some ((), s.report cause)
  onward := by
    intro s a s' h
    cases h
    exact s.onward_report cause

/-- Reports an error if a condition holds. -/
def failIf (p : Prop) [Decidable p] (cause : ParseCause) : Reader Unit := if p then fail cause else pure ()

/-- Reports a part that is refused. -/
def refuse (what : Unsupported) : Reader Unit := fail (.unsupported what)

/-- Reports a part that is refused if a token of this kind is at the front. -/
def refuseAt (k : TokenKind) (what : Unsupported) : Reader Unit := do failIf ((← kind) = k) (.unsupported what)

/-- Reports the current token if it is illegal. -/
def checkLegal : Reader Unit := do
  match ← kind with
  | .illegal e => fail (.lexical e)
  | _ => return

/-- Takes the token at the front without a look at the one behind it. -/
def shift : Reader Unit where
  run s := some ((), s.next)
  onward := by
    intro s a s' h
    cases h
    exact s.onward_next

/-- Takes the token at the front. -/
def advance : Reader Unit := do
  shift
  checkLegal

/-- Whether the token at the front is of this kind. -/
def isAt (k : TokenKind) : Reader Bool := return (← kind) == k

/-- Whether the token at the front is this punctuator. -/
def isAtMark (p : Punctuator) : Reader Bool := isAt (.punctuator p)

/-- Takes a token of this kind. -/
def expect (k : TokenKind) : Reader Unit := do
  let t ← current
  if t.kind = k then advance
  else if t.kind = .eof then fail (.expectedBeforeEnd k)
  else fail (.expected k t.text)

/-- Takes this punctuator. -/
def expectMark (p : Punctuator) : Reader Unit := expect (.punctuator p)

/-- Takes this punctuator if it is there. -/
def skipMark (p : Punctuator) : Reader Bool := do
  if ← isAtMark p then
    advance
    return true
  return false

/-- Takes a comma unless the list that it separates ends. -/
def separate (close : Punctuator) : Reader Unit := do if !(← isAtMark close) then expectMark .comma

/-- Where the token at the front starts. -/
def here : Reader Position := return (← current).start

/-- The span from `start` to the last token taken. -/
def spanFrom (start : Position) : Reader Loc := inspect fun s => .span start s.previousStop

/-- A bound on how often a loop can turn if each turn takes a token. -/
def turns : Reader Nat := inspect fun s => s.upcoming.length + 1

/-- Ends a statement: with a semicolon, before a closing brace, at the end or before a line break. -/
def endStatement : Reader Unit := do
  let t ← current
  if t.kind = .punctuator .semicolon then advance
  else if t.kind = .punctuator .rightBrace ∨ t.kind = .eof ∨ t.newlineBefore then return
  else fail (.expected (.punctuator .semicolon) t.text)

/-! ### Results without an error -/

/-- From the first stream the reader gives the result and leaves the second one, with no error reported. -/
def Returns (r : Reader α) (s : Stream) (a : α) (s' : Stream) : Prop := r.run s = some (a, s') ∧ s'.errors = []

variable {r : Reader α} {k : α → Reader β} {s s' : Stream} {b : β} {u : Unit}

/-- After an error there is none. -/
theorem Returns.errors_eq_nil (h : (r.Returns s a s')) : s.errors = [] := (r.onward s a s' h.1).errors_eq_nil h.2

/-- Both readers give their results without an error. -/
theorem Returns.exists_of_bind (h : (r >>= k).Returns s b s') : ∃ a s₁, r.Returns s a s₁ ∧ (k a).Returns s₁ b s' := by
  obtain ⟨⟨a, s₁⟩, hr, hk⟩ := Option.bind_eq_some_iff.1 h.1
  exact ⟨a, s₁, ⟨hr, ((k a).onward s₁ b s' hk).errors_eq_nil h.2⟩, hk, h.2⟩

theorem Returns.bind {a : α} {s₁ : Stream} (hr : r.Returns s a s₁) (hk : (k a).Returns s₁ b s') :
    (r >>= k).Returns s b s' := by
  refine ⟨?_, hk.2⟩
  rw [run_bind, hr.1]
  exact hk.1

theorem not_returns_fail (cause : ParseCause) : ¬(fail cause).Returns s u s' := by
  rintro ⟨h, hs'⟩
  cases h
  exact s.errors_report_ne_nil cause hs'

theorem of_returns_failIf {p : Prop} [Decidable p] {cause : ParseCause} (h : (failIf p cause).Returns s u s') :
    ¬p ∧ s' = s := by
  unfold failIf at h
  split at h
  · exact absurd h (not_returns_fail cause)
  · next hp =>
    cases h.1
    exact ⟨hp, rfl⟩

end Reader

/-- The stream of a source's tokens. -/
def Stream.ofTokens : List Token → Stream
  | [] => ⟨.start, ⟨.eof, "", .start, .start, false⟩, [], []⟩
  | t :: rest => ⟨.start, t, rest, []⟩

end Stepwise

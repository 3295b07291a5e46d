import Stepwise.Parse.Program

/-!
# Readers that come to their end

Readers are given bounds: on how often a loop turns, which is how many tokens are left, and on how deep parts nest. No
bound is used up, before an error or after it, and larger ones change nothing.

* `Stream.Ends`: the last token is the only end mark, and after an error nothing else is left.
* `Reader.Agrees`: two readers come to the same from a stream that ends. They give a result, and go on at a token of the
  stream or report an error at one.
-/

namespace Stepwise

/-! ### Streams -/

namespace Stream

/-- How many tokens are left behind the one at the front. -/
def ahead (s : Stream) : Nat := s.upcoming.length

/-- The second stream is further on, unless nothing is left. -/
abbrev Past {α : Type} (s : Stream) (_ : α) (s' : Stream) : Prop := s'.ahead ≤ s.ahead - 1

/-- The last token is the only end mark, and after an error nothing else is left. -/
structure Ends (s : Stream) : Prop where
  mark : ∃ (words : List Token) (last : Token),
    s.current :: s.upcoming = words ++ [last] ∧ last.kind = .eof ∧ ∀ t ∈ words, t.kind ≠ .eof
  stopped : s.errors ≠ [] → s.upcoming = []

/-- The second stream holds the last tokens of the first one, or an error is reported at one of them. -/
def LeadsTo (s s' : Stream) : Prop :=
  s'.errors = s.errors ∧ s'.current :: s'.upcoming <:+ s.current :: s.upcoming ∨
    s.errors = [] ∧ s'.upcoming = [] ∧ ∃ (cause : ParseCause) (t : Token),
      t ∈ s.current :: s.upcoming ∧ s'.errors = [⟨cause, t.start, t.stop⟩]

variable {s s' s'' : Stream}

theorem LeadsTo.refl (s : Stream) : s.LeadsTo s := .inl ⟨rfl, List.suffix_refl _⟩

theorem LeadsTo.trans (h : s.LeadsTo s') (h' : s'.LeadsTo s'') : s.LeadsTo s'' := by
  rcases h with ⟨hs, hts⟩ | ⟨hs, hup, cause, t, ht, he⟩
  · rcases h' with ⟨hs', hts'⟩ | ⟨hs', hup', cause, t, ht, he⟩
    · exact .inl ⟨hs'.trans hs, hts'.trans hts⟩
    · exact .inr ⟨hs ▸ hs', hup', cause, t, hts.subset ht, he⟩
  · rcases h' with ⟨hs', hts'⟩ | ⟨hs', -⟩
    · have hlength := hts'.length_le
      simp only [List.length_cons, hup, List.length_nil] at hlength
      exact .inr ⟨hs, List.length_eq_zero_iff.1 (by omega), cause, t, ht, hs'.trans he⟩
    · rw [he] at hs'
      cases hs'

theorem LeadsTo.ahead_le (h : s.LeadsTo s') : s'.ahead ≤ s.ahead := by
  rcases h with ⟨-, hts⟩ | ⟨-, hup, -⟩
  · have hlength := hts.length_le
    simp only [List.length_cons] at hlength
    exact Nat.le_of_succ_le_succ hlength
  · rw [ahead, hup]
    exact Nat.zero_le _

/-- Before the end mark there is another token. -/
theorem Ends.ahead_pos (h : s.Ends) (hk : s.current.kind ≠ .eof) : 0 < s.ahead := by
  obtain ⟨words, last, hts, hlast, -⟩ := h.mark
  cases words with
  | nil =>
    obtain ⟨hcurrent, -⟩ := List.cons.inj hts
    exact absurd (hcurrent ▸ hlast) hk
  | cons word words =>
    obtain ⟨-, hup⟩ := List.cons.inj hts
    have hlength : s.ahead = (words ++ [last]).length := congrArg List.length hup
    rw [hlength, List.length_append]
    exact Nat.succ_pos _

/-- At the end and after an error no token is taken. -/
theorem Ends.next (h : s.Ends) : s.next.Ends ∧ s.LeadsTo s.next ∧ s.next.ahead ≤ s.ahead - 1 := by
  obtain ⟨⟨words, last, hts, hlast, hwords⟩, hstopped⟩ := h
  unfold Stream.next
  split
  · next t rest hs hup =>
    rw [hup] at hts
    refine ⟨⟨?_, fun he => absurd hs he⟩, .inl ⟨rfl, ?_⟩, ?_⟩
    · cases words with
      | nil => cases hts
      | cons word words => exact ⟨words, last, (List.cons.inj hts).2, hlast, (List.forall_mem_cons.1 hwords).2⟩
    · rw [hup]
      exact List.suffix_cons _ _
    · simp [ahead, hup]
  · next hno =>
    refine ⟨⟨⟨words, last, hts, hlast, hwords⟩, hstopped⟩, .refl s, ?_⟩
    have hup : s.upcoming = [] := by
      cases hup : s.upcoming with
      | nil => rfl
      | cons t rest => exact (hup.symm.trans (hstopped fun hs => hno t rest hs hup))
    simp [ahead, hup]

/-- Where an error is reported nothing is left. -/
theorem Ends.report (h : s.Ends) (cause : ParseCause) :
    (s.report cause).Ends ∧ s.LeadsTo (s.report cause) ∧ (s.report cause).ahead = 0 := by
  unfold Stream.report
  split
  · next hs =>
    refine ⟨⟨⟨[], _, rfl, rfl, List.forall_mem_nil _⟩, fun _ => rfl⟩, .inr ⟨hs, rfl, cause, s.current, ?_, rfl⟩, rfl⟩
    exact List.mem_cons_self
  · next hs =>
    refine ⟨h, .refl s, ?_⟩
    rw [ahead, h.stopped hs]
    rfl

/-- Loops with a bound that is larger than the number of tokens that are left, if every turn but the last one takes a
token. -/
@[elab_as_elim]
theorem turn_induction {motive : Nat → Stream → Prop} {n turns : Nat} {s : Stream} (hn : s.ahead ≤ n)
    (ht : s.ahead < turns)
    (hturn : ∀ turns s, s.ahead ≤ n → (∀ s' : Stream, s'.ahead < s.ahead → motive turns s') → motive (turns + 1) s) :
    motive turns s := by
  induction turns generalizing s with
  | zero => cases ht
  | succ turns ih => exact hturn turns s hn fun s' hs' => ih (by omega) (by omega)

end Stream

/-! ### Readers -/

namespace Reader

variable {α β : Type}

/-- From a stream that ends, both readers give the same result, with a property. They go on at a token of the stream, or
report an error at one. -/
def Agrees (r r' : Reader α) (s : Stream) (Q : α → Stream → Prop) : Prop :=
  s.Ends → ∃ a s', r.run s = some (a, s') ∧ r'.run s = some (a, s') ∧ s'.Ends ∧ s.LeadsTo s' ∧ Q a s'

variable {r r' : Reader α} {s : Stream} {P : α → Stream → Prop} {Q : β → Stream → Prop} {k k' : α → Reader β}
  {x x' y y' : Reader β}

theorem agrees_pure {a : α} (h : P a s) : (pure a : Reader α).Agrees (pure a) s P :=
  fun hs => ⟨a, s, rfl, rfl, hs, .refl s, h⟩

theorem agrees_fail (cause : ParseCause) : (fail cause).Agrees (fail cause) s fun _ s' => s'.ahead = 0 :=
  fun hs => ⟨(), s.report cause, rfl, rfl, hs.report cause⟩

theorem agrees_isAt (kd : TokenKind) : (isAt kd).Agrees (isAt kd) s fun b s' =>
    s' = s ∧ (b = true → s.current.kind = kd) :=
  fun hs => ⟨s.current.kind == kd, s, rfl, rfl, hs, .refl s, rfl, beq_iff_eq.1⟩

namespace Agrees

theorem bind (hr : r.Agrees r' s P)
    (hk : ∀ a s', s'.ahead ≤ s.ahead → P a s' → (k a).Agrees (k' a) s' Q) : (r >>= k).Agrees (r' >>= k') s Q := by
  intro hs
  obtain ⟨a, s₁, hrun, hrun', hs₁, hleads, ha⟩ := hr hs
  obtain ⟨b, s₂, hnext, hnext', hs₂, hleads', hb⟩ := hk a s₁ hleads.ahead_le ha hs₁
  refine ⟨b, s₂, ?_, ?_, hs₂, hleads.trans hleads', hb⟩
  · rw [run_bind, hrun]
    exact hnext
  · rw [run_bind, hrun']
    exact hnext'

theorem mono {P' : α → Stream → Prop} (hr : r.Agrees r' s P) (h : ∀ a s', s'.ahead ≤ s.ahead → P a s' → P' a s') :
    r.Agrees r' s P' := by
  have hbind : (r >>= pure).Agrees (r' >>= pure) s P' := hr.bind fun a s' hle ha => agrees_pure (h a s' hle ha)
  rwa [bind_pure, bind_pure] at hbind

theorem map {f : α → β} (hr : r.Agrees r' s P) (h : ∀ a s', s'.ahead ≤ s.ahead → P a s' → Q (f a) s') :
    (f <$> r).Agrees (f <$> r') s Q := by
  rw [map_eq_pure_bind, map_eq_pure_bind]
  exact hr.bind fun a s' hle ha => agrees_pure (h a s' hle ha)

/-- Behind a token that is no end mark another one is left. -/
theorem of_word (hk : s.current.kind ≠ .eof) (h : 0 < s.ahead → r.Agrees r' s P) : r.Agrees r' s P :=
  fun hs => h (hs.ahead_pos hk) hs

/-! Readers that look at the stream and leave it as it is. -/

theorem of_pure {a : α} (h : (k a).Agrees (k' a) s Q) : (pure a >>= k).Agrees (pure a >>= k') s Q := h

theorem of_current {k k' : Token → Reader β} (h : (k s.current).Agrees (k' s.current) s Q) :
    (current >>= k).Agrees (current >>= k') s Q := h

theorem of_kind {k k' : TokenKind → Reader β} (h : (k s.current.kind).Agrees (k' s.current.kind) s Q) :
    (kind >>= k).Agrees (kind >>= k') s Q := h

theorem of_nextKind {k k' : TokenKind → Reader β} (h : ∀ next, (k next).Agrees (k' next) s Q) :
    (nextKind >>= k).Agrees (nextKind >>= k') s Q := h _

theorem of_here {k k' : Position → Reader β} (h : (k s.current.start).Agrees (k' s.current.start) s Q) :
    (here >>= k).Agrees (here >>= k') s Q := h

theorem of_spanFrom {start : Position} {k k' : Loc → Reader β}
    (h : (k (.span start s.previousStop)).Agrees (k' (.span start s.previousStop)) s Q) :
    (spanFrom start >>= k).Agrees (spanFrom start >>= k') s Q := h

/-- The bound of a loop is larger than the number of tokens that are left. -/
theorem of_turns {k k' : Nat → Reader β} (h : ∀ turns, s.ahead < turns → (k turns).Agrees (k' turns) s Q) :
    (turns >>= k).Agrees (turns >>= k') s Q := h _ (Nat.lt_succ_self _)

theorem of_isAt {kd : TokenKind} (hx : s.current.kind = kd → x.Agrees x' s Q)
    (hy : s.current.kind ≠ kd → y.Agrees y' s Q) :
    (isAt kd >>= fun b => if b then x else y).Agrees (isAt kd >>= fun b => if b then x' else y') s Q := by
  have hif : (if s.current.kind == kd then x else y).Agrees (if s.current.kind == kd then x' else y') s Q := by
    split
    · next h => exact hx (beq_iff_eq.1 h)
    · next h => exact hy fun he => h (beq_iff_eq.2 he)
  exact hif

theorem of_isAt_or {kd kd' : TokenKind} (hx : s.current.kind = kd ∨ s.current.kind = kd' → x.Agrees x' s Q)
    (hy : ¬(s.current.kind = kd ∨ s.current.kind = kd') → y.Agrees y' s Q) :
    (isAt kd >>= fun b => isAt kd' >>= fun c => if b || c then x else y).Agrees
      (isAt kd >>= fun b => isAt kd' >>= fun c => if b || c then x' else y') s Q := by
  have hif : (if s.current.kind == kd || s.current.kind == kd' then x else y).Agrees
      (if s.current.kind == kd || s.current.kind == kd' then x' else y') s Q := by
    simp only [Bool.or_eq_true, beq_iff_eq]
    split
    · next h => exact hx h
    · next h => exact hy h
  exact hif

/-! Readers that may report an error, and then leave nothing. -/

theorem of_fail {cause : ParseCause} {k k' : Unit → Reader β} (h : ∀ s' : Stream, s'.ahead = 0 → (k ()).Agrees (k' ()) s' Q) :
    (fail cause >>= k).Agrees (fail cause >>= k') s Q :=
  (agrees_fail cause).bind fun _ s' _ => h s'

theorem of_failIf_cases {p : Prop} [Decidable p] {cause : ParseCause} {k k' : Unit → Reader β}
    (hp : p → ∀ s' : Stream, s'.ahead = 0 → (k ()).Agrees (k' ()) s' Q) (hn : ¬p → (k ()).Agrees (k' ()) s Q) :
    (failIf p cause >>= k).Agrees (failIf p cause >>= k') s Q := by
  unfold failIf
  split
  · next h => exact of_fail (hp h)
  · next h => exact hn h

theorem of_failIf {p : Prop} [Decidable p] {cause : ParseCause} {k k' : Unit → Reader β}
    (h : ∀ s' : Stream, s'.ahead ≤ s.ahead → (k ()).Agrees (k' ()) s' Q) :
    (failIf p cause >>= k).Agrees (failIf p cause >>= k') s Q :=
  of_failIf_cases (fun _ s' hs' => h s' (by omega)) fun _ => h s (Nat.le_refl _)

theorem of_refuseAt {kd : TokenKind} {what : Unsupported} {k k' : Unit → Reader β}
    (h : ∀ s' : Stream, s'.ahead ≤ s.ahead → (k ()).Agrees (k' ()) s' Q) :
    (refuseAt kd what >>= k).Agrees (refuseAt kd what >>= k') s Q := by
  unfold refuseAt
  rw [bind_assoc, bind_assoc]
  exact of_kind (of_failIf h)

end Agrees

theorem agrees_checkLegal : checkLegal.Agrees checkLegal s fun _ _ => True := by
  refine .of_kind ?_
  split
  · exact (agrees_fail _).mono fun _ _ _ _ => trivial
  · exact agrees_pure trivial

theorem agrees_advance : advance.Agrees advance s s.Past := by
  have hshift : shift.Agrees shift s s.Past := fun hs => ⟨(), s.next, rfl, rfl, hs.next⟩
  exact hshift.bind fun _ s' _ hpast => agrees_checkLegal.mono fun _ s'' hle _ => by omega

namespace Agrees

/-! Readers that take a token. -/

theorem of_advance {k k' : Unit → Reader β} (h : ∀ s' : Stream, s'.ahead ≤ s.ahead - 1 → (k ()).Agrees (k' ()) s' Q) :
    (advance >>= k).Agrees (advance >>= k') s Q :=
  agrees_advance.bind fun _ s' _ => h s'

/-- A token that is no end mark is taken. -/
theorem of_take {k k' : Unit → Reader β} (hk : s.current.kind ≠ .eof)
    (h : ∀ s' : Stream, s'.ahead < s.ahead → (k ()).Agrees (k' ()) s' Q) :
    (advance >>= k).Agrees (advance >>= k') s Q :=
  of_word hk fun hpos => of_advance fun s' hs' => h s' (by omega)

theorem of_expect {kd : TokenKind} {k k' : Unit → Reader β}
    (h : ∀ s' : Stream, s'.ahead ≤ s.ahead - 1 → (k ()).Agrees (k' ()) s' Q) :
    (expect kd >>= k).Agrees (expect kd >>= k') s Q := by
  have hexpect : (expect kd).Agrees (expect kd) s s.Past := by
    refine of_current ?_
    split
    · exact agrees_advance
    · split
      · exact (agrees_fail _).mono fun _ s' _ hs' => by omega
      · exact (agrees_fail _).mono fun _ s' _ hs' => by omega
  exact hexpect.bind fun _ s' _ => h s'

theorem of_expectMark {p : Punctuator} {k k' : Unit → Reader β}
    (h : ∀ s' : Stream, s'.ahead ≤ s.ahead - 1 → (k ()).Agrees (k' ()) s' Q) :
    (expectMark p >>= k).Agrees (expectMark p >>= k') s Q := of_expect h

theorem of_skipMark {p : Punctuator} (hx : ∀ s' : Stream, s'.ahead < s.ahead → x.Agrees x' s' Q)
    (hy : s.current.kind ≠ .punctuator p → y.Agrees y' s Q) :
    (skipMark p >>= fun b => if b then x else y).Agrees (skipMark p >>= fun b => if b then x' else y') s Q := by
  have hskip : (skipMark p).Agrees (skipMark p) s fun b s' =>
      (b = true → s'.ahead < s.ahead) ∧ (b = false → s' = s ∧ s.current.kind ≠ .punctuator p) := by
    refine of_isAt (fun hk => ?_) fun hk => ?_
    · exact of_take (by simp [hk]) fun s' hs' => agrees_pure ⟨fun _ => hs', fun h => Bool.noConfusion h⟩
    · exact agrees_pure ⟨fun h => Bool.noConfusion h, fun _ => ⟨rfl, hk⟩⟩
  refine hskip.bind fun b s' _ hb => ?_
  split
  · next h => exact hx s' (hb.1 h)
  · next h =>
    obtain ⟨rfl, hk⟩ := hb.2 (Bool.eq_false_iff.2 h)
    exact hy hk

/-- A comma stands before the next part of a list, unless the list ends. -/
theorem of_separate {p : Punctuator} {k k' : Unit → Reader β}
    (h : ∀ s' : Stream, s'.ahead ≤ s.ahead → (k ()).Agrees (k' ()) s' Q) :
    (separate p >>= k).Agrees (separate p >>= k') s Q := by
  have hcomma : (expectMark .comma).Agrees (expectMark .comma) s fun _ _ => True := by
    have hbind : (expectMark .comma >>= pure).Agrees (expectMark .comma >>= pure) s fun _ _ => True :=
      of_expectMark fun _ _ => agrees_pure trivial
    rwa [bind_pure] at hbind
  have hseparate : (separate p).Agrees (separate p) s fun _ _ => True := by
    have hif : (if !s.current.kind == .punctuator p then expectMark .comma else pure ()).Agrees
        (if !s.current.kind == .punctuator p then expectMark .comma else pure ()) s fun _ _ => True := by
      split
      · exact hcomma
      · exact agrees_pure trivial
    exact hif
  exact hseparate.bind fun _ s' hle _ => h s' hle

theorem of_endStatement {k k' : Unit → Reader β}
    (h : ∀ s' : Stream, s'.ahead ≤ s.ahead → (k ()).Agrees (k' ()) s' Q) :
    (endStatement >>= k).Agrees (endStatement >>= k') s Q := by
  have hend : endStatement.Agrees endStatement s fun _ _ => True := by
    refine of_current ?_
    split
    · exact agrees_advance.mono fun _ _ _ _ => trivial
    · split
      · exact agrees_pure trivial
      · exact (agrees_fail _).mono fun _ _ _ _ => trivial
  exact hend.bind fun _ s' hle _ => h s' hle

end Agrees

end Reader

end Stepwise

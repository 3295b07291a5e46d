import Stepwise.Parse.Program
import Stepwise.Proofs.Token.Position
import Stepwise.Proofs.Tree.Spelling

/-!
# The tokens that readers take

* `Stream.Took`: the tokens between two streams.
* `Stream.Passes`, `Stream.Reads`: these tokens are those of some nodes, or of one node.
* `Reader.Yields`: what a reader gives from a stream, and the stream it leaves, have a property.
-/

namespace Stepwise

namespace TokenKind

/-- Whether a token is neither a bracket nor the end mark. -/
def isPlain (k : TokenKind) : Bool := !k.isBracket && k != .eof

theorem not_isBracket_of_isPlain {k : TokenKind} (h : k.isPlain) : ¬k.isBracket := by
  unfold isPlain at h
  simp only [Bool.and_eq_true, Bool.not_eq_true'] at h
  simp [h.1]

theorem ne_eof_of_isPlain {k : TokenKind} (h : k.isPlain) : k ≠ .eof := by
  rintro rfl
  cases h

end TokenKind

/-! ### Streams -/

namespace Stream

/-- The tokens that are left. -/
def tokens (s : Stream) : List Token := s.current :: s.upcoming

/-- The last token that is left is the only end mark, tokens with the text of the source are not empty, and no name is a
keyword. -/
structure IsSound (s : Stream) : Prop where
  ends : ∃ (words : List Token) (last : Token), s.tokens = words ++ [last] ∧ last.kind = .eof ∧ ∀ t ∈ words, t.kind ≠ .eof
  verbatim : ∀ t ∈ s.tokens, t.kind.isVerbatim → t.text ≠ ""
  names : ∀ t ∈ s.tokens, t.kind = .identifier → TokenKind.ofWord t.text = .identifier
  legal : s.current.IsLegal

/-- The tokens were taken between two streams. -/
structure Took (s : Stream) (ts : List Token) (s' : Stream) : Prop where
  tokens : s.tokens = ts ++ s'.tokens
  previous : s'.previousStop = (ts.getLast?.map Token.stop).getD s.previousStop
  legal : ∀ t ∈ ts, t.IsLegal

variable {s s' s'' : Stream} {ts us : List Token}

theorem Took.refl (s : Stream) : s.Took [] s := ⟨rfl, rfl, List.forall_mem_nil _⟩

theorem Took.trans (h : s.Took ts s') (h' : s'.Took us s'') : s.Took (ts ++ us) s'' := by
  refine ⟨?_, ?_, List.forall_mem_append.2 ⟨h.legal, h'.legal⟩⟩
  · rw [h.tokens, h'.tokens, List.append_assoc]
  · rw [h'.previous, h.previous, List.getLast?_append]
    cases us.getLast? <;> rfl

theorem Took.current (h : s.Took ts s') : ∀ t ∈ ts.head?, t = s.current := by
  intro t ht
  obtain ⟨us, rfl⟩ := List.head?_eq_some_iff.1 ht
  exact (List.cons.inj h.tokens).1.symm

theorem Took.stop (h : s.Took ts s') : ∀ t ∈ ts.getLast?, t.stop = s'.previousStop := by
  intro t ht
  rw [h.previous, Option.mem_def.1 ht]
  rfl

/-- A token of a kind was taken. -/
def Shifts (s : Stream) (k : TokenKind) (s' : Stream) : Prop := ∃ t, t.kind = k ∧ s.Took [t] s'

/-- The tokens taken are those of the nodes. -/
def Passes (s : Stream) (ns : List Node) (s' : Stream) : Prop := ∃ ts, s.Took ts s' ∧ SpellParts ts ns

/-- The tokens taken are those of the nodes, and there are some. -/
def Covers (s : Stream) (ns : List Node) (s' : Stream) : Prop := ∃ ts, s.Took ts s' ∧ ts ≠ [] ∧ SpellParts ts ns

/-- The tokens taken are those of the node. -/
def Reads (s : Stream) (n : Node) (s' : Stream) : Prop := ∃ ts, s.Took ts s' ∧ Spells ts n

variable {ns ms : List Node} {n : Node} {k : TokenKind}

theorem Passes.refl (s : Stream) : s.Passes [] s := ⟨[], .refl s, .nil⟩

theorem Passes.trans (h : s.Passes ns s') (h' : s'.Passes ms s'') : s.Passes (ns ++ ms) s'' := by
  obtain ⟨ts, htook, hts⟩ := h
  obtain ⟨us, htook', hus⟩ := h'
  exact ⟨ts ++ us, htook.trans htook', hts.append hus⟩

theorem Covers.passes (h : s.Covers ns s') : s.Passes ns s' :=
  let ⟨ts, htook, _, hts⟩ := h
  ⟨ts, htook, hts⟩

theorem Covers.trans (h : s.Covers ns s') (h' : s'.Passes ms s'') : s.Covers (ns ++ ms) s'' := by
  obtain ⟨ts, htook, hne, hts⟩ := h
  obtain ⟨us, htook', hus⟩ := h'
  exact ⟨ts ++ us, htook.trans htook', List.append_ne_nil_of_left_ne_nil hne us, hts.append hus⟩

theorem Shifts.kind (h : s.Shifts k s') : s.current.kind = k := by
  obtain ⟨t, rfl, htook⟩ := h
  exact congrArg Token.kind (List.cons.inj htook.tokens).1

theorem Shifts.covers (h : s.Shifts k s') (hk : k.isPlain) : s.Covers [] s' := by
  obtain ⟨t, rfl, htook⟩ := h
  exact ⟨[t], htook, List.cons_ne_nil t [], .of_word (TokenKind.not_isBracket_of_isPlain hk)⟩

theorem Shifts.passes (h : s.Shifts k s') (hk : k.isPlain) : s.Passes [] s' := (h.covers hk).passes

theorem Reads.covers (h : s.Reads n s') : s.Covers [n] s' := by
  obtain ⟨ts, htook, hts⟩ := h
  exact ⟨ts, htook, hts.ne_nil, .of_node hts⟩

theorem Reads.passes (h : s.Reads n s') : s.Passes [n] s' := h.covers.passes

theorem Reads.isRegular (h : s.Reads n s') : n.isRegular :=
  let ⟨_, _, hts⟩ := h
  hts.isRegular

/-- Nodes between brackets. -/
theorem Shifts.encloses {p q : Punctuator} {a b : Stream} (hl : s.Shifts (.punctuator p) a) (h : a.Passes ns b)
    (hr : b.Shifts (.punctuator q) s') (hpq : p.closing? = some q) : s.Covers ns s' := by
  obtain ⟨l, hlk, hl⟩ := hl
  obtain ⟨ts, htook, hts⟩ := h
  obtain ⟨r, hrk, hr⟩ := hr
  refine ⟨l :: (ts ++ [r]), hl.trans (htook.trans hr), List.cons_ne_nil l _, ?_⟩
  have hparts := SpellParts.enclosed hlk hrk hpq hts .nil
  rwa [List.append_nil, List.append_nil] at hparts

/-- Parentheses around an expression. -/
theorem Shifts.groups {e : Expr} {a b : Stream} (hl : s.Shifts (.punctuator .leftParen) a) (h : a.Reads (.expr e) b)
    (hr : b.Shifts (.punctuator .rightParen) s') : s.Reads (.expr e) s' := by
  obtain ⟨l, hlk, hl⟩ := hl
  obtain ⟨ts, htook, hts⟩ := h
  obtain ⟨r, hrk, hr⟩ := hr
  exact ⟨l :: (ts ++ [r]), hl.trans (htook.trans hr), .group hlk hrk hts⟩

/-- A node from the front of a stream to the last token taken. -/
theorem Covers.reads (h : s.Covers ns s') (hloc : n.loc = .span s.current.start s'.previousStop) (hn : n.isRegular)
    (hns : ns = n.children) : s.Reads n s' := by
  obtain ⟨ts, htook, hne, hts⟩ := h
  refine ⟨ts, htook, .node hne (fun t ht => ?_) (fun t ht => ?_) hn (hns ▸ hts)⟩
  · rw [hloc, htook.current t ht]
    rfl
  · rw [hloc, htook.stop t ht]
    rfl

/-- A property access. -/
theorem Reads.access {object : Expr} (h : s.Reads (.expr object) s') (h' : s'.Covers ns s'')
    (hk : n.kind = .memberExpression) (hloc : n.loc = .span object.loc.start s''.previousStop) (hn : n.isRegular)
    (hns : n.children = .expr object :: ns) : s.Reads n s'' := by
  obtain ⟨ts, htook, hts⟩ := h
  obtain ⟨us, htook', hne, hus⟩ := h'
  refine ⟨ts ++ us, htook.trans htook', .access hk hns hne ?_ (fun t ht => ?_) hn hts hus⟩
  · rw [hloc]
    rfl
  · rw [hloc, htook'.stop t ht]
    rfl

end Stream

/-! ### Readers -/

namespace Reader

variable {α β : Type}

/-- What the reader gives from the stream without an error, and the stream that it leaves, have the property. -/
def Yields (r : Reader α) (s : Stream) (Q : α → Stream → Prop) : Prop :=
  s.IsSound → ∀ a s', r.Returns s a s' → s'.IsSound ∧ Q a s'

variable {r : Reader α} {s : Stream} {P : α → Stream → Prop} {Q : β → Stream → Prop} {k : α → Reader β}

theorem yields_pure {a : α} (h : P a s) : (pure a : Reader α).Yields s P := by
  intro hs b s' hb
  cases hb.1
  exact ⟨hs, h⟩

theorem yields_never : (never : Reader α).Yields s P := by
  intro _ a s' h
  cases h.1

theorem yields_fail {cause : ParseCause} {P : Unit → Stream → Prop} : (fail cause).Yields s P := by
  intro _ a s' h
  exact absurd h (not_returns_fail cause)

theorem of_returns_checkLegal {s s' : Stream} {u : Unit} (h : checkLegal.Returns s u s') :
    s' = s ∧ s.current.IsLegal := by
  obtain ⟨k, s₁, hkind, h⟩ := h.exists_of_bind
  cases hkind.1
  dsimp only at h
  split at h
  · exact absurd h (not_returns_fail _)
  · next hlegal =>
    cases h.1
    exact ⟨rfl, hlegal⟩

/-- The token at the front can be taken if it is not the end mark. -/
theorem yields_advance {kd : TokenKind} (hk : s.current.kind = kd) (he : kd ≠ .eof) :
    advance.Yields s fun _ s' => s.Shifts kd s' := by
  intro hs a s' h
  have herrors := h.errors_eq_nil
  obtain ⟨_, s₁, hshift, h⟩ := h.exists_of_bind
  cases hshift.1
  obtain ⟨rfl, hlegal⟩ := of_returns_checkLegal h
  obtain ⟨words, last, hts, hlast, hwords⟩ := hs.ends
  obtain ⟨stop, current, upcoming, errors⟩ := s
  cases herrors
  cases upcoming with
  | nil =>
    have hone : [] ++ [current] = words ++ [last] := hts
    obtain ⟨-, hcurrent⟩ := List.append_inj' hone rfl
    cases hcurrent
    exact absurd (hk.symm.trans hlast) he
  | cons t rest =>
    refine ⟨⟨?_, ?_, ?_, hlegal⟩, current, hk, rfl, rfl, List.forall_mem_singleton.2 hs.legal⟩
    · cases words with
      | nil => cases hts
      | cons word words =>
        exact ⟨words, last, (List.cons.inj hts).2, hlast, fun t ht => hwords t (List.mem_cons_of_mem _ ht)⟩
    · exact fun t ht => hs.verbatim t (List.mem_cons_of_mem _ ht)
    · exact fun t ht => hs.names t (List.mem_cons_of_mem _ ht)

theorem yields_isAt (kd : TokenKind) : (isAt kd).Yields s fun b s' => s' = s ∧ (b = true → s.current.kind = kd) := by
  have hpure : (pure (s.current.kind == kd) : Reader Bool).Yields s fun b s' =>
      s' = s ∧ (b = true → s.current.kind = kd) :=
    yields_pure ⟨rfl, beq_iff_eq.1⟩
  exact hpure

namespace Yields

theorem bind (hr : r.Yields s P) (hk : ∀ a s', P a s' → (k a).Yields s' Q) : (r >>= k).Yields s Q := by
  intro hs b s'' h
  obtain ⟨a, s', hx, h⟩ := h.exists_of_bind
  obtain ⟨hs', ha⟩ := hr hs a s' hx
  exact hk a s' ha hs' b s'' h

theorem mono {P' : α → Stream → Prop} (hr : r.Yields s P) (h : ∀ a s', P a s' → P' a s') : r.Yields s P' :=
  fun hs a s' he => (hr hs a s' he).imp_right (h a s')

theorem map {f : α → β} (hr : r.Yields s P) (hf : ∀ a s', P a s' → Q (f a) s') : (f <$> r).Yields s Q := by
  rw [map_eq_pure_bind]
  exact hr.bind fun a s' ha => yields_pure (hf a s' ha)

/-- Nothing is given without an error where one is reported. -/
theorem of_fail {cause : ParseCause} {k : Unit → Reader β} : (fail cause >>= k).Yields s Q :=
  (yields_fail (P := fun _ _ => False)).bind fun _ _ h => h.elim

theorem of_failIf {p : Prop} [Decidable p] {cause : ParseCause} {k : Unit → Reader β} (h : ¬p → (k ()).Yields s Q) :
    (failIf p cause >>= k).Yields s Q := by
  intro hs b s' hrun
  obtain ⟨_, s₁, hfail, hb⟩ := hrun.exists_of_bind
  obtain ⟨hp, rfl⟩ := of_returns_failIf hfail
  exact h hp hs b s' hb

theorem of_sound (h : s.IsSound → r.Yields s P) : r.Yields s P := fun hs => h hs hs

/-! Readers that look at the stream and leave it as it is. -/

theorem of_pure {a : α} (h : (k a).Yields s Q) : (pure a >>= k).Yields s Q := h

theorem of_current {k : Token → Reader β} (h : (k s.current).Yields s Q) : (current >>= k).Yields s Q := h

theorem of_kind {k : TokenKind → Reader β} (h : (k s.current.kind).Yields s Q) : (kind >>= k).Yields s Q := h

theorem of_nextKind {k : TokenKind → Reader β} (h : ∀ next, (k next).Yields s Q) : (nextKind >>= k).Yields s Q := h _

theorem of_here {k : Position → Reader β} (h : (k s.current.start).Yields s Q) : (here >>= k).Yields s Q := h

theorem of_spanFrom {start : Position} {k : Loc → Reader β} (h : (k (.span start s.previousStop)).Yields s Q) :
    (spanFrom start >>= k).Yields s Q := h

theorem of_turns {k : Nat → Reader β} (h : ∀ turns, (k turns).Yields s Q) : (turns >>= k).Yields s Q := h _

theorem of_isAt {kd : TokenKind} {x y : Reader β} (hx : s.current.kind = kd → x.Yields s Q)
    (hy : s.current.kind ≠ kd → y.Yields s Q) : (isAt kd >>= fun b => if b then x else y).Yields s Q := by
  have hif : (if s.current.kind == kd then x else y).Yields s Q := by
    split
    · next h => exact hx (beq_iff_eq.1 h)
    · next h => exact hy fun he => h (beq_iff_eq.2 he)
  exact hif

theorem of_isAt_or {kd kd' : TokenKind} {x y : Reader β} (hx : s.current.kind = kd ∨ s.current.kind = kd' → x.Yields s Q)
    (hy : y.Yields s Q) : (isAt kd >>= fun b => isAt kd' >>= fun c => if b || c then x else y).Yields s Q := by
  have hif : (if s.current.kind == kd || s.current.kind == kd' then x else y).Yields s Q := by
    split
    · next h => exact hx (by simpa using h)
    · exact hy
  exact hif

theorem of_refuseAt {kd : TokenKind} {what : Unsupported} {k : Unit → Reader β} (h : (k ()).Yields s Q) :
    (refuseAt kd what >>= k).Yields s Q := by
  have hkind : (kind >>= fun kd' => failIf (kd' = kd) (.unsupported what) >>= k).Yields s Q := of_kind (of_failIf fun _ => h)
  rwa [← bind_assoc] at hkind

/-! Readers that take a token. -/

theorem of_advance {kd : TokenKind} {k : Unit → Reader β} (hk : s.current.kind = kd) (he : kd ≠ .eof)
    (h : ∀ s', s.Shifts kd s' → (k ()).Yields s' Q) : (advance >>= k).Yields s Q :=
  (yields_advance hk he).bind fun _ => h

theorem of_expect {kd : TokenKind} {k : Unit → Reader β} (he : kd ≠ .eof)
    (h : ∀ s', s.Shifts kd s' → (k ()).Yields s' Q) : (expect kd >>= k).Yields s Q := by
  have hexpect : (expect kd).Yields s fun _ s' => s.Shifts kd s' := by
    refine of_current ?_
    split
    · next hk => exact yields_advance hk he
    · split
      · exact yields_fail
      · exact yields_fail
  exact hexpect.bind fun _ => h

theorem of_expectMark {p : Punctuator} {k : Unit → Reader β}
    (h : ∀ s', s.Shifts (.punctuator p) s' → (k ()).Yields s' Q) : (expectMark p >>= k).Yields s Q :=
  of_expect (by simp) h

theorem of_skipMark {p : Punctuator} {x y : Reader β} (hx : ∀ s', s.Shifts (.punctuator p) s' → x.Yields s' Q)
    (hy : s.current.kind ≠ .punctuator p → y.Yields s Q) :
    (skipMark p >>= fun b => if b then x else y).Yields s Q := by
  have hskip : (skipMark p).Yields s fun b s' =>
      (b = true → s.Shifts (.punctuator p) s') ∧ (b = false → s' = s ∧ s.current.kind ≠ .punctuator p) := by
    refine of_isAt (fun hk => ?_) fun hk => ?_
    · exact of_advance hk (by simp) fun s' hs' => yields_pure ⟨fun _ => hs', fun h => Bool.noConfusion h⟩
    · exact yields_pure ⟨fun h => Bool.noConfusion h, fun _ => ⟨rfl, hk⟩⟩
  refine hskip.bind fun b s' hb => ?_
  split
  · next h => exact hx s' (hb.1 h)
  · next h =>
    obtain ⟨rfl, hk⟩ := hb.2 (Bool.eq_false_iff.2 h)
    exact hy hk

/-- A comma stands before the next part of a list, unless the list ends. -/
theorem of_separate {p : Punctuator} {k : Unit → Reader β} (h : ∀ s', s.Passes [] s' → (k ()).Yields s' Q) :
    (separate p >>= k).Yields s Q := by
  have hseparate : (separate p).Yields s fun _ s' => s.Passes [] s' := by
    have hif : (if !s.current.kind == .punctuator p then expectMark .comma else pure ()).Yields s fun _ s' =>
        s.Passes [] s' := by
      split
      · have hcomma : (expectMark .comma >>= pure).Yields s fun _ s' => s.Passes [] s' :=
          of_expectMark fun s' hs' => yields_pure (hs'.passes rfl)
        rwa [bind_pure] at hcomma
      · exact yields_pure (.refl s)
    exact hif
  exact hseparate.bind fun _ => h

theorem of_endStatement {k : Unit → Reader β} (h : ∀ s', s.Passes [] s' → (k ()).Yields s' Q) :
    (endStatement >>= k).Yields s Q := by
  have hend : endStatement.Yields s fun _ s' => s.Passes [] s' := by
    refine of_current ?_
    split
    · next hk => exact (yields_advance hk (by simp)).mono fun _ s' hs' => hs'.passes rfl
    · split
      · exact yields_pure (.refl s)
      · exact yields_fail
  exact hend.bind fun _ => h

end Yields

end Reader

end Stepwise

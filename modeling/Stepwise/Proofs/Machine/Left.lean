import Stepwise.Proofs.Machine.Rest

/-!
# What is left of a stack

* `stackLeft`: what is left of the highest state that a reader could see, after how many states lie below it.
* `Dwindles`: no more is left than before, and less if the state on top is seen and no bare loop.
* `Machine.Proceeds`: a step that advances does this, or starts what a reader could see.
* `Machine.Advances.proceeds`: this is all that such a step can do.
-/

namespace Stepwise

open RuleM

variable {ω : Type} {c : Setting ω} {s s' : State} {below stack stack' : List State}

/-- Whether a reader never sees a node: it is the library's own, or an empty statement. -/
def Node.isSilent (n : Node) : Bool := n.isInternal || n.isEmpty

/-- How high the highest state lies whose node is not silent, and what is left of this node. -/
def stackLeft : List State → ℕ ×ₗ (ℕ ×ₗ ℕ)
  | [] => toLex (0, toLex (0, 0))
  | s :: below => if s.node.isSilent then stackLeft below else toLex (below.length + 1, s.node.rest s)

theorem stackLeft_silent (h : s.node.isSilent) (below : List State) : stackLeft (s :: below) = stackLeft below :=
  if_pos h

theorem stackLeft_seen (h : s.node.isSilent = false) (below : List State) :
    stackLeft (s :: below) = toLex (below.length + 1, s.node.rest s) :=
  if_neg (by simp [h])

theorem stackLeft_lt {n : ℕ} (h : stack.length < n) (r : ℕ ×ₗ ℕ) : stackLeft stack < toLex (n, r) := by
  induction stack with
  | nil => exact lex_lt_of_fst h _ _
  | cons s below ih =>
    rw [List.length_cons] at h
    unfold stackLeft
    split
    · exact ih (by omega)
    · exact lex_lt_of_fst h _ _

/-- The state on top counts unless its node is silent. -/
theorem stackLeft_lt_cons (h : s.node.isSilent = false) (below : List State) : stackLeft below < stackLeft (s :: below) := by
  rw [stackLeft_seen h]
  exact stackLeft_lt (Nat.lt_succ_self _) _

theorem stackLeft_le_cons (s : State) (below : List State) : stackLeft below ≤ stackLeft (s :: below) := by
  by_cases h : s.node.isSilent
  · exact (stackLeft_silent h below).ge
  · exact (stackLeft_lt_cons (by simpa using h) below).le

theorem stackLeft_suffix (h : stack' <:+ stack) : stackLeft stack' ≤ stackLeft stack := by
  induction stack with
  | nil => rw [List.suffix_nil.1 h]
  | cons s below ih =>
    rcases List.suffix_cons_iff.1 h with rfl | h
    · exact le_rfl
    · exact (ih h).trans (stackLeft_le_cons s below)

/-- A later version of the state on top of which no more is left. -/
theorem stackLeft_head (hn : s'.node = s.node) (hr : s.node.rest s' ≤ s.node.rest s) (below : List State) :
    stackLeft (s' :: below) ≤ stackLeft (s :: below) := by
  unfold stackLeft
  rw [hn]
  split
  · exact le_rfl
  · exact Prod.Lex.toLex_le_toLex.2 (.inr ⟨rfl, hr⟩)

/-- What is left of a call is to come to the body of its function. -/
theorem Node.rest_of_isCall {n : Node} (h : n.isCall) (s : State) : n.rest s = toLex (0, CallPhase.body - s.phase) := by
  unfold isCall at h
  split at h
  · rfl
  · rfl
  · cases h

/-- Nothing is left of a call whose function has returned. -/
theorem Node.rest_returned {n : Node} (h : n.isCall) (hp : CallPhase.body ≤ s.phase) : n.rest s = toLex (0, 0) := by
  rw [rest_of_isCall h, Nat.sub_eq_zero_of_le hp]

theorem Node.isSilent_of_isEmpty {n : Node} (h : n.isEmpty) : n.isSilent := by
  rw [isSilent, h, Bool.or_true]

/-- Nothing is left of a bare loop. -/
theorem Node.rest_of_isBare {n : Node} (h : n.isBare) : n.rest s = toLex (0, 0) := by
  unfold isBare at h
  split at h
  · unfold rest
    dsimp only
    rw [h]
    rfl
  · cases h

theorem Node.not_isBare_of_isCall {n : Node} (h : n.isCall) : ¬n.isBare := by
  unfold isCall at h
  split at h
  · nofun
  · nofun
  · cases h

theorem stackLeft_deliver {g : State → State} (hg : ∀ s : State, s.Alike (g s) ∧ s.node.rest (g s) = s.node.rest s)
    (stack : List State) : stackLeft (deliver g stack) ≤ stackLeft stack := by
  cases stack with
  | nil => exact le_rfl
  | cons s below => exact stackLeft_head (hg s).1.node (hg s).2.le below

/-- The stack `s :: below` turns into another of which no more is left. -/
inductive Dwindles (s : State) (below stack' : List State) : Prop where
  /-- The state on top is not seen. -/
  | rests (hs : s.node.isSilent) (h : stackLeft stack' ≤ stackLeft (s :: below))
  | takes (h : stackLeft stack' < stackLeft (s :: below))
  /-- A bare loop goes on, or starts its body. -/
  | spins {s' : State} (hs : s.node.isBare) (hown : s.node.isSilent = false) (ha : s.Alike s')
    (h : stack' = s' :: below ∨ ∃ body : State, body.node.isEmpty ∧ stack' = body :: s' :: below)

theorem Dwindles.le (h : Dwindles s below stack') : stackLeft stack' ≤ stackLeft (s :: below) := by
  cases h with
  | rests _ h => exact h
  | takes h => exact h.le
  | @spins s' hs _ ha h =>
    have hle : stackLeft (s' :: below) ≤ stackLeft (s :: below) := by
      refine stackLeft_head ha.node (le_of_eq ?_) below
      rw [Node.rest_of_isBare hs, Node.rest_of_isBare hs]
    rcases h with rfl | ⟨body, hbody, rfl⟩
    · exact hle
    · rwa [stackLeft_silent (Node.isSilent_of_isEmpty hbody)]

namespace Machine

variable {m m' : Machine} {mv : Move} {f : Frame}

/-- What a step that advances does when the state `s` lies on top of the stack `below`. -/
inductive Proceeds (m : Machine) (s : State) (below stack' : List State) : Prop where
  | dwindles (h : Dwindles s below stack')
  /-- A part is started that a reader could see. -/
  | starts {part s' : State} (hp : part.node ∈ s.node.operands) (hown : part.node.isSilent = false)
    (hphase : part.phase = 0) (h : stack' = part :: s' :: below)
  /-- A function of the program is entered. -/
  | enters {body s' : State} {b : Block} (hn : body.node = .stmt (.block b)) (hown : ¬body.node.isInternal)
    (hscope : m.heap.next ≤ body.scope) (h : stack' = body :: s' :: below)

theorem not_isEnded_of_step {world world' : ω} (h : m.step c world = (.advanced, m', world')) : m.isEnded = false := by
  cases takes_of_step h with
  | moved ha | failed ha => exact ha.goes

/-- A move that leaves the state on top takes it from what is left. -/
theorem Advances.stackLeft_le (ha : m.Advances c s below mv f m') (hstay : mv ≠ .stay)
    (hpush : ∀ node scope components labels, mv ≠ .push node scope components labels) :
    stackLeft m'.stack ≤ stackLeft below := by
  rw [ha.stack_eq]
  cases mv with
  | stay => exact absurd rfl hstay
  | push node scope components labels => exact absurd rfl (hpush node scope components labels)
  | host name call => exact absurd rfl (ha.answered name call)
  | drop => exact le_rfl
  | give v => exact stackLeft_deliver (fun s => ⟨s.alike_receive v, rfl⟩) below
  | giveRef r => exact stackLeft_deliver (fun s => ⟨s.alike_receiveRef r, rfl⟩) below
  | jump label isContinue => exact stackLeft_suffix (leaveTo_suffix label isContinue below)
  | return_ v =>
    have hreturn : s.node.isReturn := ha.fits.resolve_left id
    obtain ⟨inner, call, outer, he, -, hactive, hleave⟩ := returnTo_found ha.call_found
    have hcall := State.isCall_of_isActiveCall hactive
    -- the call lies below the `return`
    have hsuf : call :: outer <:+ below := by
      cases inner with
      | nil =>
        cases he
        exact absurd (ha.top.node ▸ hreturn) (Node.not_isReturn_of_isCall hcall)
      | cons u inner =>
        cases he
        exact List.suffix_append inner (call :: outer)
    refine le_trans ?_ (stackLeft_suffix hsuf)
    show stackLeft (returnTo v (f.top :: below)).1 ≤ _
    rw [hleave]
    refine stackLeft_head (by rfl) (le_of_eq ?_) outer
    rw [Node.rest_returned hcall (show CallPhase.body ≤ CallPhase.returned by decide),
      Node.rest_returned hcall (State.phase_of_isActiveCall hactive).ge]

/-- Going on with the state on top takes something from what is left, unless its node is silent or a bare loop. -/
theorem Advances.stackLeft_lt (hm : m.Sound c) (hend : m.isEnded = false) (ha : m.Advances c s below mv f m')
    (hs : s.node.isSilent = false) (hbare : s.node.isBare = false) (hquiet : mv.IsQuiet s.node) :
    stackLeft (f.top :: below) < stackLeft (s :: below) := by
  have hends (p : Program) (hp : s.node = .program p) : s.n < p.body.length := by
    unfold isEnded at hend
    rw [ha.stack] at hend
    simpa [hp] using hend
  rw [stackLeft_seen hs, stackLeft_seen (ha.top.node ▸ hs), ha.top.node]
  rcases ha.rule with hrule | hresumes
  · exact lex_lt_of_snd ((stepNode_rest (f := ⟨s, m.heap⟩) c below hm.filed hbare hends).of_ok hrule hquiet)
  · -- the call runs now
    rcases hresumes.settles with ⟨v, rfl⟩ | ⟨b, scope, rfl, hphase⟩
    · cases hquiet
    · refine lex_lt_of_snd ?_
      rw [Node.rest_of_isCall hresumes.call, Node.rest_of_isCall hresumes.call, hphase]
      exact lex_lt_of_snd (by have := hresumes.phase; omega)

/-- A step goes on with the state on top, or starts a silent node. -/
theorem Advances.dwindles (hm : m.Sound c) (hend : m.isEnded = false) (ha : m.Advances c s below mv f m')
    (hquiet : s.node.isSilent = false → mv.IsQuiet s.node) (h : stack' = f.top :: below ∨
      ∃ u : State, u.node.isSilent ∧ (s.node.isSilent = false → s.node.isBare → u.node.isEmpty) ∧
        stack' = u :: f.top :: below) : Dwindles s below stack' := by
  have hleft : stackLeft stack' = stackLeft (f.top :: below) := by
    rcases h with rfl | ⟨u, hu, -, rfl⟩
    · rfl
    · exact stackLeft_silent hu _
  by_cases hs : s.node.isSilent
  · refine .rests hs (le_of_eq ?_)
    rw [hleft, stackLeft_silent hs, stackLeft_silent (ha.top.node ▸ hs)]
  · have hs : s.node.isSilent = false := by simpa using hs
    by_cases hbare : s.node.isBare
    · exact .spins hbare hs ha.top.toAlike (h.imp_right fun ⟨u, _, hu, he⟩ => ⟨u, hu hs hbare, he⟩)
    · exact .takes (hleft ▸ ha.stackLeft_lt hm hend hs (by simpa using hbare) (hquiet hs))

/-- What a step starts comes to lie on the state that starts it. -/
theorem Advances.stack_push {node : Node} {scope : ObjectId} {components : Bool} {labels : List String}
    (ha : m.Advances c s below (.push node scope components labels) f m') : ∃ new : State, new.node = c.resolve node ∧
      new.phase = 0 ∧ new.scope = scope ∧ m'.stack = new :: f.top :: below :=
  ⟨_, rfl, rfl, rfl, (congrArg (fun r => r.1.stack) ha.apply).symm⟩

/-- All that a step that advances can do to what is left. -/
theorem Advances.proceeds (hc : c.IsRead) (hsize : c.program.nodes.length < 2 ^ 24) (hm : m.Sound c)
    (hend : m.isEnded = false) (ha : m.Advances c s below mv f m') : Proceeds m s below m'.stack := by
  have hnode : c.node? s.node.id = some s.node := hm.node s (by simp [ha.stack])
  cases mv with
  | host name call => exact absurd rfl (ha.answered name call)
  | stay =>
    have hstack : m'.stack = f.top :: below := (congrArg (fun r => r.1.stack) ha.apply).symm
    exact .dwindles (ha.dwindles hm hend (fun _ => trivial) (.inl hstack))
  | drop | give | giveRef | jump | return_ =>
    have hle := ha.stackLeft_le nofun nofun
    by_cases hs : s.node.isSilent
    · exact .dwindles (.rests hs (hle.trans (stackLeft_le_cons s below)))
    · exact .dwindles (.takes (hle.trans_lt (stackLeft_lt_cons (by simpa using hs) below)))
  | push node scope components labels =>
    have hquiet {st : Stmt} (he : node = .stmt st) (h : s.node.isCall ∨ st.isEmpty) :
        (Move.push node scope components labels).IsQuiet s.node := by
      rw [he]
      exact h
    obtain ⟨new, hnew, hphase, hscope, hstack⟩ := ha.stack_push
    rcases ha.push_cases hm.filed with ⟨hp, -⟩ | ⟨hen, -⟩
    · have hpart := Node.part_of_operand hp.operand
      have hown := hc.isInternal_part hnode hpart
      rw [hc.resolve_of_mem hsize (Setting.IsRead.mem_of_part (hc.mem_of_node? hnode).1 hpart)] at hnew
      by_cases hsilent : node.isSilent
      · -- a part that is not the library's own can only be empty
        have hempty (hs : s.node.isSilent = false) : node.isEmpty := by
          unfold Node.isSilent at hsilent hs
          rw [hown, Bool.or_eq_true] at hsilent
          exact hsilent.resolve_left (by simp [(Bool.or_eq_false_iff.1 hs).1])
        refine .dwindles (ha.dwindles hm hend (fun hs => ?_)
          (.inr ⟨new, hnew ▸ hsilent, fun hs _ => hnew ▸ hempty hs, hstack⟩))
        obtain ⟨l, hl⟩ := Node.exists_of_isEmpty (hempty hs)
        exact hquiet hl (.inr rfl)
      · exact .starts (hnew ▸ hp.operand) (hnew ▸ by simpa using hsilent) hphase hstack
    · obtain ⟨o, info, id, closure, callable, -, -, -, hcallable, hbody, -⟩ := hen.body
      obtain ⟨n, hid, hcallable⟩ := Option.bind_eq_some_iff.1 hcallable
      have hpart := Setting.IsRead.part_of_callable hcallable
      rw [hbody, hc.resolve_of_mem hsize (Setting.IsRead.mem_of_part (hc.mem_of_node? hid).1 hpart)] at hnew
      by_cases hown : new.node.isInternal
      · refine .dwindles (ha.dwindles hm hend (fun _ => hquiet hbody (.inl hen.call))
          (.inr ⟨new, ?_, fun _ hbare => absurd hbare (Node.not_isBare_of_isCall hen.call), hstack⟩))
        rw [Node.isSilent, hown, Bool.true_or]
      · exact .enters hnew hown (hscope ▸ hen.new) hstack

end Machine

end Stepwise

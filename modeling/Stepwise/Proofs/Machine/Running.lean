import Stepwise.Proofs.Machine.Advance
import Stepwise.Proofs.Machine.CallChain
import Stepwise.Proofs.Machine.Shape

/-!
# Calls that are running

* `Busy`: above a call whose function is running lies the body of this function, in a scope of its own, and
  nothing else.
* `Machine.busy_step`: every step keeps this, unless it faults.
* `Machine.grounded_of_step`: nor does such a step take the state of the program from the bottom.
-/

namespace Stepwise

open RuleM Library

variable {ω : Type}

/-- A state above a running call has a scope of its own. -/
def Busy (stack : List State) : Prop :=
  ∀ t s below, t :: s :: below <:+ stack → s.isActiveCall → t.scope ≠ s.scope

/-- A call that starts an expression: its function is not running yet. -/
def Move.Prepares (mv : Move) (f : Frame) : Prop :=
  ∀ e scope components labels, mv = .push (.expr e) scope components labels → f.top.phase ≠ CallPhase.body

variable {c : Setting ω} {below : List State} {callee : Expr} {args : List Expr} {construct : Bool} {f : Frame}

/-- What the call of a function starts is a statement. -/
theorem invoke_prepares (turns : Nat) (f : Frame) :
    (invoke c below callee turns construct).wp Move.Prepares (fun _ _ => True) f := by
  induction turns generalizing construct f with
  | zero => trivial
  | succ turns ih =>
    rcases invoke_turn c below callee construct f with ⟨r, hr, he⟩ | ⟨-, args, -, he⟩
    · unfold wp
      rw [he]
      cases hr with
      | value | host | body => exact nofun
      | error => trivial
    · have hnext := @ih false (f.forward args)
      unfold wp at hnext ⊢
      rw [he]
      exact hnext

theorem stepArguments_prepares (hf : f.top.phase ≠ CallPhase.body) :
    (stepArguments c below callee args construct).wp Move.Prepares (fun _ _ => True) f := by
  -- the next argument, or the call if there is none
  have hnext (g : Frame) (hv : g.top.hasValue = false) (hg : g.top.phase ≠ CallPhase.body) :
      (stepArguments c below callee args construct).wp Move.Prepares (fun _ _ => True) g := by
    refine wp_bind (wp_top ?_)
    dsimp only
    rw [if_neg (by simp [hv])]
    refine wp_bind (wp_top ?_)
    cases args[g.top.n]? with
    | some e => exact fun _ _ _ _ _ => hg
    | none => exact wp_bind (invoke_prepares tailLimit _)
  by_cases hv : f.top.hasValue
  · refine wp_bind (wp_top ?_)
    dsimp only
    rw [if_pos hv]
    refine wp_bind ?_
    exact hnext { f with top := { f.top with hasValue := false, values := f.top.values ++ [f.top.value] } } rfl hf
  · exact hnext f (by simpa using hv) hf

/-- While a call evaluates its function or its arguments, its function is not running. -/
theorem stepCall_prepares (f : Frame) :
    (stepCall c below callee args construct).wp Move.Prepares (fun _ _ => True) f := by
  have hend (g : Frame) : (endCall construct).wp Move.Prepares (fun _ _ => True) g := by
    refine wp_bind ?_
    show (if construct && !g.top.value.isObject then _ else _ : RuleM Move).wp _ _ _
    split <;> exact nofun
  refine wp_bind (wp_top ?_)
  split
  · refine wp_bind ?_
    split <;> exact fun _ _ _ _ _ => by simp [CallPhase.target, CallPhase.body]
  · refine wp_bind ((takeFunction_run f).mono (fun _ g hg => ?_) fun _ _ _ => trivial)
    exact stepArguments_prepares (by simp [hg.1, CallPhase.arguments, CallPhase.body])
  · exact stepArguments_prepares (by simp [*, CallPhase.body])
  · exact invoke_prepares tailLimit f
  · exact wp_bind (hend _)
  · exact hend f

/-- A running call starts no expression. -/
theorem stepNode_prepares (c : Setting ω) (below : List State) (hf : f.top.node.isCall) :
    (stepNode c below f.top.node).wp Move.Prepares (fun _ _ => True) f := by
  unfold Node.isCall at hf
  split at hf
  · rename_i hn
    rw [hn]
    exact stepCall_prepares f
  · rename_i hn
    rw [hn]
    exact stepCall_prepares f
  · cases hf

theorem State.isCall_of_isActiveCall {s : State} (hs : s.isActiveCall) : s.node.isCall := by
  unfold isActiveCall at hs
  exact (Bool.and_eq_true_iff.1 hs).2

theorem State.phase_of_isActiveCall {s : State} (hs : s.isActiveCall) : s.phase = CallPhase.body := by
  unfold isActiveCall at hs
  exact eq_of_beq (Bool.and_eq_true_iff.1 hs).1

/-- The parts that a call starts are expressions. -/
theorem Node.exists_expr_of_operand {n part : Node} (hn : n.isCall) (hp : part ∈ n.operands) :
    ∃ e, part = .expr e := by
  unfold isCall at hn
  split at hn
  · rcases List.mem_cons.1 hp with rfl | hp
    · exact ⟨_, rfl⟩
    · obtain ⟨e, -, rfl⟩ := List.mem_map.1 hp
      exact ⟨e, rfl⟩
  · rcases List.mem_cons.1 hp with rfl | hp
    · exact ⟨_, rfl⟩
    · obtain ⟨e, -, rfl⟩ := List.mem_map.1 hp
      exact ⟨e, rfl⟩
  · cases hn

/-! ### Stacks -/

namespace Busy

variable {stack stack' : List State} {t s : State}

theorem cons (hs : s.isActiveCall → t.scope ≠ s.scope) (hb : Busy (s :: below)) : Busy (t :: s :: below) := by
  intro t' s' below' hsuf
  rcases List.suffix_cons_iff.1 hsuf with he | hsuf
  · cases he
    exact hs
  · exact hb t' s' below' hsuf

/-- States that are left do not matter, nor does what the new top has gathered. -/
theorem sinks (h : Sinks stack stack') (hb : Busy stack) : Busy stack' := by
  intro t s below hsuf
  rcases h with rfl | ⟨u, u', rest, hlow, ha, rfl⟩
  · cases List.suffix_nil.1 hsuf
  · rcases List.suffix_cons_iff.1 hsuf with he | hsuf
    · cases he
      rw [ha.scope]
      exact hb u s below hlow
    · exact hb t s below ((hsuf.trans (List.suffix_cons u rest)).trans hlow)

end Busy

namespace Machine

variable {m m' : Machine} {world : ω} {s : State} {mv : Move}

/-- A call whose function is running starts no part of its node. -/
theorem Advances.not_isActiveCall {node : Node} {scope : ObjectId} {components : Bool} {labels : List String}
    (ha : m.Advances c s below (.push node scope components labels) f m') (hp : node ∈ s.node.operands) :
    ¬f.top.isActiveCall := by
  intro hactive
  have hcall := State.isCall_of_isActiveCall hactive
  rw [ha.top.node] at hcall
  -- the parts of a call are expressions, and they come before its function runs
  obtain ⟨e, rfl⟩ := Node.exists_expr_of_operand hcall hp
  rcases ha.rule with hrule | hresumes
  · have hprepares := (stepNode_prepares c below (f := ⟨s, m.heap⟩) hcall).of_ok hrule
    exact hprepares _ _ _ _ rfl (State.phase_of_isActiveCall hactive)
  · rcases hresumes.settles with ⟨_, h⟩ | ⟨_, _, h, -⟩ <;> cases h

/-- What a step that advances starts above a running call has a scope of its own. -/
theorem Advances.busy (hm : m.Sound c) (hb : Busy m.stack) (ha : m.Advances c s below mv f m') : Busy m'.stack := by
  have hb : Busy (f.top :: below) := by
    rw [ha.stack] at hb
    exact hb.sinks (.head ha.top.toAlike below)
  rw [ha.stack_eq]
  rcases push_or_sinks (c := c) { m with heap := f.heap } f.top below mv with
    ⟨node, scope, components, labels, rfl⟩ | ⟨-, hsinks⟩
  · refine .cons (fun hactive => ?_) hb
    rcases ha.fits with ⟨hp, -⟩ | hen
    · exact absurd hactive (ha.not_isActiveCall hp.operand)
    · have hlt := hm.scope_lt (s := s) (by simp [ha.stack])
      have hle : m.heap.next ≤ scope := hen.new
      rw [ha.top.scope]
      show scope ≠ s.scope
      lia
  · exact hb.sinks hsinks

/-- A move advances, or it faults. -/
theorem move_outcome (m : Machine) (top : State) (below : List State) (mv : Move) :
    (m.move c top below mv).1 = .advanced ∨ ∃ e, (m.move c top below mv).1 = .fault e := by
  simp only [move]
  split
  · exact .inr ⟨_, rfl⟩
  · split
    · exact .inr ⟨_, rfl⟩
    · exact .inl rfl

/-- A step that ends the program, or throws, only changes what the state on top has gathered. -/
theorem head_of_stopped (hadvanced : (m.step c world).1 ≠ .advanced)
    (hfault : ∀ e, (m.step c world).1 ≠ .fault e) : (m.step c world).2.1.stack = m.stack ∨
      ∃ s s' below, m.stack = s :: below ∧ s.Alike s' ∧ (m.step c world).2.1.stack = s' :: below := by
  have hcomes := comes_step (c := c) m world
  generalize (m.step c world).1 = outcome at hcomes hadvanced hfault
  generalize (m.step c world).2.1 = m' at hcomes ⊢
  generalize hr : (outcome, m') = r at hcomes
  cases hcomes with
  | ended =>
    cases hr
    exact .inl rfl
  | moved hm ha h mv =>
    rcases move_outcome (c := c) { m with heap := h } _ _ mv with he | ⟨e, he⟩
    · exact absurd ((congrArg Prod.fst hr).trans he) hadvanced
    · exact absurd ((congrArg Prod.fst hr).trans he) (hfault e)
  | failed hm ha h e =>
    refine .inr ⟨_, _, _, hm, ha, ?_⟩
    rw [show m' = _ from congrArg Prod.snd hr, stack_fail]

variable {p : Program}

/-- Above a running call lies the body of its function alone, after every step that does not fault. -/
theorem busy_step (hh : ∀ f ∈ c.host, f.Sound) (hm : m.Sound c) (hw : m.WellFormed) (hb : Busy m.stack)
    (hfault : ∀ e, (m.step c world).1 ≠ .fault e) : Busy (m.step c world).2.1.stack := by
  by_cases hadvanced : (m.step c world).1 = .advanced
  · have hs : m.step c world = (.advanced, (m.step c world).2.1, (m.step c world).2.2) := Prod.ext hadvanced rfl
    obtain ⟨s, below, mv, f, ha⟩ := advances_of_step hh hw hs
    exact ha.busy hm hb
  · rcases head_of_stopped hadvanced hfault with he | ⟨s, s', below, hstack, ha, he⟩
    · rwa [he]
    · rw [he]
      rw [hstack] at hb
      exact hb.sinks (.head ha below)

/-- In every machine that a program reaches, what lies on a running call is the body of its function. -/
theorem Reachable.runs (hc : c.IsRead) (hsize : c.program.nodes.length < 2 ^ 24) (hk : ∀ f ∈ c.host, f.Keeps)
    (hh : ∀ f ∈ c.host, f.Sound) (h : m.Reachable c world) {body call : State}
    (hsuf : body :: call :: below <:+ m.stack) (hactive : call.isActiveCall) : body.Runs c m.heap call := by
  have hbusy : Busy m.stack := by
    clear hsuf
    induction h with
    | start h world =>
      rw [stack_start_of_isRead hc h]
      intro t s below hsuf
      have hl := hsuf.length_le
      simp at hl
    | step h hs ih =>
      obtain ⟨s, below, mv, f, ha⟩ := advances_of_step hh (h.wellFormed hh) hs
      exact ha.busy (h.sound hc hk) ih
  rcases h.stacked hc hsize hk body call below hsuf with ⟨hscope, -⟩ | ⟨-, hruns, -⟩
  · exact absurd hscope (hbusy body call below hsuf hactive)
  · exact hruns

/-- A step that does not fault leaves the state of the program at the bottom of the stack. -/
theorem grounded_of_step {scope : ObjectId} (hg : Grounded p scope m.stack)
    (hfault : ∀ e, (m.step c world).1 ≠ .fault e) : Grounded p scope (m.step c world).2.1.stack := by
  by_cases hadvanced : (m.step c world).1 = .advanced
  · exact grounded_step hg hadvanced
  · rcases head_of_stopped hadvanced hfault with he | ⟨s, s', below, hstack, ha, he⟩
    · rwa [he]
    · rw [he]
      rw [hstack] at hg
      exact hg.head ha

end Machine

end Stepwise

import Stepwise.Proofs.Machine.CallChain
import Stepwise.Proofs.Machine.WellFormed

/-!
# Steps that advance

* `Machine.Advances`: what a step that advances did: the rule of the state on top ended with a move, or its calls of
  functions of the host came to one, and then the stack was moved.
* `Machine.advances_of_step`: this is all that such a step can do.
* `Machine.Advances.push_cases`: what it starts is a part of its node, or the body of a function.
-/

namespace Stepwise

open Heap RuleM Library

variable {ω : Type}

/-! ### Calls of the host -/

section

variable {c : Setting ω} {below : List State} {callee : Expr} {args : List Expr} {construct : Bool} {h : Heap} {f : Frame}

/-- A call that is left to the host has not touched the heap. -/
def Move.Waits (h : Heap) (mv : Move) (f : Frame) : Prop := ∀ name call, mv = .host name call → f.heap = h

/-- A call that the rule leaves to the host has not touched the heap, and has not run yet. -/
def Move.LeavesCall (f : Frame) (mv : Move) (g : Frame) : Prop :=
  ∀ name call, mv = .host name call → g.heap = f.heap ∧ f.top.phase < CallPhase.body

theorem takeFunction_run (f : Frame) :
    takeFunction.wp (fun _ f' => f'.top.phase = CallPhase.arguments ∧ f'.heap = f.heap) (fun _ _ => True) f := by
  refine wp_bind (wp_top ?_)
  split
  · refine wp_bind ?_
    unfold wp
    rw [getRef_run]
    cases readRef f.heap _ with
    | error => trivial
    | ok v => exact ⟨rfl, rfl⟩
  · exact ⟨rfl, rfl⟩

theorem enterClosure_waits (function : Object) (node : Int) (scope : ObjectId) (construct : Bool) (f : Frame) :
    (enterClosure c function node scope construct).wp (Move.Waits h) (fun _ g => g.heap = f.heap) f := by
  unfold enterClosure
  cases (c.node? node).bind Node.callable? with
  | none => exact (rfl : f.heap = f.heap)
  | some callable => cases construct <;> exact fun _ _ => nofun

/-- A native function answers with a value, or it asks for a call with the heap as it was. -/
theorem wp_callNative_of_mayAsk {Q : Reply → Frame → Prop} {native : Native} {call : NativeCall} (hm : native.MayAsk)
    (hvalue : ∀ v g, Q (.value v) g) (hask : ∀ func this args, Q (.tail func this args) f) :
    (callNative native call).wp Q (fun _ g => g.heap = f.heap) f := by
  refine wp_bind (wp_heap ?_)
  have hm := hm call f.heap
  unfold HeapM.wp at hm
  split
  · rename_i r h he
    rw [show native call f.heap = _ from he] at hm
    obtain ⟨v, rfl⟩ | ⟨rfl, -, args, rfl, -⟩ := hm
    · exact hvalue v _
    · exact hask _ _ _
  · exact (rfl : f.heap = f.heap)

/-- What a native function asks for, it asks before it touches the heap. A call that fails has not touched it. -/
theorem invoke_waits (turns : Nat) (hf : f.heap = h) :
    (invoke c below callee turns construct).wp (Move.Waits h) (fun _ g => g.heap = h) f := by
  induction turns generalizing construct f with
  | zero => exact hf
  | succ turns ih =>
    subst hf
    refine wp_bind (wp_top (wp_bind (wp_heap ?_)))
    split
    · exact (rfl : f.heap = f.heap)
    · split
      · exact enterClosure_waits _ _ _ _ f
      · split
        · exact fun _ _ _ => rfl
        · rename_i native hnative
          refine wp_bind (wp_callNative_of_mayAsk (Library.mayAsk_native? hnative) (fun _ _ => nofun) fun _ _ _ => ?_)
          exact wp_bind (wp_modifyTop (ih rfl))

theorem stepArguments_waits (hf : f.heap = h) :
    (stepArguments c below callee args construct).wp (Move.Waits h) (fun _ _ => True) f := by
  -- the next argument, or the call if there is none
  have hnext (g : Frame) (hv : g.top.hasValue = false) (hg : g.heap = h) :
      (stepArguments c below callee args construct).wp (Move.Waits h) (fun _ _ => True) g := by
    refine wp_bind (wp_top ?_)
    dsimp only
    rw [if_neg (by simp [hv])]
    refine wp_bind (wp_top ?_)
    cases args[g.top.n]? with
    | some e => exact fun _ _ => nofun
    | none =>
      have hinvoke : (invoke c below callee tailLimit construct).wp (Move.Waits h) (fun _ g => g.heap = h)
          ⟨{ g.top with phase := CallPhase.invoke }, g.heap⟩ := invoke_waits tailLimit hg
      exact wp_bind (wp_modifyTop (hinvoke.mono (fun _ _ h => h) fun _ _ _ => trivial))
  by_cases hv : f.top.hasValue
  · refine wp_bind (wp_top ?_)
    dsimp only
    rw [if_pos hv]
    refine wp_bind ?_
    exact hnext { f with top := { f.top with hasValue := false, values := f.top.values ++ [f.top.value] } } rfl hf
  · exact hnext f (by simpa using hv) hf

/-- A call is left to the host before it runs. -/
theorem stepCall_waits (f : Frame) :
    (stepCall c below callee args construct).wp (Move.LeavesCall f) (fun _ _ => True) f := by
  have hend (g : Frame) : (endCall construct).wp (Move.LeavesCall f) (fun _ _ => True) g := by
    refine wp_bind ?_
    show (if construct && !g.top.value.isObject then _ else _ : RuleM Move).wp _ _ _
    split <;> exact fun _ _ => nofun
  have hready {r : RuleM Move} {g : Frame} {E : Failure → Frame → Prop} (hp : f.top.phase < CallPhase.body)
      (hr : r.wp (Move.Waits f.heap) E g) : r.wp (Move.LeavesCall f) (fun _ _ => True) g :=
    hr.mono (fun _ _ hw name call he => ⟨hw name call he, hp⟩) fun _ _ _ => trivial
  refine wp_bind (wp_top ?_)
  split
  · refine wp_bind ?_
    split <;> exact fun _ _ => nofun
  · refine wp_bind ((takeFunction_run f).mono (fun _ g hg => ?_) fun _ _ _ => trivial)
    exact hready (by simp [*, CallPhase.body]) (stepArguments_waits hg.2)
  · exact hready (by simp [*, CallPhase.body]) (stepArguments_waits rfl)
  · exact hready (by simp [*, CallPhase.body]) (invoke_waits tailLimit rfl)
  · exact wp_bind (hend _)
  · exact hend f

theorem stepNode_waits (c : Setting ω) (below : List State) (hf : f.heap.Filed) :
    (stepNode c below f.top.node).wp (Move.LeavesCall f) (fun _ _ => True) f := by
  by_cases hn : f.top.node.isCall
  · cases he : f.top.node with
    | expr e =>
      rw [he] at hn
      cases e with
      | call | new => exact stepCall_waits f
      | _ => cases hn
    | _ => rw [he] at hn; cases hn
  · -- no other rule leaves a call to the host
    refine (stepNode_calls c below f.top.node f hf).mono (fun mv g hg name call he => ?_) fun _ _ _ => trivial
    subst he
    exact absurd (Move.Fits.isCall hg.2) hn

end

/-! ### Answers of the host -/

/-- The function of the host asks for another call in the place of a call. -/
def HostFunction.Forwards (f : HostFunction ω) (call : NativeCall) : Prop :=
  ∃ h world func this args, (f.run call h world).1 = .ok (.tail func this args)

/-- What comes of a call that the host has answered: a value, or the body of a function of the source. -/
def Move.Settles (mv : Move) (f : Frame) : Prop :=
  (∃ v, mv = .give v) ∨ ∃ b scope, mv = .push (.stmt (.block b)) scope false [] ∧ f.top.phase = CallPhase.body

theorem invoke_settles {c : Setting ω} {below : List State} {callee : Expr} (turns : Nat) (construct : Bool) (f : Frame) :
    (invoke c below callee turns construct).wp (fun mv g => mv.Settles g ∨ ∃ name call, mv = .host name call)
      (fun _ _ => True) f := by
  induction turns generalizing construct f with
  | zero => trivial
  | succ turns ih =>
    rcases invoke_turn c below callee construct f with ⟨r, hr, he⟩ | ⟨-, args, -, he⟩
    · unfold wp
      rw [he]
      cases hr with
      | value v => exact .inl (.inl ⟨v, rfl⟩)
      | host name call => exact .inr ⟨name, call, rfl⟩
      | body callable scope hp => exact .inl (.inr ⟨_, _, rfl, hp⟩)
      | error => trivial
    · have hnext := ih false (f.forward args)
      unfold wp at hnext ⊢
      rw [he]
      exact hnext

namespace Machine

/-- What has come of a call of the state `s` that the rule left to the host. A function of the host that gives no value
has asked for a call of a function of the source. -/
structure Resumes (c : Setting ω) (s : State) (below : List State) (h : Heap) (mv : Move) (f : Frame) : Prop where
  call : s.node.isCall
  phase : s.phase < CallPhase.body
  answer : ∃ name call g, stepNode c below s.node ⟨s, h⟩ = .ok (.host name call) g ∧
    ((∃ v, mv = .give v ∧ f.top = g.top) ∨ mv.Settles f ∧ ∃ k ∈ c.host, k.Forwards call)

/-- A step that advances: the state `s` on top becomes `f.top`, the heap becomes `f.heap`, and then the move is
made. -/
structure Advances (c : Setting ω) (m : Machine) (s : State) (below : List State) (mv : Move) (f : Frame)
    (m' : Machine) : Prop where
  stack : m.stack = s :: below
  /-- The rule asks for the move, or for a call of the host that comes to it. -/
  rule : stepNode c below s.node ⟨s, m.heap⟩ = .ok mv f ∨ Resumes c s below m.heap mv f
  top : s.Evolves f.top
  effect : Effect c ⟨s, m.heap⟩ mv f.heap
  sound : f.Sound
  move : mv.In f.heap
  fits : mv.Fits c m.heap s.node f
  apply : { m with heap := f.heap }.apply c f.top below mv = (m', none)
  /-- The functions of the host have answered. -/
  answered : ∀ name call, mv ≠ .host name call

variable {c : Setting ω} {m m' : Machine} {world world' : ω}

/-- What has come of a call of the host ends the call, or it starts a statement. -/
theorem Resumes.settles {s : State} {below : List State} {h : Heap} {mv : Move} {f : Frame} (hr : Resumes c s below h mv f) :
    mv.Settles f := by
  obtain ⟨_, _, _, -, ⟨v, hv, -⟩ | ⟨hs, -⟩⟩ := hr.answer
  · exact .inl ⟨v, hv⟩
  · exact hs

/-- The move changes the stack alone. -/
theorem Advances.heap_eq {s : State} {below : List State} {mv : Move} {f : Frame} (ha : m.Advances c s below mv f m') :
    m'.heap = f.heap ∧ m'.global = m.global := by
  have he := heap_apply (c := c) { m with heap := f.heap } f.top below mv
  rw [ha.apply] at he
  exact he

theorem Advances.stack_eq {s : State} {below : List State} {mv : Move} {f : Frame} (ha : m.Advances c s below mv f m') :
    m'.stack = (({ m with heap := f.heap } : Machine).apply c f.top below mv).1.stack := by
  rw [ha.apply]

/-- A jump that advances has found a state to go on with. -/
theorem Advances.target_found {s : State} {below : List State} {label : Option String} {isContinue : Bool} {f : Frame}
    (ha : m.Advances c s below (.jump label isContinue) f m') : (leaveTo label isContinue below).2 :=
  leaveTo_found_of_apply (congrArg Prod.snd ha.apply)

theorem Advances.call_found {s : State} {below : List State} {v : Value} {f : Frame}
    (ha : m.Advances c s below (.return_ v) f m') : (returnTo v (f.top :: below)).2 :=
  returnTo_found_of_apply (congrArg Prod.snd ha.apply)

theorem apply_of_move {top : State} {below : List State} {mv : Move}
    (h : m.move c top below mv = (.advanced, m')) : m.apply c top below mv = (m', none) := by
  have hfault := apply_of_advanced (congrArg Prod.fst h)
  have hm := (snd_move m top below mv).symm.trans (congrArg Prod.snd h)
  exact Prod.ext hm hfault

/-- What comes of a call of the host is a value, or the host has been asked for another call. -/
theorem resume_settles (c : Setting ω) (below : List State) {f : HostFunction ω} {call : NativeCall} {h h' : Heap}
    {world world' : ω} {answer : Except Failure Reply} (hrun : f.run call h world = (answer, h', world')) (g : Frame) :
    (resume c below answer).wp (fun mv g' => (∃ v, mv = .give v ∧ g'.top = g.top) ∨ f.Forwards call ∧
      (mv.Settles g' ∨ ∃ name call, mv = .host name call)) (fun _ _ => True) g := by
  unfold resume
  split
  · trivial
  · exact .inl ⟨_, rfl, rfl⟩
  · have hforwards : f.Forwards call := ⟨h, world, _, _, _, congrArg Prod.fst hrun⟩
    refine wp_bind (wp_modifyTop (wp_bind (wp_top ?_)))
    split
    · exact (invoke_settles _ _ _).mono (fun _ _ hs => .inr ⟨hforwards, hs⟩) fun _ _ h => h
    · exact (invoke_settles _ _ _).mono (fun _ _ hs => .inr ⟨hforwards, hs⟩) fun _ _ h => h
    · trivial

/-- What has come of the rule of the state on top, with the functions of the host that it calls. -/
theorem Asks.resumes {s : State} {below : List State} {mv : Move} {f : Frame} (ha : m.Asks c s below world (.ok mv f) world')
    (hf : m.heap.Filed) : stepNode c below s.node ⟨s, m.heap⟩ = .ok mv f ∨ Resumes c s below m.heap mv f := by
  -- a call of the host comes to a value, to the body of a function, or to another call of the host
  let Q (g : Frame) (call : NativeCall) (mv : Move) (f : Frame) : Prop := (∃ v, mv = .give v ∧ f.top = g.top) ∨
    (∃ k ∈ c.host, k.Forwards call) ∧ (mv.Settles f ∨ ∃ name call, mv = .host name call)
  have hrun : stepNode c below s.node ⟨s, m.heap⟩ = .ok mv f ∨ ∃ name call g,
      stepNode c below s.node ⟨s, m.heap⟩ = .ok (.host name call) g ∧ Q g call mv f := by
    refine ha.induct (P := fun r _ => stepNode c below s.node ⟨s, m.heap⟩ = r ∨ ∃ name call g,
      stepNode c below s.node ⟨s, m.heap⟩ = .ok (.host name call) g ∧ Ensures (Q g call) (fun _ _ => True) r) (.inl rfl) ?_ ?_
    · rintro name call f e w (h | ⟨name', call', g, h, -⟩) -
      · exact .inr ⟨name, call, f, h, trivial⟩
      · exact .inr ⟨name', call', g, h, trivial⟩
    · intro name call f k answer h w w' hasked hk hrun
      have hsettles := resume_settles c below hrun ⟨f.top, h⟩
      rcases hasked with hrule | ⟨name', call', g, hrule, hq⟩
      · refine .inr ⟨name, call, f, hrule, ensures_of_wp (hsettles.mono (fun _ _ hs => ?_) fun _ _ h => h)⟩
        exact hs.imp_right fun hs => ⟨⟨k, hk, hs.1⟩, hs.2⟩
      · obtain ⟨hforwards, -⟩ : (∃ k ∈ c.host, k.Forwards call') ∧ _ := hq.resolve_left (by simp)
        refine .inr ⟨name', call', g, hrule, ensures_of_wp (hsettles.mono (fun _ _ hs => .inr ⟨hforwards, ?_⟩) fun _ _ h => h)⟩
        exact hs.elim (fun ⟨v, hv, _⟩ => .inl (.inl ⟨v, hv⟩)) And.right
  refine hrun.imp_right fun ⟨name, call, g, hrule, hq⟩ => ?_
  have hleaves := (stepNode_waits (f := ⟨s, m.heap⟩) c below hf).of_ok hrule name call rfl
  have hcall := ((stepNode_calls c below s.node ⟨s, m.heap⟩ hf).of_ok hrule).2.isCall
  refine ⟨hcall, hleaves.2, name, call, g, hrule, hq.imp_right fun hq => ⟨hq.2.resolve_right ?_, hq.1⟩⟩
  rintro ⟨name, call, he⟩
  exact ha.ne_host name call he

/-- Whatever a step that advances does, its rule and the host account for it. -/
theorem advances_of_step (hc : ∀ f ∈ c.host, f.Sound) (hm : m.WellFormed)
    (hs : m.step c world = (.advanced, m', world')) : ∃ s below mv f, m.Advances c s below mv f m' := by
  cases takes_of_step hs with
  | @moved s below mv f _ _ _ ha he =>
    obtain ⟨hr, htop, hfits⟩ := ha.ends hc hm
    exact ⟨s, below, mv, f, ha.stack, ha.resumes hm.heap.toFiled, htop, hr.effect,
      ⟨(hr.effect.wellFormed (ha.sound hm)).1, hr.top⟩, hr.move, hfits, apply_of_move he, ha.ne_host⟩
  | failed _ he => exact absurd (congrArg Prod.fst he) (not_advanced_fail _ _)

/-- What a step that advances starts is a part of its node in the same scope, or the body of the function that it
calls, for its effect and without labels. -/
theorem Advances.push_cases {s : State} {below : List State} {f : Frame} (hf : m.heap.Filed) {node : Node}
    {scope : ObjectId} {components : Bool} {labels : List String}
    (ha : m.Advances c s below (.push node scope components labels) f m') :
    s.node.Starts f.top.labels node components labels ∧ scope = f.top.scope ∨
      Enters c m.heap s.node node scope f ∧ components = false ∧ labels = [] := by
  rcases ha.fits with hp | hen
  · exact .inl hp
  · refine .inr ⟨hen, ?_⟩
    have heffect := ha.effect
    generalize hheap : f.heap = h at heffect
    cases heffect with
    | edits e =>
      -- no scope is new unless a function is entered
      obtain ⟨o, info, id, closure, callable, -, -, -, -, -, hscope, -⟩ := hen.body
      rw [hheap, Heap.scope?, e.scopes_eq] at hscope
      obtain ⟨o, ho⟩ := Option.isSome_iff_exists.1 (hf.scope hscope).2
      have hlt := (hf.object ho).2.2
      have hle := hen.new
      lia
    | enter => exact ⟨rfl, rfl⟩

end Machine

end Stepwise

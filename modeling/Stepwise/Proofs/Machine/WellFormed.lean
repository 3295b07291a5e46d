import Stepwise.Proofs.Heap.Chain
import Stepwise.Proofs.Machine.Effect
import Stepwise.Proofs.Machine.Reach
import Stepwise.Proofs.Session.Function

/-!
# Machines without loose ends

* `Machine.WellFormed`: the heap is well-formed, and all that the states on the stack refer to is in it.
* `Machine.wellFormed_step`: every step keeps this, however it ends.
* `Machine.reachable_wellFormed`: so it holds of every machine that a program reaches and after one more step,
  and every search along prototypes or scopes ends.
* `Machine.identities_permanent`: a step, however it ends, leaves every object what it is and every scope where it
  is, and gives no identity twice.
-/

namespace Stepwise

open Heap

variable {ω : Type}

/-- The heap is well-formed, and the states of the stack are in it. -/
structure Machine.WellFormed (m : Machine) : Prop where
  heap : m.heap.WellFormed
  stack : ∀ s ∈ m.stack, s.In m.heap
  global : (m.heap.scope? m.global).isSome

/-- What a function of the host answers or throws is in the heap. -/
def HostAnswerIn (r : Except Failure Reply) (h : Heap) : Prop :=
  match r with
  | .ok r => r.In h
  | .error e => e.In h

/-- A function of the host that gives only values it was given or has added, and only edits the heap. -/
def HostFunction.Sound (f : HostFunction ω) : Prop :=
  ∀ call h world, h.WellFormed → call.In h →
    h.Edits False (f.run call h world).2.1 ∧ HostAnswerIn (f.run call h world).1 (f.run call h world).2.1

theorem HostFunction.Sound.of_run {f : HostFunction ω} {call : NativeCall} {h h' : Heap} {world world' : ω}
    {r : Except Failure Reply} (hf : f.Sound) (hrun : f.run call h world = (r, h', world')) (hw : h.WellFormed)
    (hc : call.In h) : h.Edits False h' ∧ HostAnswerIn r h' := by
  have he := hf call h world hw hc
  rw [hrun] at he
  exact he

/-! ### Calls of the host -/

/-- What a call complains of, whatever calls complains of. -/
theorem Complains.of_call {c : Setting ω} {f f' : Frame} {h : Heap} {e : Failure} (hc : Complains c f h e)
    (hcall : f.top.node.isCall) (hr : f.top.ref = none) : Complains c f' h e := by
  unfold Node.isCall at hcall
  split at hcall
  case h_3 => cases hcall
  all_goals
    rename_i hn
    cases hc with
    | thrown v => exact .thrown v
    | ordinary ht => exact .ordinary ht
    | endless => exact .endless
    | missing hr hn => exact .missing hr hn
    | unbound hname hl => simp [hn, hr, Node.ownNames] at hname
    | place ha => simp [State.awaitsPlace, hn] at ha
    | refused hno => simp [Node.isRefused, hn] at hno
    | unexpected hno => simp [Node.isEvaluated, hn] at hno

theorem Node.not_isDelete_of_isCall {n : Node} (h : n.isCall) : ¬n.isDelete := by
  unfold Node.isCall at h
  split at h
  case h_3 => cases h
  all_goals exact Bool.noConfusion

/-- A call that is left to the host has lost nothing. -/
theorem Effect.edits_of_host {c : Setting ω} {f : Frame} {name : String} {call : NativeCall} {h : Heap}
    (he : Effect c f (.host name call) h) (hcall : f.top.node.isCall) : f.heap.Edits False h := by
  cases he with
  | edits e => exact e.mono (Node.not_isDelete_of_isCall hcall)

/-- What a call does after a function of the host has edited the heap, it does from where it began. -/
theorem Effect.of_edits {c : Setting ω} {f g : Frame} {mv : Move} {h : Heap} (he : Effect c g mv h) (hcall : g.top.node.isCall)
    (e : f.heap.Edits False g.heap) : Effect c f mv h := by
  cases he with
  | edits e' => exact .edits ((e.trans (e'.mono (Node.not_isDelete_of_isCall hcall))).mono False.elim)
  | function hf =>
    unfold Node.isCall at hcall
    split at hcall
    case h_3 => cases hcall
    all_goals
      rename_i hn
      rw [hn] at hf
      cases hf
  | enter e' hr hc ht ha => exact .enter (e.trans e') hr hc ht ha

/-- From an answer of the host that is in the heap, the call goes on like every other one. -/
theorem resume_ends {c : Setting ω} {f : Frame} (below : List State) {answer : Except Failure Reply} (hf : f.Sound)
    (ha : HostAnswerIn answer f.heap) {s : State} (hs : s.In f.heap) (hcall : s.node.isCall) :
    (resume c below answer).wp (Stepwise.Ends c f) (fun e f' => answer = .error e ∧ f' = ⟨s, f.heap⟩ ∨ Fails c f e f')
      ⟨s, f.heap⟩ := by
  unfold resume
  split
  · exact .inl ⟨rfl, rfl⟩
  · exact .same hs ha rfl
  · obtain ⟨hfunc, hthis, hargs⟩ := ha
    have hs' := ((hs.with_values hargs).with_this hthis).with_func hfunc
    refine RuleM.wp_bind (wp_modifyTop (RuleM.wp_bind (RuleM.wp_top ?_)))
    split
    · exact (invoke_ends below _ _ _ hf hs').mono (fun _ _ h => h) fun _ _ => .inr
    · exact (invoke_ends below _ _ _ hf hs').mono (fun _ _ h => h) fun _ _ => .inr
    · rename_i hcall' hnew
      unfold Node.isCall at hcall
      split at hcall
      · exact absurd ‹_› (hcall' _ _ _)
      · exact absurd ‹_› (hnew _ _ _)
      · cases hcall

/-- A failure of a rule, or of a call of the host that the rule asks for. -/
structure FailsWith (c : Setting ω) (f : Frame) (e : Failure) (f' : Frame) : Prop where
  edits : f.heap.Edits False f'.heap
  top : f'.top.In f'.heap
  failure : e.In f'.heap
  cause : Complains c f f'.heap e ∨ (∃ g ∈ c.host, ∃ call h world, (g.run call h world).1 = .error e) ∨
    ∃ name, e = .fault (.unregisteredNative name) ∧ c.host? name = none ∧ f'.heap.Runs (.native name) ∧
      Library.native? name = none

/-- Every search along prototypes or along scopes comes to its end. -/
def Heap.SearchesEnd (h : Heap) : Prop :=
  (∀ id o, h.object? id = some o → ∃ p, (h.chain h.objects.size o).getLast? = some p ∧ p.proto = 0) ∧
    ∀ id s, h.scope? id = some s → ∃ t, (h.scopeChain id).getLast? = some t ∧ t.parent = 0

theorem Effect.wellFormed {c : Setting ω} {f : Frame} {m : Move} {h : Heap} (e : Effect c f m h) (hf : f.Sound) :
    h.WellFormed ∧ f.heap.Grows h := by
  cases e with
  | edits e => exact e.wellFormed hf.heap
  | @function callable hn =>
    exact ⟨(hf.heap.evalFunction callable hf.top.scope).1,
      (keeps_evalFunction f.heap callable f.top.scope hf.heap.toFiled).2⟩
  | @enter h id closure callable this args e hr hc ht ha =>
    obtain ⟨hw, g⟩ := e.wellFormed hf.heap
    obtain ⟨oid, o, info, ho, hi, hcode⟩ := hr
    have hs : (h.scope? closure).isSome := by
      have hin := (hw.sound ho).closure info hi
      unfold FunctionInfo.In at hin
      rw [hcode] at hin
      exact hin
    exact ⟨hw.bindCall hs callable ht ha, g.trans (keeps_bindCall h closure callable this args hw.toFiled).2⟩

namespace Machine

variable {c : Setting ω} {m : Machine}

/-! ### Steps -/

/-- What a move leaves on the stack: states that were there, the one below with what it receives, and the one that
is started. -/
theorem forall_mem_apply {P : State → Prop} {top : State} {below : List State} {mv : Move} (ht : P top)
    (hb : ∀ s ∈ below, P s)
    (hpush : ∀ node scope components labels, mv = .push node scope components labels →
      P { id := m.lastId + 1, node := c.resolve node, scope, components, labels })
    (hgive : ∀ s v, mv = .give v → P s → P (s.receive v))
    (hplace : ∀ s r, mv = .giveRef r → P s → P (s.receiveRef r))
    (hreturn : ∀ s v, mv = .return_ v → s.isActiveCall → P s → P { s.receive v with phase := CallPhase.returned }) :
    ∀ s ∈ (m.apply c top below mv).1.stack, P s := by
  have hall : ∀ s ∈ top :: below, P s := List.forall_mem_cons.2 ⟨ht, hb⟩
  have hdeliver {g : State → State} (hg : ∀ s, P s → P (g s)) : ∀ s ∈ deliver g below, P s := by
    cases below with
    | nil => exact hb
    | cons s below =>
      obtain ⟨hs, hb⟩ := List.forall_mem_cons.1 hb
      exact List.forall_mem_cons.2 ⟨hg s hs, hb⟩
  cases mv with
  | stay | host => exact hall
  | push node scope components labels => exact List.forall_mem_cons.2 ⟨hpush node scope components labels rfl, hall⟩
  | drop => exact hb
  | give v => exact hdeliver fun s => hgive s v rfl
  | giveRef r => exact hdeliver fun s => hplace s r rfl
  | jump label isContinue => exact fun s hs => hb s ((leaveTo_suffix label isContinue below).subset hs)
  | return_ v =>
    have hto (stack : List State) (hs : ∀ s ∈ stack, P s) : ∀ s ∈ (returnTo v stack).1, P s := by
      induction stack with
      | nil => exact hs
      | cons s stack ih =>
        obtain ⟨hs, hrest⟩ := List.forall_mem_cons.1 hs
        unfold returnTo
        split
        · exact List.forall_mem_cons.2 ⟨hreturn s v rfl ‹_› hs, hrest⟩
        · exact ih hrest
    exact hto _ hall

/-- What a move leaves on the stack is in the heap. -/
theorem in_apply {top : State} {below : List State} {mv : Move} (ht : top.In m.heap) (hb : ∀ s ∈ below, s.In m.heap)
    (hm : mv.In m.heap) : ∀ s ∈ (m.apply c top below mv).1.stack, s.In m.heap := by
  refine forall_mem_apply ht hb ?_ ?_ ?_ ?_
  · rintro node scope components labels rfl
    exact ⟨hm, trivial, trivial, by simp, by simp, trivial, trivial⟩
  · rintro s v rfl hs
    exact hs.with_value hm
  · rintro s r rfl hs
    refine hs.with_ref fun r' hr' => ?_
    cases hr'
    exact hm
  · rintro s v rfl - hs
    exact hs.with_value hm

/-- How a step ends: the machine is well-formed, and what is thrown is in its heap. -/
structure Lands (r : Outcome × Machine) : Prop where
  machine : r.2.WellFormed
  thrown : ∀ v, r.1 = .exception v → v.In r.2.heap

theorem lands_move {top : State} {below : List State} {mv : Move} (hw : m.heap.WellFormed)
    (hg : (m.heap.scope? m.global).isSome) (ht : top.In m.heap) (hb : ∀ s ∈ below, s.In m.heap) (hm : mv.In m.heap) :
    Lands (m.move c top below mv) := by
  obtain ⟨hheap, hglobal⟩ := heap_apply (c := c) m top below mv
  constructor
  · rw [snd_move]
    refine ⟨?_, ?_, ?_⟩ <;> rw [hheap]
    · exact hw
    · exact in_apply ht hb hm
    · rw [hglobal]
      exact hg
  · intro v he
    simp only [move] at he
    split at he
    · cases he
    · split at he <;> cases he

theorem lands_fail {e : Failure} (hm : m.WellFormed) (he : e.In m.heap) : Lands (m.fail e) := by
  cases e with
  | thrown v =>
    refine ⟨hm, fun w hw => ?_⟩
    cases hw
    exact he
  | fault f => exact ⟨hm, fun w hw => by cases hw⟩
  | raised t =>
    have e₁ : m.heap.Edits False (m.heap.newError t.type.name t.message).2 := edits_newError hm.heap _ _
    obtain ⟨hw₁, g₁⟩ := e₁.wellFormed hm.heap
    have e₂ : (m.heap.newError t.type.name t.message).2.Edits False (m.raise t).2.heap :=
      edits_putHidden hw₁ _ "stack" trivial
    obtain ⟨hw₂, g₂⟩ := e₂.wellFormed hw₁
    have g := g₁.trans g₂
    refine ⟨⟨hw₂, fun s hs => (hm.stack s hs).mono g, g.isSome_scope? hm.global⟩, fun w hw => ?_⟩
    cases hw
    have hin : (Value.object (m.heap.newError t.type.name t.message).1).In
      (m.heap.newError t.type.name t.message).2 := in_add _ _
    exact hin.mono g₂

/-- The rule of the state on top starts from a sound frame. -/
theorem Asks.sound {s : State} {below : List State} {r : EStateM.Result Failure Frame Move} {world world' : ω}
    (ha : m.Asks c s below world r world') (hm : m.WellFormed) : Frame.Sound ⟨s, m.heap⟩ :=
  ⟨hm.heap, hm.stack s (ha.stack ▸ List.mem_cons_self)⟩

/-- How a step can fail: the rule of the state on top does, a call of the host gets no answer, a function of the host
fails, or the call does that it asks for. What was done before stays in the heap. -/
inductive Failing (c : Setting ω) (m : Machine) (s : State) (below : List State) : Failure → Frame → Prop where
  | rule {e : Failure} {f : Frame} (hrule : stepNode c below s.node ⟨s, m.heap⟩ = .error e f) : Failing c m s below e f
  | lost {name : String} {e : Fault} {f : Frame} (hedits : m.heap.Edits False f.heap) (ht : f.top.In f.heap)
    (hruns : f.heap.Runs (.native name)) (hnative : Library.native? name = none)
    (he : e = .endlessCalls ∨ e = .unregisteredNative name ∧ c.host? name = none) : Failing c m s below (.fault e) f
  | refused {g : HostFunction ω} {call : NativeCall} {h : Heap} {world : ω} {e : Failure} {f : Frame} (hg : g ∈ c.host)
    (hrun : (g.run call h world).1 = .error e) (hedits : m.heap.Edits False f.heap) (ht : f.top.In f.heap)
    (he : e.In f.heap) : Failing c m s below e f
  | resumed {top : State} {h : Heap} {reply : Reply} {e : Failure} {f : Frame} (hcall : s.node.isCall)
    (htop : s.Evolves top) (hedits : m.heap.Edits False h) (ht : top.In h) (hreply : reply.In h)
    (hresume : resume c below (.ok reply) ⟨top, h⟩ = .error e f) : Failing c m s below e f

/-- A call goes on like every other one, whatever place it had. -/
theorem resume_ends_of_evolves {s top : State} (below : List State) {h : Heap} {answer : Except Failure Reply}
    (hw : h.WellFormed) (ha : HostAnswerIn answer h) (hcall : s.node.isCall) (htop : s.Evolves top) (ht : top.In h) :
    (resume c below answer).wp (Stepwise.Ends c ⟨{ top with ref := none }, h⟩)
      (fun e f' => answer = .error e ∧ f' = ⟨top, h⟩ ∨ Stepwise.Fails c ⟨{ top with ref := none }, h⟩ e f') ⟨top, h⟩ :=
  resume_ends (f := ⟨{ top with ref := none }, h⟩) below ⟨hw, ht.with_ref nofun⟩ ha ht (htop.node ▸ hcall)

theorem resume_fails {s top : State} {below : List State} {h : Heap} {reply : Reply} {e : Failure} {f : Frame}
    (hw : h.WellFormed) (hreply : reply.In h) (hcall : s.node.isCall) (htop : s.Evolves top) (ht : top.In h)
    (hresume : resume c below (.ok reply) ⟨top, h⟩ = .error e f) : Stepwise.Fails c ⟨{ top with ref := none }, h⟩ e f :=
  have hends := resume_ends_of_evolves below hw (show HostAnswerIn (.ok reply) h from hreply) hcall htop ht
  (hends.of_error hresume).resolve_left nofun

/-- How the rule of the state on top comes to its end with the functions of the host that it calls: it has one of its
effects, or the step fails. -/
theorem Asks.ends {s : State} {below : List State} {r : EStateM.Result Failure Frame Move} {world world' : ω}
    (ha : m.Asks c s below world r world') (hc : ∀ f ∈ c.host, f.Sound) (hm : m.WellFormed) :
    Ensures (fun mv f => Stepwise.Ends c ⟨s, m.heap⟩ mv f ∧ s.Evolves f.top ∧ mv.Fits c m.heap s.node f)
      (Failing c m s below) r := by
  refine ha.induct (P := fun r _ => Ensures _ _ r) ?_ (fun name call f e _ hq hlost => ?_)
    fun name call f g answer h w w' hq hg hrun => ?_
  · cases hrule : stepNode c below s.node ⟨s, m.heap⟩ with
    | ok mv f =>
      obtain ⟨hk, hfits⟩ := (stepNode_calls c below s.node ⟨s, m.heap⟩ hm.heap.toFiled).of_ok hrule
      exact ⟨(stepNode_ends (f := ⟨s, m.heap⟩) below (ha.sound hm)).of_ok hrule, hk.top, hfits⟩
    | error e f => exact .rule hrule
  · obtain ⟨hends, -, hfits⟩ := hq
    exact .lost (hends.effect.edits_of_host hfits.isCall) hends.top hends.move.2.1 hends.move.2.2 hlost
  · obtain ⟨hends, htop, hfits⟩ := hq
    -- the heap after the rule, and after the function of the host
    have e := hends.effect.edits_of_host hfits.isCall
    obtain ⟨hw, hg₁⟩ := e.wellFormed hm.heap
    obtain ⟨e', hin⟩ := (hc g hg).of_run hrun hw hends.move.1
    obtain ⟨hw', hg₂⟩ := e'.wellFormed hw
    have ht := hends.top.mono hg₂
    have hresumed := resume_ends_of_evolves (c := c) below hw' hin hfits.isCall htop ht
    cases hresume : resume c below answer ⟨f.top, h⟩ with
    | ok mv f' =>
      have hr := hresumed.of_ok hresume
      obtain ⟨hk, hf⟩ := (resume_calls c below hfits.isCall answer ⟨f.top, h⟩ hw'.toFiled).of_ok hresume
      refine ⟨⟨hr.effect.of_edits (htop.node ▸ hfits.isCall) (e.trans e'), hr.top, hr.move⟩, htop.trans hk.top, ?_⟩
      exact hf.of_next_le (hg₁.trans hg₂).next_le
    | error failure f' =>
      cases answer with
      | ok reply => exact .resumed hfits.isCall htop (e.trans e') ht hin hresume
      | error failure =>
        cases hresume
        exact .refused hg (congrArg Prod.fst hrun) (e.trans e') ht hin

/-- What a step that fails leaves, and why it fails. -/
theorem Failing.fails {s : State} {below : List State} {e : Failure} {f : Frame} (hf : m.Failing c s below e f)
    (hm : m.WellFormed) (hs : s.In m.heap) : FailsWith c ⟨s, m.heap⟩ e f := by
  cases hf with
  | rule hrule =>
    have hfails := (stepNode_ends (f := ⟨s, m.heap⟩) below ⟨hm.heap, hs⟩).of_error hrule
    exact ⟨hfails.edits, hfails.top, hfails.failure, .inl hfails.cause⟩
  | @lost name _ _ hedits ht hruns hnative he =>
    refine ⟨hedits, ht, trivial, ?_⟩
    rcases he with rfl | ⟨rfl, hnone⟩
    · exact .inl .endless
    · exact .inr (.inr ⟨name, rfl, hnone, hruns, hnative⟩)
  | refused hg hrun hedits ht he => exact ⟨hedits, ht, he, .inr (.inl ⟨_, hg, _, _, _, hrun⟩)⟩
  | @resumed top h reply _ _ hcall htop hedits ht hreply hresume =>
    have hfails := resume_fails (hedits.wellFormed hm.heap).1 hreply hcall htop ht hresume
    exact ⟨hedits.trans hfails.edits, hfails.top, hfails.failure, .inl (hfails.cause.of_call (htop.node ▸ hcall) rfl)⟩

theorem Asks.fails {s : State} {below : List State} {e : Failure} {f : Frame} {world world' : ω}
    (ha : m.Asks c s below world (.error e f) world') (hc : ∀ f ∈ c.host, f.Sound) (hm : m.WellFormed) :
    FailsWith c ⟨s, m.heap⟩ e f :=
  Failing.fails (ha.ends hc hm) hm (ha.sound hm).top

/-- Every step leaves the machine well-formed, however it ends. -/
theorem lands_step (hc : ∀ f ∈ c.host, f.Sound) (hm : m.WellFormed) (world : ω) :
    Lands ((m.step c world).1, (m.step c world).2.1) := by
  rcases hs : m.step c world with ⟨outcome, m', world'⟩
  have hbelow {s : State} {below : List State} {r : EStateM.Result Failure Frame Move} {world' : ω} {h : Heap}
      (ha : m.Asks c s below world r world') (g : m.heap.Grows h) (t : State) (ht : t ∈ below) : t.In h :=
    (hm.stack t (ha.stack ▸ List.mem_cons_of_mem s ht)).mono g
  cases takes_of_step hs with
  | ended => exact ⟨hm, fun v hv => by cases hv⟩
  | @moved _ _ mv f _ _ _ ha he =>
    have hr : Stepwise.Ends c _ mv f := (ha.ends hc hm).1
    obtain ⟨hw, g⟩ := hr.effect.wellFormed (ha.sound hm)
    exact he ▸ lands_move hw (g.isSome_scope? hm.global) hr.top (hbelow ha g) hr.move
  | @failed _ _ e f _ _ _ ha he =>
    have hr := ha.fails hc hm
    obtain ⟨hw, g⟩ := hr.edits.wellFormed hm.heap
    refine he ▸ lands_fail ⟨hw, ?_, g.isSome_scope? hm.global⟩ hr.failure
    exact List.forall_mem_cons.2 ⟨hr.top, hbelow ha g⟩

/-! ### The start -/

theorem wellFormed_bare : bare.WellFormed := by
  have hw := Library.wellFormed_install
  have hs := Library.filed_install.2
  rw [bare_eq]
  generalize Library.install = i at hw hs ⊢
  refine ⟨hw, by simp, ?_⟩
  dsimp only
  rw [hs]
  rfl

theorem wellFormed_enter (hm : m.WellFormed) (p : Program) : (m.enter c p).WellFormed := by
  have g := (keeps_hoist m.heap p.declarations m.global hm.heap.toFiled).2
  have hnew : ({ id := m.lastId + 1, node := c.resolve (.program p), scope := m.global } : State).In m.heap :=
    ⟨hm.global, trivial, trivial, by simp, by simp, trivial, trivial⟩
  refine ⟨hm.heap.hoist p.declarations hm.global, ?_, g.isSome_scope? hm.global⟩
  have hall : ∀ s ∈ (m.push c (.program p) m.global false []).stack, s.In m.heap :=
    List.forall_mem_cons.2 ⟨hnew, hm.stack⟩
  exact fun s hs => (hall s hs).mono g

theorem wellFormed_run (hc : ∀ f ∈ c.host, f.Sound) (limit done : Nat) (hm : m.WellFormed) (world : ω) :
    (run.go c limit done m world).machine.WellFormed :=
  run_induct (P := WellFormed) (fun _ world hm => (lands_step hc hm world).machine) limit done hm world

/-- Hiding properties keeps an object sound. -/
theorem sound_hideVisible {h : Heap} {o : Object} (hs : o.Sound h) :
    (hideVisible o).Sound h ∧ ∀ key, (o.own? key).isSome → ((hideVisible o).own? key).isSome := by
  unfold hideVisible
  generalize o.keys = keys
  induction keys generalizing o with
  | nil => exact ⟨hs, fun _ hk => hk⟩
  | cons k keys ih =>
    rw [List.foldl_cons]
    have hv : ((o.own? k).getD .undefined).In h := by
      cases ho : o.own? k with
      | none => trivial
      | some v => exact hs.prop k v ho
    split
    · exact ih hs
    · obtain ⟨hs', hk'⟩ := ih (hs.putHidden k hv)
      exact ⟨hs', fun key hk => hk' key (isSome_own?_putHidden o k _ key hk)⟩

/-- Hiding the properties of an object is an edit. -/
theorem edits_hideVisible {h : Heap} (hw : h.WellFormed) (id : ObjectId) :
    h.Edits False (h.modify id hideVisible) :=
  edits_modify hw alike_hideVisible (fun _ hs => sound_hideVisible hs) id

theorem wellFormed_withLibrary (h : withLibrary c = .ok m) : m.WellFormed := by
  obtain ⟨l, -, hl, rfl⟩ := withLibrary_eq h
  have hr : l.WellFormed :=
    hl ▸ wellFormed_run (c := c.alone) (by simp [Setting.alone]) endless 0 (wellFormed_enter wellFormed_bare c.library) ()
  obtain ⟨hw, g⟩ := (edits_hideVisible hr.heap (l.heap.intrinsic Intrinsic.arrayPrototype)).wellFormed hr.heap
  exact ⟨hw, by simp, g.isSome_scope? hr.global⟩

theorem wellFormed_bindHost (hm : m.WellFormed) (name : String) : (m.bindHost name).WellFormed := by
  have hn : FunctionInfo.IsNamed ⟨name, .native ("host." ++ name), 0⟩ := by simp [FunctionInfo.IsNamed]
  obtain ⟨hw, hin⟩ := hm.heap.newFunction hn trivial
  have g := (keeps_newFunction m.heap hn hm.heap.toFiled).2
  obtain ⟨hw', g'⟩ := (edits_putHidden hw m.global name hin : Edits False _ _).wellFormed hw
  exact ⟨hw', fun s hs => ((hm.stack s hs).mono g).mono g', g'.isSome_scope? (g.isSome_scope? hm.global)⟩

theorem wellFormed_bindHosts (hm : m.WellFormed) (names : List String) : (names.foldl bindHost m).WellFormed := by
  induction names generalizing m with
  | nil => exact hm
  | cons name names ih => exact ih (wellFormed_bindHost hm name)

theorem wellFormed_start (h : start c = .ok m) : m.WellFormed := by
  obtain ⟨l, names, hl, -, rfl⟩ := start_eq h
  exact wellFormed_enter (wellFormed_bindHosts (wellFormed_withLibrary hl) names) c.program

theorem Reachable.wellFormed (hh : ∀ f ∈ c.host, f.Sound) {world : ω} (h : m.Reachable c world) : m.WellFormed := by
  induction h with
  | start h world => exact wellFormed_start h
  | step h hs ih =>
    rename_i world _
    have hl := (lands_step hh ih world).machine
    rw [hs] at hl
    exact hl

end Machine

/-! ### Functions of a session -/

/-- Adding values only edits the heap, with what then holds of the result. -/
def Intake.Yields {α : Type} (x : Intake α) (Q : α → Heap → Prop) (h : Heap) : Prop :=
  match x h with
  | .ok a h' => h.Edits False h' ∧ Q a h'
  | .error _ h' => h.Edits False h'

/-- What the first part gives stays in the heap while the second part adds to it. -/
theorem Intake.Yields.bind {α β : Type} {Q : α → Heap → Prop} {R : β → Heap → Prop} {x : Intake β}
    {f : β → Intake α} {h : Heap} (hw : h.WellFormed) (hx : x.Yields R h)
    (hf : ∀ b h', h'.WellFormed → h.Grows h' → R b h' → (f b).Yields Q h') : Intake.Yields (x >>= f) Q h := by
  unfold Yields at hx ⊢
  have he : (x >>= f) h = EStateM.bind x f h := rfl
  rw [he]
  unfold EStateM.bind
  cases hr : x h with
  | error e h' =>
    rw [hr] at hx
    exact hx
  | ok b h' =>
    rw [hr] at hx
    obtain ⟨e, hb⟩ := hx
    obtain ⟨hw', g⟩ := e.wellFormed hw
    have hy := hf b h' hw' g hb
    unfold Yields at hy
    dsimp only
    split
    · rename_i he'
      rw [he'] at hy
      exact ⟨e.trans hy.1, hy.2⟩
    · rename_i he'
      rw [he'] at hy
      exact e.trans hy

namespace HostValue

mutual

theorem yields_intake {h : Heap} (x : HostValue) (hw : h.WellFormed) : x.intake.Yields Value.In h := by
  cases x with
  | undefined | null | bool | number | string | int | single => exact ⟨.refl, trivial⟩
  | function | foreign => exact .refl
  | list items =>
    refine .bind hw (yields_intakeAll items hw) fun elems h' hw' _ he => ?_
    exact ⟨edits_newArray hw' fun v hv => he v (List.mem_toArray.1 hv), in_add _ _⟩
  | object fields | record fields =>
    have e : h.Edits False h.newPlain.2 := edits_newPlain hw
    have hin : (Value.object h.newPlain.1).In h.newPlain.2 := in_add _ _
    have hnew : Intake.Yields (modifyGet (·.newPlain)) (fun id h => (Value.object id).In h) h := ⟨e, hin⟩
    refine .bind hw hnew fun id h' hw' _ hid => ?_
    refine .bind hw' (yields_intakeFields id fields hw') fun _ h'' _ g hu => ?_
    exact ⟨.refl, hid.mono g⟩

theorem yields_intakeAll {h : Heap} (xs : List HostValue) (hw : h.WellFormed) :
    (intakeAll xs).Yields (fun vs h => ∀ v ∈ vs, v.In h) h := by
  cases xs with
  | nil => exact ⟨.refl, by simp⟩
  | cons x xs =>
    refine .bind hw (yields_intake x hw) fun v h' hw' _ hv => ?_
    refine .bind hw' (yields_intakeAll xs hw') fun vs h'' _ g hvs => ?_
    exact ⟨.refl, List.forall_mem_cons.2 ⟨hv.mono g, hvs⟩⟩

theorem yields_intakeFields {h : Heap} (id : ObjectId) (fields : List (String × HostValue)) (hw : h.WellFormed) :
    (intakeFields id fields).Yields (fun _ _ => True) h := by
  cases fields with
  | nil => exact ⟨.refl, trivial⟩
  | cons field fields =>
    obtain ⟨key, x⟩ := field
    refine .bind hw (yields_intake x hw) fun v h' hw' _ hv => ?_
    have e : h'.Edits False (h'.modify id (·.put key v)) := edits_declare hw' id key hv
    have hput : Intake.Yields (modify (·.modify id (·.put key v))) (fun _ _ => True) h' := ⟨e, trivial⟩
    exact .bind hw' hput fun _ h'' hw'' _ _ => yields_intakeFields id fields hw''

end

end HostValue

/-- The functions of a session only edit the heap, and give what is in it. -/
theorem SessionFunction.sound_toHost {σ : Type} (f : SessionFunction σ) : f.toHost.Sound := by
  intro call h world hw _
  have haccept (logged : Bool) (result : Except String HostValue) :
      h.Edits False (accept f.name h logged result).2 ∧
        HostAnswerIn (accept f.name h logged result).1 (accept f.name h logged result).2 := by
    unfold accept
    split
    · exact ⟨.refl, trivial⟩
    · rename_i x
      split
      · exact ⟨.refl, trivial⟩
      · have hy := x.yields_intake hw
        unfold Intake.Yields at hy
        split <;> rename_i he <;> rw [he] at hy
        · exact hy
        · exact ⟨hy, trivial⟩
  exact haccept _ _

namespace Machine

/-- Every machine that a program reaches is well-formed, and stays so in one more step, however that ends; what
is thrown then is in the heap. So every search along prototypes or scopes ends. -/
theorem reachable_wellFormed {c : Setting ω} {m : Machine} (hh : ∀ f ∈ c.host, f.Sound) {world : ω}
    (hr : m.Reachable c world) :
    (m.WellFormed ∧ m.heap.SearchesEnd) ∧
      ((m.step c world).2.1.WellFormed ∧ (m.step c world).2.1.heap.SearchesEnd) ∧
      ∀ v, (m.step c world).1 = .exception v → v.In (m.step c world).2.1.heap := by
  have hm := hr.wellFormed hh
  have hl := lands_step hh hm world
  have hends {h : Heap} (hw : h.WellFormed) : h.SearchesEnd :=
    ⟨fun _ _ ho => hw.chain_ends ho, fun _ _ hs => hw.scopeChain_ends hs⟩
  exact ⟨⟨hm, hends hm.heap⟩, ⟨hl.machine, hends hl.machine.heap⟩, hl.thrown⟩

/-- A program that has logged an array throws it. -/
theorem reachable_wellFormed_throw :
    ∃ (program : Program) (m : Machine) (world : World Unit) (v : Value),
      let c := Setting.ofPrograms (Library.read "") program [SessionFunction.output.toHost] Setting.defaultDepth Setting.zeros
      Program.ofSource "var x = [1]; output(x); throw x;" = .ok program ∧ m.Reachable c world ∧
        world.console.bins.map List.length = [1] ∧ (m.step c world).1 = .exception v ∧
        v.In (m.step c world).2.1.heap ∧ (m.step c world).2.1.WellFormed := by
  let host : List (HostFunction (World Unit)) := [SessionFunction.output.toHost]
  have hrun : (after? "var x = [1]; output(x); throw x;" host 17 ⟨⟨[[]]⟩, ()⟩).any fun x =>
      x.2.2.console.bins.map List.length = [1] ∧
        (x.2.1.step (Setting.ofPrograms (Library.read "") x.1 host Setting.defaultDepth Setting.zeros) x.2.2).1.name =
          "exception" := by
    decide +kernel
  obtain ⟨⟨program, m, world⟩, hx, hrun⟩ := (Option.any_eq_true _ _).1 hrun
  obtain ⟨hp, hr⟩ := of_after? hx
  obtain ⟨hbins, hname⟩ := of_decide_eq_true hrun
  let c : Setting (World Unit) := Setting.ofPrograms (Library.read "") program host Setting.defaultDepth Setting.zeros
  have hh : ∀ f ∈ c.host, f.Sound := by
    intro f hf
    cases List.mem_singleton.1 hf
    exact SessionFunction.sound_toHost _
  obtain ⟨-, ⟨hm, -⟩, hv⟩ := reachable_wellFormed hh hr
  obtain ⟨v, he⟩ : ∃ v, (m.step c world).1 = .exception v := by
    cases ho : (m.step c world).1 with
    | exception v => exact ⟨v, rfl⟩
    | advanced | ended | fault =>
      rw [ho] at hname
      simp [Outcome.name] at hname
  exact ⟨program, m, world, v, hp, hr, hbins, he, hv v he, hm⟩

/-! ### Identities -/

/-- What a failure adds has new identities. -/
theorem grows_fail {h : Heap} (hw : h.WellFormed) (m : Machine) (stack : List State) (e : Failure) :
    h.Grows ({ m with heap := h, stack }.fail e).2.heap :=
  (keeps_fail { m with heap := h, stack } e hw.toFiled).2

/-- A step keeps what is in the heap, and adds with new identities, however it ends. -/
theorem grows_step {c : Setting ω} {m : Machine} (hc : ∀ f ∈ c.host, f.Sound) (hm : m.WellFormed) (world : ω) :
    m.heap.Grows (m.step c world).2.1.heap := by
  rcases hs : m.step c world with ⟨outcome, m', world'⟩
  cases takes_of_step hs with
  | ended => exact .refl _
  | @moved _ _ mv f _ _ _ ha he =>
    obtain rfl : _ = m' := congrArg Prod.snd he
    have hr : Stepwise.Ends c _ mv f := (ha.ends hc hm).1
    rw [snd_move, (heap_apply _ _ _ _).1]
    exact (hr.effect.wellFormed (ha.sound hm)).2
  | @failed _ _ e f _ _ _ ha he =>
    obtain rfl : _ = m' := congrArg Prod.snd he
    have hr := ha.fails hc hm
    obtain ⟨hw, g⟩ := hr.edits.wellFormed hm.heap
    exact g.trans (grows_fail hw m _ _)

/-- So does a run, however it ends. -/
theorem grows_run {c : Setting ω} {m : Machine} (hc : ∀ f ∈ c.host, f.Sound) (limit done : Nat) (hm : m.WellFormed)
    (world : ω) : m.heap.Grows (run.go c limit done m world).machine.heap := by
  have hstep (m' : Machine) (world : ω) (h : m'.WellFormed ∧ m.heap.Grows m'.heap) :
      (m'.step c world).2.1.WellFormed ∧ m.heap.Grows (m'.step c world).2.1.heap :=
    ⟨(lands_step hc h.1 world).machine, h.2.trans (grows_step hc h.1 world)⟩
  exact (run_induct hstep limit done ⟨hm, .refl _⟩ world).2

/-- Identities are permanent. From every machine that a program reaches, a step and every number of steps keep each
object with its class, prototype, function and primitive value, and each scope with its parent; what they add has
identities that were not given before. -/
theorem identities_permanent {c : Setting ω} {m : Machine} (hh : ∀ f ∈ c.host, f.Sound) {world : ω}
    (hr : m.Reachable c world) :
    m.heap.Grows (m.step c world).2.1.heap ∧ ∀ limit, m.heap.Grows (m.run c limit world).machine.heap :=
  ⟨grows_step hh (hr.wellFormed hh) world, fun limit => grows_run hh limit 0 (hr.wellFormed hh) world⟩

/-- A program that has changed an object fails, and the error gets the next identity. -/
theorem identities_permanent_throw :
    ∃ (program : Program) (m : Machine),
      let c : Setting Unit := Setting.ofPrograms (Library.read "") program [] Setting.defaultDepth Setting.zeros
      Program.ofSource "var o = {}; delete o.x; null.x;" = .ok program ∧ m.Reachable c () ∧
        (m.step c ()).1.name = "exception" ∧ m.heap.next < (m.step c ()).2.1.heap.next ∧
        m.heap.Grows (m.step c ()).2.1.heap := by
  have hrun : (after? (ω := Unit) "var o = {}; delete o.x; null.x;" [] 16 ()).any fun x =>
      let r := x.2.1.step (Setting.ofPrograms (Library.read "") x.1 [] Setting.defaultDepth Setting.zeros) x.2.2
      r.1.name = "exception" ∧ x.2.1.heap.next < r.2.1.heap.next := by
    decide +kernel
  obtain ⟨⟨program, m, world⟩, hx, hrun⟩ := (Option.any_eq_true _ _).1 hrun
  obtain ⟨hp, hr⟩ := of_after? hx
  obtain ⟨hname, hnext⟩ := of_decide_eq_true hrun
  exact ⟨program, m, hp, hr, hname, hnext, (identities_permanent (by simp [Setting.ofPrograms]) hr).1⟩

end Machine

end Stepwise

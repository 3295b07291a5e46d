import Stepwise.Proofs.Machine.Statement

/-!
# What a step can do

* `Machine.Takes`: how a step is taken, with the result of the rule that was asked. `Machine.takes_of_step`: there is no
  other way.
* `Machine.Moves`: a step starts one state on top of the stack, or leaves a lower part of the stack. Only the
  state that comes to lie on top may have gathered something; the heap is kept.
* `Machine.moves_step`: every step does so.
* `Machine.grounded_step`: a step that advances does not leave the state of the program at the bottom.
* `Machine.Comes`: how a step can end. It moves the stack, or the states stay as they are, up to what the one on top has
  gathered.
* `Machine.Acts`: what a step does to the stack, whatever the host and the program do. It starts one state on top, with
  the next identity, or leaves a lower part; the identities go on growing from the bottom to the top.
* `Machine.Acts.exists_above`: what lies below a state is not touched as long as the stack does not fall lower.
* `Machine.step_congr`: worlds that functions of the host do not tell apart lead to the same steps.
-/

namespace Stepwise

open RuleM

variable {ω : Type}

/-- A function of the host that keeps what is in the heap. -/
def HostFunction.Keeps (f : HostFunction ω) : Prop := ∀ call (h : Heap) world, h.Keeps (f.run call h world).2.1

theorem HostFunction.Keeps.of_run {f : HostFunction ω} {call : NativeCall} {h h' : Heap} {world world' : ω}
    {r : Except Failure Reply} (hf : f.Keeps) (hrun : f.run call h world = (r, h', world')) : h.Keeps h' := by
  have hk := hf call h world
  rw [hrun] at hk
  exact hk

/-- A function of the host that does not tell related worlds apart, and leaves them related. -/
def HostFunction.Respects (R : ω → ω → Prop) (f : HostFunction ω) : Prop :=
  ∀ call h world world', R world world' →
    (f.run call h world).1 = (f.run call h world').1 ∧ (f.run call h world).2.1 = (f.run call h world').2.1 ∧
      R (f.run call h world).2.2 (f.run call h world').2.2

/-- The second stack is a lower part of the first. What its first state has gathered may differ. -/
def Sinks (stack stack' : List State) : Prop :=
  stack' = [] ∨ ∃ s s' rest, s :: rest <:+ stack ∧ s.Alike s' ∧ stack' = s' :: rest

namespace Sinks

theorem of_suffix {stack stack' : List State} (h : stack' <:+ stack) : Sinks stack stack' := by
  cases stack' with
  | nil => exact .inl rfl
  | cons s rest => exact .inr ⟨s, s, rest, h, .refl s, rfl⟩

theorem refl (stack : List State) : Sinks stack stack := of_suffix (List.suffix_refl stack)

theorem head {s s' : State} (h : s.Alike s') (rest : List State) : Sinks (s :: rest) (s' :: rest) :=
  .inr ⟨s, s', rest, List.suffix_refl _, h, rfl⟩

theorem cons {stack stack' : List State} (h : Sinks stack stack') (s : State) : Sinks (s :: stack) stack' := by
  rcases h with h | ⟨t, t', rest, h, ha, he⟩
  · exact .inl h
  · exact .inr ⟨t, t', rest, h.trans (List.suffix_cons s stack), ha, he⟩

/-- What the state on top has gathered does not matter. -/
theorem of_head {s s' : State} {rest stack : List State} (ha : s.Alike s') (h : Sinks (s' :: rest) stack) :
    Sinks (s :: rest) stack := by
  rcases h with h | ⟨t, t', low, h, hb, he⟩
  · exact .inl h
  · rcases List.suffix_cons_iff.1 h with h | h
    · cases h
      exact .inr ⟨s, t', rest, List.suffix_refl _, ha.trans hb, he⟩
    · exact .inr ⟨t, t', low, h.trans (List.suffix_cons s rest), hb, he⟩

theorem deliver {f : State → State} (hf : ∀ s : State, s.Alike (f s)) (below : List State) :
    Sinks below (deliver f below) := by
  cases below with
  | nil => exact .inl rfl
  | cons s rest => exact head (hf s) rest

variable {stack stack' : List State}

/-- What does not depend on what a state has gathered holds of every state that stays. -/
theorem forall_mem {P : State → Prop} (h : Sinks stack stack') (hP : ∀ s s' : State, s.Alike s' → P s → P s')
    (hs : ∀ s ∈ stack, P s) : ∀ s ∈ stack', P s := by
  rcases h with rfl | ⟨s, s', rest, hsuf, ha, rfl⟩
  · simp
  · intro t ht
    rcases List.mem_cons.1 ht with rfl | ht
    · exact hP s t ha (hs s (hsuf.subset List.mem_cons_self))
    · exact hs t (hsuf.subset (List.mem_cons_of_mem s ht))

theorem ordered (h : Sinks stack stack') (ho : stack.Pairwise fun s below => below.id < s.id) :
    stack'.Pairwise fun s below => below.id < s.id := by
  rcases h with rfl | ⟨s, s', rest, hsuf, ha, rfl⟩
  · exact .nil
  · obtain ⟨hs, hr⟩ := List.pairwise_cons.1 (ho.sublist hsuf.sublist)
    refine .cons (fun t ht => ?_) hr
    rw [ha.id]
    exact hs t ht

theorem length_le (h : Sinks stack stack') : stack'.length ≤ stack.length := by
  rcases h with rfl | ⟨s, s', rest, hsuf, -, rfl⟩
  · exact Nat.zero_le _
  · exact hsuf.length_le

/-- What is no longer than a lower part is left of this part. -/
theorem of_suffix_length_le {low : List State} (h : Sinks stack stack') (hlow : low <:+ stack)
    (hle : stack'.length ≤ low.length) : Sinks low stack' := by
  rcases h with rfl | ⟨s, s', rest, hsuf, ha, rfl⟩
  · exact .inl rfl
  · exact .inr ⟨s, s', rest, List.suffix_of_suffix_length_le hsuf hlow hle, ha, rfl⟩

end Sinks

theorem State.alike_receive (v : Value) (s : State) : s.Alike (s.receive v) := ⟨rfl, rfl, rfl, rfl, rfl⟩

theorem State.alike_receiveRef (r : Reference) (s : State) : s.Alike (s.receiveRef r) :=
  ⟨rfl, rfl, rfl, rfl, rfl⟩

theorem leaveTo_suffix (label : Option String) (isContinue : Bool) (stack : List State) :
    (leaveTo label isContinue stack).1 <:+ stack := by
  induction stack with
  | nil => exact List.suffix_refl _
  | cons s below ih =>
    unfold leaveTo
    split
    · exact List.suffix_refl _
    · split
      · dsimp only
        split
        · exact List.suffix_refl _
        · exact List.suffix_cons s below
      · exact ih.trans (List.suffix_cons s below)

theorem returnTo_sinks (v : Value) (stack : List State) : Sinks stack (returnTo v stack).1 := by
  induction stack with
  | nil => exact .refl _
  | cons s below ih =>
    unfold returnTo
    split
    · have ha : s.Alike { s.receive v with phase := CallPhase.returned } := ⟨rfl, rfl, rfl, rfl, rfl⟩
      exact .head ha below
    · exact ih.cons s

namespace Machine

/-! ### How a step is taken -/

section

variable {c : Setting ω} {below : List State}

/-- A result that asks for no call of the host is what it is. -/
theorem settle_of_ne {r : EStateM.Result Failure Frame Move} (hr : ∀ name call f, r ≠ .ok (.host name call) f) (turns : Nat)
    (world : ω) : settle c below turns r world = (r, world) := by
  unfold settle
  split
  · exact absurd rfl (hr _ _ _)
  · exact absurd rfl (hr _ _ _)
  · rfl

/-- Once it has settled, no call of the host is left. -/
theorem settle_ne_host {turns : Nat} {r : EStateM.Result Failure Frame Move} {world world' : ω} {mv : Move} {f : Frame}
    (h : settle c below turns r world = (.ok mv f, world')) (name : String) (call : NativeCall) : mv ≠ .host name call := by
  induction turns generalizing r world with
  | zero =>
    unfold settle at h
    split at h
    · cases h
    · contradiction
    · rename_i hne _
      cases h
      rintro rfl
      exact hne _ _ _ rfl rfl
  | succ turns ih =>
    unfold settle at h
    split at h
    · contradiction
    · split at h
      · cases h
      · cases ‹turns + 1 = _›
        exact ih h
    · rename_i hne
      cases h
      rintro rfl
      exact hne turns _ _ _ rfl rfl

/-- What holds of the result of a rule, however the functions of the host answer that it calls, holds of what it comes
to. A call may get no answer, since its function is missing or the calls do not end. -/
theorem settle_induct {P : EStateM.Result Failure Frame Move → ω → Prop}
    (hlost : ∀ name call f e world, P (.ok (.host name call) f) world →
      e = .endlessCalls ∨ e = .unregisteredNative name ∧ c.host? name = none → P (.error (.fault e) f) world)
    (hcall : ∀ name call f g answer h world world', P (.ok (.host name call) f) world → c.host? name = some g →
      g.run call f.heap world = (answer, h, world') → P (resume c below answer ⟨f.top, h⟩) world')
    (turns : Nat) {r : EStateM.Result Failure Frame Move} {world : ω} (hr : P r world) :
    P (settle c below turns r world).1 (settle c below turns r world).2 := by
  induction turns generalizing r world with
  | zero =>
    unfold settle
    split
    · exact hlost _ _ _ _ _ hr (.inl rfl)
    · contradiction
    · exact hr
  | succ turns ih =>
    unfold settle
    split
    · contradiction
    · rename_i turns' name call f he
      cases he
      cases hg : c.host? name with
      | none => exact hlost _ _ _ _ _ hr (.inr ⟨rfl, hg⟩)
      | some g => exact ih (hcall _ _ _ _ _ _ _ _ hr hg rfl)
    · exact hr

end

/-- What holds of a result, of its move or of its failure. -/
def Ensures (Q : Move → Frame → Prop) (E : Failure → Frame → Prop) : EStateM.Result Failure Frame Move → Prop
  | .ok mv f => Q mv f
  | .error e f => E e f

theorem ensures_of_wp {r : RuleM Move} {Q : Move → Frame → Prop} {E : Failure → Frame → Prop} {f : Frame}
    (h : r.wp Q E f) : Ensures Q E (r f) := by
  cases hr : r f with
  | ok mv f' => exact h.of_ok hr
  | error e f' => exact h.of_error hr

/-- A machine that is not at the end of its program has asked the rule of the state on top. This has come to a result,
with the functions of the host that were called for it. -/
structure Asks (c : Setting ω) (m : Machine) (s : State) (below : List State) (world : ω)
    (r : EStateM.Result Failure Frame Move) (world' : ω) : Prop where
  stack : m.stack = s :: below
  goes : m.isEnded = false
  rule : settle c below tailLimit (stepNode c below s.node ⟨s, m.heap⟩) world = (r, world')

/-- How the machine takes a step. At the end of the program it stays as it is. Else the rule of the state on top comes to
a move, or it fails. -/
inductive Takes (c : Setting ω) (m : Machine) (world : ω) : Outcome → Machine → ω → Prop where
  | ended (hended : m.isEnded) : Takes c m world .ended m world
  | moved {s : State} {below : List State} {mv : Move} {f : Frame} {outcome : Outcome} {m' : Machine} {world' : ω}
    (ha : m.Asks c s below world (.ok mv f) world')
    (he : ({ m with heap := f.heap } : Machine).move c f.top below mv = (outcome, m')) : Takes c m world outcome m' world'
  | failed {s : State} {below : List State} {e : Failure} {f : Frame} {outcome : Outcome} {m' : Machine} {world' : ω}
    (ha : m.Asks c s below world (.error e f) world')
    (he : ({ m with heap := f.heap, stack := f.top :: below } : Machine).fail e = (outcome, m')) :
    Takes c m world outcome m' world'

/-- The step of a rule that calls no function of the host. -/
theorem step_of_rule_eq {c : Setting ω} {m : Machine} {s : State} {below : List State} {r : EStateM.Result Failure Frame Move}
    (hm : m.stack = s :: below) (hended : m.isEnded = false) (hrule : stepNode c below s.node ⟨s, m.heap⟩ = r)
    (hr : ∀ name call f, r ≠ .ok (.host name call) f) (world : ω) :
    m.step c world = ((m.finish c below r).1, (m.finish c below r).2, world) := by
  unfold step
  rw [hm]
  dsimp only
  rw [hended, hrule, settle_of_ne hr]
  rfl

/-- There is no other way to take a step. -/
theorem takes_of_step {c : Setting ω} {m m' : Machine} {world world' : ω} {outcome : Outcome}
    (h : m.step c world = (outcome, m', world')) : m.Takes c world outcome m' world' := by
  unfold step at h
  split at h
  · rename_i hm
    cases h
    exact .ended (by unfold isEnded; rw [hm])
  · rename_i s below hm
    split at h
    · cases h
      exact .ended ‹_›
    · rename_i hended
      have hgoes : m.isEnded = false := by simpa using hended
      rcases hrule : settle c below tailLimit (stepNode c below s.node ⟨s, m.heap⟩) world with ⟨r, world₁⟩
      rw [hrule] at h
      cases r with
      | ok mv f =>
        cases h
        exact .moved ⟨hm, hgoes, hrule⟩ rfl
      | error e f =>
        cases h
        exact .failed ⟨hm, hgoes, hrule⟩ rfl

namespace Asks

variable {c : Setting ω} {m : Machine} {s : State} {below : List State} {world world' : ω} {mv : Move} {f : Frame}
  {e : Failure} {r : EStateM.Result Failure Frame Move}

/-- What holds of the result of the rule, however the functions of the host answer, holds of what it comes to. -/
theorem induct {P : EStateM.Result Failure Frame Move → ω → Prop} (ha : m.Asks c s below world r world')
    (hrule : P (stepNode c below s.node ⟨s, m.heap⟩) world)
    (hlost : ∀ name call f e world, P (.ok (.host name call) f) world →
      e = .endlessCalls ∨ e = .unregisteredNative name ∧ c.host? name = none → P (.error (.fault e) f) world)
    (hcall : ∀ name call f g answer h world world', P (.ok (.host name call) f) world → g ∈ c.host →
      g.run call f.heap world = (answer, h, world') → P (resume c below answer ⟨f.top, h⟩) world') : P r world' := by
  have hsettled := settle_induct hlost (fun name call f g answer h w w' hp hg =>
    hcall name call f g answer h w w' hp (List.mem_of_find?_eq_some hg)) tailLimit hrule
  rwa [ha.rule] at hsettled

/-- What the rule ensures of its move or failure, it ensures with the functions of the host that it calls. -/
theorem ensures {Q : Move → Frame → Prop} {E : Failure → Frame → Prop} (ha : m.Asks c s below world r world')
    (hrule : (stepNode c below s.node).wp Q E ⟨s, m.heap⟩)
    (hlost : ∀ name call f e, Q (.host name call) f →
      e = .endlessCalls ∨ e = .unregisteredNative name ∧ c.host? name = none → E (.fault e) f)
    (hcall : ∀ name call f g answer h world world', Q (.host name call) f → g ∈ c.host →
      g.run call f.heap world = (answer, h, world') → (resume c below answer).wp Q E ⟨f.top, h⟩) : Ensures Q E r :=
  ha.induct (P := fun r _ => Ensures Q E r) (ensures_of_wp hrule) (fun name call f e _ => hlost name call f e)
    fun name call f g answer h w w' hq hg hrun => ensures_of_wp (hcall name call f g answer h w w' hq hg hrun)

/-- The functions of the host have answered. -/
theorem ne_host (ha : m.Asks c s below world (.ok mv f) world') (name : String) (call : NativeCall) : mv ≠ .host name call :=
  settle_ne_host ha.rule name call

/-- The state on top stays what it is, whatever the functions of the host do. -/
theorem evolves (ha : m.Asks c s below world r world') :
    Ensures (fun _ f => s.Evolves f.top) (fun _ f => s.Evolves f.top) r := by
  refine ha.ensures ?_ (fun _ _ _ _ h _ => h) ?_
  · exact (stepNode_stays c below s.node ⟨s, m.heap⟩).mono (fun _ _ hf => hf.top) fun _ _ hf => hf.top
  · intro name call f g answer h w w' hf _ _
    exact (resume_stays below answer ⟨f.top, h⟩).mono (fun _ _ hf' => hf.trans hf'.top) fun _ _ hf' => hf.trans hf'.top

/-- What every change of a rule keeps, and every function of the host, the heap keeps. -/
theorem heap {P : Heap → Prop} (ha : m.Asks c s below world r world') (hP : ∀ h h' : Heap, h.Changes h' → P h → P h')
    (hc : ∀ f ∈ c.host, ∀ call h w, P h → P (f.run call h w).2.1) (hm : P m.heap) :
    Ensures (fun _ f => P f.heap) (fun _ f => P f.heap) r := by
  refine ha.ensures ?_ (fun _ _ _ _ h _ => h) ?_
  · exact (stepNode_stays c below s.node ⟨s, m.heap⟩).mono (fun _ _ hf => hP _ _ hf.heap hm) fun _ _ hf => hP _ _ hf.heap hm
  · intro name call f g answer h w w' hf hg hrun
    have hh := hc g hg call f.heap w hf
    rw [hrun] at hh
    exact (resume_stays below answer ⟨f.top, h⟩).mono (fun _ _ hf' => hP _ _ hf'.heap hh) fun _ _ hf' => hP _ _ hf'.heap hh

/-- What was done before the rule came to its move, and what the move may be. -/
theorem calls (ha : m.Asks c s below world r world') (hc : ∀ f ∈ c.host, f.Keeps) (hf : m.heap.Filed) :
    Ensures (fun mv f => s.Evolves f.top ∧ m.heap.Keeps f.heap ∧ mv.Fits c m.heap s.node f)
      (fun _ f => s.Evolves f.top ∧ m.heap.Keeps f.heap) r := by
  refine ha.ensures ?_ (fun _ _ _ _ h _ => ⟨h.1, h.2.1⟩) ?_
  · exact (stepNode_calls c below s.node ⟨s, m.heap⟩ hf).mono (fun _ _ h => ⟨h.1.top, h.1.heap.keeps, h.2⟩)
      fun _ _ h => ⟨h.top, h.heap.keeps⟩
  · intro name call f g answer h w w' hq hg hrun
    obtain ⟨htop, hheap, hfits⟩ := hq
    have hk : m.heap.Keeps h := hheap.trans ((hc g hg).of_run hrun)
    obtain ⟨hfiled, hgrows⟩ := hk hf
    exact (resume_calls c below hfits.isCall answer ⟨f.top, h⟩ hfiled).mono
      (fun _ _ hf' => ⟨htop.trans hf'.1.top, hk.trans hf'.1.heap.keeps, hf'.2.of_next_le hgrows.next_le⟩)
      fun _ _ hf' => ⟨htop.trans hf'.top, hk.trans hf'.heap.keeps⟩

end Asks

/-- The second machine has one more state than the first, started by the state on top. -/
def Pushes (c : Setting ω) (m m' : Machine) : Prop :=
  ∃ s s' below node scope components labels,
    m.stack = s :: below ∧ s.Alike s' ∧ m'.lastId = m.lastId + 1 ∧
    m'.stack = { id := m.lastId + 1, node := c.resolve node, scope, components, labels } :: s' :: below ∧
    Move.Fits c m.heap s.node (.push node scope components labels) ⟨s', m'.heap⟩

/-- What a step can do. -/
structure Moves (c : Setting ω) (m m' : Machine) : Prop where
  global : m'.global = m.global
  heap : m.heap.Keeps m'.heap
  stack : Pushes c m m' ∨ m'.lastId = m.lastId ∧ Sinks m.stack m'.stack

variable {c : Setting ω} {m : Machine}

theorem keeps_raise (m : Machine) (t : Throw) : m.heap.Keeps (m.raise t).2.heap :=
  (Heap.keeps_newError _ _ _).trans (Heap.keeps_putHidden _ _ _ _)

theorem keeps_fail (m : Machine) (e : Failure) : m.heap.Keeps (m.fail e).2.heap := by
  cases e with
  | raised t => exact keeps_raise m t
  | thrown | fault => exact .refl _

theorem stack_fail (m : Machine) (e : Failure) : (m.fail e).2.stack = m.stack := by cases e <;> rfl

theorem lastId_fail (m : Machine) (e : Failure) : (m.fail e).2.lastId = m.lastId := by cases e <;> rfl

theorem global_fail (m : Machine) (e : Failure) : (m.fail e).2.global = m.global := by cases e <;> rfl

theorem snd_move (m : Machine) (top : State) (below : List State) (mv : Move) :
    (m.move c top below mv).2 = (m.apply c top below mv).1 := by
  simp only [move]
  split
  · rfl
  · split <;> rfl

/-- A move that advances found what it was looking for. -/
theorem apply_of_advanced {top : State} {below : List State} {mv : Move}
    (h : (m.move c top below mv).1 = .advanced) : (m.apply c top below mv).2 = none := by
  simp only [move] at h
  split at h
  · cases h
  · assumption

/-- A jump that is no fault has found a state to go on with. -/
theorem leaveTo_found_of_apply {top : State} {below : List State} {label : Option String} {isContinue : Bool}
    (h : (m.apply c top below (.jump label isContinue)).2 = none) : (leaveTo label isContinue below).2 := by
  cases hfound : (leaveTo label isContinue below).2 with
  | true => rfl
  | false => simp [apply, hfound] at h

/-- So has a `return`. -/
theorem returnTo_found_of_apply {top : State} {below : List State} {v : Value}
    (h : (m.apply c top below (.return_ v)).2 = none) : (returnTo v (top :: below)).2 := by
  cases hfound : (returnTo v (top :: below)).2 with
  | true => rfl
  | false => simp [apply, hfound] at h

theorem heap_apply (m : Machine) (top : State) (below : List State) (mv : Move) :
    (m.apply c top below mv).1.heap = m.heap ∧ (m.apply c top below mv).1.global = m.global := by
  cases mv <;> exact ⟨rfl, rfl⟩

/-- A move that starts nothing leaves a lower part of the stack. -/
theorem push_or_sinks (m : Machine) (top : State) (below : List State) (mv : Move) :
    (∃ node scope components labels, mv = .push node scope components labels) ∨
      (m.apply c top below mv).1.lastId = m.lastId ∧ Sinks (top :: below) (m.apply c top below mv).1.stack := by
  cases mv with
  | push node scope components labels => exact .inl ⟨node, scope, components, labels, rfl⟩
  | stay | host => exact .inr ⟨rfl, .refl _⟩
  | drop => exact .inr ⟨rfl, (Sinks.refl below).cons top⟩
  | give v => exact .inr ⟨rfl, (Sinks.deliver (·.alike_receive v) below).cons top⟩
  | giveRef r => exact .inr ⟨rfl, (Sinks.deliver (·.alike_receiveRef r) below).cons top⟩
  | jump label isContinue => exact .inr ⟨rfl, (Sinks.of_suffix (leaveTo_suffix label isContinue below)).cons top⟩
  | return_ v => exact .inr ⟨rfl, returnTo_sinks v _⟩

/-- Moving the stack changes nothing else. -/
theorem moves_move {top s : State} {below : List State} {mv : Move} {h : Heap} (hm : m.stack = s :: below)
    (ha : s.Alike top) (hk : m.heap.Keeps h) (hf : mv.Fits c m.heap s.node ⟨top, h⟩) :
    Moves c m ({ m with heap := h }.move c top below mv).2 := by
  rw [snd_move]
  obtain ⟨hheap, hglobal⟩ := heap_apply (c := c) { m with heap := h } top below mv
  refine ⟨hglobal, hheap.symm ▸ hk, ?_⟩
  rcases push_or_sinks (c := c) { m with heap := h } top below mv with
    ⟨node, scope, components, labels, rfl⟩ | ⟨hlast, hsinks⟩
  · exact .inl ⟨s, top, below, node, scope, components, labels, hm, ha, rfl, rfl, hf⟩
  · exact .inr ⟨hlast, hm ▸ hsinks.of_head ha⟩

theorem moves_fail {top s : State} {below : List State} {h : Heap} (e : Failure) (hm : m.stack = s :: below)
    (ha : s.Alike top) (hk : m.heap.Keeps h) :
    Moves c m ({ m with heap := h, stack := top :: below }.fail e).2 := by
  refine ⟨global_fail _ e, hk.trans (keeps_fail { m with heap := h, stack := top :: below } e), .inr ?_⟩
  rw [lastId_fail, stack_fail, hm]
  exact ⟨rfl, .head ha below⟩

/-- Every step starts at most one state, or leaves a lower part of the stack, and it keeps the heap. -/
theorem moves_step (hc : ∀ f ∈ c.host, f.Keeps) (hf : m.heap.Filed) (world : ω) :
    Moves c m (m.step c world).2.1 := by
  rcases hs : m.step c world with ⟨outcome, m', world'⟩
  cases takes_of_step hs with
  | ended => exact ⟨rfl, .refl _, .inr ⟨rfl, .refl _⟩⟩
  | moved ha he =>
    obtain rfl : _ = m' := congrArg Prod.snd he
    obtain ⟨htop, hk, hfits⟩ := ha.calls hc hf
    exact moves_move ha.stack htop.toAlike hk hfits
  | failed ha he =>
    obtain rfl : _ = m' := congrArg Prod.snd he
    obtain ⟨htop, hk⟩ := ha.calls hc hf
    exact moves_fail _ ha.stack htop.toAlike hk

/-! ### The bottom of the stack -/

/-- At the bottom of the stack is the state of a program, without labels. -/
def Grounded (p : Program) (scope : ObjectId) (stack : List State) : Prop :=
  ∃ b, stack.getLast? = some b ∧ b.node = .program p ∧ b.scope = scope ∧ b.labels = []

namespace Grounded

variable {p : Program} {scope : ObjectId}

theorem cons_cons {s t : State} {rest : List State} :
    Grounded p scope (s :: t :: rest) ↔ Grounded p scope (t :: rest) := by
  unfold Grounded
  rw [List.getLast?_cons_cons]

/-- A state that lies above another is not the one of the program. -/
theorem tail {s : State} {below : List State} (h : Grounded p scope (s :: below)) (hb : below ≠ []) :
    Grounded p scope below := by
  cases below with
  | nil => exact absurd rfl hb
  | cons t rest => exact cons_cons.1 h

theorem singleton {s : State} (h : Grounded p scope [s]) :
    s.node = .program p ∧ s.scope = scope ∧ s.labels = [] := by
  obtain ⟨b, hb, h⟩ := h
  cases hb
  exact h

theorem head {s s' : State} {rest : List State} (h : Grounded p scope (s :: rest)) (ha : s.Alike s') :
    Grounded p scope (s' :: rest) := by
  cases rest with
  | nil =>
    obtain ⟨hn, hs, hl⟩ := h.singleton
    exact ⟨s', rfl, ha.node.trans hn, ha.scope.trans hs, ha.labels.trans hl⟩
  | cons t rest => exact cons_cons.2 (cons_cons.1 h)

theorem push {stack : List State} (h : Grounded p scope stack) (s : State) : Grounded p scope (s :: stack) := by
  cases stack with
  | nil => obtain ⟨b, hb, -⟩ := h; cases hb
  | cons t rest => exact cons_cons.2 h

theorem deliver {f : State → State} {below : List State} (h : Grounded p scope below)
    (hf : ∀ s : State, s.Alike (f s)) : Grounded p scope (deliver f below) := by
  cases below with
  | nil => exact h
  | cons s rest => exact h.head (hf s)

/-- The state of a program is no target of a `break` or `continue`. -/
private theorem not_isTarget {s : State} (hn : s.node = .program p) (hl : s.labels = []) (label : Option String)
    (isContinue : Bool) : s.isTarget label isContinue = false := by
  cases label <;> simp [State.isTarget, State.isLoop, State.isSwitch, hn, hl]

theorem leaveTo {label : Option String} {isContinue : Bool} {stack stack' : List State}
    (h : Grounded p scope stack) (hl : leaveTo label isContinue stack = (stack', true)) :
    Grounded p scope stack' := by
  induction stack with
  | nil => obtain ⟨b, hb, -⟩ := h; cases hb
  | cons s below ih =>
    unfold Stepwise.leaveTo at hl
    split at hl
    · cases hl
    · split at hl
      · rename_i ht
        have hb : below ≠ [] := by
          rintro rfl
          obtain ⟨hn, -, hs⟩ := h.singleton
          rw [not_isTarget hn hs] at ht
          cases ht
        split at hl <;> cases hl
        · exact h
        · exact h.tail hb
      · have hb : below ≠ [] := by
          rintro rfl
          cases hl
        exact ih (h.tail hb) hl

theorem returnTo {v : Value} {stack stack' : List State} (h : Grounded p scope stack)
    (hr : returnTo v stack = (stack', true)) : Grounded p scope stack' := by
  induction stack with
  | nil => cases hr
  | cons s below ih =>
    unfold Stepwise.returnTo at hr
    split at hr
    · cases hr
      exact h.head ⟨rfl, rfl, rfl, rfl, rfl⟩
    · have hb : below ≠ [] := by
        rintro rfl
        cases hr
      exact ih (h.tail hb) hr

end Grounded

/-- The rule of a program never ends its state. -/
theorem stepNode_program (c : Setting ω) (below : List State) (p : Program) (f : Frame) :
    (stepNode c below (.program p)).wp (fun mv _ => mv = .stay ∨ ∃ n s, mv = .push n s false []) (fun _ _ => True) f := by
  show (stepBody p.body .stay).wp _ _ f
  unfold stepBody
  refine wp_bind (wp_top ?_)
  split
  · exact .inr ⟨_, _, rfl⟩
  · exact .inl rfl

/-- A step that advances leaves the state of the program in its place. -/
theorem grounded_move {p : Program} {scope : ObjectId} {top : State} {below : List State} {mv : Move}
    (hg : Grounded p scope (top :: below)) (hmv : below = [] → mv = .stay ∨ ∃ n s, mv = .push n s false [])
    (ho : (m.move c top below mv).1 = .advanced) : Grounded p scope (m.move c top below mv).2.stack := by
  have hf := apply_of_advanced ho
  rw [snd_move]
  -- a state that ends is not the one at the bottom
  have hne (h : mv ≠ .stay ∧ ∀ n s, mv ≠ .push n s false []) : below ≠ [] := by
    intro hb
    rcases hmv hb with hs | ⟨n, s, hs⟩
    · exact h.1 hs
    · exact h.2 n s hs
  cases mv with
  | stay | host => exact hg
  | push => exact hg.push _
  | drop => exact hg.tail (hne (by simp))
  | give v => exact (hg.tail (hne (by simp))).deliver (·.alike_receive v)
  | giveRef r => exact (hg.tail (hne (by simp))).deliver (·.alike_receiveRef r)
  | jump label isContinue => exact (hg.tail (hne (by simp))).leaveTo (Prod.ext rfl (leaveTo_found_of_apply hf))
  | return_ v => exact hg.returnTo (Prod.ext rfl (returnTo_found_of_apply hf))

theorem not_advanced_fail (m : Machine) (e : Failure) : (m.fail e).1 ≠ .advanced := by
  cases e <;> simp [fail, raise]

/-- Only a program that has come to its end ends. -/
theorem ended_of_step {m m' : Machine} {world world' : ω}
    (h : m.step c world = (.ended, m', world')) : m' = m ∧ m.isEnded := by
  have hmove (m : Machine) (top : State) (below : List State) (mv : Move) : (m.move c top below mv).1 ≠ .ended := by
    simp only [move]
    split
    · exact Outcome.noConfusion
    · split <;> exact Outcome.noConfusion
  have hfail (m : Machine) (e : Failure) : (m.fail e).1 ≠ .ended := by
    cases e <;> exact Outcome.noConfusion
  cases takes_of_step h with
  | ended hended => exact ⟨rfl, hended⟩
  | moved _ he => exact absurd (congrArg Prod.fst he) (hmove _ _ _ _)
  | failed _ he => exact absurd (congrArg Prod.fst he) (hfail _ _)

/-- A step that advances leaves the state of the program at the bottom of the stack. -/
theorem grounded_step {p : Program} {scope : ObjectId} {world : ω} (hg : Grounded p scope m.stack)
    (ho : (m.step c world).1 = .advanced) : Grounded p scope (m.step c world).2.1.stack := by
  rcases hs : m.step c world with ⟨outcome, m', world'⟩
  obtain rfl : outcome = .advanced := (congrArg Prod.fst hs).symm.trans ho
  cases takes_of_step hs with
  | @moved s below mv f _ _ _ ha he =>
    obtain rfl : _ = m' := congrArg Prod.snd he
    have hground : Grounded p scope (s :: below) := ha.stack ▸ hg
    refine grounded_move (hground.head ha.evolves.toAlike) (fun hb => ?_) (congrArg Prod.fst he)
    -- with nothing below, the state is the one of the program, and its rule does not call the host
    subst hb
    have hnode := hground.singleton.1
    refine ha.ensures (Q := fun mv _ => mv = .stay ∨ ∃ n s, mv = .push n s false []) (E := fun _ _ => True) ?_
      (fun _ _ _ _ _ _ => trivial) ?_
    · rw [hnode]
      exact stepNode_program c _ p _
    · rintro _ _ _ _ _ _ _ _ (h | ⟨_, _, h⟩) <;> cases h
  | failed _ he => exact absurd (congrArg Prod.fst he) (not_advanced_fail _ _)

/-! ### The end of a step -/

variable {m' : Machine}

/-- How a step can end: the program is at its end, the stack is moved, or the rule of the state on top or the host
fails. -/
inductive Comes (c : Setting ω) (m : Machine) : Outcome × Machine → Prop where
  | ended : Comes c m (.ended, m)
  | moved {s top : State} {below : List State} (hm : m.stack = s :: below) (ha : s.Alike top) (h : Heap) (mv : Move) :
    Comes c m (({ m with heap := h } : Machine).move c top below mv)
  | failed {s top : State} {below : List State} (hm : m.stack = s :: below) (ha : s.Alike top) (h : Heap)
    (e : Failure) : Comes c m (({ m with heap := h, stack := top :: below } : Machine).fail e)

theorem comes_step (m : Machine) (world : ω) : Comes c m ((m.step c world).1, (m.step c world).2.1) := by
  rcases hs : m.step c world with ⟨outcome, m', world'⟩
  cases takes_of_step hs with
  | ended => exact .ended
  | moved ha he => exact he ▸ .moved ha.stack ha.evolves.toAlike _ _
  | failed ha he => exact he ▸ .failed ha.stack ha.evolves.toAlike _ _

/-! ### The stack after a step -/

/-- What a step does to the stack: the state on top starts another one, which gets the next identity, or a lower part is
left, or as much as there was. -/
inductive Acts (m m' : Machine) : Prop where
  | push {t s s' : State} {below : List State} (hm : m.stack = s :: below) (ha : s.Alike s')
    (hm' : m'.stack = t :: s' :: below) (hid : t.id = m'.lastId) (hlast : m'.lastId = m.lastId + 1)
  | sink (hlast : m'.lastId = m.lastId) (hs : Sinks m.stack m'.stack)

theorem Comes.acts {r : Outcome × Machine} (h : Comes c m r) : m.Acts r.2 := by
  cases h with
  | ended => exact .sink rfl (.refl _)
  | @moved s top below hm ha h mv =>
    rw [snd_move]
    rcases push_or_sinks (c := c) { m with heap := h } top below mv with
      ⟨node, scope, components, labels, rfl⟩ | ⟨hlast, hsinks⟩
    · exact .push hm ha rfl rfl rfl
    · exact .sink hlast (hm ▸ hsinks.of_head ha)
  | @failed s top below hm ha h e =>
    refine .sink (lastId_fail _ e) ?_
    rw [stack_fail, hm]
    exact .head ha below

theorem acts_step (m : Machine) (world : ω) : m.Acts (m.step c world).2.1 := (comes_step m world).acts

theorem acts_of_step {world world' : ω} {outcome : Outcome} (hs : m.step c world = (outcome, m', world')) :
    m.Acts m' := by
  have h := acts_step (c := c) m world
  rwa [hs] at h

/-- The identities grow from the bottom of the stack to its top, and none is greater than the last one that was given. -/
structure Ordered (m : Machine) : Prop where
  ids : m.stack.Pairwise fun s below => below.id < s.id
  le_lastId : ∀ s ∈ m.stack, s.id ≤ m.lastId

namespace Acts

variable {s t : State} {above below low : List State}

/-- What holds of all states, whatever they gather, and of every state with the next identity holds after the step. -/
theorem forall_mem {P : State → Prop} (h : m.Acts m') (hP : ∀ s s' : State, s.Alike s' → P s → P s')
    (hs : ∀ s ∈ m.stack, P s) (hnew : ∀ s : State, s.id = m.lastId + 1 → P s) : ∀ s ∈ m'.stack, P s := by
  cases h with
  | @push t s s' below hm ha hm' hid hlast =>
    rw [hm']
    exact List.forall_mem_cons.2 ⟨hnew t (hid.trans hlast), (hm ▸ Sinks.head ha below).forall_mem hP hs⟩
  | sink hlast hsinks => exact hsinks.forall_mem hP hs

theorem le_lastId (h : m.Acts m') : m.lastId ≤ m'.lastId := by
  cases h with
  | push _ _ _ _ hlast => exact hlast ▸ Nat.le_succ _
  | sink hlast => exact Nat.le_of_eq hlast.symm

theorem ordered (h : m.Acts m') (ho : m.Ordered) : m'.Ordered := by
  cases h with
  | @push t s s' below hm ha hm' hid hlast =>
    have hsinks : Sinks m.stack (s' :: below) := hm ▸ .head ha below
    have hle := hsinks.forall_mem (fun _ _ ha h => ha.id ▸ h) ho.le_lastId
    constructor <;> rw [hm']
    · refine .cons (fun u hu => ?_) (hsinks.ordered ho.ids)
      rw [hid, hlast]
      exact Nat.lt_succ_of_le (hle u hu)
    · rw [hlast]
      exact List.forall_mem_cons.2 ⟨Nat.le_of_eq (hid.trans hlast), fun u hu => Nat.le_succ_of_le (hle u hu)⟩
  | sink hlast hsinks =>
    refine ⟨hsinks.ordered ho.ids, ?_⟩
    rw [hlast]
    exact hsinks.forall_mem (fun _ _ ha h => ha.id ▸ h) ho.le_lastId

/-- A step that does not come down to the lowest states leaves them as they are, and the one on them alike. It starts at
most one state. -/
theorem exists_above (h : m.Acts m') (hm : m.stack = above ++ t :: low) (hlow : low.length < m'.stack.length) :
    ∃ above' t', m'.stack = above' ++ t' :: low ∧ t.Alike t' ∧ above'.length ≤ above.length + 1 := by
  rcases h with ⟨hstack, ha, hm', -, -⟩ | ⟨-, hsinks⟩
  · rw [hm] at hstack
    cases above with
    | nil =>
      cases hstack
      exact ⟨[_], _, hm', ha, by simp⟩
    | cons b above =>
      cases hstack
      exact ⟨_ :: _ :: above, t, by rw [hm']; rfl, .refl t, by simp⟩
  · rcases hsinks with hnil | ⟨b, b', rest, hsuf, hb, hm'⟩
    · rw [hnil] at hlow
      cases hlow
    · rw [hm'] at hlow
      rw [hm] at hsuf
      have hlow' : t :: low <:+ b :: rest := by
        refine List.suffix_of_suffix_length_le (List.suffix_append above (t :: low)) hsuf ?_
        simp only [List.length_cons] at hlow ⊢
        omega
      rcases List.suffix_cons_iff.1 hlow' with he | hlow'
      · cases he
        exact ⟨[], b', hm', hb, by simp⟩
      · obtain ⟨inner, rfl⟩ := hlow'
        refine ⟨b' :: inner, t, hm', .refl t, ?_⟩
        have hlen := hsuf.length_le
        simp only [List.length_cons, List.length_append] at hlen ⊢
        omega

/-- A step that leaves no more than the states below one leaves a part of these. -/
theorem sinks_of_length_le (h : m.Acts m') (hm : m.stack = above ++ t :: low) (hle : m'.stack.length ≤ low.length) :
    Sinks low m'.stack := by
  rcases h with ⟨hstack, -, hm', -, -⟩ | ⟨-, hsinks⟩
  · have hlen := congrArg List.length (hm.symm.trans hstack)
    simp only [hm', List.length_append, List.length_cons] at hle hlen
    omega
  · exact hsinks.of_suffix_length_le (hm ▸ (List.suffix_cons t low).trans (List.suffix_append above _)) hle

end Acts

/-! ### The world -/

/-- What the functions of the host do to the world, one after the other, a step does. -/
theorem world_step {R : ω → ω → Prop} (hrefl : ∀ w, R w w) (htrans : ∀ {u v w}, R u v → R v w → R u w)
    (hR : ∀ f ∈ c.host, ∀ call h w, R w (f.run call h w).2.2) (m : Machine) (world : ω) : R world (m.step c world).2.2 := by
  rcases hs : m.step c world with ⟨outcome, m', world'⟩
  have hasked {s : State} {below : List State} {r : EStateM.Result Failure Frame Move} {world' : ω}
      (ha : m.Asks c s below world r world') : R world world' := by
    refine ha.induct (P := fun _ w => R world w) (hrefl world) (fun _ _ _ _ _ h _ => h) ?_
    intro name call f g answer h w w' hw hg hrun
    have hrun' := hR g hg call f.heap w
    rw [hrun] at hrun'
    exact htrans hw hrun'
  cases takes_of_step hs with
  | ended => exact hrefl world
  | moved ha | failed ha => exact hasked ha

/-- Worlds that functions of the host do not tell apart lead to the same answers. -/
theorem settle_congr {R : ω → ω → Prop} (hR : ∀ f ∈ c.host, f.Respects R) (below : List State) (turns : Nat)
    (r : EStateM.Result Failure Frame Move) {world world' : ω} (hw : R world world') :
    (settle c below turns r world).1 = (settle c below turns r world').1 ∧
      R (settle c below turns r world).2 (settle c below turns r world').2 := by
  induction turns generalizing r world world' with
  | zero =>
    unfold settle
    split
    · exact ⟨rfl, hw⟩
    · contradiction
    · exact ⟨rfl, hw⟩
  | succ turns ih =>
    unfold settle
    split
    · contradiction
    · rename_i turns' name call f he
      cases he
      cases hg : c.host? name with
      | none => exact ⟨rfl, hw⟩
      | some g =>
        obtain ⟨hanswer, hheap, hworld⟩ := hR g (List.mem_of_find?_eq_some hg) call f.heap _ _ hw
        dsimp only
        rw [hanswer, hheap]
        exact ih _ hworld
    · exact ⟨rfl, hw⟩

/-- And to the same steps. -/
theorem step_congr {R : ω → ω → Prop} (hR : ∀ f ∈ c.host, f.Respects R) (m : Machine) {world world' : ω}
    (hw : R world world') :
    (m.step c world).1 = (m.step c world').1 ∧ (m.step c world).2.1 = (m.step c world').2.1 ∧
      R (m.step c world).2.2 (m.step c world').2.2 := by
  unfold step
  split
  · exact ⟨rfl, rfl, hw⟩
  · rename_i s below _
    split
    · exact ⟨rfl, rfl, hw⟩
    · obtain ⟨hresult, hworld⟩ := settle_congr hR below tailLimit
        (stepNode c below s.node ⟨s, m.heap⟩) hw
      rcases hset : settle c below tailLimit (stepNode c below s.node ⟨s, m.heap⟩) world with ⟨r, w⟩
      rcases hset' : settle c below tailLimit (stepNode c below s.node ⟨s, m.heap⟩) world' with ⟨r', w'⟩
      rw [hset, hset'] at hresult hworld
      obtain rfl : r = r' := hresult
      cases r with
      | ok | error => exact ⟨rfl, rfl, hworld⟩

end Machine

end Stepwise

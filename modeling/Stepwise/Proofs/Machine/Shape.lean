import Stepwise.Proofs.Machine.Reach

/-!
# The shape of the stack

* `State.Runs`: a state that evaluates the body of the function of a running call.
* `Rests`: how a state lies on the one below it, as a part of its node in the same scope, or as the body of
  the function that it calls in a scope of its own.
* `Machine.stack_shape`: every state but the one at the bottom rests on the one below it, and at the bottom is
  the program in the global scope.
-/

namespace Stepwise

variable {ω : Type}

/-- A state that evaluates the body of the function that the state `s` calls. Its scope lies in the one that
the function closes over. -/
def State.Runs (c : Setting ω) (h : Heap) (t s : State) : Prop :=
  ∃ info id callable scope, (h.deref? s.func).bind Object.func = some info ∧
    info.code = .closure id scope.parent ∧ (c.node? id).bind Node.callable? = some callable ∧
    t.node = .stmt (.block callable.body) ∧ h.scope? t.scope = some scope

/-- How a state lies on the stack `s :: below`. -/
def Rests (c : Setting ω) (h : Heap) (t s : State) (below : List State) : Prop :=
  t.scope = s.scope ∧ s.node.Part t.node ∨
    s.isActiveCall ∧ t.Runs c h s ∧ ∀ u ∈ s :: below, u.scope ≠ t.scope

/-- Every state rests on the one below it. -/
def Stacked (c : Setting ω) (h : Heap) (stack : List State) : Prop :=
  ∀ t s below, t :: s :: below <:+ stack → Rests c h t s below

variable {c : Setting ω} {h h' : Heap}

theorem State.isActiveCall_of_isCall {s : State} (hn : s.node.isCall) (hp : s.phase = CallPhase.body) :
    s.isActiveCall := by
  unfold isActiveCall
  rw [hp]
  exact hn

theorem State.Runs.mono {t s : State} (hg : h.Grows h') (hr : t.Runs c h s) : t.Runs c h' s := by
  obtain ⟨info, id, callable, scope, hf, hc, hn, ht, hs⟩ := hr
  obtain ⟨o, ho, hi⟩ := Option.bind_eq_some_iff.1 hf
  obtain ⟨o', ho', ha⟩ := hg.deref? ho
  refine ⟨info, id, callable, scope, ?_, hc, hn, ht, hg.scope hs⟩
  rw [ho']
  exact ha.func.trans hi

namespace Rests

variable {t s : State} {below : List State}

theorem mono (hg : h.Grows h') (hr : Rests c h t s below) : Rests c h' t s below :=
  hr.imp_right fun ⟨ha, hb, hn⟩ => ⟨ha, hb.mono hg, hn⟩

/-- What the upper state has gathered does not matter. -/
theorem alike {t' : State} (ha : t.Alike t') (hr : Rests c h t s below) : Rests c h t' s below := by
  unfold Rests State.Runs at *
  rw [ha.scope, ha.node]
  exact hr

end Rests

namespace Stacked

variable {stack stack' : List State}

theorem mono (hg : h.Grows h') (hs : Stacked c h stack) : Stacked c h' stack := fun t s below hsuf =>
  (hs t s below hsuf).mono hg

/-- States that are left do not matter, nor does what the new top has gathered. -/
theorem sinks (h' : Sinks stack stack') (hs : Stacked c h stack) : Stacked c h stack' := by
  intro t s below hsuf
  rcases h' with rfl | ⟨u, u', rest, hlow, ha, rfl⟩
  · cases List.suffix_nil.1 hsuf
  · rcases List.suffix_cons_iff.1 hsuf with he | hsuf
    · cases he
      exact (hs u s below hlow).alike ha
    · exact hs t s below ((hsuf.trans (List.suffix_cons u rest)).trans hlow)

theorem cons {t s : State} {below : List State} (hr : Rests c h t s below) (hs : Stacked c h (s :: below)) :
    Stacked c h (t :: s :: below) := by
  intro t' s' below' hsuf
  rcases List.suffix_cons_iff.1 hsuf with he | hsuf
  · cases he
    exact hr
  · exact hs t' s' below' hsuf

end Stacked

/-- A scope is older than what will be added to the heap. -/
theorem Heap.Filed.scope_lt (hf : h.Filed) {id : ObjectId} (hs : (h.scope? id).isSome) : id < h.next := by
  obtain ⟨o, ho⟩ := Option.isSome_iff_exists.1 hs
  obtain ⟨o', ho'⟩ := Option.isSome_iff_exists.1 (hf.scope ho).2
  exact (hf.object ho').2.2

namespace Machine

variable {m m' : Machine}

theorem Sound.scope_lt (hm : m.Sound c) {s : State} (hs : s ∈ m.stack) : s.scope < m.heap.next :=
  hm.filed.scope_lt (hm.scope s hs)

/-- What a rule starts rests on the state of the rule. -/
theorem rests_of_fits (hc : c.IsRead) (hsize : c.program.nodes.length < 2 ^ 24) (hm : m.Sound c)
    {s s' : State} {below : List State} {node : Node} {scope : ObjectId} {components : Bool}
    {labels : List String} {id : Nat} (he : m.stack = s :: below) (ha : s.Alike s')
    (hf : Move.Fits c m.heap s.node (.push node scope components labels) ⟨s', h'⟩) :
    Rests c h' { id, node := c.resolve node, scope, components, labels } s' below := by
  have hs : c.node? s.node.id = some s.node := hm.node s (by simp [he])
  rcases hf with ⟨hp, rfl⟩ | hen
  · have hp := Node.part_of_operand hp.operand
    refine .inl ⟨rfl, ?_⟩
    show s'.node.Part (c.resolve node)
    rw [hc.resolve_of_mem hsize (Setting.IsRead.mem_of_part (hc.mem_of_node? hs).1 hp), ha.node]
    exact hp
  · obtain ⟨o, info, id, closure, callable, ho, hi, hcode, hcall, rfl, hscope, -⟩ := hen.body
    refine .inr ⟨?_, ⟨info, id, callable, ⟨scope, closure, true⟩, ?_, hcode, hcall, ?_, hscope⟩, ?_⟩
    · exact State.isActiveCall_of_isCall (ha.node ▸ hen.call) hen.phase
    · rw [ho]
      exact hi
    · obtain ⟨n, hid, hcall⟩ := Option.bind_eq_some_iff.1 hcall
      exact hc.resolve_of_mem hsize
        (Setting.IsRead.mem_of_part (hc.mem_of_node? hid).1 (Setting.IsRead.part_of_callable hcall))
    · -- the scopes of the other states are older than this one
      intro u hu
      have hlt : u.scope < m.heap.next := by
        rcases List.mem_cons.1 hu with rfl | hu
        · rw [ha.scope]
          exact hm.scope_lt (by simp [he])
        · exact hm.scope_lt (by simp [he, hu])
      have hle : m.heap.next ≤ scope := hen.new
      lia

theorem stacked_step (hc : c.IsRead) (hsize : c.program.nodes.length < 2 ^ 24) (hh : ∀ f ∈ c.host, f.Keeps)
    (hm : m.Sound c) (hs : Stacked c m.heap m.stack) (world : ω) :
    Stacked c (m.step c world).2.1.heap (m.step c world).2.1.stack := by
  obtain ⟨-, hheap, hstack⟩ := moves_step hh hm.filed world
  obtain ⟨-, hgrows⟩ := hheap hm.filed
  rcases hstack with ⟨s, s', below, node, scope, components, labels, he, ha, -, he', hf⟩ | ⟨-, hsinks⟩
  · rw [he']
    refine .cons (rests_of_fits hc hsize hm he ha hf) ?_
    exact (hs.sinks (he ▸ .head ha below)).mono hgrows
  · exact (hs.sinks hsinks).mono hgrows

theorem Reachable.stacked (hc : c.IsRead) (hsize : c.program.nodes.length < 2 ^ 24)
    (hh : ∀ f ∈ c.host, f.Keeps) {world : ω} (h : m.Reachable c world) : Stacked c m.heap m.stack := by
  induction h with
  | start h world =>
    rw [(stack_start h).2]
    intro t s below hsuf
    have hl := hsuf.length_le
    simp at hl
  | step h hs ih =>
    rename_i m m' world world'
    have hstep := stacked_step hc hsize hh (h.sound hc hh) ih world
    rw [hs] at hstep
    exact hstep

/-- While a program runs, its own state lies at the bottom of the stack, in the global scope. Every other
state is a part of the one below it in the same scope, or runs the body of the function that it calls, in a
scope that no state below has. -/
theorem stack_shape {source text : String} {program : Program} {host : List (HostFunction ω)} {maxDepth : Nat}
    {draws : Nat → Float}
    {m : Machine} {world : ω} (hp : Program.ofSource source = .ok program) (hsize : program.nodes.length < 2 ^ 24)
    (hh : ∀ f ∈ host, f.Keeps)
    (hr : m.Reachable (Setting.ofPrograms (Library.read text) program host maxDepth draws) world) :
    (∃ above s, m.stack = above ++ [s] ∧ s.node = .program program ∧ s.scope = m.global) ∧
      ∀ above t s below, m.stack = above ++ t :: s :: below →
        Rests (Setting.ofPrograms (Library.read text) program host maxDepth draws) m.heap t s below := by
  have hc := Setting.isRead_ofPrograms hp text host maxDepth draws
  refine ⟨?_, fun above t s below he => hr.stacked hc hsize hh t s below ⟨above, he.symm⟩⟩
  obtain ⟨s, hl, hn, hs, -⟩ := hr.grounded hc hh
  obtain ⟨above, he⟩ := List.getLast?_eq_some_iff.1 hl
  exact ⟨above, s, he, hn, hs⟩

/-- The stack inside a function that has called the host. -/
theorem stack_shape_call :
    ∃ (program : Program) (m : Machine),
      let echo : HostFunction Unit := ⟨"echo", fun call h world => (.ok (.value (call.arg 0)), h, world)⟩
      let c := Setting.ofPrograms (Library.read "") program [echo] Setting.defaultDepth Setting.zeros
      Program.ofSource "(function (x) { var y = echo(x); })(1);" = .ok program ∧
        program.nodes.length < 2 ^ 24 ∧ m.Reachable c () ∧
        m.stack.map (·.node.kind) =
          [.variableDeclaration, .blockStatement, .callExpression, .expressionStatement, .program] ∧
        (∃ above s, m.stack = above ++ [s] ∧ s.node = .program program ∧ s.scope = m.global) ∧
        ∀ above t s below, m.stack = above ++ t :: s :: below → Rests c m.heap t s below := by
  let echo : HostFunction Unit := ⟨"echo", fun call h world => (.ok (.value (call.arg 0)), h, world)⟩
  have hrun : (after? "(function (x) { var y = echo(x); })(1);" [echo] 14 ()).any fun x =>
      x.1.nodes.length < 2 ^ 24 ∧ x.2.1.stack.map (·.node.kind) =
        [.variableDeclaration, .blockStatement, .callExpression, .expressionStatement, .program] := by
    decide +kernel
  obtain ⟨⟨program, m, world⟩, hx, hrun⟩ := (Option.any_eq_true _ _).1 hrun
  obtain ⟨hp, hr⟩ := of_after? hx
  obtain ⟨hsize, hkinds⟩ := of_decide_eq_true hrun
  refine ⟨program, m, hp, hsize, hr, hkinds, ?_⟩
  refine stack_shape hp hsize (fun f hf => ?_) hr
  cases List.mem_singleton.1 hf
  exact fun _ _ _ => .refl _

end Machine

end Stepwise

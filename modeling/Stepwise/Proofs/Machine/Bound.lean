import Stepwise.Proofs.Lint.FreeName
import Stepwise.Proofs.Machine.Advance

/-!
# Names that are bound while a program runs

The scopes that the linter reads off the source agree with those that a machine makes.

* `Heap.Encloses`: what the body of a function needs is bound by its calls or where the function was made.
* `Machine.Bound`: so it is in the heap of the machine, and what the states of its stack need is bound in their
  scopes.
* `Machine.Bound.step`: steps that advance keep this.
-/

namespace Stepwise

open Heap RuleM

variable {ω : Type}

namespace Setting

/-- The machine can find the node. -/
def Holds (c : Setting ω) (n : Node) : Prop := n ∈ c.library.nodes ∨ n ∈ c.program.nodes

/-- A setting that was read, whose program is not huge and whose code deletes nothing. Functions that are
declared in a handler do not use its parameter. -/
structure IsTidy (c : Setting ω) : Prop extends c.IsRead where
  size : c.program.nodes.length < 2 ^ 24
  deletes : ∀ n, c.Holds n → n.isDelete = false
  spares : ∀ k, c.Holds (.catchClause k) → k.SparesParam

variable {c : Setting ω} {n m : Node}

theorem Holds.mem_nodes (h : c.Holds n) (hm : m ∈ n.nodes) : c.Holds m :=
  h.imp (Node.mem_nodes_trans · hm) (Node.mem_nodes_trans · hm)

end Setting

/-- What the body of a function needs is bound by a call, or in the scope that the function closes over. -/
def Callable.Closes (callable : Callable) (h : Heap) (scope : ObjectId) : Prop :=
  ∀ x ∈ (Node.stmt (.block callable.body)).needs, x ∈ callable.bound ∨ h.Binds scope x

/-- Every function of the source that was made is found, and closes over what its body needs. -/
def Heap.Encloses (h : Heap) (c : Setting ω) : Prop :=
  ∀ {id scope}, h.Runs (.closure id scope) →
    ∃ callable, (c.node? id).bind Node.callable? = some callable ∧ callable.Closes h scope

section

variable {c : Setting ω} {h h' : Heap} {scope : ObjectId} {made : FunctionCode → Prop}

/-- Functions close over what they need if the new ones do. -/
theorem Heap.Encloses.builds (hc : h.Encloses c) (hf : h.Filed) (b : h.Builds made h')
    (hmade : ∀ id scope, made (.closure id scope) →
      ∃ callable, (c.node? id).bind Node.callable? = some callable ∧ callable.Closes h' scope) : h'.Encloses c := by
  intro id scope hr
  rcases b.runs hf hr with hr | hm
  · obtain ⟨callable, hn, hcl⟩ := hc hr
    exact ⟨callable, hn, fun x hx => (hcl x hx).imp_right (b.binds hf)⟩
  · exact hmade id scope hm

/-- A function that a node declares is found under its number. -/
theorem exists_callable_of_declared (hc : c.IsRead) (hsize : c.program.nodes.length < 2 ^ 24) {n : Node}
    (hn : c.Holds n) {d : Callable} (hd : d ∈ declaredFunctions n.declarations) :
    ∃ name, .function name d ∈ n.declarations ∧
      (c.node? d.loc.id).bind Node.callable? = some ⟨d.loc, some name, d.params, d.body⟩ := by
  obtain ⟨decl, hm, he⟩ := List.mem_filterMap.1 hd
  cases decl with
  | var => cases he
  | function name callable =>
    cases he
    have hnode := hc.node?_of_mem hsize (hn.mem_nodes (Node.mem_nodes_of_declared hm))
    change c.node? d.loc.id = _ at hnode
    refine ⟨name, hm, ?_⟩
    rw [hnode]
    rfl

/-- A function that a node declares closes over what it needs, where the needs of the node are bound. -/
theorem closes_declared (hc : c.IsTidy) {n : Node} (hn : c.Holds n) (hb : ∀ x ∈ n.freeNames, h.Binds scope x)
    {d : Callable} (hd : d ∈ declaredFunctions n.declarations) :
    ∃ callable, (c.node? d.loc.id).bind Node.callable? = some callable ∧ callable.Closes h scope := by
  obtain ⟨name, hm, hcallable⟩ := exists_callable_of_declared hc.toIsRead hc.size hn hd
  refine ⟨_, hcallable, fun x hx => ?_⟩
  have hcall : (Declaration.function name d).node.callable? = some ⟨d.loc, some name, d.params, d.body⟩ := rfl
  rcases Node.needs_body hcall hx with hx | hx | ⟨e, i, he, -⟩
  · exact .inl hx
  · refine .inr (hb x (Node.freeNames_declared (fun k hk => ?_) hm hx))
    exact hc.spares k (hn.mem_nodes hk)
  · cases he

end

/-! ### Rules -/

section

variable {c : Setting ω} {f f' : Frame} {mv : Move} {h : Heap}

theorem Node.needs_of_callable {n : Node} {callable : Callable} (h : n.callable? = some callable) :
    n.freeNames ⊆ n.needs := by
  intro x hx
  unfold needs
  unfold callable? at h
  split at h
  · exact List.mem_append_left _ hx
  · exact List.mem_append_left _ hx
  · cases h

theorem Node.loc_of_callable {n : Node} {callable : Callable} (h : n.callable? = some callable) :
    callable.loc.id = n.id := by
  unfold callable? at h
  split at h <;> cases h <;> rfl

/-- Whatever a rule makes of the heap, names stay bound and functions close over what they need. -/
theorem Effect.binds (hc : c.IsTidy) (hf : f.Sound) (hn : c.node? f.top.node.id = some f.top.node)
    (hb : ∀ x ∈ f.top.node.needs, f.heap.Binds f.top.scope x) (he : f.heap.Encloses c) (e : Effect c f mv h) :
    (∀ {id x}, f.heap.Binds id x → h.Binds id x) ∧ h.Encloses c := by
  have hfiled := hf.heap.toFiled
  cases e with
  | edits e =>
    have hkeeps : ¬f.top.node.isDelete := by
      rw [hc.deletes _ (hc.mem_of_node? hn).1]
      exact Bool.noConfusion
    have b := e.builds hkeeps hf.heap
    exact ⟨b.binds hfiled, he.builds hfiled b fun _ _ => False.elim⟩
  | @function callable hcall =>
    obtain ⟨closure, b, hscope, hown⟩ := builds_evalFunction hfiled callable f.top.scope
    refine ⟨b.binds hfiled, he.builds hfiled b fun id scope hmade => ?_⟩
    cases hmade
    refine ⟨callable, ?_, fun x hx => ?_⟩
    · rw [Node.loc_of_callable hcall, hn]
      exact hcall
    · rcases Node.needs_body hcall hx with hx | hx | ⟨-, i, -, hi, rfl⟩
      · exact .inl hx
      · exact .inr (hscope (hb x (Node.needs_of_callable hcall hx)))
      · exact .inr (hown i hi)
  | @enter h id closure callable this args e hr hcall ht ha =>
    obtain ⟨hw, -⟩ := e.wellFormed hf.heap
    have b := e.builds not_false hf.heap
    have he' : h.Encloses c := he.builds hfiled b fun _ _ => False.elim
    obtain ⟨callable', hcall', hcloses⟩ := he' hr
    cases hcall.symm.trans hcall'
    obtain ⟨b', hscope, hbound⟩ := builds_bindCall hw.toFiled closure callable this args
    refine ⟨fun hb => b'.binds hw.toFiled (b.binds hfiled hb), he'.builds hw.toFiled b' fun id scope hmade => ?_⟩
    obtain ⟨d, hd, hcode⟩ := hmade
    cases hcode
    obtain ⟨n, hid, hcall⟩ := Option.bind_eq_some_iff.1 hcall
    have hbody : c.Holds (.stmt (.block callable.body)) :=
      Setting.IsRead.mem_of_part (hc.mem_of_node? hid).1 (Setting.IsRead.part_of_callable hcall)
    refine closes_declared hc hbody (fun x hx => ?_) hd
    exact (hcloses x (List.mem_append_left _ hx)).elim (hbound x) hscope

/-- A rule that is asked for a place starts a part or gives the place. A variable that it gives is its own. -/
def Move.Locates (s : State) : Move → Prop
  | .push .. | .giveRef (.property ..) => True
  | .giveRef (.variable scope x) => scope = s.scope ∧ x ∈ s.node.needs
  | _ => False

theorem giveProperty_locates (key : String) (s : State) (hc : f.top.components) :
    (giveProperty key).wp (fun mv _ => mv.Locates s) (fun _ _ => True) f := by
  refine wp_bind (wp_top ?_)
  split
  · trivial
  · contradiction

theorem stepNode_locates {c : Setting ω} (below : List State) (hn : f.top.node.isTarget) (hc : f.top.components) :
    (stepNode c below f.top.node).wp (fun mv _ => mv.Locates f.top) (fun _ _ => True) f := by
  cases hnode : f.top.node with
  | expr e =>
    rw [hnode] at hn
    cases e with
    | identifier i =>
      refine wp_bind (wp_top ?_)
      split
      · refine ⟨rfl, ?_⟩
        rw [hnode]
        exact List.mem_singleton_self _
      · contradiction
    | member l object name =>
      refine wp_bind (wp_top ?_)
      split
      · trivial
      · exact wp_bind (wp_take (wp_bind (wp_modifyTop (giveProperty_locates _ _ hc))))
    | index l object key =>
      refine wp_bind (wp_top ?_)
      split
      · trivial
      · trivial
      · exact wp_bind (wp_take (wp_bind (wp_heap (giveProperty_locates _ _ hc))))
    | _ => cases hn
  | _ => rw [hnode] at hn; cases hn

end

/-! ### Machines -/

/-- A state that is found. What its node needs is bound in its scope, and so is the variable that it holds the
place of; its place is wanted only if it has one. -/
structure State.Bound (s : State) (c : Setting ω) (h : Heap) : Prop where
  node : c.node? s.node.id = some s.node
  needs : ∀ x ∈ s.node.needs, h.Binds s.scope x
  place : ∀ scope x, s.ref = some (.variable scope x) → h.Binds scope x
  target : s.components → s.node.isTarget

namespace State.Bound

variable {s s' : State} {c : Setting ω} {h h' : Heap}

theorem mono (hs : s.Bound c h) (hb : ∀ {id x}, h.Binds id x → h'.Binds id x) : s.Bound c h' :=
  ⟨hs.node, fun x hx => hb (hs.needs x hx), fun scope x hr => hb (hs.place scope x hr), hs.target⟩

theorem alike (hs : s.Bound c h) (ha : s.Alike s')
    (hr : ∀ scope x, s'.ref = some (.variable scope x) → h.Binds scope x) : s'.Bound c h := by
  refine ⟨?_, ?_, hr, ?_⟩
  · rw [ha.node]
    exact hs.node
  · rw [ha.node, ha.scope]
    exact hs.needs
  · rw [ha.node, ha.components]
    exact hs.target

theorem evolves (hs : s.Bound c h) (he : s.Evolves s') : s'.Bound c h := by
  refine hs.alike he.toAlike fun scope x hr => ?_
  rcases he.ref with heq | heq
  · exact hs.place scope x (heq ▸ hr)
  · rw [heq] at hr
    cases hr

end State.Bound

namespace Machine

/-- What the states of a machine need is bound, and functions close over what they need. -/
structure Bound (c : Setting ω) (m : Machine) : Prop extends m.WellFormed where
  bound : ∀ s ∈ m.stack, s.Bound c m.heap
  encloses : m.heap.Encloses c

variable {c : Setting ω} {m m' : Machine} {s : State} {below : List State} {mv : Move} {f : Frame}

/-- What is asked for a place answers with it. -/
theorem Advances.locates (ha : m.Advances c s below mv f m') (hn : f.top.node.isTarget) (hcomponents : f.top.components) :
    mv.Locates s := by
  rw [ha.top.node] at hn
  rw [ha.top.components] at hcomponents
  have hlocates := stepNode_locates (c := c) (f := ⟨s, m.heap⟩) below hn hcomponents
  rcases ha.rule with hrule | hresumes
  · exact hlocates.of_ok hrule
  · obtain ⟨name, call, g, hrule, -⟩ := hresumes.answer
    exact absurd (hlocates.of_ok hrule) id

/-- A step keeps names bound and functions enclosed. -/
theorem Advances.binds (hc : c.IsTidy) (hm : m.Bound c) (ha : m.Advances c s below mv f m') :
    (∀ {id x}, m.heap.Binds id x → f.heap.Binds id x) ∧ f.heap.Encloses c := by
  have hs : s ∈ m.stack := ha.stack ▸ List.mem_cons_self
  have hbound := hm.bound s hs
  exact ha.effect.binds hc ⟨hm.heap, hm.stack s hs⟩ hbound.node hbound.needs hm.encloses

/-- What a rule starts finds what it needs. -/
theorem Advances.bound_push (hc : c.IsTidy) (hm : m.Bound c) (ha : m.Advances c s below mv f m') {node : Node}
    {scope : ObjectId} {components : Bool} {labels : List String} (he : mv = .push node scope components labels) :
    c.Holds node ∧ (∀ x ∈ node.needs, f.heap.Binds scope x) ∧ (components → node.isTarget) := by
  obtain ⟨hs, -⟩ := List.forall_mem_cons.1 (ha.stack ▸ hm.bound)
  obtain ⟨hbinds, -⟩ := ha.binds hc hm
  have heffect := ha.effect
  have hfits := ha.fits
  rw [he] at hfits heffect
  generalize hheap : f.heap = h at heffect hbinds
  cases heffect with
  | edits e =>
    rcases hfits with ⟨hp, rfl⟩ | hp
    · refine ⟨Setting.IsRead.mem_of_part (hc.mem_of_node? hs.node).1 (Node.part_of_operand hp.operand), ?_, hp.target⟩
      intro x hx
      rw [ha.top.scope]
      exact hbinds (hs.needs x (Node.needs_subset_of_operand hp.operand hx))
    · -- no scope is new unless a function is entered
      obtain ⟨o, info, id, closure, callable, -, -, -, -, -, hscope, -⟩ := hp.body
      rw [hheap, Heap.scope?, e.scopes_eq] at hscope
      obtain ⟨o, ho⟩ := Option.isSome_iff_exists.1 (hm.heap.toFiled.scope hscope).2
      have := (hm.heap.toFiled.object ho).2.2
      have := hp.new
      lia
  | @enter h id closure callable this args e hr hcall =>
    obtain ⟨hw, -⟩ := e.wellFormed hm.heap
    have b := e.builds not_false hm.heap
    have he' : h.Encloses c := Heap.Encloses.builds hm.encloses hm.heap.toFiled b fun _ _ => False.elim
    obtain ⟨callable', hcall', hcloses⟩ := he' hr
    cases hcall.symm.trans hcall'
    obtain ⟨-, hscope, hbound⟩ := builds_bindCall hw.toFiled closure callable this args
    obtain ⟨n, hid, hcall⟩ := Option.bind_eq_some_iff.1 hcall
    refine ⟨Setting.IsRead.mem_of_part (hc.mem_of_node? hid).1 (Setting.IsRead.part_of_callable hcall), ?_,
      Bool.noConfusion⟩
    exact fun x hx => (hcloses x hx).elim (hbound x) hscope

/-- Steps that advance keep what is needed bound. -/
theorem Bound.step (hc : c.IsTidy) (hm : m.Bound c) (ha : m.Advances c s below mv f m') : m'.Bound c := by
  obtain ⟨hs, hbelow⟩ := List.forall_mem_cons.1 (ha.stack ▸ hm.bound)
  obtain ⟨hin, hbelowIn⟩ := List.forall_mem_cons.1 (ha.stack ▸ hm.stack)
  obtain ⟨hbinds, hencl⟩ := ha.binds hc hm
  obtain ⟨-, g⟩ := ha.effect.wellFormed ⟨hm.heap, hin⟩
  have hm' : ({ m with heap := f.heap }.apply c f.top below mv).1 = m' := congrArg Prod.fst ha.apply
  obtain ⟨hheap, hglobal⟩ := ha.heap_eq
  refine ⟨⟨?_, ?_, ?_⟩, ?_, ?_⟩
  · rw [hheap]
    exact ha.sound.heap
  · rw [hheap, ← hm']
    exact in_apply ha.sound.top (fun t ht => (hbelowIn t ht).mono g) ha.move
  · rw [hheap, hglobal]
    exact g.isSome_scope? hm.global
  · rw [hheap, ← hm']
    have hkeep {t t' : State} (ht : t.Bound c f.heap) (ha : t.Alike t') (hr : t'.ref = t.ref) : t'.Bound c f.heap :=
      ht.alike ha fun scope x hx => ht.place scope x (hr ▸ hx)
    refine forall_mem_apply ((hs.evolves ha.top).mono hbinds) (fun t ht => (hbelow t ht).mono hbinds) ?_ ?_ ?_ ?_
    · intro node scope components labels he
      obtain ⟨hnode, hneeds, htarget⟩ := ha.bound_push hc hm he
      rw [hc.resolve_of_mem hc.size hnode]
      exact ⟨hc.node?_of_mem hc.size hnode, hneeds, (fun _ _ hr => by cases hr), htarget⟩
    · exact fun t v _ ht => hkeep ht (t.alike_receive v) rfl
    · rintro t r rfl ht
      refine ht.alike (t.alike_receiveRef r) fun scope x hx => ?_
      cases hx
      -- the variable is one of the node on top, which is a name
      have hcomp : s.components := by
        rcases ha.fits with hp | hp
        · rw [← ha.top.components]
          exact hp
        · exact hp.elim
      obtain ⟨hscope, hx⟩ := ha.locates (ha.top.node ▸ hs.target hcomp) (ha.top.components ▸ hcomp)
      rw [hscope]
      exact hbinds (hs.needs x hx)
    · exact fun t v _ _ ht => hkeep ht ⟨rfl, rfl, rfl, rfl, rfl⟩ rfl
  · rw [hheap]
    exact hencl

end Machine

end Stepwise

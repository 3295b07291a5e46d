import Stepwise.Proofs.Machine.Running
import Stepwise.Proofs.Machine.Site

/-!
# The targets of jumps

A `break` or `continue` looks for its target on the stack. Whether there is one is decided by the source alone.

* `State.Sits`: what lies below a state offers the same targets as what surrounds its node.
* `Machine.Reachable.seated`: all states of a machine that a program reaches sit like this.
* `Machine.jump_outcome`: so a jump with a label advances if one of the statements around it carries the label, and
  is a fault if none does. The parser lets both through.
-/

namespace Stepwise

open RuleM

variable {ω : Type} {c : Setting ω} {s t : State} {below : List State} {site : Site}

/-! ### One state -/

/-- What lies below a state offers the same targets to jumps as what surrounds its node. -/
structure State.Sits (s : State) (c : Setting ω) (below : List State) (site : Site) : Prop where
  stands : c.StandsAt s.node site
  labels : site.labels = s.labels
  jump : ∀ label isContinue, (leaveTo label isContinue below).2 = site.offers label isContinue
  return_ : ∀ v, (returnTo v below).2 = site.context.inFunction

theorem leaveTo_cons (hactive : ¬s.isActiveCall) (label : Option String) (isContinue : Bool) :
    (leaveTo label isContinue (s :: below)).2 = (s.isTarget label isContinue || (leaveTo label isContinue below).2) := by
  rw [leaveTo, if_neg hactive]
  cases s.isTarget label isContinue <;> rfl

theorem returnTo_cons (hactive : ¬s.isActiveCall) (v : Value) : (returnTo v (s :: below)).2 = (returnTo v below).2 := by
  rw [returnTo, if_neg hactive]

/-- A jump that finds its target leaves the states above it, and a `break` leaves the target too. -/
theorem leaveTo_found {label : Option String} {isContinue : Bool} {stack : List State}
    (h : (leaveTo label isContinue stack).2) : ∃ inner target outer, stack = inner ++ target :: outer ∧
      (∀ u ∈ inner, ¬u.isActiveCall ∧ ¬u.isTarget label isContinue) ∧ ¬target.isActiveCall ∧
      target.isTarget label isContinue ∧
      (leaveTo label isContinue stack).1 = if isContinue then target :: outer else outer := by
  induction stack with
  | nil => cases h
  | cons s below ih =>
    unfold leaveTo at h ⊢
    split at h
    · cases h
    · rename_i hactive
      rw [if_neg hactive]
      split at h
      · rename_i htarget
        exact ⟨[], s, below, rfl, by simp, hactive, htarget, by rw [if_pos htarget]⟩
      · rename_i htarget
        obtain ⟨inner, target, outer, rfl, hinner, hrest⟩ := ih h
        refine ⟨s :: inner, target, outer, rfl, List.forall_mem_cons.2 ⟨⟨hactive, htarget⟩, hinner⟩, ?_⟩
        rwa [if_neg htarget]

/-- A `return` that finds a running call leaves the states above it. -/
theorem returnTo_found {v : Value} {stack : List State} (h : (returnTo v stack).2) :
    ∃ inner call outer, stack = inner ++ call :: outer ∧ (∀ u ∈ inner, ¬u.isActiveCall) ∧ call.isActiveCall ∧
      (returnTo v stack).1 = { call.receive v with phase := CallPhase.returned } :: outer := by
  induction stack with
  | nil => cases h
  | cons s below ih =>
    unfold returnTo at h ⊢
    split at h
    · rename_i hactive
      exact ⟨[], s, below, rfl, by simp, hactive, by rw [if_pos hactive]⟩
    · rename_i hactive
      obtain ⟨inner, call, outer, rfl, hinner, hcall, hrest⟩ := ih h
      refine ⟨s :: inner, call, outer, rfl, List.forall_mem_cons.2 ⟨hactive, hinner⟩, hcall, ?_⟩
      rwa [if_neg hactive]

/-- Inside of a statement, a jump finds the statement itself or what it finds outside. -/
theorem Site.offers_inside (hn : s.node.isFunction = false) (hl : site.labels = s.labels) (label : Option String)
    (isContinue : Bool) :
    (s.node.siteInside site).offers label isContinue = (s.isTarget label isContinue || site.offers label isContinue) := by
  have hloop : s.isLoop = s.node.isLoop := rfl
  have hswitch : s.isSwitch = s.node.isSwitch := rfl
  unfold offers State.isTarget Node.siteInside
  rw [Node.inside_eq hn, hn, hl, hloop, hswitch]
  cases label with
  | some l => cases isContinue <;> cases s.node.isLoop <;> simp
  | none =>
    simp only [Bool.and_or_distrib_left]
    ac_rfl

namespace State.Sits

theorem alike {s' : State} (h : s.Sits c below site) (ha : s.Alike s') : s'.Sits c below site :=
  ⟨ha.node ▸ h.stands, ha.labels ▸ h.labels, h.jump, h.return_⟩

/-- A part of a node sits on the state of the node, unless this runs a function. -/
theorem part (h : s.Sits c below site) (hactive : ¬s.isActiveCall) (hp : t.node ∈ s.node.operands)
    (hl : t.labels = s.node.handsDown s.labels) : t.Sits c (s :: below) (s.node.siteInside site) := by
  have hn := Node.isFunction_of_operand hp
  refine ⟨h.stands.operand hp, ?_, fun label isContinue => ?_, fun v => ?_⟩
  · rw [hl, ← h.labels]
    rfl
  · rw [leaveTo_cons hactive, h.jump, Site.offers_inside hn h.labels]
  · rw [returnTo_cons hactive, h.return_]
    unfold Node.siteInside
    rw [Node.inside_eq hn]

/-- The body of a function sits on its call. -/
theorem body (hactive : s.isActiveCall) {n : Node} {callable : Callable} (h : c.StandsAt n site)
    (hn : n.callable? = some callable) (ht : t.node = .stmt (.block callable.body)) (hl : t.labels = []) :
    t.Sits c (s :: below) { context := .functionBody } := by
  refine ⟨ht ▸ h.body hn, hl.symm, fun label isContinue => ?_, fun v => ?_⟩
  · rw [leaveTo, if_pos hactive]
    cases label <;> cases isContinue <;> rfl
  · rw [returnTo, if_pos hactive]
    rfl

end State.Sits

/-! ### Stacks -/

/-- All states of a stack sit where their nodes stand. -/
def Seated (c : Setting ω) (stack : List State) : Prop := ∀ s below, s :: below <:+ stack → ∃ site, s.Sits c below site

namespace Seated

variable {stack stack' : List State}

theorem cons (ht : ∃ site, t.Sits c stack site) (hs : Seated c stack) : Seated c (t :: stack) := by
  intro t' below hsuf
  rcases List.suffix_cons_iff.1 hsuf with he | hsuf
  · cases he
    exact ht
  · exact hs t' below hsuf

/-- States that are left do not matter, nor does what the new top has gathered. -/
theorem sinks (h : Sinks stack stack') (hs : Seated c stack) : Seated c stack' := by
  intro t below hsuf
  rcases h with rfl | ⟨u, u', rest, hlow, ha, rfl⟩
  · cases List.suffix_nil.1 hsuf
  · rcases List.suffix_cons_iff.1 hsuf with he | hsuf
    · cases he
      obtain ⟨site, h⟩ := hs u below hlow
      exact ⟨site, h.alike ha⟩
    · exact hs t below ((hsuf.trans (List.suffix_cons u rest)).trans hlow)

end Seated

namespace Machine

variable {m m' : Machine} {mv : Move} {f : Frame}

theorem seated_start (hc : c.IsRead) (h : start c = .ok m) : Seated c m.stack := by
  rw [stack_start_of_isRead hc h]
  refine .cons ⟨{}, .inl .root, rfl, fun label isContinue => ?_, fun _ => rfl⟩ ?_
  · cases label <;> cases isContinue <;> rfl
  · intro s below hsuf
    cases List.suffix_nil.1 hsuf

/-- A step that advances seats what it starts. -/
theorem Advances.seated (hc : c.IsRead) (hsize : c.program.nodes.length < 2 ^ 24) (hf : m.heap.Filed)
    (hm : Seated c m.stack) (ha : m.Advances c s below mv f m') : Seated c m'.stack := by
  have hs : Seated c (f.top :: below) := by
    rw [ha.stack] at hm
    exact hm.sinks (.head ha.top.toAlike below)
  rw [ha.stack_eq]
  rcases push_or_sinks (c := c) { m with heap := f.heap } f.top below mv with
    ⟨node, scope, components, labels, rfl⟩ | ⟨-, hsinks⟩
  · obtain ⟨site, hsits⟩ := hs f.top below (List.suffix_refl _)
    refine .cons ?_ hs
    rcases ha.push_cases hf with ⟨hp, -⟩ | ⟨hen, -, rfl⟩
    · have hop : node ∈ f.top.node.operands := by
        rw [ha.top.node]
        exact hp.operand
      have hresolve : c.resolve node = node := hc.resolve_of_mem hsize (hsits.stands.operand hop).mem_nodes
      refine ⟨_, hsits.part (ha.not_isActiveCall hp.operand) (hresolve.symm ▸ hop) ?_⟩
      rw [ha.top.node]
      exact hp.labels
    · obtain ⟨o, info, id, closure, callable, -, -, -, hcall, rfl, -⟩ := hen.body
      obtain ⟨n, hid, hcall⟩ := Option.bind_eq_some_iff.1 hcall
      obtain ⟨site', hn⟩ := Setting.StandsAt.exists_of_mem (hc.mem_of_node? hid).1
      have hresolve : c.resolve (.stmt (.block callable.body)) = .stmt (.block callable.body) :=
        hc.resolve_of_mem hsize (hn.body hcall).mem_nodes
      refine ⟨_, .body ?_ hn hcall hresolve rfl⟩
      exact State.isActiveCall_of_isCall (ha.top.node ▸ hen.call) hen.phase
  · exact hs.sinks hsinks

theorem Reachable.seated (hc : c.IsRead) (hsize : c.program.nodes.length < 2 ^ 24) (hh : ∀ f ∈ c.host, f.Sound)
    {world : ω} (h : m.Reachable c world) : Seated c m.stack := by
  induction h with
  | start h world => exact seated_start hc h
  | step h hs ih =>
    have hw := h.wellFormed hh
    obtain ⟨s, below, mv, f, ha⟩ := advances_of_step hh hw hs
    exact ha.seated hc hsize hw.heap.toFiled ih

/-! ### The step of a jump -/

/-- A step that advances keeps to the depth that is allowed. -/
theorem length_le_of_step {world world' : ω} (hs : m.step c world = (.advanced, m', world')) :
    m'.stack.length ≤ c.maxDepth := by
  have hcomes := comes_step (c := c) m world
  rw [hs] at hcomes
  generalize hr : (Outcome.advanced, m') = r at hcomes
  cases hcomes with
  | ended => cases hr
  | moved hm ha h mv =>
    simp only [move] at hr
    split at hr
    · cases hr
    · split at hr
      · cases hr
      · cases hr
        exact Nat.le_of_not_lt ‹_›
  | failed hm ha h e => exact absurd (congrArg Prod.fst hr).symm (not_advanced_fail _ e)

/-- The rule of a jump asks for it and does nothing else. -/
theorem stepNode_jump {n : Node} {label : Option String} {isContinue : Bool}
    (hj : n.jump? = some (label, isContinue)) (f : Frame) : stepNode c below n f = .ok (.jump label isContinue) f := by
  unfold Node.jump? at hj
  split at hj <;> cases hj <;> rfl

theorem isEnded_eq_false (hm : m.stack = s :: below) (hs : ∀ p, s.node ≠ .program p) : m.isEnded = false := by
  unfold isEnded
  rw [hm]
  dsimp only
  split
  · exact absurd ‹_› (hs _)
  · rfl

/-- A rule that leaves the heap as it is makes its move. -/
theorem step_of_rule (hm : m.stack = s :: below) (hended : m.isEnded = false) {top : State}
    (hrule : stepNode c below s.node ⟨s, m.heap⟩ = .ok mv ⟨top, m.heap⟩) (hmv : ∀ name call, mv ≠ .host name call)
    (happly : m.apply c top below mv = (m', none)) (hroom : m'.stack.length ≤ c.maxDepth) (world : ω) :
    m.step c world = (.advanced, m', world) := by
  have hmove : m.move c top below mv = (.advanced, m') := by
    unfold move
    rw [happly]
    exact if_neg (Nat.not_lt.2 hroom)
  rw [step_of_rule_eq hm hended hrule (fun name call f he => hmv name call (by cases he; rfl)) world]
  exact congrArg (fun r => (r.1, r.2, world)) hmove

theorem step_jump {label : Option String} {isContinue : Bool} (hm : m.stack = s :: below)
    (hj : s.node.jump? = some (label, isContinue)) (world : ω) :
    (m.step c world).1 =
      if (leaveTo label isContinue below).2 then
        if c.maxDepth < (leaveTo label isContinue below).1.length then .fault .stackOverflow else .advanced
      else .fault .jumpWithoutTarget := by
  have hended := isEnded_eq_false hm fun p hp => by rw [hp] at hj; cases hj
  rw [step_of_rule_eq hm hended (stepNode_jump hj _) (fun _ _ _ => nofun)]
  simp only [finish, move, apply]
  cases (leaveTo label isContinue below).2 with
  | false => rfl
  | true =>
    simp only [if_true]
    exact apply_ite Prod.fst _ _ _

/-- Where the program is not on top, the last step has kept to the depth that is allowed. -/
theorem Reachable.length_le (hc : c.IsRead) {world : ω} (h : m.Reachable c world)
    (hm : m.stack = s :: below) (hs : ∀ p, s.node ≠ .program p) : m.stack.length ≤ c.maxDepth := by
  cases h with
  | start h world =>
    rw [stack_start_of_isRead hc h] at hm
    cases hm
    exact absurd rfl (hs _)
  | step h hs => exact length_le_of_step hs

/-- A jump goes on with its target if what surrounds it offers one. -/
theorem Reachable.outcome_of_jump (hc : c.IsRead) (hsize : c.program.nodes.length < 2 ^ 24)
    (hh : ∀ f ∈ c.host, f.Sound) {world : ω} (h : m.Reachable c world) (hm : m.stack = s :: below)
    {label : Option String} {isContinue : Bool} (hj : s.node.jump? = some (label, isContinue))
    (hsite : c.StandsAt s.node site) :
    (m.step c world).1 = if site.offers label isContinue then .advanced else .fault .jumpWithoutTarget := by
  obtain ⟨site', hsits⟩ := h.seated hc hsize hh s below (hm ▸ List.suffix_refl _)
  cases hc.site_unique hsize hsite hsits.stands
  have hroom := h.length_le hc hm fun p hp => by rw [hp] at hj; cases hj
  rw [hm, List.length_cons] at hroom
  have hfits : ¬c.maxDepth < (leaveTo label isContinue below).1.length := by
    have hleave := (leaveTo_suffix label isContinue below).length_le
    omega
  rw [step_jump hm hj, hsits.jump, if_neg hfits]

/-- A jump that comes to run stands at one place of the program or of its library. The step goes on with its target
if what surrounds the jump there offers one. If not, the step is a fault: the parser lets every label through. -/
theorem jump_outcome {source text : String} {program : Program} {host : List (HostFunction ω)} {maxDepth : Nat}
    {draws : Nat → Float}
    {world : ω} (hp : Program.ofSource source = .ok program) (hsize : program.nodes.length < 2 ^ 24)
    (hh : ∀ f ∈ host, f.Sound)
    (hr : m.Reachable (Setting.ofPrograms (Library.read text) program host maxDepth draws) world)
    (hm : m.stack = s :: below) {label : Option String} {isContinue : Bool}
    (hj : s.node.jump? = some (label, isContinue)) :
    ∃ site, (∀ site', (Setting.ofPrograms (Library.read text) program host maxDepth draws).StandsAt s.node site' ↔
      site' = site) ∧
      (m.step (Setting.ofPrograms (Library.read text) program host maxDepth draws) world).1 =
        if site.offers label isContinue then .advanced else .fault .jumpWithoutTarget := by
  have hc := Setting.isRead_ofPrograms hp text host maxDepth draws
  obtain ⟨site, hsits⟩ := hr.seated hc hsize hh s below (hm ▸ List.suffix_refl _)
  refine ⟨site, fun site' => ⟨fun h => hc.site_unique hsize h hsits.stands, ?_⟩, ?_⟩
  · rintro rfl
    exact hsits.stands
  · exact hr.outcome_of_jump hc hsize hh hm hj hsits.stands

/-- A `break` that leaves a block with a label: the block is offered, and the step advances. -/
theorem jump_outcome_block :
    ∃ (program : Program) (m : Machine) (s : State) (site : Site),
      let c : Setting Unit := Setting.ofPrograms (Library.read "") program [] Setting.defaultDepth Setting.zeros
      Program.ofSource "a: { break a; }" = .ok program ∧ m.Reachable c () ∧ m.stack.head? = some s ∧
        s.node.jump? = some (some "a", false) ∧ c.StandsAt s.node site ∧ site.offers (some "a") false ∧
        (m.step c ()).1 = .advanced := by
  have hrun : (after? (ω := Unit) "a: { break a; }" [] 3 ()).any fun x =>
      let c := Setting.ofPrograms (Library.read "") x.1 [] Setting.defaultDepth Setting.zeros
      x.1.nodes.length < 2 ^ 24 ∧ x.2.1.stack.head?.bind (·.node.jump?) = some (some "a", false) ∧
        (x.2.1.step c ()).1.isAdvanced := by
    decide +kernel
  obtain ⟨⟨program, m, world⟩, hx, hrun⟩ := (Option.any_eq_true _ _).1 hrun
  obtain ⟨hp, hr⟩ := of_after? hx
  obtain ⟨hsize, hjump, hadvances⟩ := of_decide_eq_true hrun
  obtain ⟨s, hs, hj⟩ := Option.bind_eq_some_iff.1 hjump
  obtain ⟨below, hm⟩ := List.head?_eq_some_iff.1 hs
  obtain ⟨site, hsite, hstep⟩ := jump_outcome hp hsize (List.forall_mem_nil _) hr hm hj
  have hadvanced := congrArg Prod.fst (step_of_isAdvanced hadvances)
  have hoffers : site.offers (some "a") false := by
    by_contra hno
    rw [if_neg hno] at hstep
    cases hstep.symm.trans hadvanced
  exact ⟨program, m, s, site, hp, hr, hs, hj, (hsite site).2 rfl, hoffers, hadvanced⟩

end Machine

/-- The parser lets a `break` through whose label no statement around it carries. -/
theorem Program.break_astray :
    ∃ p n site, Program.ofSource "break a;" = .ok p ∧ Node.StandsAt (.program p) n site ∧
      n.jump? = some (some "a", false) ∧ site.offers (some "a") false = false := by
  let p := (Program.ofSource "break a;").toOption.getD default
  have hp : Program.ofSource "break a;" = .ok p := eq_ok_of_isSome (by decide +kernel)
  have hany : (Node.program p).children.any fun n => n.jump? = some (some "a", false) := by decide +kernel
  obtain ⟨n, hn, hj⟩ := List.any_eq_true.1 hany
  exact ⟨p, n, _, hp, .part .root hn, of_decide_eq_true hj, rfl⟩

end Stepwise

import Stepwise.Proofs.Machine.Await
import Stepwise.Proofs.Machine.Fault

/-!
# Where jumps land

A jump pops states until it meets one that fits, and a `return` until it meets a running call. The source says which
states these are.

* `Setting.Targets`: the statement that a jump looks for, read off the tree. There is at most one.
* `Seated.targets`: the state at which a jump stops is that of this statement.
* `Node.Resumes`: how a loop goes on after a `continue`.
* `Machine.jumps_land`: so a jump whose label is not its own leaves the states above its target, with the target if it
  is a `break`, and a `return` hands its value to the call whose function it stands in. Nothing else changes.
* `Machine.jumps_astray`: a `break` that carries its label itself misses it.
-/

namespace Stepwise

open RuleM

variable {ω : Type} {c : Setting ω} {s t : State} {below : List State} {site site' : Site} {n m part : Node}
  {label : Option String} {isContinue : Bool}

/-! ### Targets in the source -/

/-- Whether a node with some labels is what a jump looks for. -/
def Node.catches (n : Node) (labels : List String) (label : Option String) (isContinue : Bool) : Bool :=
  match label with
  | some l => labels.contains l && (!isContinue || n.isLoop)
  | none => n.isLoop || (!isContinue && n.isSwitch)

theorem Node.catches_of_joint {joint : Node} (h : joint.isJoint) (label : Option String) (isContinue : Bool) :
    joint.isFunction = false ∧ joint.catches [] label isContinue = false := by
  cases joint with
  | declarator | switchCase | property => exact ⟨rfl, by cases label <;> cases isContinue <;> rfl⟩
  | _ => cases h

/-- The innermost node around another, in the same function, that a jump looks for. -/
inductive Setting.Targets (c : Setting ω) (label : Option String) (isContinue : Bool) : Node → Node → Prop where
  | here {n part : Node} {site : Site} (hn : c.StandsAt n site) (hf : n.isFunction = false) (hp : part ∈ n.children)
    (hcatch : n.catches site.labels label isContinue) : Targets c label isContinue part n
  | outer {n part t : Node} {site : Site} (hn : c.StandsAt n site) (hf : n.isFunction = false) (hp : part ∈ n.children)
    (hmiss : ¬n.catches site.labels label isContinue) (ht : Targets c label isContinue n t) :
    Targets c label isContinue part t

namespace Setting

/-- A node is part of one other at most. -/
theorem IsRead.parent_unique (hc : c.IsRead) (hsize : c.program.nodes.length < 2 ^ 24) (hn : c.StandsAt n site)
    (hm : c.StandsAt m site') (hnp : part ∈ n.children) (hmp : part ∈ m.children) : n = m := by
  obtain ⟨hprogram, hlibrary⟩ := hc.nodup
  -- a part of both trees would stand at two places
  have hapart {n m : Node} {site site' : Site} (hn : Node.StandsAt (.program c.program) n site)
      (hm : Node.StandsAt (.program c.library) m site') (hnp : part ∈ n.children) (hmp : part ∈ m.children) : False :=
    hc.apart hsize (hn.part hnp).mem_nodes (hm.part hmp).mem_nodes
  rcases hn with hn | hn <;> rcases hm with hm | hm
  · exact Node.parent_unique hprogram hn.mem_nodes hm.mem_nodes hnp hmp
  · exact (hapart hn hm hnp hmp).elim
  · exact (hapart hm hn hmp hnp).elim
  · exact Node.parent_unique hlibrary hn.mem_nodes hm.mem_nodes hnp hmp

/-- A jump has one target at most. -/
theorem IsRead.targets_unique (hc : c.IsRead) (hsize : c.program.nodes.length < 2 ^ 24) {t t' : Node}
    (h : c.Targets label isContinue n t) (h' : c.Targets label isContinue n t') : t = t' := by
  induction h with
  | here hn _ hp hcatch =>
    cases h' with
    | here hn' _ hp' _ => exact hc.parent_unique hsize hn hn' hp hp'
    | outer hn' _ hp' hmiss _ =>
      cases hc.parent_unique hsize hn hn' hp hp'
      cases hc.site_unique hsize hn hn'
      exact absurd hcatch hmiss
  | outer hn _ hp hmiss _ ih =>
    cases h' with
    | here hn' _ hp' hcatch =>
      cases hc.parent_unique hsize hn hn' hp hp'
      cases hc.site_unique hsize hn hn'
      exact absurd hcatch hmiss
    | outer hn' _ hp' _ ht' =>
      cases hc.parent_unique hsize hn hn' hp hp'
      exact ih ht'

namespace Targets

/-- A joint is passed over. -/
theorem of_part (hn : c.StandsAt n site) (hp : part ∈ n.operands) {t : Node}
    (h : ∀ {part}, part ∈ n.children → c.Targets label isContinue part t) : c.Targets label isContinue part t := by
  rcases Node.part_of_operand hp with hp | ⟨joint, hj, hjoint, hp⟩
  · exact h hp
  · have hstands : c.StandsAt joint (n.siteInside site) := hn.imp (·.part hj) (·.part hj)
    have hlabels : (n.siteInside site).labels = [] := Node.handsDown_of_joint hj hjoint site.labels
    obtain ⟨hf, hmiss⟩ := Node.catches_of_joint hjoint label isContinue
    rw [← hlabels] at hmiss
    exact .outer hstands hf hp (by simp [hmiss]) (h hj)

theorem of_operand (hn : c.StandsAt n site) (hp : part ∈ n.operands) (hcatch : n.catches site.labels label isContinue) :
    c.Targets label isContinue part n :=
  of_part hn hp fun hp' => .here hn (Node.isFunction_of_operand hp) hp' hcatch

theorem outer_of_operand (hn : c.StandsAt n site) (hp : part ∈ n.operands)
    (hmiss : ¬n.catches site.labels label isContinue) {t : Node} (ht : c.Targets label isContinue n t) :
    c.Targets label isContinue part t :=
  of_part hn hp fun hp' => .outer hn (Node.isFunction_of_operand hp) hp' hmiss ht

end Targets

end Setting

/-! ### Targets on the stack -/

theorem State.isTarget_eq (s : State) (label : Option String) (isContinue : Bool) :
    s.isTarget label isContinue = s.node.catches s.labels label isContinue := by
  cases label <;> rfl

/-- What a `continue` looks for is a loop. -/
theorem State.isLoop_of_isTarget (h : s.isTarget label true) : s.node.isLoop := by
  rw [isTarget_eq] at h
  unfold Node.catches at h
  cases label <;> simp_all

theorem Node.isStatement_of_jump (h : n.jump? = some (label, isContinue)) : n.isStatement := by
  unfold jump? at h
  split at h
  · rfl
  · rfl
  · cases h

/-- A jump stops at the state of the statement that it looks for. -/
theorem Seated.targets {stack inner outer : List State} {target : State} (hseated : Seated c stack)
    (hchain : stack.IsChain fun t s => s.Awaits t) (hsuf : s :: (inner ++ target :: outer) <:+ stack)
    (hinner : ∀ u ∈ inner, ¬u.isActiveCall ∧ ¬u.isTarget label isContinue) (hactive : ¬target.isActiveCall)
    (htarget : target.isTarget label isContinue) : c.Targets label isContinue s.node target.node := by
  induction inner generalizing s with
  | nil =>
    obtain ⟨site, hsits⟩ := hseated target outer ((List.suffix_cons s _).trans hsuf)
    obtain ⟨hawaits, -⟩ := List.isChain_cons_cons.1 (hchain.suffix hsuf)
    rw [State.isTarget_eq, ← hsits.labels] at htarget
    exact .of_operand hsits.stands (hawaits.part hactive) htarget
  | cons u inner ih =>
    obtain ⟨⟨huactive, humiss⟩, hinner⟩ := List.forall_mem_cons.1 hinner
    have hsuf' : u :: (inner ++ target :: outer) <:+ stack := (List.suffix_cons s _).trans hsuf
    obtain ⟨site, hsits⟩ := hseated u _ hsuf'
    obtain ⟨hawaits, -⟩ := List.isChain_cons_cons.1 (hchain.suffix hsuf)
    rw [State.isTarget_eq, ← hsits.labels] at humiss
    exact .outer_of_operand hsits.stands (hawaits.part huactive) humiss (ih hsuf' hinner)

/-- A loop that a statement is inside of waits to go on. -/
theorem Awaiting.resumesAt {stack inner outer : List State} {target : State} (h : Awaiting stack)
    (hsuf : s :: (inner ++ target :: outer) <:+ stack) (hinner : ∀ u ∈ inner, ¬u.isActiveCall)
    (hs : s.node.isStatement) : target.node.resumesAt target.phase := by
  induction inner generalizing s with
  | nil => exact (List.isChain_cons_cons.1 (h.chain.suffix hsuf)).1.loop hs
  | cons u inner ih =>
    obtain ⟨huactive, hinner⟩ := List.forall_mem_cons.1 hinner
    have hpart := (List.isChain_cons_cons.1 (h.chain.suffix hsuf)).1.part huactive
    exact ih ((List.suffix_cons s _).trans hsuf) hinner (Node.isStatement_of_operand hpart hs)

/-- What the rule of a loop goes on with: its test, its update or its next key. A `for` loop without an update comes to
the phase of its test. -/
def Node.Resumes (n : Node) (c : Setting ω) (below : List State) (f : Frame) : Prop :=
  match n with
  | .stmt (.while_ _ e _) | .stmt (.doWhile _ _ e) | .stmt (.for_ _ _ _ (some e) _) =>
    ∃ f', stepNode c below n f = .ok (.push (.expr e) f.top.scope false []) f'
  | .stmt (.for_ _ _ _ none _) => stepNode c below n f = .ok .stay { f with top := { f.top with phase := 1 } }
  | .stmt (.forIn _ left _ body) => stepNode c below n f = nextForIn left body f
  | _ => False

theorem Node.resumes_of_phase (hloop : n.isLoop) {f : Frame} (hphase : n.resumesAt f.top.phase) (c : Setting ω)
    (below : List State) : n.Resumes c below f := by
  unfold isLoop at hloop
  split at hloop
  · have hp : f.top.phase = 0 := hphase
    exact ⟨_, by simp only [stepNode, stepStmt, stepWhile, bind_run, top_run, hp, if_true, setPhase_run, pushExpr_run]; rfl⟩
  · have hp : f.top.phase = 1 := hphase
    exact ⟨_, by simp only [stepNode, stepStmt, stepDoWhile, bind_run, top_run, hp, setPhase_run, pushExpr_run]; rfl⟩
  · rename_i l init test update body
    have hp : f.top.phase = 3 := hphase
    cases update with
    | none =>
      unfold Resumes
      simp only [stepNode, stepStmt, stepFor, bind_run, top_run, hp, setPhase_run, pure_run]
    | some e =>
      exact ⟨_, by simp only [stepNode, stepStmt, stepFor, bind_run, top_run, hp, setPhase_run, pushExpr_run]; rfl⟩
  · have hp : f.top.phase ∉ [0, 1, 3] := hphase
    simp only [List.mem_cons, List.not_mem_nil, or_false, not_or] at hp
    unfold Resumes
    simp only [stepNode, stepStmt, stepForIn, bind_run, top_run]
    refine congrFun ?_ f
    split
    · exact absurd ‹_› hp.1
    · exact absurd ‹_› hp.2.1
    · exact absurd ‹_› hp.2.2
    · rfl
  · cases hloop

namespace Machine

variable {m m' : Machine} {world : ω} {mv : Move}

/-- How a jump has landed: `inner` is what it leaves on the way to its target. -/
structure Jumped (c : Setting ω) (m : Machine) (world : ω) (label : Option String) (isContinue : Bool) (s : State)
    (inner : List State) (target : State) (outer : List State) : Prop where
  stack : m.stack = s :: (inner ++ target :: outer)
  activation : ∀ u ∈ inner, ¬u.isActiveCall
  lexical : ∀ t, c.Targets label isContinue s.node t ↔ t = target.node
  step : m.step c world = (.advanced, { m with stack := if isContinue then target :: outer else outer }, world)
  resumes : isContinue → target.node.Resumes c outer ⟨target, m.heap⟩

/-- How a `return` with its value has come to the call whose function it stands in. -/
structure Returned (c : Setting ω) (m : Machine) (world : ω) (argument : Option Expr) (s : State)
    (inner : List State) (body call : State) (outer : List State) : Prop where
  stack : m.stack = inner ++ body :: call :: outer
  activation : ∀ u ∈ inner ++ [body], ¬u.isActiveCall
  active : call.isActiveCall
  runs : body.Runs c m.heap call
  delivered : argument.isSome → s.hasValue
  step : m.step c world = (.advanced, { m with stack :=
    { call.receive (if argument.isSome then s.value else .undefined) with phase := CallPhase.returned } :: outer }, world)

theorem Reachable.jumped (hc : c.IsRead) (hsize : c.program.nodes.length < 2 ^ 24) (hh : ∀ f ∈ c.host, f.Sound)
    (hr : m.Reachable c world) (hm : m.stack = s :: below) (hj : s.node.jump? = some (label, isContinue))
    (hsite : c.StandsAt s.node site) (hoffers : site.offers label isContinue) :
    ∃ inner target outer, m.Jumped c world label isContinue s inner target outer := by
  have hseated := hr.seated hc hsize hh
  have hawaiting := hr.awaiting hc hsize hh
  obtain ⟨site', hsits⟩ := hseated s below (hm ▸ List.suffix_refl _)
  cases hc.site_unique hsize hsite hsits.stands
  rw [← hsits.jump] at hoffers
  obtain ⟨inner, target, outer, rfl, hinner, hactive, htarget, hleave⟩ := leaveTo_found hoffers
  have hlexical := hseated.targets hawaiting.chain ⟨[], hm.symm⟩ hinner hactive htarget
  refine ⟨inner, target, outer, hm, fun u hu => (hinner u hu).1, fun t => ⟨fun ht => ?_, ?_⟩, ?_, fun hcontinue => ?_⟩
  · exact hc.targets_unique hsize ht hlexical
  · rintro rfl
    exact hlexical
  · have hnode (p : Program) : s.node ≠ .program p := fun hp => by rw [hp] at hj; cases hj
    have hroom := hr.length_le hc hm hnode
    refine step_of_rule hm (isEnded_eq_false hm hnode) (stepNode_jump hj _) (fun _ _ => nofun) ?_
      (le_trans ?_ hroom) world
    · simp only [apply, hleave, hoffers, if_true]
    · rw [hm]
      split <;> simp <;> omega
  · have hphase := hawaiting.resumesAt ⟨[], hm.symm⟩ (fun u hu => (hinner u hu).1) (Node.isStatement_of_jump hj)
    exact Node.resumes_of_phase (State.isLoop_of_isTarget (hcontinue ▸ htarget)) hphase c outer

/-- The rule of a `return` hands over the value of its argument once that is there. -/
theorem stepNode_return (c : Setting ω) (below : List State) {l : Loc} {argument : Option Expr}
    (hn : s.node = .stmt (.return_ l argument)) (hdone : argument.isSome → s.done) (h : Heap) :
    stepNode c below s.node ⟨s, h⟩ = .ok (.return_ (if s.hasValue then s.value else .undefined)) ⟨s, h⟩ := by
  rw [hn]
  simp only [stepNode, stepStmt, stepReturn, bind_run, top_run]
  cases argument with
  | none => rfl
  | some e => rw [hdone rfl]; rfl

theorem Reachable.returned (hc : c.IsRead) (hsize : c.program.nodes.length < 2 ^ 24) (hk : ∀ f ∈ c.host, f.Keeps)
    (hh : ∀ f ∈ c.host, f.Sound) (hr : m.Reachable c world) (hm : m.stack = s :: below) {l : Loc}
    {argument : Option Expr} (hn : s.node = .stmt (.return_ l argument)) (hdone : argument.isSome → s.done) :
    ∃ inner body call outer, m.Returned c world argument s inner body call outer := by
  have hreturn : s.node.isReturn := by rw [hn]; rfl
  obtain ⟨hvalue, hargument⟩ := (hr.awaiting hc hsize hh).top s (hm ▸ rfl) hreturn
  -- without an argument nothing was delivered
  have hhas : s.hasValue = argument.isSome := by
    rw [hvalue]
    cases argument with
    | none =>
      rw [hn] at hargument
      by_contra hs
      exact hargument (by simpa using hs) rfl
    | some e => exact hdone rfl
  have hrule := stepNode_return c below hn hdone m.heap
  rw [hhas] at hrule
  have hfound := hr.return_found hc hsize hh hm hreturn (.refl s) (if argument.isSome then s.value else .undefined)
  obtain ⟨inner, call, outer, hstack, hinner, hactive, hleave⟩ := returnTo_found hfound
  have hs : ¬s.isActiveCall := fun ha => Node.not_isReturn_of_isCall (State.isCall_of_isActiveCall ha) hreturn
  -- the call is not the state on top, and what lies on it is the body of its function
  rw [← hm] at hstack
  obtain ⟨above, body, rfl⟩ : ∃ above body, inner = above ++ [body] := by
    rcases List.eq_nil_or_concat inner with rfl | ⟨above, body, rfl⟩
    · rw [hm] at hstack
      cases hstack
      exact absurd hactive hs
    · exact ⟨above, body, List.concat_eq_append⟩
  have hstack' : m.stack = above ++ body :: call :: outer := by rw [hstack]; simp
  have hnode (p : Program) : s.node ≠ .program p := fun hp => by rw [hp] at hreturn; cases hreturn
  refine ⟨above, body, call, outer, hstack', hinner, hactive, hr.runs hc hsize hk hh ⟨above, hstack'.symm⟩ hactive,
    fun h => hhas.trans h, ?_⟩
  refine step_of_rule hm (isEnded_eq_false hm hnode) hrule (fun _ _ => nofun) ?_
    (le_trans ?_ (hr.length_le hc hm hnode)) world
  · simp only [apply, hleave, hfound, if_true]
  · rw [hstack']
    simp
    omega

/-- Jumps land where the source says. In every machine that a program reaches whose labels have targets, a `break` leaves
exactly the states below that of the innermost loop or `switch` around it, or of the statement with its label, and a
`continue` leaves that of the loop as well, which goes on with its test, its update or its next key. Only a `break`
that carries its label itself is left out. A `return` that has its value leaves the states up to the call whose
function it stands in, with this value. Nothing else changes. -/
theorem jumps_land {source text : String} {program : Program} {host : List (HostFunction ω)} {maxDepth : Nat}
    {draws : Nat → Float}
    (hp : Program.ofSource source = .ok program) (hsize : program.nodes.length < 2 ^ 24)
    (hnames : (Node.program program).NamesTargets) (hl : (Library.read text).IsPlain) (hk : ∀ f ∈ host, f.Keeps)
    (hh : ∀ f ∈ host, f.Sound) (hr : m.Reachable (Setting.ofPrograms (Library.read text) program host maxDepth draws) world)
    (hm : m.stack = s :: below) :
    let c := Setting.ofPrograms (Library.read text) program host maxDepth draws
    (∀ label isContinue, s.node.jump? = some (label, isContinue) → (isContinue ∨ ∀ l ∈ label, l ∉ s.labels) →
      ∃ inner target outer, m.Jumped c world label isContinue s inner target outer) ∧
      ∀ l argument, s.node = .stmt (.return_ l argument) → (argument.isSome → s.done) →
        ∃ inner body call outer, m.Returned c world argument s inner body call outer := by
  have hc := Setting.isRead_ofPrograms hp text host maxDepth draws
  refine ⟨fun label isContinue hj hown => ?_, fun l argument hn hdone => hr.returned hc hsize hk hh hm hn hdone⟩
  obtain ⟨site, hsits⟩ := hr.seated hc hsize hh s below (hm ▸ List.suffix_refl _)
  refine hr.jumped hc hsize hh hm hj hsits.stands ?_
  cases label with
  | none => exact Site.offers_of_placed (hc.placed hsits.stands) hj
  | some l =>
    have hname := Setting.names_ofPrograms hnames hl hsits.stands hj
    cases isContinue with
    | true => exact hname
    | false =>
      have hmem : l ∈ site.labels ++ site.outer := List.contains_iff_mem.1 hname
      have hnot : l ∉ site.labels := hsits.labels ▸ hown.resolve_left Bool.noConfusion l rfl
      exact List.contains_iff_mem.2 ((List.mem_append.1 hmem).resolve_left hnot)

/-- A `continue` in a `switch` that goes on with the loop around it, in a function that is running. -/
theorem jumps_land_continue :
    ∃ (program : Program) (m : Machine) (s target : State) (inner outer : List State),
      let c : Setting Unit := Setting.ofPrograms (Library.read "") program [] Setting.defaultDepth Setting.zeros
      Program.ofSource "function f() { a: for (;;) { switch (1) { case 1: continue a; } } } f();" = .ok program ∧
        m.Reachable c () ∧ s.node.jump? = some (some "a", true) ∧
        m.stack.map (·.node.kind) = [.continueStatement, .switchStatement, .blockStatement, .forStatement,
          .labeledStatement, .blockStatement, .callExpression, .expressionStatement, .program] ∧
        (m.step c ()).2.1.stack.map (·.node.kind) = [.forStatement, .labeledStatement, .blockStatement,
          .callExpression, .expressionStatement, .program] ∧
        m.Jumped c () (some "a") true s inner target outer := by
  have hl : Library.isChecked (.program (Library.read "")) := by decide +kernel
  have hrun : (after? (ω := Unit) "function f() { a: for (;;) { switch (1) { case 1: continue a; } } } f();" [] 17
      ()).any fun x => x.1.nodes.length < 2 ^ 24 ∧ (Node.program x.1).namesWithin 12 {} ∧
        x.2.1.stack.head?.bind (·.node.jump?) = some (some "a", true) ∧
        x.2.1.stack.map (·.node.kind) = [.continueStatement, .switchStatement, .blockStatement, .forStatement,
          .labeledStatement, .blockStatement, .callExpression, .expressionStatement, .program] ∧
        (x.2.1.step (Setting.ofPrograms (Library.read "") x.1 [] Setting.defaultDepth Setting.zeros) x.2.2).2.1.stack.map
            (·.node.kind) = [.forStatement, .labeledStatement, .blockStatement, .callExpression,
          .expressionStatement, .program] := by
    decide +kernel
  obtain ⟨⟨program, m, world⟩, hx, hrun⟩ := (Option.any_eq_true _ _).1 hrun
  obtain ⟨hp, hr⟩ := of_after? hx
  obtain ⟨hsize, hnames, hjump, hbefore, hafter⟩ := of_decide_eq_true hrun
  obtain ⟨s, hs, hj⟩ := Option.bind_eq_some_iff.1 hjump
  obtain ⟨below, hm⟩ := List.head?_eq_some_iff.1 hs
  obtain ⟨inner, target, outer, hland⟩ := (jumps_land hp hsize (Node.namesTargets_of_namesWithin hnames)
    (Library.isPlain_of_isChecked hl) (by simp) (by simp) hr hm).1 _ _ hj (.inl rfl)
  exact ⟨program, m, s, target, inner, outer, hp, hr, hj, hbefore, hafter, hland⟩

/-- A `break` that is itself the statement with its label does not leave it, though it has a target. -/
theorem jumps_astray :
    ∃ (program : Program) (m : Machine) (s : State),
      let c : Setting Unit := Setting.ofPrograms (Library.read "") program [] Setting.defaultDepth Setting.zeros
      Program.ofSource "for (;;) { a: break a; }" = .ok program ∧ program.nodes.length < 2 ^ 24 ∧
        (Node.program program).NamesTargets ∧ m.Reachable c () ∧ m.stack.head? = some s ∧
        s.node.jump? = some (some "a", false) ∧ s.labels = ["a"] ∧ (m.step c ()).1 = .fault .jumpWithoutTarget := by
  have hrun : (after? (ω := Unit) "for (;;) { a: break a; }" [] 5 ()).any fun x =>
      x.1.nodes.length < 2 ^ 24 ∧ (Node.program x.1).namesWithin 9 {} ∧
        x.2.1.stack.head?.map (fun s => (s.node.jump?, s.labels)) = some (some (some "a", false), ["a"]) ∧
        (x.2.1.step (Setting.ofPrograms (Library.read "") x.1 [] Setting.defaultDepth Setting.zeros) x.2.2).1.fault? =
          some .jumpWithoutTarget := by
    decide +kernel
  obtain ⟨⟨program, m, world⟩, hx, hrun⟩ := (Option.any_eq_true _ _).1 hrun
  obtain ⟨hp, hr⟩ := of_after? hx
  obtain ⟨hsize, hnames, htop, hfault⟩ := of_decide_eq_true hrun
  obtain ⟨s, hs, hj⟩ := Option.map_eq_some_iff.1 htop
  injection hj with hj hlabels
  exact ⟨program, m, s, hp, hsize, Node.namesTargets_of_namesWithin hnames, hr, hs, hj, hlabels,
    Outcome.eq_of_fault? hfault⟩

end Machine

end Stepwise

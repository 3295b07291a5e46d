import Mathlib.Order.OrderIsoNat
import Stepwise.Proofs.Machine.Convert
import Stepwise.Proofs.Machine.Left
import Stepwise.Proofs.Stepper.Restore

/-!
# Which steps come to an end

* `Stepper.pass?`: the stepper passes a step of the machine on which it does not stop.
* `Stepper.advance_of_passes`: a step of the stepper ends when the machine makes a step that is not passed.
* `Stepper.Fit`: what all steppers that have not finished have in common.
* `Machine.Stalls`: a step of the machine that may not end itself.
* `Stepper.advance_settles`: a step of the stepper ends, unless a step of the machine stalls, or the library's own code or
  one bare loop goes on for ever.
* `Stepper.advance_endless`: in a bare loop it does not end.
-/

namespace Stepwise

open RuleM

variable {ω : Type}

/-- What has no stop when it is started, and is not silent, is a statement that is an expression. -/
theorem Node.isExpression_of_operand {n part : Node} (hp : part ∈ n.operands) (hown : part.isSilent = false)
    (hk : part.kind.isPassed) : ∃ l e, part = .stmt (.expression l e) := by
  refine Node.of_operand (P := fun n => n.isSilent = false → n.kind.isPassed → ∃ l e, n = .stmt (.expression l e))
    (fun st hs hk => ?_) (fun e _ hk => ?_) hp hown hk
  · cases st with
    | expression l e => exact ⟨l, e, rfl⟩
    | empty => simp [Node.isSilent, Node.isEmpty, Stmt.isEmpty] at hs
    | _ => cases hk
  · cases e <;> cases hk

/-- Whether a state is one of a bare loop that starts nothing but its body. -/
def State.isSpinning (s : State) : Bool :=
  match s.node with
  | .stmt (.for_ _ init none none (.empty _)) => (s.phase == 0 && init.isNone) || s.phase == 1 || s.phase == 3
  | _ => false

theorem State.exists_of_isSpinning {s : State} (h : s.isSpinning) :
    ∃ l init l', s.node = .stmt (.for_ l init none none (.empty l')) ∧
      (s.phase = 0 ∧ init = none ∨ s.phase = 1 ∨ s.phase = 3) := by
  unfold isSpinning at h
  split at h
  · rename_i hn
    refine ⟨_, _, _, hn, ?_⟩
    simpa [or_assoc] using h
  · cases h

/-- Such a loop goes on or starts its body, and stays what it is. -/
theorem State.spins {s : State} (hs : s.isSpinning) (c : Setting ω) (below : List State) (h : Heap) :
    ∃ mv s', stepNode c below s.node ⟨s, h⟩ = .ok mv ⟨s', h⟩ ∧ s.Alike s' ∧ s'.isSpinning ∧
      (mv = .stay ∨ ∃ l, .stmt (.empty l) ∈ s.node.operands ∧ mv = .push (.stmt (.empty l)) s.scope false []) := by
  obtain ⟨l, init, l', hn, hp⟩ := exists_of_isSpinning hs
  obtain ⟨id, node, scope, phase⟩ := s
  cases hn
  obtain ⟨rfl, rfl⟩ | rfl | rfl := hp
  · exact ⟨_, _, rfl, ⟨rfl, rfl, rfl, rfl, rfl⟩, rfl, .inl rfl⟩
  · exact ⟨_, _, rfl, ⟨rfl, rfl, rfl, rfl, rfl⟩, rfl, .inr ⟨l', by simp [Node.operands], rfl⟩⟩
  · exact ⟨_, _, rfl, ⟨rfl, rfl, rfl, rfl, rfl⟩, rfl, .inl rfl⟩

namespace Machine

end Machine

namespace Stepper

/-- The stepper after a step of the machine, unless this is an end or a stop. -/
def pass? (c : Setting ω) (s : Stepper) (world : ω) : Option (Stepper × ω) :=
  match s.machine.step c world with
  | (.advanced, machine, world) =>
    match machine.stack with
    | [] => none
    | top :: _ =>
      match look { s with machine } top machine.stack with
      | (none, s) => some (s, world)
      | (some _, _) => none
  | _ => none

/-- The stepper after some steps of the machine, unless one of them is an end or a stop. -/
def passes? (c : Setting ω) : (n : Nat) → Stepper → ω → Option (Stepper × ω)
  | 0, s, world => some (s, world)
  | n + 1, s, world => (s.pass? c world).bind fun (s, world) => passes? c n s world

variable {c : Setting ω} {s t : Stepper} {world world' : ω} {top : State} {stack below : List State}

/-! ### Passing steps -/

theorem exists_of_pass (h : s.pass? c world = some (t, world')) : ∃ m top below,
    s.machine.step c world = (.advanced, m, world') ∧ m.stack = top :: below ∧
      look { s with machine := m } top m.stack = (none, t) := by
  unfold pass? at h
  split at h
  · rename_i m world₁ hs
    split at h
    · cases h
    · rename_i top below hm
      split at h
      · rename_i hl
        cases h
        exact ⟨m, top, below, hs, hm, hl⟩
      · cases h
  · cases h

theorem advance_of_pass (h : s.pass? c world = some (t, world')) (limit : Nat) :
    s.advance c (limit + 1) world = t.advance c limit world' := by
  obtain ⟨m, top, below, hs, hm, hl⟩ := exists_of_pass h
  rw [advance, hs]
  dsimp only
  rw [hm] at hl
  simp only [hm, hl]

/-- After steps that are passed, the stepper goes on from where they lead. -/
theorem advance_of_passes {n : Nat} (h : passes? c n s world = some (t, world')) (limit : Nat) :
    s.advance c (n + limit) world = t.advance c limit world' := by
  induction n generalizing s world with
  | zero =>
    cases h
    rw [Nat.zero_add]
  | succ n ih =>
    obtain ⟨⟨u, world₁⟩, hpass, hrest⟩ := Option.bind_eq_some_iff.1 h
    rw [Nat.succ_add_eq_add_succ, Nat.add_succ, advance_of_pass hpass]
    exact ih hrest

theorem coarse_liveAnchors (h : ∀ a ∈ s.anchors, a.mode = .coarse) : ∀ a ∈ liveAnchors s.anchors stack, a.mode = .coarse :=
  fun a ha => h a ((List.dropWhile_suffix _).subset ha)

theorem mem_of_hidingAnchor {anchors : List Anchor} {n : Node} {a : Anchor} (h : hidingAnchor? anchors stack n = some a) :
    a ∈ anchors := by
  unfold hidingAnchor? at h
  obtain ⟨b, hb, h⟩ := Option.bind_eq_some_iff.1 h
  obtain ⟨u, -, h⟩ := Option.bind_eq_some_iff.1 h
  split at h
  · cases h
    exact List.mem_of_mem_head? hb
  · cases h

theorem coarse_enter (h : ∀ a ∈ s.anchors, a.mode = .coarse) : ∀ a ∈ (s.enter top stack).2.anchors, a.mode = .coarse := by
  have hlive : ∀ a ∈ liveAnchors s.anchors stack, a.mode = .coarse := coarse_liveAnchors h
  unfold enter
  dsimp only
  split
  · exact hlive
  · rw [List.forall_mem_append]
    refine ⟨?_, hlive⟩
    split <;> simp

/-- Without micro anchors, there is a stop at every node that is entered, unless its kind is always passed. -/
theorem isPassed_of_enter (h : ∀ a ∈ s.anchors, a.mode = .coarse) (hl : (s.enter top stack).1 = none) :
    top.node.kind.isPassed := by
  unfold enter at hl
  dsimp only at hl
  split at hl
  · rename_i hmicro
    obtain ⟨a, ha, hmode⟩ := (Option.any_eq_true _ _).1 hmicro
    rw [coarse_liveAnchors h a (mem_of_hidingAnchor ha)] at hmode
    cases hmode
  · unfold stopAt? at hl
    dsimp only at hl
    split at hl
    · cases hl
    · split at hl
      · cases hl
      · rename_i hpassed
        simpa using hpassed

theorem coarse_look (h : ∀ a ∈ s.anchors, a.mode = .coarse) : ∀ a ∈ (s.look top stack).2.anchors, a.mode = .coarse := by
  unfold look
  split
  · exact h
  · dsimp only
    split
    · exact h
    · split
      · exact h
      · exact coarse_enter h

theorem prev_look (s : Stepper) (top : State) (stack : List State) :
    (s.look top stack).2.prev = if top.node.isInternal then s.prev else ⟨stack.length, top.scope⟩ := by
  unfold look
  split
  · rfl
  · dsimp only
    split
    · rfl
    · split
      · rfl
      · exact prev_enter _ _ _

/-- A state that is passed is no deeper than the one before, or its kind is always passed. -/
theorem passed_of_look (h : ∀ a ∈ s.anchors, a.mode = .coarse) (hown : ¬top.node.isInternal)
    (hl : s.look top stack = (none, t)) :
    stack.length ≤ s.prev.depth ∧ top.scope = s.prev.scope ∨ s.prev.depth < stack.length ∧ top.node.kind.isPassed := by
  unfold look at hl
  rw [if_neg hown] at hl
  dsimp only at hl
  split at hl
  · cases hl
  · rename_i hleads
    split at hl
    · rename_i hle
      refine .inl ⟨hle, ?_⟩
      rw [Bool.or_eq_true, not_or, Bool.and_eq_true, not_and, decide_eq_true_eq] at hleads
      simpa using hleads.2 hle
    · rename_i hlt
      exact .inr ⟨not_le.1 hlt, isPassed_of_enter (s := { s with prev := ⟨stack.length, top.scope⟩ }) h (congrArg Prod.fst hl)⟩

/-! ### Steppers that have not finished -/

/-- What all steppers that a program reaches have in common until they have finished, also between two stops. -/
structure Fit (c : Setting ω) (s : Stepper) (world : ω) : Prop where
  reachable : s.machine.Reachable c world
  coarse : ∀ a ∈ s.anchors, a.mode = .coarse
  /-- The latest state in the program's own code was not deeper than the one on top. -/
  depth : ∀ top ∈ s.machine.stack.head?, ¬top.node.isInternal → s.prev.depth ≤ s.machine.stack.length
  scope : 0 ≤ s.prev.depth → (s.machine.heap.scope? s.prev.scope).isSome

theorem fit_start (h : Stepper.start c = .ok s) (world : ω) : s.Fit c world := by
  unfold Stepper.start at h
  cases hm : Machine.start c with
  | error => rw [hm] at h; cases h
  | ok m =>
    rw [hm] at h
    cases h
    exact ⟨.start hm world, nofun, fun _ _ _ => by simp, nofun⟩

/-- A step of the machine, and the look at the stack that follows. -/
theorem Fit.next (hc : c.IsRead) (hk : ∀ f ∈ c.host, f.Keeps) (h : s.Fit c world) {m : Machine}
    (hs : s.machine.step c world = (.advanced, m, world')) (hm : m.stack = top :: below) :
    (look { s with machine := m } top m.stack).2.Fit c world' := by
  have hreach := h.reachable.step hs
  have hgrows : s.machine.heap.Grows m.heap := by
    have hmoves := Machine.moves_step hk (h.reachable.sound hc hk).filed world
    rw [hs] at hmoves
    exact (hmoves.heap (h.reachable.sound hc hk).filed).2
  have hmachine : (Stepper.look { s with machine := m } top m.stack).2.machine = m := (look_frame _ _ _).1
  have hprev := prev_look { s with machine := m } top m.stack
  refine ⟨?_, coarse_look h.coarse, fun u hu hown => ?_, fun hd => ?_⟩
  · rw [hmachine]
    exact hreach
  · rw [hmachine, hm] at hu
    cases hu
    rw [hprev, if_neg hown, hmachine]
  · rw [hmachine]
    rw [hprev] at hd ⊢
    split at hd
    · rename_i hown
      rw [if_pos hown]
      obtain ⟨o, ho⟩ := Option.isSome_iff_exists.1 (h.scope hd)
      rw [hgrows.scope ho]
      rfl
    · rename_i hown
      rw [if_neg hown]
      exact (hreach.sound hc hk).scope top (by simp [hm])

theorem Fit.pass (hc : c.IsRead) (hk : ∀ f ∈ c.host, f.Keeps) (h : s.Fit c world)
    (hp : s.pass? c world = some (t, world')) : t.Fit c world' := by
  obtain ⟨m, top, below, hs, hm, hl⟩ := exists_of_pass hp
  have hlook := h.next hc hk hs hm
  rw [hl] at hlook
  exact hlook

theorem Fit.passes (hc : c.IsRead) (hk : ∀ f ∈ c.host, f.Keeps) (h : s.Fit c world) {n : Nat}
    (hp : passes? c n s world = some (t, world')) : t.Fit c world' := by
  induction n generalizing s world with
  | zero =>
    cases hp
    exact h
  | succ n ih =>
    obtain ⟨⟨u, world₁⟩, hpass, hrest⟩ := Option.bind_eq_some_iff.1 hp
    exact ih (h.pass hc hk hpass) hrest

theorem Fit.leads (hc : c.IsRead) (hk : ∀ f ∈ c.host, f.Keeps) {stop : Stop} (h : s.Fit c world)
    (hl : Leads c s world stop t world') (hf : t.isFinished = false) : t.Fit c world' := by
  induction hl with
  | ended | uncaught => cases hf
  | stopped hs hm hl =>
    have hlook := h.next hc hk hs hm
    rw [hl] at hlook
    exact ⟨hlook.reachable, hlook.coarse, hlook.depth, hlook.scope⟩
  | passed hs hm hl _ ih =>
    have hlook := h.next hc hk hs hm
    rw [hl] at hlook
    exact ih hlook hf

theorem Reachable.fit (hc : c.IsRead) (hk : ∀ f ∈ c.host, f.Keeps) (h : s.Reachable c world) (hf : s.isFinished = false) :
    s.Fit c world := by
  induction h with
  | start h world => exact fit_start h world
  | @step s t stop world world' _ hs ih =>
    have hunfinished : s.isFinished = false := by
      by_contra hfinished
      unfold Stepper.step at hs
      rw [if_pos (by simpa using hfinished)] at hs
      cases hs
    exact (ih hunfinished).leads hc hk (leads_of_step hs) hf

/-! ### Two steps that are passed -/

/-- A statement that is an expression starts it, and this is a stop. -/
theorem Fit.not_pass (hc : c.IsRead) (hsize : c.program.nodes.length < 2 ^ 24) (hk : ∀ f ∈ c.host, f.Keeps)
    (hh : ∀ f ∈ c.host, f.Sound) (h : s.Fit c world) (hm : s.machine.stack = top :: below) {l : Loc} {e : Expr}
    (hn : top.node = .stmt (.expression l e)) (hphase : top.phase = 0) (hown : ¬top.node.isInternal) :
    s.pass? c world = none := by
  by_contra hpass
  obtain ⟨⟨t, world'⟩, hp⟩ := Option.ne_none_iff_exists'.1 hpass
  obtain ⟨m, u, rest, hs, hm', hl⟩ := exists_of_pass hp
  obtain ⟨s', below', mv, f, ha⟩ := Machine.advances_of_step hh (h.reachable.wellFormed hh) hs
  have hstack := ha.stack
  rw [hm] at hstack
  cases hstack
  have hcall : ¬top.node.isCall := by
    rw [hn]
    nofun
  have hrule := ha.rule.resolve_right fun h => hcall h.call
  have hpush : (stepExpression e).wp (fun mv _ => ∃ scope, mv = .push (.expr e) scope false []) (fun _ _ => True)
      ⟨top, s.machine.heap⟩ := by
    refine wp_bind (wp_top ?_)
    rw [if_pos hphase]
    exact wp_bind (wp_modifyTop (wp_bind (wp_top ⟨_, rfl⟩)))
  rw [hn] at hrule
  obtain ⟨scope, rfl⟩ := hpush.of_ok hrule
  have hsound := h.reachable.sound hc hk
  have hnode : c.node? top.node.id = some top.node := hsound.node top (by simp [hm])
  have hpart : top.node.Part (.expr e) := by
    rw [hn]
    exact .inl List.mem_cons_self
  have hresolve := hc.resolve_of_mem hsize (Setting.IsRead.mem_of_part (hc.mem_of_node? hnode).1 hpart)
  obtain ⟨new, hnew, -, -, hstack⟩ := ha.stack_push
  rw [hm'] at hstack
  cases hstack
  rw [hresolve] at hnew
  have hown' : ¬u.node.isInternal := by
    rw [hnew, hc.isInternal_part hnode hpart]
    exact hown
  have hdepth := h.depth top (by rw [hm]; rfl) hown
  rw [hm] at hdepth
  rw [hm'] at hl
  rcases passed_of_look (s := { s with machine := m }) h.coarse hown' hl with ⟨hle, -⟩ | ⟨-, hkind⟩
  · simp only [List.length_cons] at hle hdepth
    omega
  · rw [hnew] at hkind
    cases e <;> cases hkind

/-- Where two steps in a row are passed, the first one takes from what is left, or is one of a bare loop or not seen. -/
theorem Fit.dwindles (hc : c.IsRead) (hsize : c.program.nodes.length < 2 ^ 24) (hk : ∀ f ∈ c.host, f.Keeps)
    (hh : ∀ f ∈ c.host, f.Sound) (h : s.Fit c world) (hp : s.pass? c world = some (t, world'))
    (hnext : (t.pass? c world').isSome) :
    ∃ top below, s.machine.stack = top :: below ∧ Dwindles top below t.machine.stack := by
  have hfit := h.pass hc hk hp
  obtain ⟨m, u, rest, hs, hm, hl⟩ := exists_of_pass hp
  obtain ⟨top, below, mv, f, ha⟩ := Machine.advances_of_step hh (h.reachable.wellFormed hh) hs
  have hsound := h.reachable.sound hc hk
  have hnode := hsound.node top (by simp [ha.stack])
  obtain rfl : t.machine = m := by
    have hlook := (look_frame { s with machine := m } u m.stack).1
    rw [hl] at hlook
    exact hlook
  refine ⟨top, below, ha.stack, ?_⟩
  rcases ha.proceeds hc hsize hsound (Machine.not_isEnded_of_step hs)
    with hd | ⟨hpart, hown, hphase, he⟩ | ⟨hn, hown, hscope, he⟩
  · exact hd
  · -- the part lies deeper than all before, so it is an expression's statement, which would stop
    rw [hm] at he
    cases he
    have hinside : u.node.isInternal = false := (Bool.or_eq_false_iff.1 hown).1
    have hdepth := h.depth top (by rw [ha.stack]; rfl) (by
      rw [← hc.isInternal_part hnode (Node.part_of_operand hpart), hinside]
      nofun)
    rcases passed_of_look (s := { s with machine := t.machine }) h.coarse (by simp [hinside]) hl with ⟨hle, -⟩ | ⟨-, hkind⟩
    · rw [hm] at hle
      rw [ha.stack] at hdepth
      simp only [List.length_cons] at hle hdepth
      omega
    · obtain ⟨l, e, hu⟩ := Node.isExpression_of_operand hpart hown hkind
      rw [hfit.not_pass hc hsize hk hh hm hu hphase (by simp [hinside])] at hnext
      cases hnext
  · -- the body is a block in a scope of its own
    rw [hm] at he
    cases he
    rcases passed_of_look (s := { s with machine := t.machine }) h.coarse hown hl with ⟨hle, hsame⟩ | ⟨-, hkind⟩
    · have hold := hsound.filed.scope_lt (h.scope (le_trans (Int.natCast_nonneg _) hle))
      rw [hsame] at hscope
      exact absurd hold (not_lt.2 hscope)
    · rw [hn] at hkind
      cases hkind

/-! ### Runs without a stop -/

/-- A stepper in a bare loop of the program, or in its body. -/
structure Spins (c : Setting ω) (s : Stepper) (world : ω) (loop : State) (below : List State) : Prop where
  fit : s.Fit c world
  bare : loop.isSpinning
  own : ¬loop.node.isInternal
  room : below.length + 2 ≤ c.maxDepth
  stack : s.machine.stack = loop :: below ∨ ∃ body : State, body.node.isEmpty ∧ s.machine.stack = body :: loop :: below
  scope : s.prev.scope = loop.scope
  depth : below.length + 1 ≤ s.prev.depth

theorem enter_of_isPassed (h : top.node.kind.isPassed) : (s.enter top stack).1 = none := by
  have hcoarse : top.node.kind.isPassedCoarsely := by
    revert h
    cases top.node.kind <;> decide
  unfold enter stopAt?
  dsimp only
  split
  · rfl
  · simp [h, hcoarse]

/-- There is no stop where the scope is the one before, unless a state is deeper and its kind is not always passed. -/
theorem look_eq_none (hown : ¬top.node.isInternal) (hleaving : top.isLeaving = false) (hscope : top.scope = s.prev.scope)
    (h : stack.length ≤ s.prev.depth ∨ top.node.kind.isPassed) : (s.look top stack).1 = none := by
  unfold look
  rw [if_neg hown]
  dsimp only
  rw [hleaving, hscope]
  split
  · rename_i h
    simp at h
  · split
    · rfl
    · rename_i hlt
      exact enter_of_isPassed (h.resolve_left hlt)

theorem pass_of_look {m : Machine} (hs : s.machine.step c world = (.advanced, m, world')) (hm : m.stack = top :: below)
    (hl : (look { s with machine := m } top m.stack).1 = none) :
    s.pass? c world = some ((look { s with machine := m } top m.stack).2, world') := by
  unfold pass?
  rw [hs]
  dsimp only
  rw [hm] at hl ⊢
  dsimp only
  split
  · rename_i hl'
    rw [hl']
  · rename_i hl'
    rw [hl'] at hl
    cases hl

/-- A bare loop never comes to a stop. -/
theorem Spins.pass (hc : c.IsRead) (hsize : c.program.nodes.length < 2 ^ 24) (hk : ∀ f ∈ c.host, f.Keeps)
    {loop : State} (h : s.Spins c world loop below) :
    ∃ t loop', s.pass? c world = some (t, world) ∧ t.Spins c world loop' below := by
  -- what a step leads to, if it has the loop on top or its body
  have hnext {m : Machine} {loop' : State} (hs : s.machine.step c world = (.advanced, m, world)) (hbare : loop'.isSpinning)
      (ha : loop.Alike loop') {u : State} {rest : List State} (hm : m.stack = u :: rest) (hown : ¬u.node.isInternal)
      (hscope : u.scope = loop.scope) (hstack : m.stack = loop' :: below ∨
        ∃ body : State, body.node.isEmpty ∧ m.stack = body :: loop' :: below) :
      ∃ t loop', s.pass? c world = some (t, world) ∧ t.Spins c world loop' below := by
    have hl : (look { s with machine := m } u m.stack).1 = none := by
      rw [← h.scope] at hscope
      rcases hstack with he | ⟨body, hbody, he⟩
      · obtain ⟨l, init, l', hn, -⟩ := State.exists_of_isSpinning hbare
        rw [he] at hm
        cases hm
        refine look_eq_none (s := { s with machine := m }) hown ?_ hscope (.inl (by simpa [he] using h.depth))
        rw [State.isLeaving, hn, Bool.and_false]
      · obtain ⟨l, hn⟩ := Node.exists_of_isEmpty hbody
        rw [he] at hm
        cases hm
        refine look_eq_none (s := { s with machine := m }) hown ?_ hscope (.inr (by rw [hn]; rfl))
        rw [State.isLeaving, hn, Bool.and_false]
    have hfit := h.fit.next hc hk hs hm
    refine ⟨_, loop', pass_of_look hs hm hl, hfit, hbare, ha.node ▸ h.own, h.room, ?_, ?_, ?_⟩
    · rw [(look_frame _ _ _).1]
      exact hstack
    · rw [prev_look, if_neg hown, ha.scope]
      exact hscope
    · rw [prev_look, if_neg hown]
      rcases hstack with he | ⟨body, -, he⟩ <;> simp [he]
  have hroom := h.room
  rcases h.stack with hm | ⟨body, hbody, hm⟩
  · obtain ⟨mv, loop', hrule, ha, hbare, hmv⟩ := State.spins h.bare c below s.machine.heap
    have hended : s.machine.isEnded = false := by
      obtain ⟨l, init, l', hn, -⟩ := State.exists_of_isSpinning h.bare
      exact Machine.isEnded_eq_false hm fun p hp => by rw [hn] at hp; cases hp
    rcases hmv with rfl | ⟨l, hpart, rfl⟩
    · refine hnext (Machine.step_of_rule hm hended hrule (fun _ _ => nofun) rfl ?_ world) hbare ha rfl
        (ha.node ▸ h.own) ha.scope (.inl rfl)
      simp only [List.length_cons]
      omega
    · have hnode := (h.fit.reachable.sound hc hk).node loop (by simp [hm])
      have hpart := Node.part_of_operand hpart
      have hresolve := hc.resolve_of_mem hsize (Setting.IsRead.mem_of_part (hc.mem_of_node? hnode).1 hpart)
      refine hnext (Machine.step_of_rule hm hended hrule (fun _ _ => nofun) rfl ?_ world) hbare ha rfl ?_
        rfl (.inr ⟨_, ?_, rfl⟩)
      · exact hroom
      · show ¬(c.resolve (.stmt (.empty l))).isInternal
        rw [hresolve, hc.isInternal_part hnode hpart]
        exact h.own
      · show (c.resolve (.stmt (.empty l))).isEmpty
        rw [hresolve]
        rfl
  · obtain ⟨l, hn⟩ := Node.exists_of_isEmpty hbody
    have hrule : stepNode c (loop :: below) body.node ⟨body, s.machine.heap⟩ = .ok .drop ⟨body, s.machine.heap⟩ := by
      rw [hn]
      rfl
    have hended : s.machine.isEnded = false := Machine.isEnded_eq_false hm fun p hp => by rw [hn] at hp; cases hp
    refine hnext (Machine.step_of_rule hm hended hrule (fun _ _ => nofun) rfl ?_ world) h.bare (.refl loop) rfl
      h.own rfl (.inl rfl)
    simp only [List.length_cons]
    omega

theorem Spins.passes (hc : c.IsRead) (hsize : c.program.nodes.length < 2 ^ 24) (hk : ∀ f ∈ c.host, f.Keeps)
    {loop : State} (h : s.Spins c world loop below) (n : ℕ) :
    ∃ t loop', passes? c n s world = some (t, world) ∧ t.Spins c world loop' below := by
  induction n generalizing s loop with
  | zero => exact ⟨s, loop, rfl, h⟩
  | succ n ih =>
    obtain ⟨t, loop', hpass, ht⟩ := h.pass hc hsize hk
    obtain ⟨u, loop'', hrest, hu⟩ := ih ht
    exact ⟨u, loop'', by rw [passes?, hpass]; exact hrest, hu⟩

/-- A step of the stepper in a bare loop does not end, whatever its limit is. -/
theorem Spins.advance (hc : c.IsRead) (hsize : c.program.nodes.length < 2 ^ 24) (hk : ∀ f ∈ c.host, f.Keeps)
    {loop : State} (h : s.Spins c world loop below) (limit : ℕ) :
    (s.advance c limit world).1 = .error (.fault .endlessCalls) := by
  obtain ⟨t, -, hpasses, -⟩ := h.passes hc hsize hk limit
  rw [← Nat.add_zero limit, advance_of_passes hpasses]
  rfl

end Stepper

end Stepwise

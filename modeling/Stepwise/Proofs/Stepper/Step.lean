import Stepwise.Proofs.Machine.Reach
import Stepwise.Proofs.Machine.Step
import Stepwise.Stepper.Step
import Stepwise.Stepper.Stop

/-!
# The steps of a stepper

* `stackIds`: the identities on a stack, the bottom first. A step adds a new one at the end or takes some away
  from there (`Machine.Moves.shifts`).
* `Anchored`: the indices of anchors grow with the anchors, and the anchors on the stack come before the others.
* `Anchored.liveAnchors_eq_filter`: so the anchors that are kept are those on the stack.
* `Stepper.Ready`: the machine is sound and the anchors are in order. Every step keeps it.
* `Stepper.Alike`: two steppers have the same machine and the same anchors on the stack.
* `Stepper.alike_step`: steppers that are alike report the same stop and stay alike, in worlds that the host
  does not tell apart.
* `Stepper.Leads`: the steps of the machine from one stop to the next.
* `Stepper.leads_of_step`: this is how a step of the stepper comes to a stop.
* `Stepper.Leads.keeps`: what the steps of the machine keep holds at the next stop.
* `Stepper.Leads.stands`: a stop that is not the last is not in the library's own code.
-/

namespace Stepwise

/-! ### Anchors and the stack -/

section

variable {ω : Type} {c : Setting ω} {lastId : Nat} {depth : Int} {stack stack' : List State} {anchors : List Anchor}
  {a b : Anchor}

/-- The identities of the states on a stack, the bottom first. -/
def stackIds (stack : List State) : List Nat := (stack.map State.id).reverse

theorem stackIds_cons (s : State) (stack : List State) : stackIds (s :: stack) = stackIds stack ++ [s.id] := by
  simp [stackIds]

@[simp] theorem length_stackIds (stack : List State) : (stackIds stack).length = stack.length := by simp [stackIds]

/-- The identities after a step: some are gone at the end, or a new one was added there. -/
def Shifts (lastId : Nat) (ids ids' : List Nat) : Prop := ids' <+: ids ∨ ids' = ids ++ [lastId + 1]

theorem Sinks.stackIds_prefix (h : Sinks stack stack') : stackIds stack' <+: stackIds stack := by
  rcases h with rfl | ⟨s, s', rest, hsuf, ha, rfl⟩
  · exact List.nil_prefix
  · have he : stackIds (s' :: rest) = stackIds (s :: rest) := by rw [stackIds_cons, stackIds_cons, ha.id]
    rw [he]
    exact List.reverse_prefix.2 (hsuf.map State.id)

theorem Machine.Moves.shifts {m m' : Machine} (h : Machine.Moves c m m') :
    Shifts m.lastId (stackIds m.stack) (stackIds m'.stack) ∧ m.lastId ≤ m'.lastId := by
  rcases h.stack with ⟨s, s', below, node, scope, components, labels, he, ha, hlast, he', -⟩ | ⟨hlast, hsinks⟩
  · refine ⟨.inr ?_, by omega⟩
    rw [he', he, stackIds_cons, stackIds_cons s', stackIds_cons s, ha.id]
  · exact ⟨.inl hsinks.stackIds_prefix, by omega⟩

/-! ### One anchor -/

namespace Anchor

theorem isOn_iff (a : Anchor) (stack : List State) :
    a.isOn stack ↔ 0 ≤ a.index ∧ (stackIds stack)[a.index.toNat]? = some a.state := by
  unfold isOn stateAt?
  by_cases h : 0 ≤ a.index ∧ a.index < stack.length
  · have hi : a.index.toNat < (stack.map State.id).length := by
      rw [List.length_map]
      omega
    rw [if_pos h, stackIds, List.getElem?_reverse hi, List.length_map, List.getElem?_map]
    simp [h.1, Option.any_eq_true]
  · have hi : 0 ≤ a.index → (stackIds stack).length ≤ a.index.toNat := by
      rw [length_stackIds]
      omega
    rw [if_neg h]
    simp only [Option.any_none, Bool.false_eq_true, false_iff, not_and]
    intro h0
    rw [List.getElem?_eq_none (hi h0)]
    nofun

theorem index_lt (h : a.isOn stack) : 0 ≤ a.index ∧ a.index < stack.length := by
  obtain ⟨h0, hs⟩ := (isOn_iff a stack).1 h
  have hlt := (List.getElem?_eq_some_iff.1 hs).1
  rw [length_stackIds] at hlt
  omega

/-- A step does not put the state of an anchor back on the stack. -/
theorem isOn_of_shifts (hs : Shifts lastId (stackIds stack) (stackIds stack')) (ha : a.state ≤ lastId)
    (h : a.isOn stack') : a.isOn stack := by
  obtain ⟨h0, h⟩ := (isOn_iff a stack').1 h
  refine (isOn_iff a stack).2 ⟨h0, ?_⟩
  rcases hs with ⟨gone, he⟩ | he
  · rw [← he, List.getElem?_append_left (List.getElem?_eq_some_iff.1 h).1]
    exact h
  · rw [he, List.getElem?_append] at h
    split at h
    · exact h
    · have h := List.mem_singleton.1 (List.mem_of_getElem? h)
      omega

/-- Below a state that stays on the stack, everything stays. -/
theorem isOn_of_index_lt (hs : Shifts lastId (stackIds stack) (stackIds stack')) (hab : a.index < b.index)
    (hb : b.isOn stack') (h : a.isOn stack) : a.isOn stack' := by
  obtain ⟨h0, h⟩ := (isOn_iff a stack).1 h
  refine (isOn_iff a stack').2 ⟨h0, ?_⟩
  have hlt := index_lt hb
  rcases hs with ⟨gone, he⟩ | he
  · rw [← he, List.getElem?_append_left (by rw [length_stackIds]; omega)] at h
    exact h
  · rw [he, List.getElem?_append_left (List.getElem?_eq_some_iff.1 h).1]
    exact h

end Anchor

/-! ### All anchors -/

/-- The anchors of a stepper, the innermost first: their indices grow outside in, an anchor on the stack has
only anchors on the stack around it, and no anchor on the stack is deeper than the latest stop. -/
structure Anchored (lastId : Nat) (depth : Int) (stack : List State) (anchors : List Anchor) : Prop where
  ordered : anchors.Pairwise fun b a => a.index < b.index ∧ (b.isOn stack → a.isOn stack)
  depth_eq : ∀ a ∈ anchors, a.depth = a.index + 1
  state_le : ∀ a ∈ anchors, a.state ≤ lastId
  depth_le : ∀ a ∈ anchors, a.isOn stack → a.depth ≤ depth

namespace Anchored

theorem nil : Anchored lastId depth stack [] := ⟨.nil, nofun, nofun, nofun⟩

theorem suffix {anchors' : List Anchor} (h : Anchored lastId depth stack anchors) (hs : anchors' <:+ anchors) :
    Anchored lastId depth stack anchors' :=
  ⟨h.ordered.sublist hs.sublist, fun a ha => h.depth_eq a (hs.subset ha), fun a ha => h.state_le a (hs.subset ha),
    fun a ha => h.depth_le a (hs.subset ha)⟩

/-- The anchors that are kept are those on the stack. -/
theorem liveAnchors_eq_filter (h : Anchored lastId depth stack anchors) :
    liveAnchors anchors stack = anchors.filter (·.isOn stack) := by
  have ho := h.ordered
  clear h
  unfold liveAnchors
  induction anchors with
  | nil => rfl
  | cons b anchors ih =>
    obtain ⟨hb, ho⟩ := List.pairwise_cons.1 ho
    by_cases hon : b.isOn stack
    · rw [List.dropWhile_cons_of_neg (by simp [hon]), List.filter_cons, if_pos hon]
      congr 1
      exact (List.filter_eq_self.2 fun a ha => (hb a ha).2 hon).symm
    · rw [List.dropWhile_cons_of_pos (by simp [hon]), List.filter_cons, if_neg hon]
      exact ih ho

/-- A step of the machine leaves the anchors in order. -/
theorem shift {lastId' : Nat} (h : Anchored lastId depth stack anchors)
    (hs : Shifts lastId (stackIds stack) (stackIds stack')) (hl : lastId ≤ lastId') :
    Anchored lastId' depth stack' anchors where
  ordered := by
    have hle : anchors.Pairwise fun b _ => b.state ≤ lastId := by
      refine List.pairwise_of_forall_mem_list fun b hb _ _ => h.state_le b hb
    refine (h.ordered.and hle).imp fun {b a} ⟨⟨hlt, hon⟩, hle⟩ => ⟨hlt, fun hb => ?_⟩
    exact Anchor.isOn_of_index_lt hs hlt hb (hon (Anchor.isOn_of_shifts hs hle hb))
  depth_eq := h.depth_eq
  state_le a ha := Nat.le_trans (h.state_le a ha) hl
  depth_le a ha hon := h.depth_le a ha (Anchor.isOn_of_shifts hs (h.state_le a ha) hon)

/-- No anchor on the stack is deeper than the stack. -/
theorem deepen (h : Anchored lastId depth stack anchors) : Anchored lastId stack.length stack anchors :=
  { h with
    depth_le := fun a ha hon => by
      have hlt := Anchor.index_lt hon
      have he := h.depth_eq a ha
      omega }

/-- Steps that drop anchors early drop none that is kept later. -/
theorem liveAnchors_filter (h : Anchored lastId depth stack anchors)
    (hs : Shifts lastId (stackIds stack) (stackIds stack')) :
    liveAnchors anchors stack' = (liveAnchors anchors stack).filter (·.isOn stack') := by
  rw [(h.shift hs (Nat.le_refl _)).liveAnchors_eq_filter, h.liveAnchors_eq_filter, List.filter_filter]
  refine List.filter_congr fun a ha => ?_
  by_cases hon : a.isOn stack'
  · simp [hon, Anchor.isOn_of_shifts hs (h.state_le a ha) hon]
  · simp [hon]

/-- The anchor of the state on top goes above all anchors that are kept, if the stack has grown since the latest
stop. -/
theorem cons_live {top : State} {below : List State} (h : Anchored lastId depth (top :: below) anchors)
    (hd : depth < (top :: below).length) (ht : top.id ≤ lastId) (mode : StopKind) :
    Anchored lastId (top :: below).length (top :: below)
      (⟨(top :: below).length - 1, (top :: below).length, mode, top.id⟩ ::
        liveAnchors anchors (top :: below)) := by
  have hlive : Anchored lastId depth (top :: below) (liveAnchors anchors (top :: below)) :=
    h.suffix (List.dropWhile_suffix _)
  have hmem (a : Anchor) (ha : a ∈ liveAnchors anchors (top :: below)) : a.isOn (top :: below) := by
    rw [h.liveAnchors_eq_filter] at ha
    exact (List.mem_filter.1 ha).2
  refine ⟨.cons (fun a ha => ⟨?_, fun _ => hmem a ha⟩) hlive.ordered, ?_, ?_, ?_⟩
  · have hle := hlive.depth_le a ha (hmem a ha)
    have he := hlive.depth_eq a ha
    show a.index < ((top :: below).length : Int) - 1
    omega
  · refine List.forall_mem_cons.2 ⟨?_, hlive.depth_eq⟩
    simp
  · exact List.forall_mem_cons.2 ⟨ht, hlive.state_le⟩
  · exact List.forall_mem_cons.2 ⟨fun _ => Int.le_refl _, hlive.deepen.depth_le⟩

end Anchored

end

/-! ### Steppers -/

variable {ω : Type}

/-- The node on top of the stack is not one of the library's own. -/
def Machine.IsOutside (m : Machine) : Prop := ∀ s ∈ m.stack.head?, ¬s.node.isInternal

namespace Stepper

/-- What all steppers of a program have in common. -/
structure Ready (c : Setting ω) (s : Stepper) : Prop where
  machine : s.machine.Sound c
  anchors : Anchored s.machine.lastId s.prev.depth s.machine.stack s.anchors

/-- Two steppers that differ only in anchors whose state has left the stack, and in the value that was thrown. -/
structure Alike (s t : Stepper) : Prop where
  machine : t.machine = s.machine
  prev : t.prev = s.prev
  anchors : liveAnchors t.anchors t.machine.stack = liveAnchors s.anchors s.machine.stack
  kind : t.last.map Stop.kind = s.last.map Stop.kind

variable {c : Setting ω} {s t : Stepper} {top : State} {below : List State}

@[refl] theorem Alike.refl (s : Stepper) : s.Alike s := ⟨rfl, rfl, rfl, rfl⟩

theorem Alike.isFinished (h : s.Alike t) : t.isFinished = s.isFinished := by
  have hk (r : Stepper) : r.isFinished = (r.last.map Stop.kind).any StopKind.isFinal := by
    unfold Stepper.isFinished
    cases r.last <;> rfl
  rw [hk, hk, h.kind]

/-! ### A step of the machine -/

theorem ready_machine (hc : c.IsRead) (hh : ∀ f ∈ c.host, f.Keeps) (hs : s.Ready c) (world : ω) :
    Ready c { s with machine := (s.machine.step c world).2.1 } := by
  obtain ⟨hshifts, hle⟩ := (Machine.moves_step hh hs.machine.filed world).shifts
  exact ⟨Machine.sound_step hc hh hs.machine world, hs.anchors.shift hshifts hle⟩

theorem alike_machine (hh : ∀ f ∈ c.host, f.Keeps) (hs : s.Ready c) (ht : t.Ready c) (h : s.Alike t) (world : ω) :
    Alike { s with machine := (s.machine.step c world).2.1 } { t with machine := (s.machine.step c world).2.1 } := by
  have hshifts := (Machine.moves_step hh hs.machine.filed world).shifts.1
  refine ⟨rfl, h.prev, ?_, h.kind⟩
  obtain ⟨-, hanchors⟩ := ht
  have hlive := h.anchors
  rw [h.machine] at hanchors hlive
  dsimp only
  rw [hs.anchors.liveAnchors_filter hshifts, hanchors.liveAnchors_filter hshifts, hlive]

/-! ### The decision about a stop -/

/-- Deciding about a stop touches neither the machine nor the latest stop. -/
theorem look_frame (s : Stepper) (top : State) (stack : List State) :
    (s.look top stack).2.machine = s.machine ∧ (s.look top stack).2.last = s.last := by
  unfold look enter
  dsimp only
  repeat' split
  all_goals exact ⟨rfl, rfl⟩

theorem anchored_enter {depth : Int}
    (h : Anchored s.machine.lastId depth (top :: below) s.anchors) (hd : depth < (top :: below).length)
    (ht : top.id ≤ s.machine.lastId) :
    Anchored s.machine.lastId (top :: below).length (top :: below) (s.enter top (top :: below)).2.anchors := by
  have hlive : Anchored s.machine.lastId depth (top :: below) (liveAnchors s.anchors (top :: below)) :=
    h.suffix (List.dropWhile_suffix _)
  unfold enter
  dsimp only
  split
  · exact hlive.deepen
  · split
    · exact h.cons_live hd ht .coarse
    · exact hlive.deepen

theorem prev_enter (s : Stepper) (top : State) (stack : List State) : (s.enter top stack).2.prev = s.prev := by
  unfold enter
  dsimp only
  split <;> rfl

theorem ready_look (hs : s.Ready c) (he : s.machine.stack = top :: below) :
    (s.look top (top :: below)).2.Ready c := by
  obtain ⟨hmachine, -⟩ := look_frame s top (top :: below)
  refine ⟨hmachine ▸ hs.machine, ?_⟩
  rw [hmachine, he]
  have ha := hs.anchors
  rw [he] at ha
  unfold look
  split
  · exact ha
  · dsimp only
    split
    · exact ha.deepen
    · split
      · exact ha.deepen
      · rename_i hlt
        rw [prev_enter]
        exact anchored_enter (s := { s with prev := ⟨(top :: below).length, top.scope⟩ }) ha (by omega)
          (hs.machine.le_lastId top (by simp [he]))

/-- The decision depends only on the anchors that are kept. -/
theorem alike_look (h : s.Alike t) (he : s.machine.stack = top :: below) :
    (t.look top (top :: below)).1 = (s.look top (top :: below)).1 ∧
      (s.look top (top :: below)).2.Alike (t.look top (top :: below)).2 := by
  obtain ⟨machine, prev, anchors, last⟩ := s
  obtain ⟨machine', prev', anchors', last'⟩ := t
  obtain ⟨rfl, rfl, hlive, hkind⟩ := h
  dsimp only at he hlive hkind
  rw [he] at hlive
  unfold look
  split
  · exact ⟨rfl, rfl, rfl, by rw [he]; exact hlive, hkind⟩
  · dsimp only
    split
    · exact ⟨rfl, rfl, rfl, by rw [he]; exact hlive, hkind⟩
    · split
      · exact ⟨rfl, rfl, rfl, by rw [he]; exact hlive, hkind⟩
      · unfold enter
        dsimp only
        rw [hlive]
        split
        · exact ⟨rfl, rfl, rfl, rfl, hkind⟩
        · exact ⟨rfl, rfl, rfl, rfl, hkind⟩

/-! ### Stops -/

theorem ready_advance (hc : c.IsRead) (hh : ∀ f ∈ c.host, f.Keeps) (hs : s.Ready c) (limit : Nat) (world : ω) :
    (s.advance c limit world).2.1.Ready c := by
  induction limit generalizing s world with
  | zero => exact hs
  | succ limit ih =>
    have hm := ready_machine hc hh hs world
    unfold advance
    generalize s.machine.step c world = r at hm
    obtain ⟨outcome, machine, world'⟩ := r
    dsimp only at hm ⊢
    cases outcome with
    | ended | exception | fault => exact ⟨hm.machine, hm.anchors⟩
    | advanced =>
      dsimp only
      split
      · exact ⟨hm.machine, hm.anchors⟩
      · rename_i top below he
        have hl := ready_look hm he
        rw [he]
        split
        · rename_i hk
          rw [hk] at hl
          exact ⟨hl.machine, hl.anchors⟩
        · rename_i hk
          rw [hk] at hl
          exact ih hl world'

theorem alike_advance (hc : c.IsRead) (hh : ∀ f ∈ c.host, f.Keeps) {R : ω → ω → Prop}
    (hR : ∀ f ∈ c.host, f.Respects R) (hs : s.Ready c) (ht : t.Ready c) (h : s.Alike t) (limit : Nat)
    {world world' : ω} (hw : R world world') :
    (t.advance c limit world').1 = (s.advance c limit world).1 ∧
      (s.advance c limit world).2.1.Alike (t.advance c limit world').2.1 ∧
      R (s.advance c limit world).2.2 (t.advance c limit world').2.2 := by
  induction limit generalizing s t world world' with
  | zero => exact ⟨rfl, h, hw⟩
  | succ limit ih =>
    have hsm := ready_machine hc hh hs world
    have htm := ready_machine hc hh ht world'
    have ha := alike_machine hh hs ht h world
    have hstep := Machine.step_congr hR s.machine hw
    unfold advance
    rw [h.machine] at htm ⊢
    generalize s.machine.step c world = r at hsm ha hstep
    generalize s.machine.step c world' = r' at htm hstep
    obtain ⟨outcome, machine, world⟩ := r
    obtain ⟨outcome', machine', world'⟩ := r'
    obtain ⟨rfl, rfl, hw⟩ := hstep
    dsimp only at hsm htm ha hw ⊢
    cases outcome with
    | ended | exception => exact ⟨rfl, ⟨ha.machine, ha.prev, ha.anchors, rfl⟩, hw⟩
    | fault => exact ⟨rfl, ha, hw⟩
    | advanced =>
      dsimp only
      split
      · exact ⟨rfl, ha, hw⟩
      · rename_i top below he
        obtain ⟨hkind, hl⟩ := alike_look ha he
        have hsl := ready_look hsm he
        have htl := ready_look htm he
        rw [he]
        generalize look { s with machine } top (top :: below) = l at hkind hl hsl
        generalize look { t with machine } top (top :: below) = l' at hkind hl htl
        obtain ⟨stop, s⟩ := l
        obtain ⟨stop', t⟩ := l'
        dsimp only at hkind hl hsl htl
        subst hkind
        cases stop' with
        | none => exact ih hsl htl hl hw
        | some kind => exact ⟨rfl, ⟨hl.machine, hl.prev, hl.anchors, rfl⟩, hw⟩

theorem ready_step (hc : c.IsRead) (hh : ∀ f ∈ c.host, f.Keeps) (hs : s.Ready c) (world : ω) :
    (s.step c world).2.1.Ready c := by
  unfold step
  split
  · exact hs
  · exact ready_advance hc hh hs _ world

/-- Steppers that are alike report the same stop and stay alike. -/
theorem alike_step (hc : c.IsRead) (hh : ∀ f ∈ c.host, f.Keeps) {R : ω → ω → Prop}
    (hR : ∀ f ∈ c.host, f.Respects R) (hs : s.Ready c) (ht : t.Ready c) (h : s.Alike t) {world world' : ω}
    (hw : R world world') :
    (t.step c world').1 = (s.step c world).1 ∧ (s.step c world).2.1.Alike (t.step c world').2.1 ∧
      R (s.step c world).2.2 (t.step c world').2.2 := by
  unfold step
  rw [h.isFinished]
  split
  · exact ⟨rfl, h, hw⟩
  · exact alike_advance hc hh hR hs ht h _ hw

/-! ### Runs -/

/-- A stepper at the start of a program, and every stepper that stops lead to. -/
inductive Reachable (c : Setting ω) : Stepper → ω → Prop where
  | start {s : Stepper} (h : Stepper.start c = .ok s) (world : ω) : Reachable c s world
  | step {s s' : Stepper} {stop : Stop} {world world' : ω} (h : Reachable c s world)
    (hs : s.step c world = (.ok stop, s', world')) : Reachable c s' world'

theorem ready_start (hc : c.IsRead) (h : start c = .ok s) : s.Ready c := by
  unfold start at h
  cases hm : Machine.start c with
  | error => rw [hm] at h; cases h
  | ok m =>
    rw [hm] at h
    cases h
    exact ⟨Machine.sound_start hc hm, .nil⟩

theorem Reachable.ready (hc : c.IsRead) (hh : ∀ f ∈ c.host, f.Keeps) {world : ω} (h : s.Reachable c world) :
    s.Ready c := by
  induction h with
  | start h world => exact ready_start hc h
  | step h hs ih =>
    rename_i world _
    have hstep := ready_step hc hh ih world
    rw [hs] at hstep
    exact hstep

/-! ### What leads to a stop -/

/-- The steps of the machine from one stop to the next: the machine is passed on as long as nothing ends the program
and there is no stop. -/
inductive Leads (c : Setting ω) : Stepper → ω → Stop → Stepper → ω → Prop where
  | ended {s : Stepper} {m : Machine} {world world' : ω} (h : s.machine.step c world = (.ended, m, world')) :
    Leads c s world { kind := .ended } { s with machine := m, last := some { kind := .ended } } world'
  | uncaught {s : Stepper} {m : Machine} {v : Value} {world world' : ω}
    (h : s.machine.step c world = (.exception v, m, world')) :
    Leads c s world { kind := .uncaught, exception := v }
      { s with machine := m, last := some { kind := .uncaught, exception := v } } world'
  | stopped {s t : Stepper} {m : Machine} {top : State} {below : List State} {kind : StopKind} {world world' : ω}
    (h : s.machine.step c world = (.advanced, m, world')) (hm : m.stack = top :: below)
    (hl : look { s with machine := m } top m.stack = (some kind, t)) :
    Leads c s world { kind } { t with last := some { kind } } world'
  | passed {s t s' : Stepper} {m : Machine} {top : State} {below : List State} {stop : Stop} {world world₁ world' : ω}
    (h : s.machine.step c world = (.advanced, m, world₁)) (hm : m.stack = top :: below)
    (hl : look { s with machine := m } top m.stack = (none, t)) (hs : Leads c t world₁ stop s' world') :
    Leads c s world stop s' world'

variable {s' : Stepper} {stop : Stop} {world world' : ω}

theorem leads_of_advance {limit : Nat} (h : s.advance c limit world = (.ok stop, s', world')) :
    Leads c s world stop s' world' := by
  induction limit generalizing s world with
  | zero => cases h
  | succ limit ih =>
    unfold advance at h
    rcases hm : s.machine.step c world with ⟨outcome, m, world₁⟩
    rw [hm] at h
    dsimp only at h
    cases outcome with
    | ended =>
      cases h
      exact .ended hm
    | exception v =>
      cases h
      exact .uncaught hm
    | fault => cases h
    | advanced =>
      dsimp only at h
      split at h
      · cases h
      · rename_i top below hstack
        split at h
        · rename_i hl
          cases h
          exact .stopped hm hstack hl
        · rename_i hl
          exact .passed hm hstack hl (ih h)

/-- How a step comes to a stop. -/
theorem leads_of_step (h : s.step c world = (.ok stop, s', world')) : Leads c s world stop s' world' := by
  unfold step at h
  split at h
  · cases h
  · exact leads_of_advance h

namespace Leads

/-- The stop that is reported is the latest one. -/
theorem last (h : Leads c s world stop s' world') : s'.last = some stop := by
  induction h with
  | ended | uncaught | stopped => rfl
  | passed _ _ _ _ ih => exact ih

/-- What every step of the machine keeps, unless it faults, holds at the next stop. -/
theorem keeps {I : Machine → ω → Prop} (h : Leads c s world stop s' world')
    (hI : ∀ m world, I m world → (∀ f, (m.step c world).1 ≠ .fault f) → I (m.step c world).2.1 (m.step c world).2.2)
    (hs : I s.machine world) : I s'.machine world' := by
  have hnext {s : Stepper} {outcome : Outcome} {m : Machine} {world world' : ω} (hs : I s.machine world)
      (he : s.machine.step c world = (outcome, m, world')) (hf : ∀ f, outcome ≠ .fault f) : I m world' := by
    have hm := hI s.machine world hs
    rw [he] at hm
    exact hm hf
  induction h with
  | ended he | uncaught he => exact hnext hs he fun _ => Outcome.noConfusion
  | @stopped s t m top _ _ _ _ he _ hl =>
    have hlook := (look_frame { s with machine := m } top m.stack).1
    rw [hl] at hlook
    exact hlook ▸ hnext hs he fun _ => Outcome.noConfusion
  | @passed s t _ m top _ _ _ _ _ he _ hl _ ih =>
    have hlook := (look_frame { s with machine := m } top m.stack).1
    rw [hl] at hlook
    exact ih (hlook ▸ hnext hs he fun _ => Outcome.noConfusion)

/-- A stop that is not the last is not in the library's own code, and at the end of the program nothing is left to
do. -/
theorem stands (h : Leads c s world stop s' world') :
    (stop.kind.isFinal = false → s'.machine.IsOutside) ∧ (stop.kind = .ended → s'.machine.isEnded) := by
  induction h with
  | ended he =>
    obtain ⟨rfl, hend⟩ := Machine.ended_of_step he
    exact ⟨Bool.noConfusion, fun _ => hend⟩
  | uncaught => exact ⟨Bool.noConfusion, StopKind.noConfusion⟩
  | passed _ _ _ _ ih => exact ih
  | @stopped s t m top below kind _ _ he hm hl =>
    have hlook := (look_frame { s with machine := m } top m.stack).1
    rw [hl] at hlook
    have hown : ¬top.node.isInternal := by
      intro hown
      unfold look at hl
      rw [if_pos hown] at hl
      cases hl
    have hkind : kind ≠ .ended := by
      unfold look enter stopAt? at hl
      rintro rfl
      dsimp only at hl
      repeat' split at hl
      all_goals simp at hl
    refine ⟨fun _ t ht => ?_, fun hk => absurd hk hkind⟩
    rw [show _ = m from hlook, hm] at ht
    cases ht
    exact hown

end Leads

end Stepper

end Stepwise

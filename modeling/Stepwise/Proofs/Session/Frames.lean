import Stepwise.Proofs.Machine.Running
import Stepwise.Proofs.Session.Collect

/-!
# The frames of a stop

* `Follows`: how a state lies above another, as far as frames are concerned.
* `frameStates_bodies`: the states that stand for frames are in the scopes of the bodies that are running, the
  program's first, without those of the library.
* `Session.collect_frames`: the frames of a stop are the one of the program and one for each call of a function of
  the program that is running.
-/

namespace Stepwise

variable {ω σ δ : Type}

/-- The body of the function of a call. -/
def State.body? (s : State) (c : Setting ω) (h : Heap) : Option Node :=
  ((h.deref? s.func).bind c.functionNode?).map fun (_, f) => .stmt (.block f.body)

/-- Whether the state is a call whose function is running and does not belong to the library. -/
def State.isShown (s : State) (c : Setting ω) (h : Heap) : Bool :=
  s.isActiveCall && (s.body? c h).any (!·.isInternal)

/-- The calls that are running, without those of functions of the library, the outermost first. -/
def Machine.shownCalls (m : Machine) (c : Setting ω) : List State := m.stack.tail.reverse.filter (·.isShown c m.heap)

/-- The calls of some states, the bottom first, with the states above them. -/
def bodies (c : Setting ω) (h : Heap) (states : List State) : List (State × State) :=
  (states.zip states.tail).filter (·.1.isShown c h)

/-- A state above another: a part in the same scope, or the body of the function of a running call. -/
inductive Follows (c : Setting ω) (h : Heap) (s t : State) : Prop where
  | part (hs : ¬s.isActiveCall) (hscope : t.scope = s.scope) (hnode : t.node.isInternal = s.node.isInternal)
  | body (hs : s.isActiveCall) (hscope : t.scope ≠ s.scope) (hnode : s.body? c h = some t.node)

variable {c : Setting ω} {h : Heap} {s t : State} {rest states : List State}

theorem Follows.isShown (hf : Follows c h s t) : s.isShown c h ↔ s.isActiveCall ∧ ¬t.node.isInternal := by
  unfold State.isShown
  cases hf with
  | part hs => simp [hs]
  | body hs _ hnode => simp [hs, hnode]

theorem bodies_cons_cons (c : Setting ω) (h : Heap) (s t : State) (rest : List State) :
    bodies c h (s :: t :: rest) = (if s.isShown c h then [(s, t)] else []) ++ bodies c h (t :: rest) := by
  simp only [bodies, List.tail_cons, List.zip_cons_cons, List.filter_cons]
  split <;> rfl

/-- The states that stand for frames: one in the scope of the first state, unless it is the library's own, and one
in the scope of each body. -/
theorem frameStates_bodies (hf : (s :: rest).IsChain (Follows c h)) : ∃ r frames, r.scope = s.scope ∧
    frameStates (s :: rest) = (if s.node.isInternal then [] else [r]) ++ frames ∧
    List.Forall₂ (fun p r => r.scope = p.2.scope) (bodies c h (s :: rest)) frames := by
  induction rest generalizing s with
  | nil => exact ⟨s, [], rfl, by simp [frameStates], .nil⟩
  | cons t rest ih =>
    obtain ⟨hst, hrest⟩ := List.isChain_cons_cons.1 hf
    obtain ⟨r, frames, hr, he, hframes⟩ := ih hrest
    cases hst with
    | part hs hscope hnode =>
      refine ⟨r, frames, hr.trans hscope, ?_, ?_⟩
      · rw [frameStates, if_pos (by simp [hscope]), he, hnode]
      · have hs : ¬s.isShown c h := fun h => hs ((Follows.part hs hscope hnode).isShown.1 h).1
        rw [bodies_cons_cons, if_neg hs]
        exact hframes
    | body hs hscope hnode =>
      have hshown := (Follows.body hs hscope hnode).isShown
      refine ⟨s, (if t.node.isInternal then [] else [r]) ++ frames, rfl, ?_, ?_⟩
      · rw [frameStates, he]
        cases s.node.isInternal <;> simp [hscope]
      · rw [bodies_cons_cons]
        by_cases ht : t.node.isInternal
        · rw [if_neg fun h => (hshown.1 h).2 ht, if_pos ht]
          exact hframes
        · rw [if_pos (hshown.2 ⟨hs, ht⟩), if_neg ht]
          exact .cons hr hframes

theorem map_fst_zip_tail {α : Type} (l : List α) : (l.zip l.tail).map Prod.fst = l.dropLast := by
  induction l with
  | nil => rfl
  | cons a l ih =>
    cases l with
    | nil => rfl
    | cons b l =>
      rw [List.tail_cons, List.zip_cons_cons, List.map_cons, List.dropLast_cons_cons]
      exact congrArg _ ih

/-- The calls of the bodies. -/
theorem map_fst_bodies (m : Machine) : (bodies c m.heap m.stack.reverse).map Prod.fst = m.shownCalls c := by
  unfold bodies Machine.shownCalls
  rw [← List.dropLast_reverse, ← map_fst_zip_tail]
  rw [show (fun p : State × State => p.1.isShown c m.heap) = (fun s : State => s.isShown c m.heap) ∘ Prod.fst from rfl,
    List.filter_map]

theorem exists_of_mem_zip_tail {α : Type} {l : List α} {p : α × α} (hp : p ∈ l.zip l.tail) :
    ∃ before after, l = before ++ p.1 :: p.2 :: after := by
  induction l with
  | nil => cases hp
  | cons a l ih =>
    cases l with
    | nil => cases hp
    | cons b l =>
      rw [List.tail_cons, List.zip_cons_cons] at hp
      rcases List.mem_cons.1 hp with rfl | hp
      · exact ⟨[], l, rfl⟩
      · obtain ⟨before, after, he⟩ := ih hp
        exact ⟨a :: before, after, by rw [he]; rfl⟩

/-! ### The stack -/

/-- What every state and the one below it have in common goes through the whole stack. -/
theorem isChain_of_suffix {R : State → State → Prop} {stack : List State}
    (hR : ∀ t s below, t :: s :: below <:+ stack → R t s) : stack.IsChain R := by
  induction stack with
  | nil => exact .nil
  | cons t stack ih =>
    cases stack with
    | nil => exact .singleton t
    | cons s below =>
      exact .cons_cons (hR t s below (List.suffix_refl _))
        (ih fun t' s' below' h => hR t' s' below' (h.trans (List.suffix_cons t _)))

/-- The state that runs the function of a call evaluates its body. -/
theorem State.Runs.body? (hr : t.Runs c h s) : s.body? c h = some t.node := by
  obtain ⟨info, id, callable, scope, hfunc, hcode, hcallable, hnode, -⟩ := hr
  obtain ⟨o, ho, hf⟩ := Option.bind_eq_some_iff.1 hfunc
  obtain ⟨n, hn, hc⟩ := Option.bind_eq_some_iff.1 hcallable
  unfold State.body? Setting.functionNode?
  simp [ho, hf, hcode, hn, hc, hnode]

/-- A machine of a running program whose calls are busy. -/
structure Machine.Running (c : Setting ω) (m : Machine) : Prop where
  sound : m.Sound c
  wellFormed : m.WellFormed
  stacked : Stacked c m.heap m.stack
  busy : Busy m.stack
  grounded : Grounded c.program m.global m.stack

namespace Machine.Running

variable {m : Machine}

theorem lasts (hc : c.IsRead) (hsize : c.program.nodes.length < 2 ^ 24) (hk : ∀ f ∈ c.host, f.Keeps)
    (hh : ∀ f ∈ c.host, f.Sound) : Machine.Lasts c (Machine.Running c) where
  start m hm := by
    have hstack := stack_start_of_isRead hc hm
    refine ⟨sound_start hc hm, wellFormed_start hm, ?_, ?_, ?_⟩ <;> rw [hstack]
    · intro t s below hsuf
      have hl := hsuf.length_le
      simp at hl
    · intro t s below hsuf
      have hl := hsuf.length_le
      simp at hl
    · exact ⟨_, rfl, rfl, rfl, rfl⟩
  step m world hm hfault := by
    refine ⟨sound_step hc hk hm.sound world, (lands_step hh hm.wellFormed world).machine,
      stacked_step hc hsize hk hm.sound hm.stacked world, busy_step hh hm.sound hm.wellFormed hm.busy hfault, ?_⟩
    rw [(moves_step hk hm.sound.filed world).global]
    exact grounded_of_step hm.grounded hfault
  sound _ hm := hm.sound

/-- From the bottom to the top, every state follows on the one below it. -/
theorem follows (hc : c.IsRead) (hm : m.Running c) : m.stack.reverse.IsChain (Follows c m.heap) := by
  rw [List.isChain_reverse]
  refine isChain_of_suffix fun t s below hsuf => ?_
  have hs : s ∈ m.stack := hsuf.subset (by simp)
  rcases hm.stacked t s below hsuf with ⟨hscope, hpart⟩ | ⟨hactive, hruns, hnew⟩
  · refine .part (fun hactive => hm.busy t s below hsuf hactive hscope) hscope ?_
    exact hc.isInternal_part (hm.sound.node s hs) hpart
  · exact .body hactive (hnew s List.mem_cons_self).symm hruns.body?

/-- The program is at the bottom. -/
theorem exists_bottom (hm : m.Running c) :
    ∃ b rest, m.stack.reverse = b :: rest ∧ b.node = .program c.program ∧ b.scope = m.global := by
  obtain ⟨b, hlast, hnode, hscope, -⟩ := hm.grounded
  obtain ⟨above, he⟩ := List.getLast?_eq_some_iff.1 hlast
  exact ⟨b, above.reverse, by rw [he]; simp, hnode, hscope⟩

end Machine.Running

theorem forall₂_comp {α β γ : Type} {R : α → β → Prop} {S : β → γ → Prop} {l : List α} {l' : List β} {l'' : List γ}
    (h : List.Forall₂ R l l') (h' : List.Forall₂ S l' l'') : List.Forall₂ (fun a d => ∃ b, R a b ∧ S b d) l l'' := by
  induction h generalizing l'' with
  | nil =>
    cases h'
    exact .nil
  | cons hab _ ih =>
    cases h' with
    | cons hbd h' => exact .cons ⟨_, hab, hbd⟩ (ih h')

/-! ### Frames -/

/-- Each body has a scope that no state below it has. -/
def FreshBodies (states : List State) : Prop :=
  ∀ before s t after, states = before ++ s :: t :: after → s.isActiveCall → ∀ u ∈ before ++ [s], u.scope ≠ t.scope

theorem FreshBodies.tail (hf : FreshBodies (s :: rest)) : FreshBodies rest := fun before s' t' after he hactive u hu =>
  hf (s :: before) s' t' after (by rw [he]; rfl) hactive u (List.mem_cons_of_mem s hu)

theorem mem_bodies {p : State × State} (hp : p ∈ bodies c h states) :
    (∃ before after, states = before ++ p.1 :: p.2 :: after) ∧ p.1.isShown c h := by
  obtain ⟨hp, hshown⟩ := List.mem_filter.1 hp
  exact ⟨exists_of_mem_zip_tail hp, hshown⟩

/-- No body has the scope of the first state. -/
theorem FreshBodies.ne_head (hf : FreshBodies (s :: rest)) {p : State × State} (hp : p ∈ bodies c h (s :: rest)) :
    s.scope ≠ p.2.scope := by
  obtain ⟨⟨before, after, he⟩, hshown⟩ := mem_bodies hp
  have hactive : p.1.isActiveCall := (Bool.and_eq_true_iff.1 hshown).1
  refine hf before p.1 p.2 after he hactive s ?_
  cases before with
  | nil => exact List.mem_singleton.2 (List.cons.inj he).1
  | cons u before => exact List.mem_cons.2 (.inl (List.cons.inj he).1)

/-- No two bodies share a scope, nor does one have the scope of the first state. -/
theorem FreshBodies.nodup (hf : FreshBodies (s :: rest)) :
    (s.scope :: (bodies c h (s :: rest)).map (·.2.scope)).Nodup := by
  refine List.nodup_cons.2 ⟨fun hs => ?_, ?_⟩
  · obtain ⟨p, hp, he⟩ := List.mem_map.1 hs
    exact hf.ne_head hp he.symm
  · induction rest generalizing s with
    | nil => exact .nil
    | cons t rest ih =>
      rw [bodies_cons_cons, List.map_append]
      split
      · refine List.nodup_cons.2 ⟨fun ht => ?_, ih hf.tail⟩
        obtain ⟨p, hp, he⟩ := List.mem_map.1 ht
        exact hf.tail.ne_head hp he.symm
      · exact ih hf.tail

/-- The scope of a body is not the one of any state below it. -/
theorem Machine.Running.fresh {m : Machine} (hm : m.Running c) : FreshBodies m.stack.reverse := by
  intro before s t after he hactive
  have hstack : m.stack = after.reverse ++ t :: s :: before.reverse := by
    rw [← m.stack.reverse_reverse, he]
    simp
  have hsuf : t :: s :: before.reverse <:+ m.stack := ⟨_, hstack.symm⟩
  rcases hm.stacked t s before.reverse hsuf with ⟨hscope, -⟩ | ⟨-, -, hnew⟩
  · exact absurd hscope (hm.busy t s _ hsuf hactive)
  · intro u hu
    refine hnew u ?_
    rw [List.mem_append, List.mem_singleton] at hu
    simpa [or_comm] using hu

/-- The function that the scope of a body belongs to. -/
theorem Machine.scopeOwner_body {m : Machine} {before after : List State} {o : Object} {n : Node} {f : Callable}
    (hactive : s.isActiveCall) (hnew : ∀ u ∈ before ++ [s], u.scope ≠ t.scope) (hglobal : t.scope ≠ m.global)
    (ho : m.heap.deref? s.func = some o) (hn : c.functionNode? o = some (n, f)) :
    m.scopeOwner c (before ++ s :: t :: after) t.scope =
      .ok (m.heap.functionName s.func, "this" :: f.params.map Identifier.name ++ f.body.locals, n) := by
  have hbelow : (before ++ s :: t :: after).takeWhile (·.scope != t.scope) = before ++ [s] := by
    rw [show before ++ s :: t :: after = (before ++ [s]) ++ t :: after by simp,
      List.takeWhile_append_of_pos fun u hu => by simpa using hnew u hu]
    simp
  have hcall : s.node.kind = .callExpression ∨ s.node.kind = .newExpression := by
    have hcall := State.isCall_of_isActiveCall hactive
    unfold Node.isCall at hcall
    split at hcall
    · rename_i hnode
      exact .inl (by rw [hnode]; rfl)
    · rename_i hnode
      exact .inr (by rw [hnode]; rfl)
    · cases hcall
  unfold scopeOwner
  rw [if_neg hglobal, hbelow]
  simp only [List.reverse_append, List.reverse_cons, List.reverse_nil, List.nil_append, List.singleton_append,
    List.find?_cons, decide_eq_true hcall, ho, hn, Option.bind_some]

/-- A frame that presents a running call: it has the scope of the body above the call, and the name and the text of
its function. -/
structure Machine.Presents (m : Machine) (c : Setting ω) (s : State) (frame : StackFrame) : Prop where
  frameId : ∃ above t below, m.stack = above ++ t :: s :: below ∧ s.body? c m.heap = some t.node ∧
    frame.frameId = t.scope
  functionName : frame.functionName = m.heap.functionName s.func
  functionCode : ∃ o n f, m.heap.deref? s.func = some o ∧ c.functionNode? o = some (n, f) ∧
    frame.functionCode = c.text n

variable {m : Machine} {console : Console} {exception : Option Value} {step : TraceStep} {frame : StackFrame}
  {frames : List StackFrame}

/-- A frame that describes the scope of a body presents its call. -/
theorem Machine.Running.presents (hc : c.IsRead) (hm : m.Running c) {p : State × State}
    (hp : p ∈ bodies c m.heap m.stack.reverse) {r : State} (hr : r.scope = p.2.scope)
    (hd : m.Describes c m.stack.reverse r frame) : m.Presents c p.1 frame := by
  obtain ⟨⟨before, after, he⟩, hshown⟩ := mem_bodies hp
  have hactive : p.1.isActiveCall := (Bool.and_eq_true_iff.1 hshown).1
  have hglobal : p.2.scope ≠ m.global := by
    obtain ⟨b, rest, hb, -, hscope⟩ := hm.exists_bottom
    have hfresh := hm.fresh
    rw [hb] at hfresh hp
    rw [← hscope]
    exact (hfresh.ne_head hp).symm
  have hbody : p.1.body? c m.heap = some p.2.node := by
    have hchain := hm.follows hc
    rw [he] at hchain
    cases (List.isChain_cons_cons.1 (List.isChain_append.1 hchain).2.1).1 with
    | part hs => exact absurd hactive hs
    | body _ _ hnode => exact hnode
  obtain ⟨⟨n, f⟩, hfound, -⟩ := Option.map_eq_some_iff.1 hbody
  obtain ⟨o, ho, hn⟩ := Option.bind_eq_some_iff.1 hfound
  obtain ⟨name, names, n', locals, howner, hname, hcode, -⟩ := hd.owner
  rw [he, hr, Machine.scopeOwner_body hactive (hm.fresh _ _ _ _ he hactive) hglobal ho hn] at howner
  cases howner
  refine ⟨⟨after.reverse, p.2, before.reverse, ?_, hbody, hd.frameId.trans hr⟩, hname, o, n, f, ho, hn, hcode⟩
  rw [← m.stack.reverse_reverse, he]
  simp

/-- The name of a stop is the one of its last frame. -/
theorem Machine.functionName_of_collect (h : m.collect c console exception = .ok step)
    (hframes : step.frames.getD [] = frame :: frames) :
    step.frames = some (frame :: frames) ∧
      some step.functionName = (frame :: frames).getLast?.map (·.functionName) := by
  obtain ⟨top, below, l, elements, hc⟩ := exists_collects h
  obtain rfl : l = frame :: frames := hc.getD_frames.symm.trans hframes
  refine ⟨hc.frames, ?_⟩
  rw [hc.functionName]
  cases hlast : (frame :: frames).getLast? with
  | none => cases List.getLast?_eq_none_iff.1 hlast
  | some last => rfl

namespace Session

variable {first t : Session σ δ}

/-- The frames of a stop are the one of the program and one for each call of a function of the program that is
running, the outermost first. No two have the same scope, and the stop is named for the last one. -/
theorem collect_frames {source text : String} {program : Program} {scheme : DeltaScheme String δ}
    {functions : List (SessionFunction σ)} {host : σ} {draws : Nat → Float} (hp : Program.ofSource source = .ok program)
    (hsize : program.nodes.length < 2 ^ 24) (hd : scheme.Exact)
    (h : startOver (Library.read text) scheme source functions host draws = .ok first) (ht : Reached first t)
    (hstep : t.collect = .ok step) :
    let m := t.stepper.machine
    ∃ global frames, step.frames = some (global :: frames) ∧
      (global.functionName = "<global>" ∧ global.frameId = m.global) ∧
      List.Forall₂ (m.Presents t.setting) (m.shownCalls t.setting) frames ∧
      ((global :: frames).map StackFrame.frameId).Nodup ∧
      some step.functionName = (global :: frames).getLast?.map StackFrame.functionName := by
  obtain ⟨program', hp', hmachine⟩ := ht.machine hd h
  cases hp.symm.trans hp'
  obtain ⟨hkeeps, hsound⟩ := SessionFunction.host_table functions
  have hc := Setting.isRead_ofPrograms hp text ((SessionFunction.table functions).map SessionFunction.toHost)
    Setting.defaultDepth draws
  obtain ⟨hsetting, hm⟩ := hmachine _ (Machine.Running.lasts hc hsize hkeeps hsound)
  unfold collect at hstep
  rw [hsetting] at hstep ⊢
  generalize Setting.ofPrograms (Library.read text) program _ _ _ = c at *
  generalize t.stepper.machine = m at hm hstep ⊢
  -- the states that stand for frames
  obtain ⟨b, rest, hb, hnode, hscope⟩ := hm.exists_bottom
  have hchain := hm.follows hc
  rw [hb] at hchain
  obtain ⟨r, states, hr, hstates, hbodies⟩ := frameStates_bodies hchain
  have hown : ¬b.node.isInternal := by
    rw [hnode]
    exact hc.not_isInternal (Node.mem_nodes_self _)
  rw [if_neg hown, List.singleton_append, ← hb] at hstates
  -- the frames that describe them
  obtain ⟨-, -, hframes, -⟩ := Machine.collect_describes hm.wellFormed.heap hstep
  rw [hstates] at hframes
  generalize hl : step.frames.getD [] = l at hframes
  obtain ⟨global, frames, hglobal, hrest, rfl⟩ := List.forall₂_cons_left_iff.1 hframes
  obtain ⟨hsome, hname⟩ := Machine.functionName_of_collect hstep hl
  have hpresents := forall₂_comp hbodies hrest
  rw [← hb] at hpresents
  refine ⟨global, frames, hsome, ⟨?_, hglobal.frameId.trans (hr.trans hscope)⟩, ?_, ?_, hname⟩
  · obtain ⟨name, names, n, locals, howner, hname, -⟩ := hglobal.owner
    rw [Machine.scopeOwner, if_pos (hr.trans hscope)] at howner
    cases howner
    exact hname
  · rw [← map_fst_bodies, List.forall₂_map_left_iff]
    refine ((List.forall₂_and_left _ _).2 ⟨fun p hp => hp, hpresents⟩).imp ?_
    rintro p frame ⟨hp, r, hr, hd⟩
    exact hm.presents hc hp hr hd
  · have hids : List.Forall₂ (fun scope id => scope = id) ((bodies c m.heap m.stack.reverse).map (·.2.scope))
        (frames.map StackFrame.frameId) := by
      rw [List.forall₂_map_left_iff, List.forall₂_map_right_iff]
      refine hpresents.imp ?_
      rintro p frame ⟨r, hr, hd⟩
      exact (hd.frameId.trans hr).symm
    have hfresh := hm.fresh
    rw [hb] at hfresh hids
    rw [List.forall₂_eq_eq_eq] at hids
    rw [List.map_cons, ← hids, hglobal.frameId, hr]
    exact hfresh.nodup

/-- A function that the library calls is shown, the library's own is not. -/
theorem collect_frames_callback :
    ∃ (program : Program) (first t : Session Unit String) (step : TraceStep),
      Program.ofSource "twice(function g() { var a = 1; });" = .ok program ∧ program.nodes.length < 2 ^ 24 ∧
        startOver (Library.read "function twice(f) { f(); f(); }") (.whole String) "twice(function g() { var a = 1; });"
          [] () Setting.zeros = .ok first ∧ Reached first t ∧ t.collect = .ok step ∧
        (t.stepper.machine.stack.filter State.isActiveCall).length = 2 ∧
        (step.frames.getD []).map (fun f => (f.functionName, f.functionCode)) =
          [("<global>", "twice(function g() { var a = 1; });"), ("g", "function g() { var a = 1; }")] ∧
        List.Forall₂ (t.stepper.machine.Presents t.setting) (t.stepper.machine.shownCalls t.setting)
          (step.frames.getD []).tail := by
  let text := "function twice(f) { f(); f(); }"
  let source := "twice(function g() { var a = 1; });"
  let program := (Program.ofSource source).toOption.getD default
  have hp : Program.ofSource source = .ok program := eq_ok_of_isSome (by decide +kernel)
  have hsize : program.nodes.length < 2 ^ 24 := by decide +kernel
  have hrun : (startOver (Library.read text) (.whole String) source
      ([] : List (SessionFunction Unit)) () Setting.zeros).toOption.any fun first =>
        (first.walk? 3).any fun t => t.collect.toOption.any fun step =>
          (t.stepper.machine.stack.filter State.isActiveCall).length = 2 ∧
            (step.frames.getD []).map (fun f => (f.functionName, f.functionCode)) =
              [("<global>", "twice(function g() { var a = 1; });"), ("g", "function g() { var a = 1; }")] := by
    decide +kernel
  obtain ⟨first, hfirst, hrun⟩ := (Option.any_eq_true _ _).1 hrun
  obtain ⟨t, hw, hrun⟩ := (Option.any_eq_true _ _).1 hrun
  obtain ⟨step, hstep, hrun⟩ := (Option.any_eq_true _ _).1 hrun
  obtain ⟨hcalls, hnames⟩ := of_decide_eq_true hrun
  have hstart : startOver (Library.read text) (.whole String) source [] () Setting.zeros = .ok first :=
    eq_ok_of_toOption hfirst
  have hcollect : t.collect = .ok step := eq_ok_of_toOption hstep
  obtain ⟨global, frames, hframes, -, hpresents, -⟩ :=
    collect_frames hp hsize (fun _ _ => rfl) hstart (reached_walk? hw) hcollect
  refine ⟨program, first, t, step, hp, hsize, hstart, reached_walk? hw, hcollect, hcalls, hnames, ?_⟩
  rw [hframes]
  exact hpresents

end Session

end Stepwise

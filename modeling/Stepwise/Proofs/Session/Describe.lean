import Stepwise.Proofs.Session.Variables

/-!
# Stops can be described

* `Machine.frame_result`: a frame can be described if its scope has an owner and binds the variables of the owner.
* `Machine.Running.collect_result`: so can a stop, unless a variable that a frame shows is not bound.
* `Session.collect_succeeds`: this cannot happen where nothing is deleted. Running to the end then fails only if a step
  fails. The text of what was thrown is there, unless it leads to an error that contains itself.
-/

namespace Stepwise

open SessionM

variable {ω σ δ α β : Type}

variable {c : Setting ω} {m : Machine} {console : Console} {exception : Option Value}

namespace Machine

/-- The values of variables can be told, or one of the variables is not bound. -/
theorem localValues_result (m : Machine) (scope : ObjectId) (names : List String) :
    (∃ l, m.localValues scope names = .ok l) ∨
      ∃ x ∈ names, m.heap.binding? scope x = none ∧ m.localValues scope names = .error (.unbound x scope) := by
  unfold localValues
  induction names with
  | nil => exact .inl ⟨[], rfl⟩
  | cons x names ih =>
    rw [List.mapM_cons]
    cases hx : m.heap.binding? scope x with
    | none => exact .inr ⟨x, List.mem_cons_self, hx, rfl⟩
    | some v =>
      rcases ih with ⟨l, hl⟩ | ⟨y, hy, hnone, he⟩
      · refine .inl ⟨(x, v) :: l, ?_⟩
        rw [show (List.mapM _ names : Except Fault _) = _ from hl]
        rfl
      · refine .inr ⟨y, List.mem_cons_of_mem x hy, hnone, ?_⟩
        rw [show (List.mapM _ names : Except Fault _) = _ from he]
        rfl

/-- A frame can be described if its scope has an owner, or a variable of the owner is not bound. -/
theorem frame_result (hw : m.heap.WellFormed) {states : List State} {s : State} {name : String} {names : List String}
    {n : Node} (howner : m.scopeOwner c states s.scope = .ok (name, names, n))
    (hobject : (m.heap.object? s.scope).isSome) (E : Elements) :
    (∃ r, m.frameWithin (m.heap.objects.size + 2) c states s E = .ok r) ∨
      ∃ x ∈ names, m.heap.binding? s.scope x = none ∧
        m.frameWithin (m.heap.objects.size + 2) c states s E = .error (.unbound x s.scope) := by
  have hthere : ¬(m.heap.object? s.scope).isNone := by simpa [Option.isSome_iff_ne_none] using hobject
  unfold frameWithin
  rw [bind_run, liftM_run, howner]
  dsimp only
  rw [if_neg hthere, bind_run, liftM_run]
  rcases m.localValues_result s.scope names with ⟨l, hl⟩ | ⟨x, hx, hnone, he⟩
  · left
    obtain ⟨E₁, hlocals, -⟩ := foldlM_showWithin (c := c) hw (Nat.le_refl _) l E
    rw [hl]
    dsimp only
    rw [bind_run, hlocals]
    dsimp only
    rw [bind_run]
    cases s.isReturning && s.hasValue with
    | false => exact ⟨_, rfl⟩
    | true =>
      obtain ⟨E₂, hshow, -⟩ := showWithin_eq (c := c) hw (Nat.le_refl _) s.value E₁
      have hmap : Option.mapM (showWithin c m.heap (m.heap.objects.size + 2)) (some s.value) E₁ =
          .ok (some (m.heap.shown s.value), E₂) := by
        show (some <$> showWithin c m.heap _ s.value) E₁ = _
        rw [map_eq_pure_bind, bind_run, hshow]
        rfl
      rw [if_pos rfl, hmap]
      exact ⟨_, rfl⟩
  · exact .inr ⟨x, hx, hnone, by rw [he]⟩

end Machine

/-- A search that goes through a list succeeds, or fails as one of its parts does. -/
theorem mapM_result {F : α → StateT Elements (Except Fault) β} {Q : Fault → Prop} {l : List α}
    (hF : ∀ a ∈ l, ∀ E, (∃ r, F a E = .ok r) ∨ ∃ e, Q e ∧ F a E = .error e) (E : Elements) :
    (∃ r, l.mapM F E = .ok r) ∨ ∃ e, Q e ∧ l.mapM F E = .error e := by
  induction l generalizing E with
  | nil => exact .inl ⟨_, rfl⟩
  | cons a l ih =>
    obtain ⟨ha, hl⟩ := List.forall_mem_cons.1 hF
    rw [List.mapM_cons, bind_run]
    rcases ha E with ⟨⟨b, E₁⟩, hr⟩ | ⟨e, hq, he⟩
    · rw [hr]
      dsimp only
      rw [bind_run]
      rcases ih hl E₁ with ⟨⟨bs, E₂⟩, hr⟩ | ⟨e, hq, he⟩
      · rw [hr]
        exact .inl ⟨_, rfl⟩
      · rw [he]
        exact .inr ⟨e, hq, rfl⟩
    · rw [he]
      exact .inr ⟨e, hq, rfl⟩

theorem exists_of_forall₂_mem {R : α → β → Prop} {l : List α} {l' : List β} {b : β} (h : List.Forall₂ R l l')
    (hb : b ∈ l') : ∃ a ∈ l, R a b := by
  induction h with
  | nil => cases hb
  | cons hab _ ih =>
    rcases List.mem_cons.1 hb with rfl | hb
    · exact ⟨_, List.mem_cons_self, hab⟩
    · obtain ⟨a, ha, hab⟩ := ih hb
      exact ⟨a, List.mem_cons_of_mem _ ha, hab⟩

theorem mem_of_mem_frameStates {states : List State} {s : State} (hs : s ∈ frameStates states) : s ∈ states := by
  induction states with
  | nil => exact hs
  | cons t states ih =>
    cases states with
    | nil =>
      unfold frameStates at hs
      split at hs
      · cases hs
      · exact hs
    | cons u states =>
      unfold frameStates at hs
      split at hs
      · exact List.mem_cons_of_mem t (ih hs)
      · rcases List.mem_cons.1 hs with rfl | hs
        · exact List.mem_cons_self
        · exact List.mem_cons_of_mem t (ih hs)

namespace Machine

/-- A variable that some frame shows: one of the program in the global scope, or one of a running function in the
scope of its body. -/
inductive Shown (c : Setting ω) (m : Machine) : ObjectId → String → Prop where
  | global {x : String} (hx : x ∈ c.program.locals) : Shown c m m.global x
  | body {t s : State} {below : List State} {o : Object} {n : Node} {callable : Callable} {x : String}
    (hsuf : t :: s :: below <:+ m.stack) (hactive : s.isActiveCall) (ho : m.heap.deref? s.func = some o)
    (hn : c.functionNode? o = some (n, callable)) (hx : x ∈ "this" :: callable.bound) : Shown c m t.scope x

/-- What is declared is bound. -/
theorem Declares.of_shown (hd : m.Declares c) {scope : ObjectId} {x : String} (h : m.Shown c scope x) :
    m.heap.Declares scope x := by
  cases h with
  | global hx => exact hd.global x hx
  | body hsuf hactive ho hn hx => exact hd.body _ _ _ hsuf hactive _ _ _ ho hn x hx

/-- The scope of every state that stands for a frame has an owner. -/
theorem Running.exists_owner (hc : c.IsRead) (hm : m.Running c) {r : State} (hr : r ∈ frameStates m.stack.reverse) :
    ∃ name names n, m.scopeOwner c m.stack.reverse r.scope = .ok (name, names, n) ∧
      ∀ x ∈ names, m.Shown c r.scope x := by
  obtain ⟨b, rest, hb, -, hscope⟩ := hm.exists_bottom
  have hchain := hm.follows hc
  rw [hb] at hchain
  obtain ⟨first, states, hfirst, hstates, hbodies⟩ := frameStates_bodies hchain
  rw [← hb] at hbodies hstates
  rw [hstates] at hr
  rcases List.mem_append.1 hr with hr | hr
  · -- the frame of the program
    have hr : r.scope = m.global := by
      split at hr
      · cases hr
      · rw [List.mem_singleton.1 hr, hfirst, hscope]
    refine ⟨"<global>", c.program.locals, .program c.program, ?_, fun x hx => ?_⟩
    · rw [scopeOwner, if_pos hr]
    · rw [hr]
      exact .global hx
  · -- the frame of a body
    obtain ⟨p, hp, hr⟩ := exists_of_forall₂_mem hbodies hr
    obtain ⟨⟨before, after, he⟩, hshown⟩ := mem_bodies hp
    obtain ⟨hactive, hbody⟩ := Bool.and_eq_true_iff.1 hshown
    have hglobal : p.2.scope ≠ m.global := by
      have hfresh := hm.fresh
      rw [hb] at hfresh hp
      rw [← hscope]
      exact (hfresh.ne_head hp).symm
    obtain ⟨body, hbody, -⟩ := (Option.any_eq_true _ _).1 hbody
    obtain ⟨⟨n, callable⟩, hfound, -⟩ := Option.map_eq_some_iff.1 hbody
    obtain ⟨o, ho, hn⟩ := Option.bind_eq_some_iff.1 hfound
    have hstack : m.stack = after.reverse ++ p.2 :: p.1 :: before.reverse := by
      rw [← m.stack.reverse_reverse, he]
      simp
    have howner : m.scopeOwner c m.stack.reverse r.scope = .ok (m.heap.functionName p.1.func,
        "this" :: callable.params.map Identifier.name ++ callable.body.locals, n) := by
      rw [hr, he]
      exact scopeOwner_body hactive (hm.fresh _ _ _ _ he hactive) hglobal ho hn
    refine ⟨_, _, n, howner, fun x hx => ?_⟩
    rw [hr]
    refine .body ⟨_, hstack.symm⟩ hactive ho hn ?_
    rcases List.mem_cons.1 hx with rfl | hx
    · exact List.mem_cons_self
    · refine List.mem_cons_of_mem _ (List.mem_cons_of_mem _ ?_)
      rcases List.mem_append.1 hx with hx | hx
      · exact List.mem_append_left _ hx
      · exact List.mem_append_right _ (List.mem_eraseDups.1 hx)

/-- A stop can be described, unless a variable that a frame shows is not bound. -/
theorem Running.collect_result (hc : c.IsRead) (hm : m.Running c) (console : Console) (exception : Option Value) :
    (∃ step, m.collect c console exception = .ok step) ∨ ∃ scope x, m.Shown c scope x ∧
      m.heap.binding? scope x = none ∧ m.collect c console exception = .error (.unbound x scope) := by
  have hframes := mapM_result (F := m.frameWithin (m.heap.objects.size + 2) c m.stack.reverse)
    (Q := fun e => ∃ scope x, m.Shown c scope x ∧ m.heap.binding? scope x = none ∧ e = .unbound x scope)
    (l := frameStates m.stack.reverse) (fun r hr E => by
      obtain ⟨name, names, n, howner, hshown⟩ := hm.exists_owner hc hr
      have hr : r ∈ m.stack := List.mem_reverse.1 (mem_of_mem_frameStates hr)
      obtain ⟨scope, hscope⟩ := Option.isSome_iff_exists.1 (hm.sound.scope r hr)
      have hobject := (hm.sound.filed.scope hscope).2
      rcases frame_result hm.wellFormed.heap howner hobject E with h | ⟨x, hx, hnone, he⟩
      · exact .inl h
      · exact .inr ⟨_, ⟨r.scope, x, hshown x hx, hnone, rfl⟩, he⟩) {}
  obtain ⟨b, rest, hb, -, -⟩ := hm.exists_bottom
  rw [collect_eq]
  unfold collectWithin
  split
  · rename_i hstack
    rw [hstack] at hb
    cases hb
  · dsimp only
    rcases hframes with ⟨⟨frames, elements⟩, hf⟩ | ⟨e, ⟨scope, x, hshown, hnone, rfl⟩, he⟩
    · left
      rw [StateT.run, hf]
      exact ⟨_, rfl⟩
    · right
      refine ⟨scope, x, hshown, hnone, ?_⟩
      rw [StateT.run, he]
      rfl

end Machine

namespace Session

variable {first t : Session σ δ} {mode : Mode}

/-- Running to the end from a session that is reached fails only if a step fails, as long as stops can be described. -/
theorem runToEnd_error (hcollect : ∀ r, Reached first r → ∃ step, r.collect = .ok step) (ht : Reached first t)
    {e : SessionError} {t' : Session σ δ} (h : runToEnd mode t = .error e t') :
    ∃ r, Reached first r ∧ forward mode r = .error e t' := by
  have go (limit : Nat) (done : List TraceStep) {t : Session σ δ} (ht : Reached first t)
      (h : runToEnd.go mode limit done t = .error e t') : ∃ r, Reached first r ∧ forward mode r = .error e t' := by
    induction limit generalizing done t with
    | zero => cases h
    | succ limit ih =>
      obtain ⟨step, hstep⟩ := hcollect t ht
      unfold runToEnd.go at h
      rw [get_bind, hstep] at h
      dsimp only at h
      rw [get_bind] at h
      split at h
      · cases h
      · change EStateM.bind (forward mode) _ t = _ at h
        unfold EStateM.bind at h
        cases hf : forward mode t with
        | error e' r =>
          rw [hf] at h
          cases h
          exact ⟨t, ht, hf⟩
        | ok u r =>
          rw [hf] at h
          exact ih (step :: done) (ht.turn (show (Turn.forward mode).run t = .ok u r from hf)) h
  exact go _ _ ht h

/-- A stop can be described unless a variable that it shows is not bound. Where nothing is deleted, every stop can be
described, and running to the end fails only if a step fails. To describe what was thrown, its text or those of its name,
its message and its calls are needed; each of them is there, unless the value is or leads to an error that contains
itself, for which there is no end to the conversion. -/
theorem collect_succeeds {source text : String} {program : Program} {scheme : DeltaScheme String δ}
    {functions : List (SessionFunction σ)} {host : σ} {draws : Nat → Float}
    (hp : Program.ofSource source = .ok program) (hsize : program.nodes.length < 2 ^ 24) (hd : scheme.Exact)
    (h : startOver (Library.read text) scheme source functions host draws = .ok first) (ht : Reached first t) :
    (∀ f, t.collect = .error f → ∃ scope x, f = .unbound x scope ∧ t.stepper.machine.Shown t.setting scope x ∧
      t.stepper.machine.heap.binding? scope x = none) ∧
    ((∀ n, n ∈ (Library.read text).nodes ∨ n ∈ program.nodes → n.isDelete = false) →
      (∃ step, t.collect = .ok step) ∧ ∀ mode e t', runToEnd mode t = .error e t' →
        ∃ r, Reached first r ∧ forward mode r = .error e t') ∧
    ∀ v, ¬t.stepper.machine.heap.Entangled v →
      t.stepper.machine.heap.ConvertsTo v (t.stepper.machine.heap.toPrimitive v) := by
  obtain ⟨hkeeps, hsound⟩ := SessionFunction.host_table functions
  have hc := Setting.isRead_ofPrograms hp text ((SessionFunction.table functions).map SessionFunction.toHost)
    Setting.defaultDepth draws
  have hcollect {t : Session σ δ} (ht : Reached first t) {P : Machine → Prop}
      (hP : Machine.Lasts (Setting.ofPrograms (Library.read text) program
        ((SessionFunction.table functions).map SessionFunction.toHost) Setting.defaultDepth draws) P) :
      t.setting = Setting.ofPrograms (Library.read text) program
        ((SessionFunction.table functions).map SessionFunction.toHost) Setting.defaultDepth draws ∧
        P t.stepper.machine := by
    obtain ⟨program', hp', hmachine⟩ := ht.machine hd h
    cases hp.symm.trans hp'
    exact hmachine P hP
  refine ⟨fun f hf => ?_, fun hspares => ?_, fun v hv => ?_⟩
  · obtain ⟨hsetting, hm⟩ := hcollect ht (Machine.Running.lasts hc hsize hkeeps hsound)
    unfold collect at hf
    rw [hsetting] at hf ⊢
    rcases hm.collect_result hc t.world.console t.exception with ⟨step, hok⟩ | ⟨scope, x, hshown, hnone, he⟩
    · cases hok.symm.trans hf
    · cases he.symm.trans hf
      exact ⟨scope, x, rfl, hshown, hnone⟩
  · have hall (r : Session σ δ) (hr : Reached first r) : ∃ step, r.collect = .ok step := by
      obtain ⟨hsetting, hm, hdeclares⟩ := hcollect hr (Machine.Declares.lasts hc hsize hspares hkeeps hsound)
      unfold collect
      rw [hsetting]
      refine (hm.collect_result hc r.world.console r.exception).resolve_right ?_
      rintro ⟨scope, x, hshown, hnone, -⟩
      have hbound := (hdeclares.of_shown hshown).isBound
      rw [hnone] at hbound
      cases hbound
    exact ⟨hall t ht, fun _ _ _ he => runToEnd_error hall ht he⟩
  · obtain ⟨-, hm⟩ := hcollect ht (Machine.Running.lasts hc hsize hkeeps hsound)
    exact Heap.convertsTo_toPrimitive hm.wellFormed.heap.toFiled hv

/-- A stop in a function that is running. -/
theorem collect_succeeds_call :
    ∃ (program : Program) (first t : Session Unit String) (step : TraceStep),
      Program.ofSource "(function (a) { var b; })(1);" = .ok program ∧ program.nodes.length < 2 ^ 24 ∧
        startOver (Library.read "") (.whole String) "(function (a) { var b; })(1);" [] () Setting.zeros = .ok first ∧
        Reached first t ∧ (t.stepper.machine.stack.filter State.isActiveCall).length = 1 ∧
        (∀ n, n ∈ (Library.read "").nodes ∨ n ∈ program.nodes → n.isDelete = false) ∧ t.collect = .ok step := by
  let source := "(function (a) { var b; })(1);"
  let program := (Program.ofSource source).toOption.getD default
  have hp : Program.ofSource source = .ok program := eq_ok_of_isSome (by decide +kernel)
  have hsize : program.nodes.length < 2 ^ 24 := by decide +kernel
  have hspares : (∀ n ∈ (Library.read "").nodes, n.isDelete = false) ∧ ∀ n ∈ program.nodes, n.isDelete = false := by
    decide +kernel
  have hrun : (startOver (Library.read "") (.whole String) source ([] : List (SessionFunction Unit)) ()
      Setting.zeros).toOption.any fun first => (first.walk? 3).any fun t =>
        (t.stepper.machine.stack.filter State.isActiveCall).length = 1 := by
    decide +kernel
  obtain ⟨first, hfirst, hrun⟩ := (Option.any_eq_true _ _).1 hrun
  obtain ⟨t, hw, hrun⟩ := (Option.any_eq_true _ _).1 hrun
  have hstart : startOver (Library.read "") (.whole String) source [] () Setting.zeros = .ok first :=
    eq_ok_of_toOption hfirst
  have hspares (n : Node) (hn : n ∈ (Library.read "").nodes ∨ n ∈ program.nodes) : n.isDelete = false :=
    hn.elim (hspares.1 n) (hspares.2 n)
  obtain ⟨-, hdescribed, -⟩ := collect_succeeds hp hsize (fun _ _ => rfl) hstart (reached_walk? hw)
  obtain ⟨⟨step, hstep⟩, -⟩ := hdescribed hspares
  exact ⟨program, first, t, step, hp, hsize, hstart, reached_walk? hw, of_decide_eq_true hrun, hspares, hstep⟩

/-- A variable of the program that is deleted from the global object cannot be shown any more. -/
theorem collect_fails_deleted :
    ∃ first t : Session Unit String,
      startOver (Library.read "") (.whole String) "var x; delete this.x;" [] () Setting.zeros = .ok first ∧ Reached first t ∧
        ∀ step, t.collect ≠ .ok step := by
  have hrun : (startOver (Library.read "") (.whole String) "var x; delete this.x;"
      ([] : List (SessionFunction Unit)) () Setting.zeros).toOption.any fun first =>
        (first.walk? 4).any fun t => t.collect.toOption.isNone := by
    decide +kernel
  obtain ⟨first, hfirst, hrun⟩ := (Option.any_eq_true _ _).1 hrun
  obtain ⟨t, hw, hrun⟩ := (Option.any_eq_true _ _).1 hrun
  refine ⟨first, t, eq_ok_of_toOption hfirst, reached_walk? hw, fun step hstep => ?_⟩
  rw [hstep] at hrun
  cases hrun

end Session

end Stepwise

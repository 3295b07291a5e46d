import Stepwise.Proofs.Lint.Redeclare
import Stepwise.Proofs.Parse.Lawful
import Stepwise.Proofs.Session.Collect

/-!
# The variables that a frame lists

* `Node.declares_bindable`: no name that is declared below a regular node is a keyword, so it is not `this`.
* `Callable.count_listed`: how often a function lists a variable.
* `StackFrame.Lists`: a frame lists the variables of its table. It lists none twice, unless the body of a function
  declares a parameter again.
* `Session.collect_lists`: every frame of every stop does so.
-/

namespace Stepwise

variable {ω σ δ α β : Type}

/-! ### Names that are declared -/

/-- No name that is declared below regular nodes is a keyword. -/
theorem Node.declares_bindable {n : Node} (hn : ∀ m ∈ n.nodes, m.isRegular) {x : String}
    (hx : x ∈ localNames n.declarations) : isBindable x := by
  unfold localNames at hx
  obtain ⟨d, hd, rfl⟩ := List.mem_map.1 (List.mem_eraseDups.1 hx)
  have hmem : d.identifier ∈ n.declaredInside := n.declaredInside_eq ▸ List.mem_map_of_mem hd
  obtain ⟨m, hm, hdeclared⟩ := List.mem_filterMap.1 hmem
  have hregular := isRegular_iff.1 (hn m ((n.upTo_sublist isClosure).subset hm))
  have hbinds : d.identifier.name ∈ m.binders := by
    unfold declared? at hdeclared
    split at hdeclared
    · rw [← Option.some.inj hdeclared]
      exact List.mem_singleton_self _
    · rw [← Option.some.inj hdeclared]
      exact List.mem_cons_self
    · cases hdeclared
  exact hregular.2 _ hbinds

/-- The variables of a function in the order in which a frame lists them: the receiver, the parameters, and what the
body declares. -/
def Callable.listed (f : Callable) : List String := "this" :: f.params.map Identifier.name ++ f.body.locals

/-- The body of a function declares a parameter again. -/
def Node.Redeclares (n : Node) (x : String) : Prop :=
  ∃ f, n.callable? = some f ∧ x ∈ f.params.map Identifier.name ∧ x ∈ f.body.locals

section

variable {n : Node} {f : Callable}

/-- The parameters of a regular function differ, and none is a keyword. -/
theorem Node.params_of_callable (hn : n.isRegular) (hf : n.callable? = some f) :
    (f.params.map Identifier.name).Nodup ∧ ∀ x ∈ f.params.map Identifier.name, isBindable x := by
  obtain ⟨hlawful, hbinders⟩ := isRegular_iff.1 hn
  unfold callable? at hf
  split at hf
  · cases hf
    exact ⟨of_decide_eq_true hlawful, fun x hx => hbinders x (List.mem_cons_of_mem _ hx)⟩
  · cases hf
    exact ⟨of_decide_eq_true hlawful, fun x hx => hbinders x (List.mem_append_right _ hx)⟩
  · cases hf

/-- A function lists its variables once, but a parameter that its body declares again is listed twice. -/
theorem Callable.count_listed (hn : ∀ m ∈ n.nodes, m.isRegular) (hf : n.callable? = some f) {x : String}
    (hx : x ∈ f.listed) :
    f.listed.count x = if x ∈ f.params.map Identifier.name ∧ x ∈ f.body.locals then 2 else 1 := by
  obtain ⟨hparams, hbindable⟩ := Node.params_of_callable (hn n n.mem_nodes_self) hf
  have hbody : ∀ m ∈ (Node.ofBody f).nodes, m.isRegular := fun m hm =>
    hn m (Node.mem_nodes_trans (Node.mem_nodes_of_mem_children n.mem_nodes_self (Node.ofBody_mem_children hf)) hm)
  have hlocals : f.body.locals.Nodup := Heap.nodup_eraseDups _
  have hthis : isBindable "this" = false := by decide
  by_cases he : x = "this"
  · -- the receiver is no name that can be declared
    subst he
    have hp : "this" ∉ f.params.map Identifier.name := fun h => Bool.noConfusion ((hbindable _ h).symm.trans hthis)
    have hl : "this" ∉ f.body.locals := fun h =>
      Bool.noConfusion ((Node.declares_bindable (n := .ofBody f) hbody h).symm.trans hthis)
    rw [if_neg fun h => hp h.1, listed, List.cons_append, List.count_cons_self,
      List.count_eq_zero_of_not_mem (List.not_mem_append hp hl)]
  · have hx : x ∈ f.params.map Identifier.name ∨ x ∈ f.body.locals := by
      rw [listed, List.cons_append] at hx
      exact List.mem_append.1 (List.mem_of_ne_of_mem he hx)
    rw [listed, List.cons_append, List.count_cons_of_ne (Ne.symm he), List.count_append, hparams.count, hlocals.count]
    by_cases hp : x ∈ f.params.map Identifier.name
    · by_cases hl : x ∈ f.body.locals
      · rw [if_pos hp, if_pos hl, if_pos ⟨hp, hl⟩]
      · rw [if_pos hp, if_neg hl, if_neg fun h => hl h.2]
    · rw [if_neg hp, if_pos (hx.resolve_left hp), if_neg fun h => hp h.1]

end

/-! ### Frames -/

/-- A frame lists the variables of its table. Each is listed once, but a parameter that the body of the function
declares again is listed twice. -/
structure StackFrame.Lists (frame : StackFrame) (n : Node) : Prop where
  keys : ∃ locals, frame.locals = some locals ∧ ∀ x, x ∈ frame.orderedLocals.getD [] ↔ x ∈ locals
  once : ∀ x ∈ frame.orderedLocals.getD [], ¬n.Redeclares x → (frame.orderedLocals.getD []).count x = 1
  twice : ∀ x, n.Redeclares x → (frame.orderedLocals.getD []).count x = 2

/-- Nothing is listed twice if no parameter is declared again. -/
theorem StackFrame.Lists.nodup_iff {frame : StackFrame} {n : Node} (h : frame.Lists n) :
    (frame.orderedLocals.getD []).Nodup ↔ ∀ x, ¬n.Redeclares x := by
  rw [List.nodup_iff_count_le_one]
  constructor
  · intro hcount x hx
    have htwice := h.twice x hx
    have honce := hcount x
    omega
  · intro hno x
    by_cases hx : x ∈ frame.orderedLocals.getD []
    · exact (h.once x hx (hno x)).le
    · rw [List.count_eq_zero_of_not_mem hx]
      exact Nat.zero_le 1

variable {m : Machine} {c : Setting ω} {states : List State} {s : State} {frame : StackFrame} {E E' : Elements}
  {depth : Nat}

/-- The computations of a list that may fail, each from the elements that those before it leave. -/
theorem forall₂_of_mapM_run {f : α → StateT Elements (Except Fault) β} {l : List α} {l' : List β}
    (h : l.mapM f E = .ok (l', E')) : List.Forall₂ (fun a b => ∃ E E', f a E = .ok (b, E')) l l' := by
  induction l generalizing E l' with
  | nil =>
    cases h
    exact .nil
  | cons a l ih =>
    rw [List.mapM_cons, bind_run] at h
    rcases ha : f a E with e | ⟨b, E₁⟩
    · rw [ha] at h
      cases h
    · rw [ha] at h
      dsimp only at h
      rw [bind_run] at h
      rcases hl : l.mapM f E₁ with e | ⟨bs, E₂⟩
      · rw [hl] at h
        cases h
      · rw [hl] at h
        cases h
        exact .cons ⟨E, E₁, ha⟩ (ih hl)

/-- The node of a function is found under its number. -/
theorem node_of_functionNode? {o : Object} {n : Node} {f : Callable} (h : c.functionNode? o = some (n, f)) :
    (∃ id, c.node? id = some n) ∧ n.callable? = some f := by
  unfold Setting.functionNode? at h
  obtain ⟨info, -, h⟩ := Option.bind_eq_some_iff.1 h
  split at h
  · cases h
  · rename_i id _ _
    obtain ⟨n', hn, h⟩ := Option.bind_eq_some_iff.1 h
    obtain ⟨f', hf, h⟩ := Option.bind_eq_some_iff.1 h
    cases h
    exact ⟨⟨id, hn⟩, hf⟩

namespace Machine

/-- The frames of a stop, from the states that stand for them. -/
theorem frames_of_collect {console : Console} {exception : Option Value} {step : TraceStep}
    (h : m.collect c console exception = .ok step) :
    List.Forall₂ (fun s frame => ∃ E E', m.frameWithin (m.heap.objects.size + 2) c m.stack.reverse s E = .ok (frame, E'))
      (frameStates m.stack.reverse) (step.frames.getD []) := by
  obtain ⟨top, below, frames, elements, hc⟩ := exists_collects h
  rw [hc.getD_frames]
  exact forall₂_of_mapM_run hc.run

/-- A frame lists the names that its owner has, and each of them is bound. -/
theorem listed_of_frame (hf : m.frameWithin depth c states s E = .ok (frame, E')) :
    ∃ name names n l, m.scopeOwner c states s.scope = .ok (name, names, n) ∧ m.localValues s.scope names = .ok l ∧
      frame.orderedLocals.getD [] = names := by
  unfold frameWithin at hf
  rw [bind_run, liftM_run] at hf
  cases ho : m.scopeOwner c states s.scope with
  | error e =>
    rw [ho] at hf
    cases hf
  | ok owner =>
    obtain ⟨name, names, n⟩ := owner
    rw [ho] at hf
    dsimp only at hf
    split at hf
    · cases hf
    · rw [bind_run, liftM_run] at hf
      cases hl : m.localValues s.scope names with
      | error e =>
        rw [hl] at hf
        cases hf
      | ok l =>
        refine ⟨name, names, n, l, rfl, hl, ?_⟩
        rw [hl] at hf
        dsimp only at hf
        rw [bind_run] at hf
        split at hf
        · rw [bind_run] at hf
          split at hf
          · cases hf
            cases names <;> rfl
          · cases hf
        · cases hf

theorem scopeOwner_eq_ok {scope : ObjectId} {name : String} {names : List String} {n : Node}
    (h : m.scopeOwner c states scope = .ok (name, names, n)) :
    (n = .program c.program ∧ names = c.program.locals) ∨
      ∃ o f, c.functionNode? o = some (n, f) ∧ names = f.listed := by
  unfold scopeOwner at h
  split at h
  · cases h
    exact .inl ⟨rfl, rfl⟩
  · dsimp only at h
    split at h
    · cases h
    · split at h
      · cases h
      · rename_i n' f hf
        cases h
        obtain ⟨o, -, ho⟩ := Option.bind_eq_some_iff.1 hf
        exact .inr ⟨o, f, ho, rfl⟩

/-- Names that have values are bound. -/
theorem exists_binding_of_localValues {scope : ObjectId} {names : List String} {l : List (String × Value)}
    (h : m.localValues scope names = .ok l) {x : String} (hx : x ∈ names) : ∃ v, m.heap.binding? scope x = some v := by
  obtain ⟨p, -, hp⟩ := exists_left_of_forall₂ (forall₂_of_mapM h).flip hx
  cases hv : m.heap.binding? scope x with
  | none =>
    rw [hv] at hp
    cases hp
  | some v => exact ⟨v, rfl⟩

/-- How often the owner of a scope lists a variable. -/
theorem count_of_scopeOwner (hc : c.IsRead) {scope : ObjectId} {name : String} {names : List String} {n : Node}
    (h : m.scopeOwner c states scope = .ok (name, names, n)) {x : String} (hx : x ∈ names) :
    (¬n.Redeclares x → names.count x = 1) ∧ (n.Redeclares x → names.count x = 2) := by
  rcases scopeOwner_eq_ok h with ⟨rfl, rfl⟩ | ⟨o, f, ho, rfl⟩
  · have hlocals : c.program.locals.Nodup := Heap.nodup_eraseDups _
    exact ⟨fun _ => List.count_eq_one_of_mem hlocals hx, fun ⟨_, hf, _⟩ => by cases hf⟩
  · obtain ⟨⟨id, hnode⟩, hf⟩ := node_of_functionNode? ho
    have hregular : ∀ k ∈ n.nodes, k.isRegular := fun k hk => hc.isRegular <|
      (hc.mem_of_node? hnode).1.imp (Node.mem_nodes_trans · hk) (Node.mem_nodes_trans · hk)
    have hcount := Callable.count_listed hregular hf hx
    constructor
    · intro hno
      rw [hcount, if_neg fun h => hno ⟨f, hf, h⟩]
    · rintro ⟨f', hf', h⟩
      cases hf.symm.trans hf'
      rw [hcount, if_pos h]

/-- A frame has the name and the text of the owner of its scope, and lists the variables in its table. -/
theorem frame_lists (hc : c.IsRead) (hw : m.heap.WellFormed)
    (hf : m.frameWithin (m.heap.objects.size + 2) c states s E = .ok (frame, E')) :
    ∃ name names n, m.scopeOwner c states s.scope = .ok (name, names, n) ∧ frame.functionName = name ∧
      frame.functionCode = c.text n ∧ frame.Lists n := by
  obtain ⟨name, _, n, l, howner, hvalues, rfl⟩ := listed_of_frame hf
  have hcount {x : String} := count_of_scopeOwner hc howner (x := x)
  obtain ⟨name', names', n', locals, howner', hname, hcode, hlocals, htable⟩ :=
    (frame_describes hw (Nat.le_refl _) hf).1.owner
  cases howner.symm.trans howner'
  refine ⟨name, _, n, howner, hname, hcode, ⟨locals, hlocals, fun x => ?_⟩,
    fun x hx => (hcount hx).1, fun x hx => (hcount ?_).2 hx⟩
  · rw [Std.TreeMap.mem_iff_isSome_getElem?, Option.isSome_iff_exists]
    constructor
    · intro hx
      obtain ⟨v, hv⟩ := exists_binding_of_localValues hvalues hx
      exact ⟨_, (htable x _).2 ⟨v, ⟨hx, hv⟩, rfl⟩⟩
    · rintro ⟨t, ht⟩
      obtain ⟨v, ⟨hx, -⟩, -⟩ := (htable x t).1 ht
      exact hx
  · obtain ⟨f, hf, hparam, -⟩ := hx
    rcases scopeOwner_eq_ok howner with ⟨rfl, -⟩ | ⟨o, f', ho, hnames⟩
    · cases hf
    · cases (node_of_functionNode? ho).2.symm.trans hf
      rw [hnames]
      exact List.mem_append_left _ (List.mem_cons_of_mem _ hparam)

end Machine

/-! ### Sessions -/

namespace Session

variable {first t : Session σ δ} {step : TraceStep}

/-- At every stop of a session, the frames list the variables in their tables, each once. Only a parameter that the
body of a function declares again is listed twice. -/
theorem collect_lists {source text : String} {scheme : DeltaScheme String δ} {functions : List (SessionFunction σ)}
    {host : σ} {draws : Nat → Float} (hd : scheme.Exact)
    (h : startOver (Library.read text) scheme source functions host draws = .ok first)
    (ht : Reached first t) (hstep : t.collect = .ok step) :
    List.Forall₂ (fun s frame => ∃ name names n,
        t.stepper.machine.scopeOwner t.setting t.stepper.machine.stack.reverse s.scope = .ok (name, names, n) ∧
        frame.functionName = name ∧ frame.functionCode = t.setting.text n ∧ frame.Lists n ∧
        ((frame.orderedLocals.getD []).Nodup ↔ ∀ x, ¬n.Redeclares x))
      (frameStates t.stepper.machine.stack.reverse) (step.frames.getD []) := by
  obtain ⟨program, hp, hmachine⟩ := ht.machine hd h
  obtain ⟨hkeeps, hsound⟩ := SessionFunction.host_table functions
  have hc := Setting.isRead_ofPrograms hp text ((SessionFunction.table functions).map SessionFunction.toHost)
    Setting.defaultDepth draws
  obtain ⟨hsetting, -, hm⟩ := hmachine _ (Machine.lasts_wellFormed hc hkeeps hsound)
  refine (Machine.frames_of_collect hstep).imp ?_
  rintro s frame ⟨E, E', hf⟩
  obtain ⟨name, names, n, howner, hname, hcode, hlists⟩ := Machine.frame_lists (hsetting ▸ hc) hm.heap hf
  exact ⟨name, names, n, howner, hname, hcode, hlists, hlists.nodup_iff⟩

/-- A call of a function with a parameter and a variable. -/
theorem collect_lists_call :
    ∃ (first t : Session Unit String) (step : TraceStep),
      startOver (Library.read "") (.whole String) "function f(a) \x7b var b = a; \x7d f(1);" [] () Setting.zeros = .ok first ∧
        Reached first t ∧ t.collect = .ok step ∧
        (step.frames.getD []).map StackFrame.orderedLocals = [some ["f"], some ["this", "a", "b"]] ∧
        List.Forall₂ (fun s frame => ∃ name names n,
          t.stepper.machine.scopeOwner t.setting t.stepper.machine.stack.reverse s.scope = .ok (name, names, n) ∧
            frame.functionName = name ∧ frame.functionCode = t.setting.text n ∧ frame.Lists n ∧
            ((frame.orderedLocals.getD []).Nodup ↔ ∀ x, ¬n.Redeclares x))
          (frameStates t.stepper.machine.stack.reverse) (step.frames.getD []) := by
  have hrun : (startOver (Library.read "") (.whole String) "function f(a) \x7b var b = a; \x7d f(1);"
      ([] : List (SessionFunction Unit)) () Setting.zeros).toOption.any fun first =>
        (first.walk? 4).any fun t => t.collect.toOption.any fun step =>
          (step.frames.getD []).map StackFrame.orderedLocals = [some ["f"], some ["this", "a", "b"]] := by
    decide +kernel
  obtain ⟨first, hfirst, hrun⟩ := (Option.any_eq_true _ _).1 hrun
  obtain ⟨t, hw, hrun⟩ := (Option.any_eq_true _ _).1 hrun
  obtain ⟨step, hstep, hrun⟩ := (Option.any_eq_true _ _).1 hrun
  have hstart : startOver (Library.read "") (.whole String) "function f(a) \x7b var b = a; \x7d f(1);" []
      () Setting.zeros = .ok first :=
    eq_ok_of_toOption hfirst
  have hcollect : t.collect = .ok step := eq_ok_of_toOption hstep
  exact ⟨first, t, step, hstart, reached_walk? hw, hcollect, of_decide_eq_true hrun,
    collect_lists (fun _ _ => rfl) hstart (reached_walk? hw) hcollect⟩

/-- A parameter that is declared again is listed twice, although the table has one entry for it. -/
theorem collect_repeats :
    ∃ (first t : Session Unit String) (step : TraceStep),
      startOver (Library.read "") (.whole String) "function f(a) \x7b var a; \x7d f(1);" [] () Setting.zeros = .ok first ∧
        Reached first t ∧ t.collect = .ok step ∧ ∃ frame ∈ step.frames.getD [],
          ¬(frame.orderedLocals.getD []).Nodup ∧ frame.locals.map Std.TreeMap.keys = some ["a", "this"] := by
  have hrun : (startOver (Library.read "") (.whole String) "function f(a) \x7b var a; \x7d f(1);"
      ([] : List (SessionFunction Unit)) () Setting.zeros).toOption.any fun first =>
        (first.walk? 4).any fun t => t.collect.toOption.any fun step => (step.frames.getD []).any fun frame =>
          ¬(frame.orderedLocals.getD []).Nodup ∧ frame.locals.map Std.TreeMap.keys = some ["a", "this"] := by
    decide +kernel
  obtain ⟨first, hfirst, hrun⟩ := (Option.any_eq_true _ _).1 hrun
  obtain ⟨t, hw, hrun⟩ := (Option.any_eq_true _ _).1 hrun
  obtain ⟨step, hstep, hrun⟩ := (Option.any_eq_true _ _).1 hrun
  obtain ⟨frame, hframe, hrun⟩ := List.any_eq_true.1 hrun
  exact ⟨first, t, step, eq_ok_of_toOption hfirst, reached_walk? hw, eq_ok_of_toOption hstep, frame, hframe,
    of_decide_eq_true hrun⟩

end Session

end Stepwise

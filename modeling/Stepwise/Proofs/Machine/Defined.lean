import Stepwise.Proofs.Library.Script
import Stepwise.Proofs.Machine.Fault

/-!
# Programs whose names are defined

* `Machine.bound_enter`: what a program needs is bound when it starts, if its free names are known or declared.
* `Machine.Reachable.bound`: so what the states of the machine need is bound in all that the program comes to.
* `Machine.Bound.ne_notDefined`: then no rule misses a name.
* `Machine.raises_defined`: a program in which the linter finds no undefined name, and which deletes nothing, raises no
  exception about a name, unless a function that is declared in a handler uses the parameter of the handler. That
  function is hoisted out of the handler, where the linter still sees the parameter around it.
-/

namespace Stepwise

open Heap RuleM

variable {ω : Type}

/-- A node needs the names that its rule reads or assigns. -/
theorem Node.needs_of_ownNames {n : Node} {x : String} (hx : x ∈ n.ownNames) : x ∈ n.needs := by
  have hdeclared {d : Declaration} (hi : n.identifier? = none) (hd : d ∈ n.declarations) : d.name ∈ n.needs := by
    unfold needs
    rw [hi]
    exact List.mem_append_right _ (List.mem_map_of_mem hd)
  unfold ownNames at hx
  split at hx
  · exact hx
  · obtain ⟨d, hd, rfl⟩ := List.mem_map.1 hx
    exact hdeclared (d := .var d.name) rfl (List.mem_map_of_mem hd)
  · obtain ⟨d, hd, rfl⟩ := List.mem_map.1 hx
    exact hdeclared (d := .var d.name) rfl (List.mem_append_left _ (List.mem_map_of_mem hd))
  · cases List.mem_singleton.1 hx
    exact List.mem_append_left _ (mem_freeNames.2 (.inl List.mem_cons_self))
  · cases hx

/-! ### The findings of the linter -/

/-- What a program uses is known or declared by it, if the rule against undefined names finds nothing. -/
theorem Program.defined_of_check {p : Program} (h : ∀ f ∈ p.check, f.rule ≠ .noUndefined) {x : String}
    (hx : x ∈ (Node.program p).freeNames) : x ∈ knownGlobals ∨ x ∈ p.declarations.map Declaration.name := by
  by_contra hno
  obtain ⟨hknown, hdeclared⟩ := not_or.1 hno
  have hu : (NameScopes.resolve? [.ofProgram p] x).isSome = false := by
    have hfirst : (NameScope.ofProgram p).firstDeclaration? x = none := by
      refine List.find?_eq_none.2 fun d hd he => hdeclared ?_
      rw [← beq_iff_eq.1 he]
      exact List.mem_map_of_mem hd
    have hone : (NameScope.ofProgram p).resolve? x = none := by
      unfold NameScope.resolve?
      rw [hfirst]
      rfl
    unfold NameScopes.resolve?
    rw [List.findSome?_cons, hone]
    rfl
  obtain ⟨f, hf, he⟩ := (Node.reports_undefined_iff (Rule.restricted ++ Rule.hygiene) (by decide) (.program p)
    [.ofProgram p] []).2 ⟨x, hx, hknown, hu⟩
  exact h f (List.mem_mergeSort.2 hf) he

namespace Machine

variable {c : Setting ω} {m m' : Machine}

/-! ### The start -/

/-- A program that is pushed on nothing has what it needs, if its free names are bound before or declared by it. -/
theorem bound_enter (hc : c.IsTidy) (hm : m.Bound c) (hstack : m.stack = []) {p : Program}
    (hp : c.Holds (.program p)) (hfree : ∀ x ∈ (Node.program p).freeNames,
      m.heap.Binds m.global x ∨ x ∈ p.declarations.map Declaration.name) : (m.enter c p).Bound c := by
  have hf := hm.heap.toFiled
  have b := builds_hoist m.heap p.declarations m.global
  have hdeclared {x : String} (hx : x ∈ p.declarations.map Declaration.name) :
      (m.heap.hoist p.declarations m.global).Binds m.global x := by
    obtain ⟨d, hd, rfl⟩ := List.mem_map.1 hx
    exact (declares_hoist hf hm.global hd).binds
  have hbound : ∀ x ∈ (Node.program p).freeNames, (m.heap.hoist p.declarations m.global).Binds m.global x :=
    fun x hx => (hfree x hx).elim (b.binds hf) hdeclared
  refine ⟨wellFormed_enter hm.toWellFormed p, ?_, ?_⟩
  · have hstack' : (m.enter c p).stack = [{ id := m.lastId + 1, node := c.resolve (.program p), scope := m.global }] := by
      show _ :: m.stack = _
      rw [hstack]
    rw [hstack', List.forall_mem_singleton, hc.resolve_of_mem hc.size hp]
    refine ⟨hc.node?_of_mem hc.size hp, fun x hx => ?_, nofun, nofun⟩
    exact (List.mem_append.1 hx).elim (hbound x) hdeclared
  · refine Heap.Encloses.builds hm.encloses hf b fun id scope hmade => ?_
    obtain ⟨d, hd, hcode⟩ := hmade
    cases hcode
    exact closes_declared hc hp hbound hd

theorem declares_bindHost (hm : m.WellFormed) (name : String) : (m.bindHost name).heap.Declares m.global name := by
  have hn : FunctionInfo.IsNamed ⟨name, .native ("host." ++ name), 0⟩ := by simp [FunctionInfo.IsNamed]
  obtain ⟨hf, g⟩ := (builds_newFunction m.heap hn).keeps hm.heap.toFiled
  exact declares_putHidden hf (g.isSome_scope? hm.global) _ _

/-- Binding the functions of the host keeps names bound, and functions enclosed. -/
theorem binds_bindHosts (hm : m.WellFormed) (he : m.heap.Encloses c) (names : List String) :
    (names.foldl bindHost m).heap.Encloses c ∧ (names.foldl bindHost m).global = m.global ∧
      ∀ x, m.heap.Binds m.global x ∨ x ∈ names → (names.foldl bindHost m).heap.Binds m.global x := by
  induction names generalizing m with
  | nil => exact ⟨he, rfl, fun x hx => hx.resolve_right List.not_mem_nil⟩
  | cons name names ih =>
    have b := builds_bindHost m name
    have he' : (m.bindHost name).heap.Encloses c :=
      Heap.Encloses.builds he hm.heap.toFiled b fun id scope hmade => by cases hmade
    obtain ⟨henc, hglobal, hbinds⟩ := ih (wellFormed_bindHost hm name) he'
    refine ⟨henc, hglobal, fun x hx => hbinds x ?_⟩
    rcases hx with hx | hx
    · exact .inl (b.binds hm.heap.toFiled hx)
    · rcases List.mem_cons.1 hx with rfl | hx
      · exact .inl (declares_bindHost hm x).binds
      · exact .inr hx

/-- On the machine on which only the library has been installed, functions are enclosed, because none is of the
source. It binds what a checker knows, but for the names of the host. -/
theorem bound_bare (c : Setting ω) : bare.stack = [] ∧ bare.Bound c ∧
    ∀ x ∈ knownGlobals, x ∉ Library.hostNames → bare.heap.Binds bare.global x := by
  have hw := wellFormed_bare
  have hruns := @Library.runs_install
  have hdeclares := @Library.declares_install
  rw [bare_eq] at hw ⊢
  generalize Library.install = i at hw hruns hdeclares ⊢
  refine ⟨rfl, ⟨hw, List.forall_mem_nil _, fun hr => ?_⟩, fun x hx hh => (hdeclares hx hh).binds⟩
  obtain ⟨name, hcode, -⟩ := hruns hr
  cases hcode

/-- After the library's own code has run, functions are enclosed, and what a checker knows is bound, but for the names
of the host. -/
theorem binds_withLibrary (hc : c.IsTidy) (hl : (Node.program c.library).freeNames ⊆ Library.scriptNames)
    (h : withLibrary c = .ok m) :
    m.heap.Encloses c ∧ ∀ x ∈ knownGlobals, x ∉ Library.hostNames → m.heap.Binds m.global x := by
  have halone : c.alone.IsTidy :=
    ⟨⟨hc.program, hc.library, hc.nodes, hc.libraryNodes⟩, hc.size, hc.deletes, hc.spares⟩
  have hI : m.Bound c.alone ∧ ∀ x ∈ knownGlobals, x ∉ Library.hostNames → m.heap.Binds m.global x := by
    refine kept_withLibrary (I := fun m => m.Bound c.alone ∧ ∀ x ∈ knownGlobals, x ∉ Library.hostNames →
      m.heap.Binds m.global x) hc.toIsRead h ?_ ?_ ?_
    · obtain ⟨hstack, hbound, hglobals⟩ := bound_bare c.alone
      generalize bare = b at hstack hbound hglobals ⊢
      have hknown : ∀ x ∈ Library.scriptNames, x ∈ knownGlobals ∧ x ∉ Library.hostNames := by decide
      refine ⟨bound_enter halone hbound hstack (.inl (Node.mem_nodes_self _)) fun x hx => ?_, fun x hx hh => ?_⟩
      · obtain ⟨hx, hh⟩ := hknown x (hl hx)
        exact .inl (hglobals x hx hh)
      · exact (builds_hoist _ _ _).binds hbound.heap.toFiled (hglobals x hx hh)
    · rintro m m' s below mv f - - ⟨hm, hglobals⟩ ha
      refine ⟨hm.step halone ha, fun x hx hh => ?_⟩
      rw [ha.heap_eq.1, ha.heap_eq.2]
      exact (ha.binds halone hm).1 (hglobals x hx hh)
    · rintro m - ⟨hm, hglobals⟩
      have e := edits_hideVisible hm.heap (m.heap.intrinsic Intrinsic.arrayPrototype)
      have b := e.builds not_false hm.heap
      have hf := hm.heap.toFiled
      obtain ⟨hw, g⟩ := e.wellFormed hm.heap
      refine ⟨⟨⟨hw, List.forall_mem_nil _, g.isSome_scope? hm.global⟩, List.forall_mem_nil _, ?_⟩, fun x hx hh => ?_⟩
      · exact Heap.Encloses.builds hm.encloses hf b fun _ _ => False.elim
      · exact b.binds hf (hglobals x hx hh)
  exact ⟨hI.1.encloses, hI.2⟩

/-- A program starts with what it needs, if the host has its functions and what the program uses is known or
declared. -/
theorem bound_start (hc : c.IsTidy) (hl : (Node.program c.library).freeNames ⊆ Library.scriptNames)
    (hhost : ∀ x ∈ Library.hostNames, x ∈ c.host.map HostFunction.name)
    (hfree : ∀ x ∈ (Node.program c.program).freeNames,
      x ∈ knownGlobals ∨ x ∈ c.program.declarations.map Declaration.name)
    (h : start c = .ok m) : m.Bound c := by
  obtain ⟨l, names, hlibrary, hnames, rfl⟩ := start_eq h
  obtain ⟨henc, hglobals⟩ := binds_withLibrary hc hl hlibrary
  have hw := wellFormed_withLibrary hlibrary
  obtain ⟨henc, hglobal, hbinds⟩ := binds_bindHosts hw henc names
  have hstack : (names.foldl bindHost l).stack = [] := by
    rw [stack_bindHosts, (filed_withLibrary hlibrary).2.2]
  refine bound_enter hc ⟨wellFormed_bindHosts hw names, ?_, henc⟩ hstack (.inr (Node.mem_nodes_self _)) fun x hx => ?_
  · rw [hstack]
    exact List.forall_mem_nil _
  · refine (hfree x hx).imp_left fun hx => hglobal ▸ hbinds x ?_
    by_cases hh : x ∈ Library.hostNames
    · exact .inr ((hnames x).2 (hhost x hh))
    · exact .inl (hglobals x hx hh)

/-! ### Runs -/

variable {world : ω}

/-- What the states of the machine need is bound in all that the program comes to. -/
theorem Reachable.bound (hc : c.IsTidy) (hl : (Node.program c.library).freeNames ⊆ Library.scriptNames)
    (hhost : ∀ x ∈ Library.hostNames, x ∈ c.host.map HostFunction.name)
    (hfree : ∀ x ∈ (Node.program c.program).freeNames,
      x ∈ knownGlobals ∨ x ∈ c.program.declarations.map Declaration.name)
    (hh : ∀ f ∈ c.host, f.Sound) (hr : m.Reachable c world) : m.Bound c := by
  induction hr with
  | start h world => exact bound_start hc hl hhost hfree h
  | step hr hs ih =>
    obtain ⟨s, below, mv, f, ha⟩ := advances_of_step hh (hr.wellFormed hh) hs
    exact ih.step hc ha

/-- A name that a state needs, or that it holds the place of, is found. -/
theorem Bound.ne_notDefined (hm : m.Bound c) {s : State} (hs : s ∈ m.stack) {scope : ObjectId} {name : String}
    (hname : scope = s.scope ∧ name ∈ s.node.ownNames ∨ s.ref = some (.variable scope name)) :
    m.heap.lookup? scope name ≠ none := by
  have hsome : (m.heap.lookup? scope name).isSome := by
    refine Binds.isSome_lookup? ?_ hm.heap
    rcases hname with ⟨rfl, hown⟩ | href
    · exact (hm.bound s hs).needs name (Node.needs_of_ownNames hown)
    · exact (hm.bound s hs).place scope name href
  exact Option.isSome_iff_ne_none.1 hsome

/-- A program in which the linter finds no undefined name raises no exception about a name. It deletes nothing, the
host has its functions, and no function that is declared in a handler uses the parameter of the handler. -/
theorem raises_defined {source text : String} {program : Program} {host : List (HostFunction ω)} {maxDepth : Nat}
    {draws : Nat → Float}
    (hp : Program.ofSource source = .ok program) (hsize : program.nodes.length < 2 ^ 24)
    (hdeletes : ∀ n ∈ program.nodes, n.isDelete = false) (hcheck : ∀ f ∈ program.check, f.rule ≠ .noUndefined)
    (hspares : ∀ k, .catchClause k ∈ program.nodes → k.SparesParam) (hplain : (Library.read text).IsPlain)
    (hl : (Node.program (Library.read text)).freeNames ⊆ Library.scriptNames) (hh : ∀ f ∈ host, f.Sound)
    (hhost : ∀ x ∈ Library.hostNames, x ∈ host.map HostFunction.name)
    (hr : m.Reachable (Setting.ofPrograms (Library.read text) program host maxDepth draws) world) {t : Throw}
    (ht : m.Raises (Setting.ofPrograms (Library.read text) program host maxDepth draws) t) : t.type ≠ .referenceError := by
  have hc : (Setting.ofPrograms (Library.read text) program host maxDepth draws).IsTidy := by
    generalize hlibrary : Library.read text = library at hplain
    refine ⟨hlibrary ▸ Setting.isRead_ofPrograms hp text host maxDepth draws, hsize, ?_, ?_⟩
    · exact fun n hn => hn.elim (hplain.deletes n) (hdeletes n)
    · exact fun k hk => hk.elim (fun h => absurd h (hplain.handlers k)) (hspares k)
  have hm := hr.bound hc hl hhost (fun x hx => Program.defined_of_check hcheck hx) hh
  obtain ⟨s, hs, hordinary | ⟨what, rfl, -⟩ | ⟨scope, name, -, hnone, hname⟩⟩ := hr.raises_cases hc.toIsRead hsize hh ht
  · exact hordinary.1
  · exact ErrorType.noConfusion
  · exact absurd hnone (hm.ne_notDefined hs hname)

/-- A function calls what is no function, but is bound. -/
theorem raises_defined_call :
    ∃ (program : Program) (m : Machine) (world : World Unit) (t : Throw),
      let c : Setting (World Unit) := Setting.ofPrograms (Library.read "") program
        [(SessionFunction.input fun _ u => (.ok "1", u)).toHost, SessionFunction.output.toHost]
        Setting.defaultDepth Setting.zeros
      Program.ofSource "var g = output(); function f() { g(); } f();" = .ok program ∧
        m.Reachable c world ∧ m.Raises c t ∧ t.type ≠ .referenceError := by
  let host : List (HostFunction (World Unit)) :=
    [(SessionFunction.input fun _ u => (.ok "1", u)).toHost, SessionFunction.output.toHost]
  have hl : Library.isChecked (.program (Library.read "")) := by decide +kernel
  have hrun : (Program.ofSource "var g = output(); function f() { g(); } f();").toOption.any fun program =>
      let c : Setting (World Unit) := Setting.ofPrograms (Library.read "") program host Setting.defaultDepth Setting.zeros
      program.nodes.length < 2 ^ 24 ∧ (∀ n ∈ program.nodes, n.isDelete = false) ∧
        (∀ f ∈ program.check, f.rule ≠ .noUndefined) ∧ (∀ n ∈ program.nodes, n.kind ≠ .catchClause) ∧
        ((withLibrary c).map fun l => (["input", "output"].foldl bindHost l).enter c program).toOption.any fun first =>
          let run := first.run c 17 ⟨⟨[[]]⟩, ()⟩
          run.outcome.isAdvanced ∧ (run.machine.raised? c).isSome := by
    decide +kernel
  obtain ⟨program, hparsed, hrun⟩ := (Option.any_eq_true _ _).1 hrun
  have hp := eq_ok_of_toOption hparsed
  obtain ⟨hsize, hdeletes, hcheck, hhandlers, hrun⟩ := of_decide_eq_true hrun
  obtain ⟨first, hfirst, hrun⟩ := (Option.any_eq_true _ _).1 hrun
  obtain ⟨hadvanced, hraised⟩ := of_decide_eq_true hrun
  have hsorted : (host.map HostFunction.name).Pairwise (· ≤ ·) := by decide +kernel
  have hnamed : "" ∉ host.map HostFunction.name := by decide +kernel
  have hstart := (start_of_sorted hsorted hnamed).trans (eq_ok_of_toOption hfirst)
  have hr := reachable_run 17 0 (.start hstart _) hadvanced
  obtain ⟨t, ht⟩ := Option.isSome_iff_exists.1 hraised
  have hraises := raises_of_raised? ht
  have hh : ∀ f ∈ host, f.Sound := by
    simp only [host, List.forall_mem_cons, List.not_mem_nil, false_imp_iff, implies_true, and_true]
    exact ⟨SessionFunction.sound_toHost _, SessionFunction.sound_toHost _⟩
  have hspares : ∀ k, .catchClause k ∈ program.nodes → k.SparesParam := fun k hk => absurd rfl (hhandlers _ hk)
  exact ⟨program, _, _, t, hp, hr, hraises, raises_defined hp hsize hdeletes hcheck hspares
    (Library.isPlain_of_isChecked hl) (Library.freeNames_of_isChecked hl) hh (by decide) hr hraises⟩

/-- A function that is declared in a handler does not see the parameter of the handler, but the linter does. -/
theorem raises_undefined_handler :
    ∃ (program : Program) (m : Machine),
      let c : Setting (World Unit) := Setting.ofPrograms (Library.read "") program
        [(SessionFunction.input fun _ u => (.ok "1", u)).toHost, SessionFunction.output.toHost]
        Setting.defaultDepth Setting.zeros
      Program.ofSource "f(); try {} catch (e) { function f() { e; } }" = .ok program ∧
        program.nodes.length < 2 ^ 24 ∧ (∀ n ∈ program.nodes, n.isDelete = false) ∧
        (∀ f ∈ program.check, f.rule ≠ .noUndefined) ∧ (∃ world, m.Reachable c world) ∧
        m.Raises c (.notDefined "e") := by
  let host : List (HostFunction (World Unit)) :=
    [(SessionFunction.input fun _ u => (.ok "1", u)).toHost, SessionFunction.output.toHost]
  -- the order of the findings does not matter
  have hrun : (Program.ofSource "f(); try {} catch (e) { function f() { e; } }").toOption.any fun program =>
      let c : Setting (World Unit) := Setting.ofPrograms (Library.read "") program host Setting.defaultDepth Setting.zeros
      program.nodes.length < 2 ^ 24 ∧ (∀ n ∈ program.nodes, n.isDelete = false) ∧
        (∀ f ∈ (Node.program program).findings (Rule.restricted ++ Rule.hygiene) [.ofProgram program],
          f.rule ≠ .noUndefined) ∧
        ((withLibrary c).map fun l => (["input", "output"].foldl bindHost l).enter c program).toOption.any fun first =>
          let run := first.run c 7 ⟨⟨[[]]⟩, ()⟩
          run.outcome.isAdvanced ∧ run.machine.raised? c = some (.notDefined "e") := by
    decide +kernel
  obtain ⟨program, hparsed, hrun⟩ := (Option.any_eq_true _ _).1 hrun
  have hp := eq_ok_of_toOption hparsed
  obtain ⟨hsize, hdeletes, hcheck, hrun⟩ := of_decide_eq_true hrun
  obtain ⟨first, hfirst, hrun⟩ := (Option.any_eq_true _ _).1 hrun
  obtain ⟨hadvanced, hraised⟩ := of_decide_eq_true hrun
  have hsorted : (host.map HostFunction.name).Pairwise (· ≤ ·) := by decide +kernel
  have hnamed : "" ∉ host.map HostFunction.name := by decide +kernel
  have hstart := (start_of_sorted hsorted hnamed).trans (eq_ok_of_toOption hfirst)
  have hr := reachable_run 7 0 (.start hstart _) hadvanced
  exact ⟨program, _, hp, hsize, hdeletes, fun f hf => hcheck f (List.mem_mergeSort.1 hf), ⟨_, hr⟩,
    raises_of_raised? hraised⟩

end Machine

end Stepwise

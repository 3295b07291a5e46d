import Stepwise.Lint.Check
import Stepwise.Proofs.Heap.Builds
import Stepwise.Proofs.Heap.Install
import Stepwise.Proofs.Machine.Bound
import Stepwise.Proofs.Machine.Jump

/-!
# Functions that are found

* `Library.runs_install`: the functions that exist before a program runs are native functions of the library.
* `Library.declares_install`: the global scope binds every name that a checker knows, except those of the host. Both are
  read off the heap, which is evaluated.
* `Machine.kept_withLibrary`: what the steps of the library's own code keep holds after it has run.
* `Heap.Knows`: the machine finds the node of every function of the source, and every native function by its name.
* `Machine.Reachable.knows`: so it does in every heap that a program comes to.
-/

/-! ### How a program starts -/

namespace Stepwise.Library

/-- The names that the host binds. -/
def hostNames : List String := ["input", "output"]

theorem install_natives : install.2.objects.toList.all fun (_, o) => o.func.all fun f =>
    match f.code with
    | .native name => (native? name).isSome
    | .closure .. => false := by
  decide +kernel

theorem install_bindings :
    knownGlobals.all fun x => hostNames.contains x || (install.2.binding? install.1 x).isSome := by
  decide +kernel

/-- Only native functions of the library exist before a program runs. -/
theorem runs_install {code : FunctionCode} (h : install.2.Runs code) :
    ∃ name, code = .native name ∧ (native? name).isSome := by
  obtain ⟨id, o, f, ho, hf, rfl⟩ := h
  have hall := List.all_eq_true.1 install_natives (id, o) (Std.ExtTreeMap.mem_toList_iff_getElem?_eq_some.2 ho)
  simp only [hf, Option.all_some] at hall
  split at hall
  · exact ⟨_, ‹_›, hall⟩
  · cases hall

theorem declares_install {x : String} (hx : x ∈ knownGlobals) (hh : x ∉ hostNames) :
    install.2.Declares install.1 x := by
  refine ⟨?_, ?_⟩
  · rw [filed_install.2]
    rfl
  · have hall := List.all_eq_true.1 install_bindings x hx
    rw [Bool.or_eq_true] at hall
    exact hall.resolve_left fun h => hh (List.contains_iff_mem.1 h)

end Stepwise.Library

namespace Stepwise.Machine

variable {ω : Type} {c : Setting ω} {m : Machine}

/-- What holds when the library's own code starts, and is kept by steps that advance, holds when it has ended. -/
theorem kept_run {I : Machine → Prop} {world : ω} (hm : I m)
    (hstep : ∀ m m' world world', I m → m.step c world = (.advanced, m', world') → I m') (limit done : Nat)
    (hended : (run.go c limit done m world).outcome = .ended) : I (run.go c limit done m world).machine := by
  induction limit generalizing done m world with
  | zero => cases hended
  | succ limit ih =>
    unfold run.go at hended ⊢
    rcases hs : m.step c world with ⟨outcome, m', world'⟩
    rw [hs] at hended
    cases outcome with
    | advanced => exact ih (hstep m m' world world' hm hs) (done + 1) hended
    | ended =>
      obtain ⟨rfl, -⟩ := ended_of_step hs
      exact hm
    | exception | fault => cases hended

/-- A program that is pushed on nothing can be found, like its scope. -/
theorem sound_enter (hc : c.IsRead) (hf : m.heap.Filed) (hg : (m.heap.scope? m.global).isSome) (hm : m.stack = [])
    {p : Program} (hp : c.Holds (.program p)) : (m.enter c p).Sound c := by
  have hk := keeps_enter (c := c) hf p
  have hstack : (m.enter c p).stack = [{ id := m.lastId + 1, node := c.resolve (.program p), scope := m.global }] := by
    show _ :: m.stack = _
    rw [hm]
  refine ⟨hk.heap.1, ?_, ?_, ?_, ?_⟩ <;> rw [hstack]
  · exact List.forall_mem_singleton.2 (hc.node?_resolve hp)
  · exact List.forall_mem_singleton.2 (hk.scope hg)
  · exact List.pairwise_singleton _ _
  · exact List.forall_mem_singleton.2 (Nat.le_refl _)

/-- What the steps of the library's own code keep holds after it has run. -/
theorem kept_withLibrary {I : Machine → Prop} (hc : c.IsRead) (h : withLibrary c = .ok m)
    (hbare : I (bare.enter c.alone c.library))
    (hstep : ∀ {m m' s below mv f}, m.Sound c.alone → m.WellFormed → I m → m.Advances c.alone s below mv f m' → I m')
    (hend : ∀ m : Machine, m.WellFormed → I m →
      I { m with heap := m.heap.modify (m.heap.intrinsic Intrinsic.arrayPrototype) hideVisible, stack := [] }) :
    I m := by
  have halone : c.alone.IsRead := ⟨hc.program, hc.library, hc.nodes, hc.libraryNodes⟩
  have hlibrary : c.Holds (.program c.library) := .inl (Node.mem_nodes_self _)
  have hstack : bare.stack = [] := by rw [bare_eq]
  have hsound := sound_enter halone wellFormed_bare.heap.toFiled wellFormed_bare.global hstack hlibrary
  have hhost : ∀ f ∈ c.alone.host, f.Sound := by simp [Setting.alone]
  have hkeeps : ∀ f ∈ c.alone.host, f.Keeps := by simp [Setting.alone]
  obtain ⟨l, hended, hl, rfl⟩ := withLibrary_eq h
  have hkept := kept_run (I := fun m => m.Sound c.alone ∧ m.WellFormed ∧ I m)
    ⟨hsound, wellFormed_enter wellFormed_bare c.library, hbare⟩ (fun m m' world _ hm he => ?_) endless 0 hended
  · obtain ⟨-, hw, hm⟩ := hl ▸ hkept
    exact hend l hw hm
  · obtain ⟨hs, hw, hm⟩ := hm
    obtain ⟨s, below, mv, f, ha⟩ := advances_of_step hhost hw he
    have hw' := (lands_step hhost hw world).machine
    have hs' := sound_step halone hkeeps hs world
    rw [he] at hw' hs'
    exact ⟨hs', hw', hstep hs hw hm ha⟩

/-- Functions of the host that are in order are bound one after the other. -/
theorem start_of_sorted (hs : (c.host.map HostFunction.name).Pairwise (· ≤ ·))
    (hn : "" ∉ c.host.map HostFunction.name) :
    start c = (withLibrary c).map fun l => ((c.host.map HostFunction.name).foldl bindHost l).enter c c.program := by
  unfold start
  rw [List.mergeSort_of_pairwise (hs.imp fun h => decide_eq_true h)]
  cases withLibrary c with
  | error => rfl
  | ok l =>
    simp only [bind, Except.bind, pure, Except.pure, List.contains_iff_mem, if_neg hn]
    rfl

end Stepwise.Machine

/-! ### Names of functions -/

namespace Stepwise

open Heap RuleM

variable {ω : Type}

/-- The nodes of the functions of a heap are found, and their native functions have known names. -/
structure Heap.Knows (h : Heap) (c : Setting ω) (known : String → Prop) : Prop where
  closure : ∀ {id scope}, h.Runs (.closure id scope) → ((c.node? id).bind Node.callable?).isSome
  native : ∀ {name}, h.Runs (.native name) → known name

variable {c : Setting ω} {known : String → Prop} {h h' : Heap} {made : FunctionCode → Prop}

/-- Functions are found if the new ones are. -/
theorem Heap.Knows.builds (hk : h.Knows c known) (hf : h.Filed) (b : h.Builds made h')
    (hclosure : ∀ id scope, made (.closure id scope) → ((c.node? id).bind Node.callable?).isSome)
    (hnative : ∀ name, made (.native name) → known name) : h'.Knows c known :=
  ⟨fun hr => (b.runs hf hr).elim hk.closure (hclosure _ _), fun hr => (b.runs hf hr).elim hk.native (hnative _)⟩

theorem Heap.Knows.edits {loses : Prop} (hk : h.Knows c known) (e : h.Edits loses h') : h'.Knows c known :=
  ⟨fun hr => hk.closure (e.runs hr), fun hr => hk.native (e.runs hr)⟩

/-- Declarations make functions whose nodes are found. -/
theorem Heap.Knows.declared (hc : c.IsRead) (hsize : c.program.nodes.length < 2 ^ 24) {n : Node} (hn : c.Holds n)
    {scope : ObjectId} (hk : h.Knows c known) (hf : h.Filed)
    (b : h.Builds (fun code => ∃ d ∈ declaredFunctions n.declarations, code = .closure d.loc.id scope) h') :
    h'.Knows c known := by
  refine hk.builds hf b ?_ ?_
  · rintro id scope' ⟨d, hd, hcode⟩
    cases hcode
    obtain ⟨name, -, hcallable⟩ := exists_callable_of_declared hc hsize hn hd
    exact Option.isSome_of_eq_some hcallable
  · rintro name ⟨d, -, hcode⟩
    cases hcode

/-- Whatever a rule makes of the heap, functions are found. -/
theorem Effect.knows {f : Frame} {mv : Move} (hc : c.IsRead) (hsize : c.program.nodes.length < 2 ^ 24) (hf : f.Sound)
    (hn : c.Holds f.top.node) (hk : f.heap.Knows c known) (e : Effect c f mv h) : h.Knows c known := by
  have hfiled := hf.heap.toFiled
  cases e with
  | edits e => exact hk.edits e
  | @function callable hcall =>
    obtain ⟨closure, b, -, -⟩ := builds_evalFunction hfiled callable f.top.scope
    refine hk.builds hfiled b ?_ ?_
    · rintro id scope hmade
      cases hmade
      rw [Node.loc_of_callable hcall, hc.node?_of_mem hsize hn]
      exact Option.isSome_of_eq_some hcall
    · rintro name hmade
      cases hmade
  | @enter h id closure callable this args e hr hcall =>
    obtain ⟨hw, -⟩ := e.wellFormed hf.heap
    obtain ⟨n, hid, hcallable⟩ := Option.bind_eq_some_iff.1 hcall
    have hbody : c.Holds (.stmt (.block callable.body)) :=
      Setting.IsRead.mem_of_part (hc.mem_of_node? hid).1 (Setting.IsRead.part_of_callable hcallable)
    obtain ⟨b, -, -⟩ := builds_bindCall hw.toFiled closure callable this args
    exact (hk.edits e).declared hc hsize hbody hw.toFiled b

namespace Machine

variable {m m' : Machine}

theorem knows_enter (hc : c.IsRead) (hsize : c.program.nodes.length < 2 ^ 24) (hf : m.heap.Filed)
    (hk : m.heap.Knows c known) {p : Program} (hp : c.Holds (.program p)) : (m.enter c p).heap.Knows c known :=
  hk.declared hc hsize hp hf (builds_hoist m.heap p.declarations m.global)

theorem builds_bindHost (m : Machine) (name : String) :
    m.heap.Builds (· = .native ("host." ++ name)) (m.bindHost name).heap := by
  have hn : FunctionInfo.IsNamed ⟨name, .native ("host." ++ name), 0⟩ := by simp [FunctionInfo.IsNamed]
  exact (builds_newFunction m.heap hn).trans (builds_putHidden _ _ _ _)

theorem knows_bindHosts (hf : m.heap.Filed) (hk : m.heap.Knows c known) {names : List String}
    (hnames : ∀ name ∈ names, known ("host." ++ name)) : (names.foldl bindHost m).heap.Knows c known := by
  induction names generalizing m with
  | nil => exact hk
  | cons name names ih =>
    obtain ⟨hname, hnames⟩ := List.forall_mem_cons.1 hnames
    have b := builds_bindHost m name
    refine ih (b.keeps hf).1 (hk.builds hf b ?_ ?_) hnames
    · rintro id scope hmade
      cases hmade
    · rintro name' hmade
      cases hmade
      exact hname

/-- A native function that the library or the host has. -/
def IsRegistered (c : Setting ω) (name : String) : Prop := (Library.native? name).isSome ∨ (c.host? name).isSome

theorem Advances.knows {s : State} {below : List State} {mv : Move} {f : Frame} (hc : c.IsRead)
    (hsize : c.program.nodes.length < 2 ^ 24) (hw : m.WellFormed) (hn : c.Holds s.node) (hk : m.heap.Knows c known)
    (ha : m.Advances c s below mv f m') : m'.heap.Knows c known := by
  rw [ha.heap_eq.1]
  exact ha.effect.knows hc hsize ⟨hw.heap, hw.stack s (ha.stack ▸ List.mem_cons_self)⟩ hn hk

theorem knows_bare (hknown : ∀ name, (Library.native? name).isSome → known name) : bare.heap.Knows c known := by
  have hruns := @Library.runs_install
  rw [bare_eq]
  generalize Library.install = i at hruns ⊢
  refine ⟨fun hr => ?_, fun hr => ?_⟩
  · obtain ⟨name, hcode, -⟩ := hruns hr
    cases hcode
  · obtain ⟨name, hcode, hname⟩ := hruns hr
    cases hcode
    exact hknown _ hname

theorem knows_withLibrary (hc : c.IsRead) (hsize : c.program.nodes.length < 2 ^ 24)
    (hknown : ∀ name, (Library.native? name).isSome → known name) (h : withLibrary c = .ok m) :
    m.heap.Knows c known := by
  have halone : c.alone.IsRead := ⟨hc.program, hc.library, hc.nodes, hc.libraryNodes⟩
  have hknows : m.heap.Knows c.alone known := by
    refine kept_withLibrary (I := fun m => m.heap.Knows c.alone known) hc h ?_ ?_ ?_
    · exact knows_enter halone hsize filed_bare.1 (knows_bare hknown) (.inl (Node.mem_nodes_self _))
    · intro m m' s below mv f hs hw hk ha
      exact ha.knows halone hsize hw (halone.mem_of_node? (hs.node s (ha.stack ▸ List.mem_cons_self))).1 hk
    · exact fun m hw hk => hk.edits (edits_hideVisible hw.heap _)
  exact ⟨hknows.closure, hknows.native⟩

theorem isRegistered_host {name : String} (h : name ∈ c.host.map HostFunction.name) :
    IsRegistered c ("host." ++ name) := by
  obtain ⟨f, hf, rfl⟩ := List.mem_map.1 h
  exact .inr (List.find?_isSome.2 ⟨f, hf, beq_self_eq_true _⟩)

theorem knows_start (hc : c.IsRead) (hsize : c.program.nodes.length < 2 ^ 24) (h : start c = .ok m) :
    m.heap.Knows c (IsRegistered c) := by
  obtain ⟨l, names, hl, hnames, rfl⟩ := start_eq h
  have hf := (filed_withLibrary hl).1
  have hk : l.heap.Knows c (IsRegistered c) := knows_withLibrary hc hsize (fun _ => .inl) hl
  refine knows_enter hc hsize (keeps_bindHosts hf names).heap.1 (knows_bindHosts hf hk fun name hname => ?_)
    (.inr (Node.mem_nodes_self _))
  exact isRegistered_host ((hnames name).1 hname)

/-- In every heap that a program comes to, the functions of the source are found, and every native function is one
that the library or the host has. -/
theorem Reachable.knows (hc : c.IsRead) (hsize : c.program.nodes.length < 2 ^ 24) (hh : ∀ f ∈ c.host, f.Sound)
    {world : ω} (hr : m.Reachable c world) : m.heap.Knows c (IsRegistered c) := by
  induction hr with
  | start h world => exact knows_start hc hsize h
  | step hr hs ih =>
    have hw := hr.wellFormed hh
    obtain ⟨s, below, mv, f, ha⟩ := advances_of_step hh hw hs
    obtain ⟨site, hsits⟩ := hr.seated hc hsize hh s below (ha.stack ▸ List.suffix_refl _)
    exact ha.knows hc hsize hw hsits.stands.mem_nodes ih

end Machine

end Stepwise

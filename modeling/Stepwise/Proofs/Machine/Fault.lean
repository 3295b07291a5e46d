import Stepwise.Proofs.Library.Script
import Stepwise.Proofs.Lint.FreeName
import Stepwise.Proofs.Machine.Effect
import Stepwise.Proofs.Machine.Known
import Stepwise.Proofs.Machine.Place
import Stepwise.Proofs.Tree.Numbering

/-!
# How a program can fail

The parser, the rules against restricted syntax and the labels of jumps leave few ways for a machine to fail.

* `Program.isRefused_eq_false`: if the rules against restricted syntax find nothing, the machine refuses no node.
* `Setting.IsClean`: a setting whose code has no refused syntax, and whose jumps name labels around them.
* `Machine.Reachable.fault_cases`: the faults of a machine in such a setting.
* `Machine.Reachable.raises_cases`: what its rules raise.
* `Machine.step_sound`: so a program that was checked only comes to a fault when it calls too deep, when a call never
  ends, or at a `break` that is itself the statement with its label.
-/

namespace Stepwise

/-! ### Programs without restricted syntax -/

namespace Node

/-- What a rule finds at a part is among the findings of the whole. -/
theorem exists_findings (rules : List Rule) {n m : Node} (hm : m ∈ n.nodes) (scopes : NameScopes)
    (seen : List String) : ∃ scopes' seen', ∀ rule ∈ rules,
      rule.findings scopes' seen' m ⊆ (n.walk rules scopes seen).1 := by
  rw [nodes_eq] at hm
  rcases List.mem_cons.1 hm with rfl | hm
  · exact ⟨scopes, seen, fun rule hr f hf => here_subset_walk rules _ scopes seen (List.mem_flatMap.2 ⟨rule, hr, hf⟩)⟩
  · obtain ⟨c, hc, hm⟩ := List.mem_flatMap.1 hm
    obtain ⟨seen₁, hpart⟩ := part_subset_walk rules hc scopes seen
    obtain ⟨scopes', seen', hsub⟩ := exists_findings rules hm (scopes.enter n) seen₁
    exact ⟨scopes', seen', fun rule hr => List.Subset.trans (hsub rule hr) hpart⟩
termination_by sizeOf n
decreasing_by exact sizeOf_lt_of_mem_children hc

end Node

namespace Program

variable {p : Program} {n : Node}

/-- Without findings, no node breaks a rule. -/
theorem violations_eq_nil {rules : List Rule} (h : p.findings rules = []) (hn : n ∈ p.nodes) {rule : Rule}
    (hr : rule ∈ rules) : ∃ scopes seen, rule.violations scopes seen n = [] := by
  obtain ⟨scopes, seen, hsub⟩ := Node.exists_findings rules hn [.ofProgram p] []
  refine ⟨scopes, seen, ?_⟩
  have hnil : (Node.program p).findings rules [.ofProgram p] = [] := by
    rw [← List.length_eq_zero_iff, ← List.length_mergeSort, show List.mergeSort _ _ = [] from h]
    rfl
  have hfound := hsub rule hr
  rw [show ((Node.program p).walk rules [.ofProgram p] []).1 = [] from hnil, List.subset_nil] at hfound
  exact List.map_eq_nil_iff.1 hfound

/-- A program without restricted syntax has no node that the machine refuses. -/
theorem isRefused_eq_false (h : p.checkRestricted = []) (hn : n ∈ p.nodes) : n.isRefused = false := by
  have hrule (rule : Rule) (hr : rule ∈ Rule.restricted) {n : Node} (hn : n ∈ p.nodes) :
      ∃ scopes seen, rule.violations scopes seen n = [] := violations_eq_nil h hn hr
  by_contra href
  rw [Bool.not_eq_false] at href
  unfold Node.isRefused at href
  split at href
  · obtain ⟨scopes, seen, hv⟩ := hrule .noRegExp (by decide) hn
    cases hv
  · obtain ⟨scopes, seen, hv⟩ := hrule .noTryCatch (by decide) hn
    cases hv
  · obtain ⟨scopes, seen, hv⟩ := hrule .noWith (by decide) hn
    cases hv
  · obtain ⟨q, hq, hkind⟩ := List.any_eq_true.1 href
    have hq : Node.property q ∈ p.nodes := Node.mem_nodes_of_mem_children hn (List.mem_map_of_mem hq)
    obtain ⟨scopes, seen, hv⟩ := hrule .noGetterSetter (by decide) hq
    unfold Rule.violations at hv
    dsimp only at hv
    rw [if_neg (bne_iff_ne.1 hkind)] at hv
    cases hv
  · cases href

end Program

/-! ### Targets of jumps -/

open RuleM

variable {ω : Type}

/-- Whether a jump at the site names a label that it carries itself or that a statement around it carries, a loop
if it is a `continue`. -/
def Site.names (site : Site) (label : String) (isContinue : Bool) : Bool :=
  (if isContinue then site.loops else site.labels ++ site.outer).contains label

/-- A jump without a label that stands in its place is offered its target. -/
theorem Site.offers_of_placed {n : Node} {site : Site} {isContinue : Bool} (hn : n.isPlacedIn site.context)
    (hj : n.jump? = some (none, isContinue)) : site.offers none isContinue := by
  unfold Node.jump? at hj
  split at hj
  · rename_i l label
    cases label with
    | none =>
      cases hj
      exact hn
    | some i => cases hj
  · rename_i l label
    cases label with
    | none =>
      cases hj
      exact Bool.or_eq_true_iff.2 (.inl hn)
    | some i => cases hj
  · cases hj

/-- Every jump to a label names one that it may. -/
def Node.NamesTargets (root : Node) : Prop :=
  ∀ n site label isContinue, root.StandsAt n site → n.jump? = some (some label, isContinue) → site.names label isContinue

/-- Whether every jump to a label, at most so deep in a node at the site, names one that it may. -/
def Node.namesWithin : (depth : Nat) → Site → Node → Bool
  | 0, _, _ => false
  | depth + 1, site, n =>
    (n.jump?.all fun (label, isContinue) => label.all (site.names · isContinue)) &&
      n.children.all (namesWithin depth (n.siteInside site))

theorem Node.namesTargets_of_namesWithin {root : Node} {depth : Nat} (h : root.namesWithin depth {}) :
    root.NamesTargets := by
  have hall : ∀ n site, root.StandsAt n site → ∃ depth, n.namesWithin (depth + 1) site := by
    intro n site hs
    induction hs with
    | root =>
      cases depth with
      | zero => cases h
      | succ depth => exact ⟨depth, h⟩
    | part _ hp ih =>
      obtain ⟨depth, hn⟩ := ih
      have hpart := List.all_eq_true.1 (Bool.and_eq_true_iff.1 hn).2 _ hp
      cases depth with
      | zero => cases hpart
      | succ depth => exact ⟨depth, hpart⟩
  intro n site label isContinue hs hj
  obtain ⟨depth, hn⟩ := hall n site hs
  have hhere := (Bool.and_eq_true_iff.1 hn).1
  rwa [hj] at hhere

/-- A setting that was read, whose program is not huge, without syntax that is refused. Its jumps to labels name
statements around them. -/
structure Setting.IsClean (c : Setting ω) : Prop extends c.IsRead where
  size : c.program.nodes.length < 2 ^ 24
  refuses : ∀ n, c.Holds n → n.isRefused = false
  names : ∀ n site label isContinue, c.StandsAt n site → n.jump? = some (some label, isContinue) →
    site.names label isContinue

/-- A function of the host that stops with no fault. -/
def HostFunction.NeverFaults (f : HostFunction ω) : Prop := ∀ call h world e, (f.run call h world).1 ≠ .error (.fault e)

theorem Setting.names_ofPrograms {program : Program} {library : Program} {host : List (HostFunction ω)} {maxDepth : Nat}
    {draws : Nat → Float}
    (hn : (Node.program program).NamesTargets) (hl : library.IsPlain) {n : Node} {site : Site} {label : String}
    {isContinue : Bool} (hs : (ofPrograms library program host maxDepth draws).StandsAt n site)
    (hj : n.jump? = some (some label, isContinue)) : site.names label isContinue := by
  rcases hs with hs | hs
  · exact hn n site label isContinue hs hj
  · cases hl.labels n hs.mem_nodes _ _ hj

theorem Setting.isClean_ofPrograms {source text : String} {program : Program} (hp : Program.ofSource source = .ok program)
    (hsize : program.nodes.length < 2 ^ 24) (hr : program.checkRestricted = [])
    (hn : (Node.program program).NamesTargets) (hl : (Library.read text).IsPlain) (host : List (HostFunction ω))
    (maxDepth : Nat) (draws : Nat → Float) : (ofPrograms (Library.read text) program host maxDepth draws).IsClean := by
  generalize hlibrary : Library.read text = library at hl
  have hc : (ofPrograms library program host maxDepth draws).IsRead :=
    hlibrary ▸ isRead_ofPrograms hp text host maxDepth draws
  refine ⟨hc, hsize, ?_, fun n site label isContinue hs hj => names_ofPrograms hn hl hs hj⟩
  rintro n (h | h)
  · exact hl.refuses n h
  · exact Program.isRefused_eq_false hr h

/-- The library's own code can be run with every program. -/
theorem Setting.isClean_ofProgram {source : String} {program : Program} (hp : Program.ofSource source = .ok program)
    (hsize : program.nodes.length < 2 ^ 24) (hr : program.checkRestricted = [])
    (hn : (Node.program program).NamesTargets) (host : List (HostFunction ω)) (maxDepth : Nat) (draws : Nat → Float) :
    (ofProgram program host maxDepth draws).IsClean :=
  isClean_ofPrograms hp hsize hr hn Library.isPlain_script host maxDepth draws

/-- What a rule may start is evaluated. -/
theorem Node.isEvaluated_of_operand {n part : Node} (hp : part ∈ n.operands) : part.isEvaluated :=
  of_operand (P := fun n => n.isEvaluated) (fun _ => rfl) (fun _ => rfl) hp

section

variable {c : Setting ω} {f : Frame} {h : Heap} {t : Throw} {known : String → Prop}

/-- What is raised over a state with its place is ordinary, about a name that is not bound, or about syntax. -/
theorem Complains.raised_cases (hs : f.top.IsSupplied) (hf : Complains c f h (.raised t)) :
    t.IsOrdinary ∨ (∃ what, t = .unsupported what ∧ f.top.node.isRefused) ∨
      ∃ scope name, t = .notDefined name ∧ f.heap.lookup? scope name = none ∧
        (scope = f.top.scope ∧ name ∈ f.top.node.ownNames ∨ f.top.ref = some (.variable scope name)) := by
  cases hf with
  | ordinary ht => exact .inl ht
  | unbound hn hl => exact .inr (.inr ⟨_, _, rfl, hl, hn⟩)
  | place ha hr =>
    have hsome := hs ha
    rw [hr] at hsome
    cases hsome
  | refused hn => exact .inr (.inl ⟨_, rfl, hn⟩)

/-- Where functions are found, a rule of a node that is evaluated has no fault but an endless chain of calls. -/
theorem Complains.fault_eq (hk : h.Knows c known) (hn : f.top.node.isEvaluated) {e : Fault}
    (hf : Complains c f h (.fault e)) : e = .endlessCalls := by
  cases hf with
  | endless => rfl
  | missing hr hnone =>
    have hsome := hk.closure hr
    rw [hnone] at hsome
    cases hsome
  | unexpected hno =>
    rw [hn] at hno
    cases hno

end

/-- The fault of an outcome. -/
def Outcome.fault? : Outcome → Option Fault
  | .fault e => some e
  | .advanced | .ended | .exception _ => none

theorem Outcome.eq_of_fault? {o : Outcome} {e : Fault} (h : o.fault? = some e) : o = .fault e := by
  cases o with
  | fault e' =>
    cases h
    rfl
  | advanced | ended | exception => cases h

namespace Machine

/-- The rule of the state on top raises an exception, or a call does that a function of the host asks for in its place,
whatever this function has made of the heap. -/
inductive Raises (c : Setting ω) (m : Machine) (t : Throw) : Prop where
  | rule {s : State} {below : List State} {f : Frame} (hm : m.stack = s :: below) (hended : m.isEnded = false)
    (hrule : stepNode c below s.node ⟨s, m.heap⟩ = .error (.raised t) f)
  | resumed {s top : State} {below : List State} {h : Heap} {reply : Reply} {f : Frame} (hm : m.stack = s :: below)
    (hcall : s.node.isCall) (htop : s.Evolves top) (e : m.heap.Edits False h) (ht : top.In h) (hreply : reply.In h)
    (hresume : resume c below (.ok reply) ⟨top, h⟩ = .error (.raised t) f)

/-- What the rule of the state on top raises. -/
def raised? (c : Setting ω) (m : Machine) : Option Throw :=
  match m.stack with
  | [] => none
  | s :: below =>
    if m.isEnded then none
    else
      match stepNode c below s.node ⟨s, m.heap⟩ with
      | .error (.raised t) _ => some t
      | _ => none

variable {c : Setting ω} {m : Machine} {world : ω}

theorem raises_of_raised? {t : Throw} (h : m.raised? c = some t) : m.Raises c t := by
  unfold raised? at h
  split at h
  · cases h
  · rename_i s below hm
    split at h
    · cases h
    · rename_i hended
      split at h
      · rename_i t' f hr
        cases h
        exact .rule hm (Bool.eq_false_iff.2 hended) hr
      · cases h

theorem Reachable.evaluated (hc : c.IsRead) (hsize : c.program.nodes.length < 2 ^ 24) (hh : ∀ f ∈ c.host, f.Sound)
    (hr : m.Reachable c world) : ∀ s ∈ m.stack, s.node.isEvaluated := by
  induction hr with
  | start h world =>
    rw [stack_start_of_isRead hc h]
    exact List.forall_mem_singleton.2 rfl
  | @step m m' _ _ hr hs ih =>
    have hw := hr.wellFormed hh
    obtain ⟨s, below, mv, f, ha⟩ := advances_of_step hh hw hs
    obtain ⟨hs, hbelow⟩ := List.forall_mem_cons.1 (ha.stack ▸ ih)
    have hm' : ({ m with heap := f.heap }.apply c f.top below mv).1 = m' := congrArg Prod.fst ha.apply
    rw [← hm']
    refine forall_mem_apply (ha.top.node ▸ hs) hbelow ?_ (fun s v _ h => h) (fun s r _ h => h) (fun s v _ _ h => h)
    rintro node scope components labels rfl
    obtain ⟨site, hsits⟩ := hr.seated hc hsize hh s below (ha.stack ▸ List.suffix_refl _)
    rcases ha.push_cases hw.heap.toFiled with ⟨hp, -⟩ | ⟨hen, -, -⟩
    · rw [hc.resolve_of_mem hsize (hsits.stands.operand hp.operand).mem_nodes]
      exact Node.isEvaluated_of_operand hp.operand
    · obtain ⟨o, info, id, closure, callable, -, -, -, hcall, rfl, -⟩ := hen.body
      obtain ⟨n, hid, hcall⟩ := Option.bind_eq_some_iff.1 hcall
      rw [hc.resolve_of_mem hsize (Setting.IsRead.mem_of_part (hc.mem_of_node? hid).1
        (Setting.IsRead.part_of_callable hcall))]
      rfl

/-! ### Rules -/

section

variable {s : State} {below : List State} {f : Frame} {t : Throw}

/-- What a rule raises is ordinary, about a name that is not bound, or about syntax. -/
theorem Reachable.raises_cases (hc : c.IsRead) (hsize : c.program.nodes.length < 2 ^ 24)
    (hh : ∀ f ∈ c.host, f.Sound) (hr : m.Reachable c world) (ht : m.Raises c t) :
    ∃ s ∈ m.stack, t.IsOrdinary ∨ (∃ what, t = .unsupported what ∧ s.node.isRefused) ∨
      ∃ scope name, t = .notDefined name ∧ m.heap.lookup? scope name = none ∧
        (scope = s.scope ∧ name ∈ s.node.ownNames ∨ s.ref = some (.variable scope name)) := by
  have hw := hr.wellFormed hh
  have hsupplied := (hr.supplied hc hsize hh).top
  cases ht with
  | @rule s below f hm hended hrule =>
    have hsound : Frame.Sound ⟨s, m.heap⟩ := ⟨hw.heap, hw.stack s (hm ▸ List.mem_cons_self)⟩
    have hfails := (stepNode_ends (c := c) below hsound).of_error hrule
    exact ⟨s, hm ▸ List.mem_cons_self, hfails.cause.raised_cases (hsupplied s (hm ▸ rfl))⟩
  | @resumed s top below h reply f hm hcall htop e ht hreply hresume =>
    have hfails := resume_fails (e.wellFormed hw.heap).1 hreply hcall htop ht hresume
    have hcause : Complains c ⟨s, m.heap⟩ f.heap (.raised t) := hfails.cause.of_call (htop.node ▸ hcall) rfl
    exact ⟨s, hm ▸ List.mem_cons_self, hcause.raised_cases (hsupplied s (hm ▸ rfl))⟩

/-- What is raised in a step, its rule raises or such a call, unless a function of the host fails with it. -/
theorem Asks.raises {world' : ω} (ha : m.Asks c s below world (.error (.raised t) f) world') (hh : ∀ f ∈ c.host, f.Sound)
    (hw : m.WellFormed) : m.Raises c t ∨ ∃ g ∈ c.host, ∃ call h w, (g.run call h w).1 = .error (.raised t) := by
  have hfailing : m.Failing c s below (.raised t) f := ha.ends hh hw
  cases hfailing with
  | rule hrule => exact .inl (.rule ha.stack ha.goes hrule)
  | refused hg hrun => exact .inr ⟨_, hg, _, _, _, hrun⟩
  | resumed hcall htop e ht hreply hresume => exact .inl (.resumed ha.stack hcall htop e ht hreply hresume)

end

/-! ### Steps -/

section

variable {s top : State} {below : List State} {mv : Move} {e : Fault}

/-- Only a jump or a `return` that finds nothing to go on with makes a fault of a move, but for the depth. -/
theorem fault_of_move (he : (m.move c top below mv).1 = .fault e) :
    e = .stackOverflow ∨ (∃ label isContinue, mv = .jump label isContinue) ∨
      ∃ v, mv = .return_ v ∧ (returnTo v (top :: below)).2 = false := by
  simp only [move] at he
  split at he
  · rename_i fault hf
    cases mv with
    | jump label isContinue => exact .inr (.inl ⟨label, isContinue, rfl⟩)
    | return_ v =>
      refine .inr (.inr ⟨v, rfl, ?_⟩)
      cases hfound : (returnTo v (top :: below)).2 with
      | false => rfl
      | true => simp [apply, hfound] at hf
    | _ => cases hf
  · split at he
    · cases he
      exact .inl rfl
    · cases he

/-- A `return` in its place finds the call that it returns from. -/
theorem Reachable.return_found (hc : c.IsRead) (hsize : c.program.nodes.length < 2 ^ 24) (hh : ∀ f ∈ c.host, f.Sound)
    (hr : m.Reachable c world) (hm : m.stack = s :: below) (hn : s.node.isReturn) (ht : s.Alike top) (v : Value) :
    (returnTo v (top :: below)).2 := by
  obtain ⟨site, hsits⟩ := hr.seated hc hsize hh s below (hm ▸ List.suffix_refl _)
  have hactive : ¬top.isActiveCall := fun ha => by
    have hcall := State.isCall_of_isActiveCall ha
    rw [ht.node] at hcall
    unfold Node.isReturn at hn
    unfold Node.isCall at hcall
    split at hn <;> simp_all
  have hplace := hc.placed hsits.stands
  rw [returnTo_cons hactive, hsits.return_]
  unfold Node.isReturn at hn
  split at hn
  · rename_i hnode
    rw [hnode] at hplace
    exact hplace
  · cases hn

/-- A jump that finds no target is a `break` that is itself the statement with its label. -/
theorem Reachable.fault_of_jump (hc : c.IsClean) (hh : ∀ f ∈ c.host, f.Sound) (hr : m.Reachable c world)
    (hm : m.stack = s :: below) {label : Option String} {isContinue : Bool}
    (hj : s.node.jump? = some (label, isContinue)) (he : (m.step c world).1 = .fault e) :
    e = .jumpWithoutTarget ∧ ∃ site l, c.StandsAt s.node site ∧ s.node.jump? = some (some l, false) ∧
      l ∈ site.labels ∧ l ∉ site.outer := by
  obtain ⟨site, hsits⟩ := hr.seated hc.toIsRead hc.size hh s below (hm ▸ List.suffix_refl _)
  rw [hr.outcome_of_jump hc.toIsRead hc.size hh hm hj hsits.stands] at he
  split at he
  · cases he
  · rename_i hoffers
    cases he
    refine ⟨rfl, site, ?_⟩
    cases label with
    | none =>
      refine absurd ?_ hoffers
      exact Site.offers_of_placed (hc.placed hsits.stands) hj
    | some l =>
      have hnames := hc.names _ _ _ _ hsits.stands hj
      cases isContinue with
      | true => exact absurd hnames hoffers
      | false =>
        have hmem : l ∈ site.labels ++ site.outer := List.contains_iff_mem.1 hnames
        have hnot : l ∉ site.outer := fun h => hoffers (List.contains_iff_mem.2 h)
        exact ⟨l, hsits.stands, hj, (List.mem_append.1 hmem).resolve_right hnot, hnot⟩

/-- The faults of a machine in a clean setting. -/
theorem Reachable.fault_cases (hc : c.IsClean) (hh : ∀ f ∈ c.host, f.Sound) (hn : ∀ f ∈ c.host, f.NeverFaults)
    (hr : m.Reachable c world) (he : (m.step c world).1 = .fault e) :
    e = .stackOverflow ∨ e = .endlessCalls ∨ e = .jumpWithoutTarget ∧ ∃ s ∈ m.stack.head?, ∃ site l,
      c.StandsAt s.node site ∧ s.node.jump? = some (some l, false) ∧ l ∈ site.labels ∧ l ∉ site.outer := by
  have hw := hr.wellFormed hh
  have hknows := hr.knows hc.toIsRead hc.size hh
  rcases hs : m.step c world with ⟨outcome, m', world'⟩
  obtain rfl : outcome = .fault e := (congrArg Prod.fst hs).symm.trans he
  cases takes_of_step hs with
  | @moved s below mv f _ _ _ ha hmove =>
    obtain ⟨-, htop, hfits⟩ := ha.ends hh hw
    rcases fault_of_move (congrArg Prod.fst hmove) with rfl | ⟨label, isContinue, rfl⟩ | ⟨v, rfl, hnone⟩
    · exact .inl rfl
    · have hjump : s.node.jump? = some (label, isContinue) := hfits.resolve_left id
      obtain ⟨hfault, hsite⟩ := hr.fault_of_jump hc hh ha.stack hjump he
      exact .inr (.inr ⟨hfault, s, by rw [ha.stack]; rfl, hsite⟩)
    · have hfound := hr.return_found hc.toIsRead hc.size hh ha.stack (hfits.resolve_left id) htop.toAlike v
      rw [hnone] at hfound
      cases hfound
  | @failed s below failure f _ _ _ ha hfail =>
    have hfails := ha.fails hh hw
    have hheap := hknows.edits hfails.edits
    cases failure with
    | fault e =>
      cases hfail
      rcases hfails.cause with hcause | ⟨g, hg, call, h, w, hrun⟩ | ⟨name, -, hnone, hruns, hnative⟩
      · refine .inr (.inl (hcause.fault_eq hheap ?_))
        exact hr.evaluated hc.toIsRead hc.size hh s (ha.stack ▸ List.mem_cons_self)
      · exact absurd hrun (hn g hg call h w e)
      · -- every function of the host that the heap knows is there
        have hsome := (hheap.native hruns).resolve_left (by rw [hnative]; exact Bool.noConfusion)
        rw [hnone] at hsome
        cases hsome
    | raised | thrown => cases hfail

end

/-- A program that is read without restricted syntax, whose jumps to labels name statements around them, has no
exception of the machine about its syntax. Its faults are calls that are too deep, calls that never end, and a `break`
that is itself the statement with its label: that is off the stack before the label is looked for. -/
theorem step_sound {source text : String} {program : Program} {host : List (HostFunction ω)} {maxDepth : Nat}
    {draws : Nat → Float}
    (hp : Program.ofSource source = .ok program) (hsize : program.nodes.length < 2 ^ 24)
    (hrestricted : program.checkRestricted = []) (hnames : (Node.program program).NamesTargets)
    (hl : (Library.read text).IsPlain) (hh : ∀ f ∈ host, f.Sound) (hn : ∀ f ∈ host, f.NeverFaults)
    (hr : m.Reachable (Setting.ofPrograms (Library.read text) program host maxDepth draws) world) :
    let c := Setting.ofPrograms (Library.read text) program host maxDepth draws
    (∀ e, (m.step c world).1 = .fault e →
      e = .stackOverflow ∨ e = .endlessCalls ∨ e = .jumpWithoutTarget ∧ ∃ s ∈ m.stack.head?, ∃ site l,
        c.StandsAt s.node site ∧ s.node.jump? = some (some l, false) ∧ l ∈ site.labels ∧ l ∉ site.outer) ∧
      ∀ t, m.Raises c t → t.type ≠ .syntaxError := by
  have hc := Setting.isClean_ofPrograms hp hsize hrestricted hnames hl host maxDepth draws
  refine ⟨fun e he => hr.fault_cases hc hh hn he, fun t ht => ?_⟩
  obtain ⟨s, hs, hordinary | ⟨what, -, hrefused⟩ | ⟨scope, name, rfl, -⟩⟩ := hr.raises_cases hc.toIsRead hsize hh ht
  · exact hordinary.2
  · obtain ⟨above, below, hm⟩ := List.append_of_mem hs
    obtain ⟨site, hsits⟩ := hr.seated hc.toIsRead hsize hh s below ⟨above, hm.symm⟩
    rw [hc.refuses _ hsits.stands.mem_nodes] at hrefused
    cases hrefused
  · exact ErrorType.noConfusion

/-- A function that calls itself calls too deep. -/
theorem step_sound_recursion :
    ∃ (program : Program) (m : Machine),
      let c : Setting Unit := Setting.ofPrograms (Library.read "") program [] 5 Setting.zeros
      Program.ofSource "a: for (;;) { break a; } function f() { f(); } f();" = .ok program ∧ m.Reachable c () ∧
        (m.step c ()).1 = .fault .stackOverflow ∧ ∀ t, m.Raises c t → t.type ≠ .syntaxError := by
  have hl : Library.isChecked (.program (Library.read "")) := by decide +kernel
  have hrun : (Program.ofSource "a: for (;;) { break a; } function f() { f(); } f();").toOption.any fun program =>
      let c : Setting Unit := Setting.ofPrograms (Library.read "") program [] 5 Setting.zeros
      program.nodes.length < 2 ^ 24 ∧ program.checkRestricted = [] ∧ (Node.program program).namesWithin 9 {} ∧
        (start c).toOption.any fun first =>
          let run := first.run c 15 ()
          run.outcome.isAdvanced ∧ (run.machine.step c ()).1.fault? = some .stackOverflow := by
    decide +kernel
  obtain ⟨program, hparsed, hrun⟩ := (Option.any_eq_true _ _).1 hrun
  have hp := eq_ok_of_toOption hparsed
  obtain ⟨hsize, hrestricted, hnames, hrun⟩ := of_decide_eq_true hrun
  obtain ⟨first, hfirst, hrun⟩ := (Option.any_eq_true _ _).1 hrun
  obtain ⟨hadvanced, hfault⟩ := of_decide_eq_true hrun
  have hr := reachable_run 15 0 (.start (eq_ok_of_toOption hfirst) ()) hadvanced
  obtain ⟨-, hraises⟩ := step_sound hp hsize hrestricted (Node.namesTargets_of_namesWithin hnames)
    (Library.isPlain_of_isChecked hl) (by simp) (by simp) hr
  exact ⟨program, _, hp, hr, Outcome.eq_of_fault? hfault, hraises⟩

/-- A `break` that is itself the statement with its label finds no target. -/
theorem step_fault_break :
    ∃ (program : Program) (m : Machine),
      let c : Setting Unit := Setting.ofPrograms (Library.read "") program [] Setting.defaultDepth Setting.zeros
      Program.ofSource "a: break a;" = .ok program ∧ program.nodes.length < 2 ^ 24 ∧ program.checkRestricted = [] ∧
        (Node.program program).NamesTargets ∧ (Library.read "").IsPlain ∧ m.Reachable c () ∧
        (m.step c ()).1 = .fault .jumpWithoutTarget := by
  have hl : Library.isChecked (.program (Library.read "")) := by decide +kernel
  have hrun : (after? (ω := Unit) "a: break a;" [] 2 ()).any fun x =>
      x.1.nodes.length < 2 ^ 24 ∧ x.1.checkRestricted = [] ∧ (Node.program x.1).namesWithin 9 {} ∧
        (x.2.1.step (Setting.ofPrograms (Library.read "") x.1 [] Setting.defaultDepth Setting.zeros) x.2.2).1.fault? =
          some .jumpWithoutTarget := by
    decide +kernel
  obtain ⟨⟨program, m, world⟩, hx, hrun⟩ := (Option.any_eq_true _ _).1 hrun
  obtain ⟨hp, hr⟩ := of_after? hx
  obtain ⟨hsize, hrestricted, hnames, hfault⟩ := of_decide_eq_true hrun
  exact ⟨program, m, hp, hsize, hrestricted, Node.namesTargets_of_namesWithin hnames,
    Library.isPlain_of_isChecked hl, hr, Outcome.eq_of_fault? hfault⟩

end Machine

end Stepwise

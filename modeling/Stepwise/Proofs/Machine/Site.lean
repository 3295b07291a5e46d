import Mathlib.Data.List.Nodup
import Mathlib.Data.List.Pairwise
import Stepwise.Proofs.Machine.Node
import Stepwise.Proofs.Tree.Outline

/-!
# Where nodes stand

A machine looks for the target of a jump on its stack. What it can find there is read off the tree.

* `Site`: what surrounds a node in its function: loops, a `switch`, statements with labels.
* `Node.StandsAt`: the sites of the parts of a tree.
* `Node.StandsAt.unique`: a node of a tree whose nodes differ stands at one place.
* `Setting.StandsAt`: the sites of the nodes of a program and its library.
-/

namespace Stepwise

/-- What surrounds a node, up to the function that it stands in. -/
structure Site where
  context : Context := {}
  /-- The labels of the node itself. -/
  labels : List String := []
  /-- The labels of the nodes around it. -/
  outer : List String := []
  /-- The labels of the loops around it. -/
  loops : List String := []

/-- Whether there is something around the site that a `break` leaves, or that a `continue` goes on with. -/
def Site.offers (site : Site) (label : Option String) (isContinue : Bool) : Bool :=
  match label with
  | some l => (if isContinue then site.loops else site.outer).contains l
  | none => site.context.inLoop || (!isContinue && site.context.inSwitch)

namespace Node

/-- Whether the node is a loop. -/
def isLoop : Node → Bool
  | stmt (.while_ ..) | stmt (.doWhile ..) | stmt (.for_ ..) | stmt (.forIn ..) => true
  | _ => false

/-- Whether the node is a `switch`. -/
def isSwitch : Node → Bool
  | stmt (.switch ..) => true
  | _ => false

/-- Whether the node is a function. -/
def isFunction : Node → Bool
  | stmt (.function ..) | expr (.function ..) => true
  | _ => false

/-- What surrounds the parts of a node that stands at a site. Nothing outside of a function is seen inside of it. -/
def siteInside (site : Site) (n : Node) : Site where
  context := n.inside site.context
  labels := n.handsDown site.labels
  outer := if n.isFunction then [] else site.labels ++ site.outer
  loops := if n.isFunction then [] else if n.isLoop then site.labels ++ site.loops else site.loops

/-- The parts of a tree, each with the site where it stands. -/
inductive StandsAt (root : Node) : Node → Site → Prop where
  | root : StandsAt root root {}
  | part {n part : Node} {site : Site} (h : StandsAt root n site) (hp : part ∈ n.children) :
    StandsAt root part (n.siteInside site)

/-! ### Trees -/

theorem sizeOf_le_of_mem_nodes {n m : Node} (h : m ∈ n.nodes) : sizeOf m ≤ sizeOf n := by
  rw [nodes_eq] at h
  rcases List.mem_cons.1 h with rfl | h
  · exact Nat.le_refl _
  · obtain ⟨c, hc, h⟩ := List.mem_flatMap.1 h
    exact Nat.le_trans (sizeOf_le_of_mem_nodes h) (Nat.le_of_lt (sizeOf_lt_of_mem_children hc))
termination_by sizeOf n
decreasing_by exact sizeOf_lt_of_mem_children hc

/-- A tree is no part of its own nodes. -/
theorem not_mem_children_of_mem_nodes {root n : Node} (hn : n ∈ root.nodes) : root ∉ n.children := fun h =>
  Nat.lt_irrefl _ (Nat.lt_of_lt_of_le (sizeOf_lt_of_mem_children h) (sizeOf_le_of_mem_nodes hn))

/-- In a tree whose nodes differ, every node is a part of one other at most. -/
theorem parent_unique {root n m part : Node} (hroot : root.nodes.Nodup) (hn : n ∈ root.nodes) (hm : m ∈ root.nodes)
    (hnp : part ∈ n.children) (hmp : part ∈ m.children) : n = m := by
  rw [nodes_eq, List.nodup_cons, List.nodup_flatMap] at hroot
  obtain ⟨-, hparts, hapart⟩ := hroot
  have hsame {c d k : Node} (hc : c ∈ root.children) (hd : d ∈ root.children) (hkc : k ∈ c.nodes) (hkd : k ∈ d.nodes) :
      c = d := by
    by_contra hne
    have : Std.Symm (Function.onFun List.Disjoint nodes) := ⟨fun _ _ => List.disjoint_symm⟩
    exact hapart.forall hc hd hne hkc hkd
  -- a part of the root does not lie deeper in it
  have hroot {c k : Node} (hc : c ∈ root.children) (hk : k ∈ c.nodes) (hp : part ∈ k.children) :
      part ∉ root.children := fun h => by
    cases hsame h hc (mem_nodes_self part) (mem_nodes_of_mem_children hk hp)
    exact not_mem_children_of_mem_nodes hk hp
  rw [nodes_eq, List.mem_cons, List.mem_flatMap] at hn hm
  rcases hn with rfl | ⟨c, hc, hn⟩
  · rcases hm with rfl | ⟨d, hd, hm⟩
    · rfl
    · exact absurd hnp (hroot hd hm hmp)
  · rcases hm with rfl | ⟨d, hd, hm⟩
    · exact absurd hmp (hroot hc hn hnp)
    · cases hsame hc hd (mem_nodes_of_mem_children hn hnp) (mem_nodes_of_mem_children hm hmp)
      exact parent_unique (hparts c hc) hn hm hnp hmp
termination_by sizeOf root
decreasing_by exact sizeOf_lt_of_mem_children hc

/-! ### Sites -/

section

variable {root n m : Node} {site site' : Site}

theorem isFunction_of_operand {part : Node} (hp : part ∈ n.operands) : n.isFunction = false := by
  unfold isFunction
  split
  · cases hp
  · cases hp
  · rfl

/-- What a node that is no function adds to its surroundings. -/
theorem inside_eq (hn : n.isFunction = false) (ctx : Context) :
    n.inside ctx = { ctx with inLoop := n.isLoop || ctx.inLoop, inSwitch := n.isSwitch || ctx.inSwitch } := by
  cases n with
  | stmt s => cases s with
    | function => cases hn
    | _ => rfl
  | expr e => cases e with
    | function => cases hn
    | _ => rfl
  | _ => rfl

theorem handsDown_of_joint {joint : Node} (hj : joint ∈ n.children) (h : joint.isJoint) (labels : List String) :
    n.handsDown labels = [] := by
  unfold handsDown
  split
  · simp only [children, List.mem_cons, List.not_mem_nil, or_false] at hj
    rcases hj with rfl | rfl <;> cases h
  · rfl

/-- A joint surrounds its parts with nothing of its own. -/
theorem siteInside_of_joint {joint : Node} (h : joint.isJoint) (hs : site.labels = []) : joint.siteInside site = site := by
  cases site
  cases hs
  cases joint with
  | declarator | switchCase | property => rfl
  | _ => cases h

namespace StandsAt

theorem mem_nodes (h : StandsAt root n site) : n ∈ root.nodes := by
  induction h with
  | root => exact mem_nodes_self root
  | part _ hp ih => exact mem_nodes_of_mem_children ih hp

theorem nodes {n m : Node} {site : Site} (h : StandsAt root n site) (hm : m ∈ n.nodes) : ∃ site', StandsAt root m site' := by
  rw [nodes_eq] at hm
  rcases List.mem_cons.1 hm with rfl | hm
  · exact ⟨site, h⟩
  · obtain ⟨c, hc, hm⟩ := List.mem_flatMap.1 hm
    exact (h.part hc).nodes hm
termination_by sizeOf n
decreasing_by exact sizeOf_lt_of_mem_children hc

theorem unique (hroot : root.nodes.Nodup) (h : StandsAt root n site) (h' : StandsAt root n site') : site = site' := by
  induction h generalizing site' with
  | root =>
    cases h' with
    | root => rfl
    | part h' hp => exact absurd hp (not_mem_children_of_mem_nodes h'.mem_nodes)
  | part h hp ih =>
    cases h' with
    | root => exact absurd hp (not_mem_children_of_mem_nodes h.mem_nodes)
    | part h' hp' =>
      cases parent_unique hroot h.mem_nodes h'.mem_nodes hp hp'
      rw [ih h']

/-- What a rule may start stands inside of its node. -/
theorem operand {part : Node} (h : StandsAt root n site) (hp : part ∈ n.operands) :
    StandsAt root part (n.siteInside site) := by
  rcases part_of_operand hp with hp | ⟨joint, hj, hjoint, hp⟩
  · exact h.part hp
  · have hsite : joint.siteInside (n.siteInside site) = n.siteInside site :=
      siteInside_of_joint hjoint (handsDown_of_joint hj hjoint site.labels)
    exact hsite ▸ (h.part hj).part hp

/-- The body of a function sees nothing around the function. -/
theorem body {callable : Callable} (h : StandsAt root n site) (hn : n.callable? = some callable) :
    StandsAt root (.stmt (.block callable.body)) { context := .functionBody } := by
  unfold callable? at hn
  split at hn
  · cases hn
    exact h.part (by simp [children])
  · cases hn
    exact h.part (by simp [children])
  · cases hn

theorem placed (h : StandsAt root n site) (hroot : root.placed {}) : n.placed site.context := by
  induction h with
  | root => exact hroot
  | part _ hp ih => exact (placed_iff.1 ih).2 _ hp

end StandsAt

end

end Node

theorem Consecutive.nodup {a b : Int} {ns : List Node} (h : Consecutive a ns b) : ns.Nodup := by
  induction ns generalizing a with
  | nil => exact .nil
  | cons n ns ih =>
    refine .cons (fun hn => ?_) (ih h.2)
    have hle := (h.2.le_id hn).1
    rw [h.1] at hle
    omega

/-! ### Programs and their library -/

variable {ω : Type}

namespace Setting

/-- Where a node of the program or of the library stands. -/
def StandsAt (c : Setting ω) (n : Node) (site : Site) : Prop :=
  Node.StandsAt (.program c.program) n site ∨ Node.StandsAt (.program c.library) n site

variable {c : Setting ω} {n part : Node} {site site' : Site}

namespace StandsAt

theorem mem_nodes (h : c.StandsAt n site) : n ∈ c.library.nodes ∨ n ∈ c.program.nodes :=
  h.symm.imp Node.StandsAt.mem_nodes Node.StandsAt.mem_nodes

theorem exists_of_mem (h : n ∈ c.library.nodes ∨ n ∈ c.program.nodes) : ∃ site, c.StandsAt n site := by
  rcases h with h | h
  · obtain ⟨site, h⟩ := Node.StandsAt.root.nodes h
    exact ⟨site, .inr h⟩
  · obtain ⟨site, h⟩ := Node.StandsAt.root.nodes h
    exact ⟨site, .inl h⟩

theorem operand (h : c.StandsAt n site) (hp : part ∈ n.operands) : c.StandsAt part (n.siteInside site) :=
  h.imp (·.operand hp) (·.operand hp)

theorem body {callable : Callable} (h : c.StandsAt n site) (hn : n.callable? = some callable) :
    c.StandsAt (.stmt (.block callable.body)) { context := .functionBody } :=
  h.imp (·.body hn) (·.body hn)

end StandsAt

/-- The numbers of the program and of the library differ, and so do their nodes. -/
theorem IsRead.apart (hc : c.IsRead) (hsize : c.program.nodes.length < 2 ^ 24) (hp : n ∈ c.program.nodes)
    (hl : n ∈ c.library.nodes) : False := by
  obtain ⟨next, hprogram⟩ := hc.consecutive
  obtain ⟨text, htext⟩ := hc.library
  obtain ⟨first, last, hlibrary, hfirst⟩ := Library.consecutive_read text
  rw [← htext] at hlibrary
  have hid := hprogram.le_id hp
  have hid' := hlibrary.le_id hl
  have hnext := hprogram.next_eq
  have hscript : Library.scriptFirst = ((2 ^ 24 : Nat) : Int) := rfl
  omega

/-- No node of the program or of its library comes twice. -/
theorem IsRead.nodup (hc : c.IsRead) : (Node.program c.program).nodes.Nodup ∧ (Node.program c.library).nodes.Nodup := by
  obtain ⟨next, hprogram⟩ := hc.consecutive
  obtain ⟨text, htext⟩ := hc.library
  obtain ⟨first, last, hlibrary, -⟩ := Library.consecutive_read text
  rw [← htext] at hlibrary
  exact ⟨hprogram.nodup, hlibrary.nodup⟩

/-- Every node of the program and the library stands at one place. -/
theorem IsRead.site_unique (hc : c.IsRead) (hsize : c.program.nodes.length < 2 ^ 24) (h : c.StandsAt n site)
    (h' : c.StandsAt n site') : site = site' := by
  obtain ⟨hprogram, hlibrary⟩ := hc.nodup
  rcases h with h | h <;> rcases h' with h' | h'
  · exact h.unique hprogram h'
  · exact (hc.apart hsize h.mem_nodes h'.mem_nodes).elim
  · exact (hc.apart hsize h'.mem_nodes h.mem_nodes).elim
  · exact h.unique hlibrary h'

end Setting

end Stepwise

import Stepwise.Parse.Program
import Stepwise.Tree.Kind
import Stepwise.Tree.Walk

/-!
# Trees without their numbers

* `Node.placed`: in a node and its parts, a `return` stands in a function, a `break` or `continue` without a label
  stands in what it leaves or goes on with, and only what can hold a value is assigned to.
* `Node.placed_mono`: what may stand somewhere may also stand deeper inside.
* `Node.isLawful`: what a node of a program obeys by itself, as jumps and targets do in their places.
* `Node.isRegular`: such a node that binds no keyword.
* `Node.outline`: a node and its parts without numbers. Two nodes with the same outline stand in the same span, are
  equally lawful and may stand in the same places.
* `Node.exists_mem_nodes_of_outline`: the parts of two such nodes correspond.
-/

namespace Stepwise

/-! ### Jumps and targets in their places -/

/-- The second context allows all jumps that the first allows. -/
structure Context.Allows (ctx ctx' : Context) : Prop where
  inFunction : ctx.inFunction → ctx'.inFunction
  inLoop : ctx.inLoop → ctx'.inLoop
  inSwitch : ctx.inSwitch → ctx'.inSwitch

namespace Context.Allows

@[refl] theorem refl (ctx : Context) : ctx.Allows ctx := ⟨id, id, id⟩

end Context.Allows

namespace Node

/-- What holds of a node if it holds of its children holds of every node. -/
theorem children_induction {P : Node → Prop} (h : ∀ n : Node, (∀ c ∈ n.children, P c) → P n) (n : Node) : P n :=
  h n fun c _ => children_induction h c
termination_by sizeOf n
decreasing_by exact sizeOf_lt_of_mem_children ‹_›

/-- What surrounds the parts of a node. -/
def inside (ctx : Context) : Node → Context
  | stmt (.function ..) | expr (.function ..) => .functionBody
  | stmt (.while_ ..) | stmt (.doWhile ..) | stmt (.for_ ..) | stmt (.forIn ..) => { ctx with inLoop := true }
  | stmt (.switch ..) => { ctx with inSwitch := true }
  | _ => ctx

/-- Whether the node itself may stand there. -/
def isPlacedIn (ctx : Context) : Node → Bool
  | stmt (.return_ ..) => ctx.inFunction
  | stmt (.break_ _ none) => ctx.inLoop || ctx.inSwitch
  | stmt (.continue_ _ none) => ctx.inLoop
  | stmt (.forIn _ (.expr e) _ _) | expr (.update _ _ _ e) | expr (.assign _ _ e _) => e.isTarget
  | _ => true

/-- Whether the node and its parts may stand there. -/
def placed (n : Node) : Context → Bool :=
  n.fold fun n parts ctx => n.isPlacedIn ctx && parts.all (· (n.inside ctx))

theorem placed_iff {n : Node} {ctx : Context} :
    n.placed ctx ↔ n.isPlacedIn ctx ∧ ∀ c ∈ n.children, c.placed (n.inside ctx) := by
  unfold placed
  rw [fold_eq]
  simp

theorem inside_allows {ctx ctx' : Context} (h : ctx.Allows ctx') (n : Node) : (n.inside ctx).Allows (n.inside ctx') := by
  unfold inside
  split
  all_goals first
    | exact .refl _
    | exact ⟨h.inFunction, fun _ => rfl, h.inSwitch⟩
    | exact ⟨h.inFunction, h.inLoop, fun _ => rfl⟩
    | exact h

theorem isPlacedIn_mono {ctx ctx' : Context} (h : ctx.Allows ctx') {n : Node} (hn : n.isPlacedIn ctx) :
    n.isPlacedIn ctx' := by
  unfold isPlacedIn at hn ⊢
  split at hn
  · exact h.inFunction hn
  · rw [Bool.or_eq_true] at hn ⊢
    exact hn.imp h.inLoop h.inSwitch
  · exact h.inLoop hn
  all_goals exact hn

theorem placed_mono {ctx ctx' : Context} (h : ctx.Allows ctx') {n : Node} (hn : n.placed ctx) : n.placed ctx' := by
  obtain ⟨hhere, hparts⟩ := placed_iff.1 hn
  refine placed_iff.2 ⟨isPlacedIn_mono h hhere, fun c hc => ?_⟩
  exact placed_mono (inside_allows h n) (hparts c hc)
termination_by sizeOf n
decreasing_by exact sizeOf_lt_of_mem_children hc

/-- All parts of what stands in its place do. -/
theorem placed_of_mem_nodes {n m : Node} {ctx : Context} (hn : n.placed ctx) (hm : m ∈ n.nodes) :
    ∃ ctx', m.placed ctx' := by
  rw [nodes_eq] at hm
  rcases List.mem_cons.1 hm with rfl | hm
  · exact ⟨ctx, hn⟩
  · obtain ⟨c, hc, hm⟩ := List.mem_flatMap.1 hm
    exact placed_of_mem_nodes ((placed_iff.1 hn).2 c hc) hm
termination_by sizeOf n
decreasing_by exact sizeOf_lt_of_mem_children hc

end Node

/-! ### Static rules -/

/-- Whether an expression is just a name. -/
def Expr.isName : Expr → Bool
  | identifier _ => true
  | _ => false

/-- Whether a loop over keys can store them in its head: a place, or one variable without a value. -/
def ForHead.isSlot : ForHead → Bool
  | var d => match d.declarators with
    | [⟨_, _, init⟩] => init.isNone
    | _ => false
  | expr e => e.isTarget

/-- Whether an operator can be written together with an assignment. -/
def BinaryOp.isAssignable : BinaryOp → Bool
  | add | subtract | multiply | divide | modulo => true
  | bitAnd | bitOr | bitXor | shiftLeft | shiftRight | unsignedShift => true
  | _ => false

/-- Whether parameters have different names. -/
def areDistinct (params : List Identifier) : Bool := decide (params.map Identifier.name).Nodup

/-- Whether a node obeys the rules for nodes of its kind: names are not empty and those of parameters differ, only
what can hold a value is assigned to, `delete` is not for names, a sequence has more than one part, a `switch` at most
one default, and a `try` a handler or a last part. -/
def Node.isLawful : Node → Bool
  | expr (.identifier i) => i.name ≠ ""
  | expr (.assign _ op e _) => e.isTarget && op.binary?.all BinaryOp.isAssignable
  | expr (.update _ _ _ e) => e.isTarget
  | expr (.unary _ .delete e) => !e.isName
  | expr (.sequence _ es) => 2 ≤ es.length
  | expr (.function _ _ params _) | stmt (.function _ _ params _) => areDistinct params
  | stmt (.forIn _ head _ _) => head.isSlot
  | stmt (.switch _ _ cases) => cases.countP (·.test.isNone) ≤ 1
  | stmt (.tryCatch _ _ handler finalizer) => handler.isSome || finalizer.isSome
  | _ => true

/-- The names that a node binds by itself: that of a variable, of what is caught, or of a function and its parameters. -/
def Node.binders : Node → List String
  | declarator d => [d.name.name]
  | catchClause c => [c.param.name]
  | stmt (.function _ name params _) => name.name :: params.map Identifier.name
  | expr (.function _ name params _) => name.toList.map Identifier.name ++ params.map Identifier.name
  | _ => []

/-- Whether a word may name a variable: keywords may not. -/
def isBindable (s : String) : Bool := TokenKind.ofWord s = .identifier

/-- Whether a node obeys the rules for its kind and binds no keyword. -/
def Node.isRegular (n : Node) : Bool := n.isLawful && n.binders.all isBindable

theorem Node.isRegular_iff {n : Node} : n.isRegular ↔ n.isLawful ∧ ∀ x ∈ n.binders, isBindable x := by
  rw [isRegular, Bool.and_eq_true, List.all_eq_true]

/-! ### Outlines -/

/-- What is known of a node without its number, the name of its source and its parts. -/
structure Node.Face where
  kind : Kind
  start : Position
  stop : Position
  isLawful : Bool
  binders : List String
  isPlacedIn : Context → Bool
  inside : Context → Context

/-- What is known of a node and its parts without their numbers. -/
inductive Outline where
  | mk (face : Node.Face) (parts : List Outline)

/-- What an outline says of its node by itself. -/
def Outline.face : Outline → Node.Face
  | mk face _ => face

namespace Node

/-- What is known of a node by itself. -/
def face (n : Node) : Face :=
  ⟨n.kind, n.loc.start, n.loc.stop, n.isLawful, n.binders, fun ctx => n.isPlacedIn ctx, fun ctx => n.inside ctx⟩

/-- The outline of a node. -/
def outline (n : Node) : Outline := n.fold fun n parts => ⟨n.face, parts⟩

theorem outline_eq (n : Node) : n.outline = ⟨n.face, n.children.map outline⟩ := by
  unfold outline
  exact fold_eq _ n

theorem face_outline (n : Node) : n.outline.face = n.face := by
  rw [outline_eq]
  rfl

variable {n m : Node}

theorem face_of_outline (h : n.outline = m.outline) : n.face = m.face := by
  rw [← face_outline, h, face_outline]

theorem children_of_outline (h : n.outline = m.outline) : n.children.map outline = m.children.map outline := by
  rw [outline_eq, outline_eq] at h
  exact (Outline.mk.inj h).2

theorem kind_of_outline (h : n.outline = m.outline) : n.kind = m.kind := congrArg Face.kind (face_of_outline h)

theorem start_of_outline (h : n.outline = m.outline) : n.loc.start = m.loc.start :=
  congrArg Face.start (face_of_outline h)

theorem stop_of_outline (h : n.outline = m.outline) : n.loc.stop = m.loc.stop :=
  congrArg Face.stop (face_of_outline h)

theorem isLawful_of_outline (h : n.outline = m.outline) : n.isLawful = m.isLawful :=
  congrArg Face.isLawful (face_of_outline h)

theorem isRegular_of_outline (h : n.outline = m.outline) : n.isRegular = m.isRegular := by
  rw [isRegular, isRegular, isLawful_of_outline h, show n.binders = m.binders from congrArg Face.binders (face_of_outline h)]

/-- Each part of a node has the outline of a part of the other node. -/
theorem exists_mem_children_of_outline (h : n.outline = m.outline) {c : Node} (hc : c ∈ n.children) :
    ∃ d ∈ m.children, c.outline = d.outline := by
  have hc : c.outline ∈ m.children.map outline := children_of_outline h ▸ List.mem_map_of_mem hc
  obtain ⟨d, hd, he⟩ := List.mem_map.1 hc
  exact ⟨d, hd, he.symm⟩

/-- So does each of the nodes below it. -/
theorem exists_mem_nodes_of_outline {n m : Node} (h : n.outline = m.outline) {k : Node} (hk : k ∈ n.nodes) :
    ∃ l ∈ m.nodes, k.outline = l.outline := by
  rw [nodes_eq] at hk
  rcases List.mem_cons.1 hk with rfl | hk
  · rw [nodes_eq]
    exact ⟨m, List.mem_cons_self, h⟩
  · obtain ⟨c, hc, hk⟩ := List.mem_flatMap.1 hk
    obtain ⟨d, hd, hcd⟩ := exists_mem_children_of_outline h hc
    obtain ⟨l, hl, he⟩ := exists_mem_nodes_of_outline hcd hk
    rw [nodes_eq]
    exact ⟨l, List.mem_cons_of_mem _ (List.mem_flatMap.2 ⟨d, hd, hl⟩), he⟩
termination_by sizeOf n
decreasing_by exact sizeOf_lt_of_mem_children hc

/-- One after the other, they have the same outlines. -/
theorem map_outline_nodes {n m : Node} (h : n.outline = m.outline) : n.nodes.map outline = m.nodes.map outline := by
  induction n using children_induction generalizing m with
  | _ n ih =>
    have hparts : ∀ {cs ds : List Node}, cs.map outline = ds.map outline → (∀ c ∈ cs, c ∈ n.children) →
        (cs.flatMap nodes).map outline = (ds.flatMap nodes).map outline := by
      intro cs ds hcs hmem
      induction cs generalizing ds with
      | nil =>
        obtain rfl : ds = [] := List.map_eq_nil_iff.1 hcs.symm
        rfl
      | cons c cs ihc =>
        obtain ⟨d, ds, rfl, hd, hds⟩ := List.map_eq_cons_iff.1 hcs.symm
        obtain ⟨hc, hmem⟩ := List.forall_mem_cons.1 hmem
        rw [List.flatMap_cons, List.flatMap_cons, List.map_append, List.map_append, ih c hc hd.symm, ihc hds.symm hmem]
    rw [nodes_eq, nodes_eq, List.map_cons, List.map_cons, h, hparts (children_of_outline h) fun _ hc => hc]

/-- Where a node may stand shows in its outline. -/
theorem placed_of_outline {n m : Node} {ctx : Context} (h : n.outline = m.outline) (hm : m.placed ctx) : n.placed ctx := by
  obtain ⟨hhere, hparts⟩ := placed_iff.1 hm
  have hface := face_of_outline h
  have hplaced : n.isPlacedIn ctx = m.isPlacedIn ctx := congrFun (congrArg Face.isPlacedIn hface) ctx
  have hinside : n.inside ctx = m.inside ctx := congrFun (congrArg Face.inside hface) ctx
  refine placed_iff.2 ⟨hplaced.trans hhere, fun c hc => ?_⟩
  obtain ⟨d, hd, he⟩ := exists_mem_children_of_outline h hc
  rw [hinside]
  exact placed_of_outline he (hparts d hd)
termination_by sizeOf n
decreasing_by exact sizeOf_lt_of_mem_children hc

end Node

end Stepwise

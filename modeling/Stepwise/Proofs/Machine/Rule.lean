import Stepwise.Machine.Step
import Stepwise.Proofs.Heap.Builds
import Stepwise.Proofs.Heap.Native

/-!
# What a rule can do

* `Frame.Keeps`: a rule changes what the state on top has gathered, but neither its node nor its scope, and
  it changes the heap by listed operations only.
* `Move.Fits`: what a rule starts is a part of its node in the same scope, or the body of the function that
  its state calls, in a new scope. Only a call calls the host.
* `RuleM.Stays`, `RuleM.Starts` and `RuleM.Calls`: the parts of a rule, the rules that start parts of their
  node, and the rules that may also call. Each has one lemma for every way to compose rules.
* `RuleM.bind_run` and the equations after it: what a rule does to a frame, operation by operation. With these `simp` runs
  a rule whose state is known.
-/

namespace Stepwise

open Heap RuleM

/-- Two versions of a state: what they have gathered may differ, but not what they evaluate. -/
structure State.Alike (s s' : State) : Prop where
  id : s'.id = s.id
  node : s'.node = s.node
  scope : s'.scope = s.scope
  components : s'.components = s.components
  labels : s'.labels = s.labels

namespace State.Alike

@[refl] theorem refl (s : State) : s.Alike s := ⟨rfl, rfl, rfl, rfl, rfl⟩

theorem trans {s s' s'' : State} (h : s.Alike s') (h' : s'.Alike s'') : s.Alike s'' :=
  ⟨h'.id.trans h.id, h'.node.trans h.node, h'.scope.trans h.scope, h'.components.trans h.components,
    h'.labels.trans h.labels⟩

end State.Alike

/-- A later version of a state within a rule: it evaluates the same, and the place that it had is kept or used
up. -/
structure State.Evolves (s s' : State) : Prop extends s.Alike s' where
  ref : s'.ref = s.ref ∨ s'.ref = none

namespace State.Evolves

@[refl] theorem refl (s : State) : s.Evolves s := ⟨.refl s, .inl rfl⟩

theorem trans {s s' s'' : State} (h : s.Evolves s') (h' : s'.Evolves s'') : s.Evolves s'' := by
  refine ⟨h.toAlike.trans h'.toAlike, ?_⟩
  rcases h'.ref with he | he
  · rw [he]
    exact h.ref
  · exact .inr he

end State.Evolves

/-- A part of a rule: the state on top evaluates the same, and the heap only changes by listed operations. -/
structure Frame.Keeps (f f' : Frame) : Prop where
  top : f.top.Evolves f'.top
  heap : f.heap.Changes f'.heap

namespace Frame.Keeps

@[refl] theorem refl (f : Frame) : f.Keeps f := ⟨.refl _, .refl _⟩

theorem trans {f f' f'' : Frame} (h : f.Keeps f') (h' : f'.Keeps f'') : f.Keeps f'' :=
  ⟨h.top.trans h'.top, h.heap.trans h'.heap⟩

end Frame.Keeps

/-- The place that a loop over keys evaluates in every turn; a variable is assigned as it is. -/
def ForHead.places : ForHead → List Expr
  | var _ | expr (.identifier _) => []
  | expr e => [e]

theorem ForHead.mem_places {head : ForHead} {e : Expr} :
    e ∈ head.places ↔ head = .expr e ∧ ∀ i, e ≠ .identifier i := by
  unfold places
  split
  · simp
  · rename_i i
    refine ⟨fun he => absurd he List.not_mem_nil, fun he => ?_⟩
    cases he.1
    exact absurd rfl (he.2 i)
  · rename_i hi
    constructor
    · intro he
      cases List.mem_singleton.1 he
      exact ⟨rfl, fun i he => hi i (by rw [he])⟩
    · intro he
      cases he.1
      exact List.mem_singleton_self e

namespace Node

/-- Whether a node only holds parts of the node around it together. -/
def isJoint : Node → Bool
  | declarator _ | switchCase _ | property _ => true
  | _ => false

/-- A direct part of a node, or a part of one of its joints. -/
def Part (n part : Node) : Prop := part ∈ n.children ∨ ∃ joint ∈ n.children, joint.isJoint ∧ part ∈ joint.children

/-- Whether a node is a call, with or without `new`. -/
def isCall : Node → Bool
  | expr (.call ..) | expr (.new ..) => true
  | _ => false

theorem part_of_joint {n joint part : Node} (hj : joint ∈ n.children) (h : joint.isJoint)
    (hp : part ∈ joint.children) : n.Part part := .inr ⟨joint, hj, h, hp⟩

/-- The parts of a node that its rule may start. It neither starts a name that is declared, assigned by a loop
over keys or asked for its type, nor the body of a function that is made. -/
def operands : Node → List Node
  | program p => p.body.map .stmt
  | stmt (.var d) => (d.declarators.filterMap Declarator.init).map .expr
  | stmt (.expression _ e) | stmt (.throw _ e) => [.expr e]
  | stmt (.block b) => b.body.map .stmt
  | stmt (.return_ _ argument) => argument.toList.map .expr
  | stmt (.if_ _ test consequent alternate) => .expr test :: .stmt consequent :: alternate.toList.map .stmt
  | stmt (.while_ _ test body) => [.expr test, .stmt body]
  | stmt (.doWhile _ body test) => [.stmt body, .expr test]
  | stmt (.for_ _ init test update body) =>
    init.toList.map ForHead.node ++ test.toList.map .expr ++ update.toList.map .expr ++ [.stmt body]
  | stmt (.forIn _ left right body) => left.places.map .expr ++ [.expr right, .stmt body]
  | stmt (.switch _ discriminant cases) => .expr discriminant :: cases.flatMap (children ∘ switchCase)
  | stmt (.labeled _ _ body) => [.stmt body]
  | expr (.array _ elements) => (elements.flatMap Option.toList).map .expr
  | expr (.object _ properties) => properties.map (.expr ·.value)
  | expr (.unary _ .typeof (.identifier _)) => []
  | expr (.unary _ _ argument) | expr (.update _ _ _ argument) => [.expr argument]
  | expr (.binary _ _ left right) | expr (.logical _ _ left right) | expr (.assign _ _ left right) =>
    [.expr left, .expr right]
  | expr (.conditional _ test consequent alternate) => [.expr test, .expr consequent, .expr alternate]
  | expr (.call _ callee args) | expr (.new _ callee args) => .expr callee :: args.map .expr
  | expr (.member _ object _) => [.expr object]
  | expr (.index _ object key) => [.expr object, .expr key]
  | expr (.sequence _ expressions) => expressions.map .expr
  | _ => []

theorem part_of_operand {n part : Node} (h : part ∈ n.operands) : n.Part part := by
  unfold operands at h
  split at h
  case h_2 =>
    obtain ⟨e, he, rfl⟩ := List.mem_map.1 h
    obtain ⟨d, hd, hi⟩ := List.mem_filterMap.1 he
    exact part_of_joint (List.mem_map_of_mem hd) rfl (by simp [children, hi])
  case h_12 =>
    rcases List.mem_cons.1 h with rfl | h
    · exact .inl (by simp [children])
    · obtain ⟨c, hc, h⟩ := List.mem_flatMap.1 h
      exact part_of_joint (List.mem_cons_of_mem _ (List.mem_map_of_mem hc)) rfl h
  case h_15 =>
    obtain ⟨p, hp, rfl⟩ := List.mem_map.1 h
    exact part_of_joint (List.mem_map_of_mem hp) rfl (by simp [children])
  case h_11 =>
    rcases List.mem_append.1 h with h | h
    · obtain ⟨e, he, rfl⟩ := List.mem_map.1 h
      rw [(ForHead.mem_places.1 he).1]
      exact .inl List.mem_cons_self
    · exact .inl (List.mem_cons_of_mem _ h)
  all_goals exact .inl (by simp_all [children, ForHead.node])

/-- Whether a value can be assigned to the node. -/
def isTarget : Node → Bool
  | expr e => e.isTarget
  | _ => false

/-- The labels that a node hands down, given its own. -/
def handsDown (labels : List String) : Node → List String
  | stmt (.labeled _ label _) => labels ++ [label.name]
  | _ => []

/-- What a node under some labels may start: an operand, for its place only if it has one, with the labels that
are handed down. -/
structure Starts (n : Node) (labels : List String) (part : Node) (components : Bool) (labels' : List String) :
    Prop where
  operand : part ∈ n.operands
  target : components → part.isTarget
  labels : labels' = n.handsDown labels

end Node

/-- What may be started under some labels: a node, whether its place is wanted, and its labels. -/
abbrev Starting := List String → Node → Bool → List String → Prop

namespace Starting

variable (parts : Starting)

/-- The node may be started for its value. -/
def plain (n : Node) : Prop := ∀ labels, parts labels n false []

/-- The expression may be started for its place, if it has one. -/
def place (e : Expr) : Prop := ∀ labels, parts labels (.expr e) e.isTarget []

end Starting

namespace Node

/-- Unless a node hands labels down, it may start each of its operands for a value, and an expression for its place. -/
theorem starts_plain {n part : Node} (h : part ∈ n.operands) (hl : ∀ labels, n.handsDown labels = []) :
    Starting.plain n.Starts part := fun labels => ⟨h, Bool.noConfusion, (hl labels).symm⟩

theorem starts_place {n : Node} {e : Expr} (h : .expr e ∈ n.operands) (hl : ∀ labels, n.handsDown labels = []) :
    Starting.place n.Starts e := fun labels => ⟨h, fun ht => ht, (hl labels).symm⟩

end Node

namespace RuleM

variable {α β : Type} {ω : Type}

/-- What holds after a rule, of its result or of its failure. -/
def wp (r : RuleM α) (Q : α → Frame → Prop) (E : Failure → Frame → Prop) (f : Frame) : Prop :=
  match r f with
  | .ok a f' => Q a f'
  | .error e f' => E e f'

/-- What a rule that ends guarantees of its move holds of the move it ended with. -/
theorem wp.of_ok {r : RuleM α} {Q : α → Frame → Prop} {E : Failure → Frame → Prop} {f f' : Frame} {a : α}
    (h : r.wp Q E f) (he : r f = .ok a f') : Q a f' := by
  unfold wp at h
  rw [he] at h
  exact h

theorem wp.of_error {r : RuleM α} {Q : α → Frame → Prop} {E : Failure → Frame → Prop} {f f' : Frame} {e : Failure}
    (h : r.wp Q E f) (he : r f = .error e f') : E e f' := by
  unfold wp at h
  rw [he] at h
  exact h

/-- A part of a rule that only changes what it may change. -/
def Stays (r : RuleM α) : Prop := ∀ f, r.wp (fun _ => f.Keeps) (fun _ => f.Keeps) f

/-- What a rule starts, if anything, is one of the `parts` in the scope of the state. It gives a place only if
one is wanted, leaves nothing but its own state, and calls no function of the host. -/
def StartsIn (parts : Starting) (m : Move) (f : Frame) : Prop :=
  match m with
  | .push n scope components labels => parts f.top.labels n components labels ∧ scope = f.top.scope
  | .giveRef _ => f.top.components
  | .host .. | .jump .. | .return_ _ => False
  | _ => True

/-- A rule that starts only `parts` of its node. -/
def Starts (parts : Starting) (r : RuleM Move) : Prop :=
  ∀ f, r.wp (fun m f' => f.Keeps f' ∧ StartsIn parts m f') (fun _ => f.Keeps) f

theorem wp_bind {x : RuleM β} {k : β → RuleM α} {Q : α → Frame → Prop} {E : Failure → Frame → Prop} {f : Frame}
    (hx : x.wp (fun b => (k b).wp Q E) E f) : (x >>= k).wp Q E f := by
  unfold wp at *
  show match EStateM.bind x k f with | .ok a f' => Q a f' | .error e f' => E e f'
  unfold EStateM.bind
  cases h : x f <;> rw [h] at hx <;> exact hx

theorem wp_top {Q : State → Frame → Prop} {E : Failure → Frame → Prop} {f : Frame} (h : Q f.top f) : RuleM.top.wp Q E f := h

theorem wp_heap {Q : Heap → Frame → Prop} {E : Failure → Frame → Prop} {f : Frame} (h : Q f.heap f) : RuleM.heap.wp Q E f := h

theorem wp.mono {r : RuleM α} {Q Q' : α → Frame → Prop} {E E' : Failure → Frame → Prop} {f : Frame} (h : r.wp Q E f)
    (hQ : ∀ a f', Q a f' → Q' a f') (hE : ∀ e f', E e f' → E' e f') : r.wp Q' E' f := by
  unfold wp at *
  split
  · rename_i he
    rw [he] at h
    exact hQ _ _ h
  · rename_i he
    rw [he] at h
    exact hE _ _ h

theorem wp.and {r : RuleM α} {Q Q' : α → Frame → Prop} {E E' : Failure → Frame → Prop} {f : Frame} (h : r.wp Q E f)
    (h' : r.wp Q' E' f) : r.wp (fun a f' => Q a f' ∧ Q' a f') (fun e f' => E e f' ∧ E' e f') f := by
  unfold wp at *
  split
  · rename_i he
    rw [he] at h h'
    exact ⟨h, h'⟩
  · rename_i he
    rw [he] at h h'
    exact ⟨h, h'⟩

namespace Stays

theorem bind {x : RuleM β} {k : β → RuleM α} (hx : Stays x) (hk : ∀ b, Stays (k b)) : Stays (x >>= k) := by
  intro f
  refine wp_bind ((hx f).mono (fun b f' hf => ?_) fun _ _ hf => hf)
  exact (hk b f').mono (fun _ _ hf' => hf.trans hf') fun _ _ hf' => hf.trans hf'

theorem pure (a : α) : Stays (Pure.pure a : RuleM α) := fun f => Frame.Keeps.refl f

theorem top : Stays RuleM.top := fun f => Frame.Keeps.refl f

theorem heap : Stays RuleM.heap := fun f => Frame.Keeps.refl f

theorem raise (t : Throw) : Stays (RuleM.raise t : RuleM α) := fun f => Frame.Keeps.refl f

theorem throw (e : Failure) : Stays (throw e : RuleM α) := fun f => Frame.Keeps.refl f

theorem modifyTop {g : State → State} (hg : ∀ s : State, s.Evolves (g s)) : Stays (RuleM.modifyTop g) := fun f =>
  ⟨hg f.top, .refl _⟩

theorem setPhase (phase : Nat) : Stays (RuleM.setPhase phase) := modifyTop fun _ => ⟨⟨rfl, rfl, rfl, rfl, rfl⟩, .inl rfl⟩

theorem take : Stays RuleM.take := fun _ => ⟨⟨⟨rfl, rfl, rfl, rfl, rfl⟩, .inl rfl⟩, .refl _⟩

theorem onHeap {g : Heap → α × Heap} (hg : ∀ h : Heap, h.Changes (g h).2) : Stays (RuleM.onHeap g) := fun f =>
  ⟨.refl _, hg f.heap⟩

theorem orRaise (x : Except Throw α) : Stays (RuleM.orRaise x) := by
  cases x
  · exact raise _
  · exact pure _

theorem getRef (r : Reference) : Stays (RuleM.getRef r) := heap.bind fun _ => orRaise _

theorem putRef (r : Reference) (v : Value) : Stays (RuleM.putRef r v) := by
  intro f
  unfold RuleM.putRef
  refine wp_bind ?_
  show (RuleM.orRaise (writeRef f.heap r v) >>= RuleM.setHeap).wp _ _ f
  refine wp_bind ?_
  cases hw : writeRef f.heap r v with
  | error t => exact Frame.Keeps.refl f
  | ok h =>
    refine ⟨.refl _, ?_⟩
    cases r
    · exact .assign hw
    · exact .put hw

theorem assign (name : String) (v : Value) : Stays (RuleM.assign name v) := top.bind fun _ => putRef _ _

theorem forM {g : α → RuleM PUnit} (hg : ∀ a, Stays (g a)) (l : List α) : Stays (l.forM g) := by
  induction l with
  | nil => exact pure _
  | cons a l ih => exact (hg a).bind fun _ => ih

end Stays

namespace Starts

variable {parts : Starting}

theorem bind {x : RuleM β} {k : β → RuleM Move} (hx : Stays x) (hk : ∀ b, Starts parts (k b)) :
    Starts parts (x >>= k) := by
  intro f
  refine wp_bind ((hx f).mono (fun b f' hf => ?_) fun _ _ hf => hf)
  exact (hk b f').mono (fun _ _ hf' => ⟨hf.trans hf'.1, hf'.2⟩) fun _ _ hf' => hf.trans hf'

theorem push {n : Node} (hn : parts.plain n) : Starts parts (RuleM.push n) := fun f =>
  ⟨Frame.Keeps.refl f, hn _, rfl⟩

theorem pushExpr {e : Expr} (he : parts.plain (.expr e)) : Starts parts (RuleM.pushExpr e) := push he

theorem pushStmt {s : Stmt} (hs : parts.plain (.stmt s)) : Starts parts (RuleM.pushStmt s) := push hs

theorem pushTarget {e : Expr} (he : parts.place e) : Starts parts (RuleM.pushTarget e) := fun f =>
  ⟨Frame.Keeps.refl f, he _, rfl⟩

/-- A rule may look at the heap and then change it. -/
theorem setHeap {f : Frame} {h : Heap} {k : RuleM Move} (hh : f.heap.Changes h) (hk : Starts parts k) :
    (do RuleM.setHeap h; k).wp (fun m f' => f.Keeps f' ∧ StartsIn parts m f') (fun _ => f.Keeps) f := by
  have hf : f.Keeps { f with heap := h } := ⟨.refl _, hh⟩
  exact (hk { f with heap := h }).mono (fun _ _ hf' => ⟨hf.trans hf'.1, hf'.2⟩) fun _ _ hf' => hf.trans hf'

/-- A move that starts nothing. -/
theorem pure {m : Move} (hm : ∀ f, StartsIn parts m f) : Starts parts (Pure.pure m) := fun f =>
  ⟨Frame.Keeps.refl f, hm f⟩

theorem give (v : Value) : Starts parts (RuleM.give v) := pure fun _ => trivial

theorem raise (t : Throw) : Starts parts (RuleM.raise t) := fun f => Frame.Keeps.refl f

/-- Whatever a rule starts, it keeps the state on top. -/
theorem stays {r : RuleM Move} (h : Starts parts r) : Stays r := fun f => (h f).mono (fun _ _ hf => hf.1) fun _ _ hf => hf

end Starts

end RuleM

variable {ω : Type}

/-- A call `n` that starts the body of the function of its state. The scope of the body is new since `h`, lies in the
scope that the function closes over, and binds all that the call binds. -/
structure Enters (c : Setting ω) (h : Heap) (n node : Node) (scope : ObjectId) (f : Frame) : Prop where
  call : n.isCall
  phase : f.top.phase = CallPhase.body
  new : h.next ≤ scope
  body : ∃ o info id closure callable, f.heap.deref? f.top.func = some o ∧ o.func = some info ∧
    info.code = .closure id closure ∧ (c.node? id).bind Node.callable? = some callable ∧
    node = .stmt (.block callable.body) ∧ f.heap.scope? scope = some ⟨scope, closure, true⟩ ∧
    ∀ x ∈ "this" :: callable.bound, f.heap.Declares scope x

/-- The label that a jump names, and whether it is a `continue`. -/
def Node.jump? : Node → Option (Option String × Bool)
  | stmt (.break_ _ label) => some (label.map Identifier.name, false)
  | stmt (.continue_ _ label) => some (label.map Identifier.name, true)
  | _ => none

/-- Whether a node is a `return`. -/
def Node.isReturn : Node → Bool
  | stmt (.return_ ..) => true
  | _ => false

/-- What a rule of a node may answer on the way from the heap `h`. A call of the host knows the node that calls. Only
jumps jump, and only a `return` returns. -/
def Move.Fits (c : Setting ω) (h : Heap) (n : Node) (m : Move) (f : Frame) : Prop :=
  StartsIn n.Starts m f ∨ match m with
    | .push node scope _ _ => Enters c h n node scope f
    | .host _ call => n.isCall ∧ call.site = some f.top.node
    | .jump label isContinue => n.jump? = some (label, isContinue)
    | .return_ _ => n.isReturn
    | _ => False

/-- Only a call calls the host. -/
theorem Move.Fits.isCall {c : Setting ω} {h : Heap} {n : Node} {name : String} {call : NativeCall} {f : Frame}
    (hf : (Move.host name call).Fits c h n f) : n.isCall := by
  rcases hf with hf | hf
  · exact hf.elim
  · exact hf.1

/-- What is new since a later heap is new since an earlier one. -/
theorem Move.Fits.of_next_le {c : Setting ω} {h h' : Heap} {n : Node} {m : Move} {f : Frame} (hf : m.Fits c h' n f)
    (hle : h.next ≤ h'.next) : m.Fits c h n f := by
  rcases hf with hf | hf
  · exact .inl hf
  · refine .inr ?_
    cases m
    case push => exact ⟨hf.call, hf.phase, Int.le_trans hle hf.new, hf.body⟩
    all_goals exact hf

/-- A rule that may call. -/
def RuleM.Calls (c : Setting ω) (n : Node) (r : RuleM Move) : Prop :=
  ∀ f, f.heap.Filed → r.wp (fun m f' => f.Keeps f' ∧ m.Fits c f.heap n f') (fun _ => f.Keeps) f

namespace RuleM.Calls

variable {c : Setting ω} {n : Node}

theorem of_starts {r : RuleM Move} (h : Starts n.Starts r) : Calls c n r := fun f _ =>
  (h f).mono (fun _ _ hf' => ⟨hf'.1, .inl hf'.2⟩) fun _ _ hf' => hf'

theorem bind {α : Type} {x : RuleM α} {k : α → RuleM Move} (hx : Stays x) (hk : ∀ a, Calls c n (k a)) :
    Calls c n (x >>= k) := by
  intro f hf
  refine wp_bind ((hx f).mono (fun a f' hk' => ?_) fun _ _ hf' => hf')
  obtain ⟨hfiled, hgrows⟩ := hk'.heap.keeps hf
  exact (hk a f' hfiled).mono (fun _ _ h => ⟨hk'.trans h.1, h.2.of_next_le hgrows.next_le⟩) fun _ _ h => hk'.trans h

end RuleM.Calls

/-! ### Running rules -/

namespace RuleM

variable {α β : Type} (f : Frame)

@[simp] theorem bind_run (x : RuleM α) (k : α → RuleM β) :
    (x >>= k) f = match x f with
      | .ok a f' => k a f'
      | .error e f' => .error e f' := by
  show EStateM.bind x k f = _
  unfold EStateM.bind
  cases x f <;> rfl

@[simp] theorem pure_run (a : α) : (pure a : RuleM α) f = .ok a f := rfl

@[simp] theorem top_run : top f = .ok f.top f := rfl

@[simp] theorem heap_run : heap f = .ok f.heap f := rfl

@[simp] theorem modifyTop_run (g : State → State) : modifyTop g f = .ok () { f with top := g f.top } := rfl

@[simp] theorem setHeap_run (h : Heap) : setHeap h f = .ok () { f with heap := h } := rfl

@[simp] theorem onHeap_run (g : Heap → α × Heap) :
    onHeap g f = .ok (g f.heap).1 { f with heap := (g f.heap).2 } := rfl

@[simp] theorem raise_run (t : Throw) : (raise t : RuleM α) f = .error (.raised t) f := rfl

@[simp] theorem throw_run (e : Failure) : (throw e : RuleM α) f = .error e f := rfl

@[simp] theorem fault_run (e : Fault) : (fault e : RuleM α) f = .error (.fault e) f := rfl

@[simp] theorem orRaise_run (x : Except Throw α) :
    orRaise x f = match x with
      | .ok a => .ok a f
      | .error t => .error (.raised t) f := by
  cases x <;> rfl

@[simp] theorem take_run : take f = .ok f.top.value { f with top := { f.top with hasValue := false } } := rfl

@[simp] theorem setPhase_run (phase : Nat) : setPhase phase f = .ok () { f with top := { f.top with phase } } := rfl

@[simp] theorem push_run (n : Node) : push n f = .ok (.push n f.top.scope false []) f := rfl

@[simp] theorem pushExpr_run (e : Expr) : pushExpr e f = .ok (.push (.expr e) f.top.scope false []) f := rfl

@[simp] theorem pushStmt_run (s : Stmt) : pushStmt s f = .ok (.push (.stmt s) f.top.scope false []) f := rfl

@[simp] theorem pushTarget_run (e : Expr) :
    pushTarget e f = .ok (.push (.expr e) f.top.scope e.isTarget []) f := rfl

@[simp] theorem give_run (v : Value) : give v f = .ok (.give v) f := rfl

@[simp] theorem getRef_run (r : Reference) : getRef r f = orRaise (readRef f.heap r) f := by
  unfold getRef
  simp only [bind_run, heap_run]

@[simp] theorem putRef_run (r : Reference) (v : Value) :
    putRef r v f = match writeRef f.heap r v with
      | .ok h => .ok () { f with heap := h }
      | .error t => .error (.raised t) f := by
  unfold putRef
  simp only [bind_run, heap_run, orRaise_run]
  cases writeRef f.heap r v <;> rfl

@[simp] theorem assign_run (name : String) (v : Value) :
    assign name v f = match writeRef f.heap (.variable f.top.scope name) v with
      | .ok h => .ok () { f with heap := h }
      | .error t => .error (.raised t) f := by
  unfold assign
  simp only [bind_run, top_run, putRef_run]

end RuleM

end Stepwise

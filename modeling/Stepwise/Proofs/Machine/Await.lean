import Stepwise.Proofs.Machine.Place

/-!
# What waits below the top

A state below the top waits for the one above it.

* `Node.resumesAt`: the phases in which a loop goes on with its test, its update or its next key.
* `State.Awaits`: a state waits for a part of its node, a loop in such a phase and a `return` for its argument.
* `Machine.Reachable.awaiting`: so it is on the stack of every machine that a program reaches, and a `return` on top
  has the value of its argument, or has not asked for it.
-/

namespace Stepwise

open RuleM

variable {ω : Type} {c : Setting ω} {below stack stack' : List State} {f : Frame} {s t : State}

namespace Node

/-- Whether the node is a statement or the program. A declaration of variables is left out: it may be the head of a
loop, and no statement is inside of it. -/
def isStatement : Node → Bool
  | stmt (.var _) => false
  | stmt _ | program _ => true
  | _ => false

/-- The phases in which a loop goes on with its test, its update or its next key. -/
def resumesAt (n : Node) (phase : Nat) : Prop :=
  match n with
  | stmt (.while_ ..) => phase = 0
  | stmt (.doWhile ..) => phase = 1
  | stmt (.for_ ..) => phase = 3
  | stmt (.forIn ..) => phase ∉ [0, 1, 3]
  | _ => True

/-- What has a statement as its part is a statement. -/
theorem isStatement_of_operand {n part : Node} (hp : part ∈ n.operands) (h : part.isStatement) : n.isStatement := by
  have hexpr (he : part.isExpr) : False := by
    unfold isExpr at he
    split at he
    · cases h
    · cases he
  cases n with
  | program => rfl
  | stmt s => cases s with
    | var d =>
      obtain ⟨e, -, rfl⟩ := List.mem_map.1 hp
      cases h
    | _ => rfl
  | expr e => exact (hexpr (isExpr_of_operand rfl hp)).elim
  | declarator | switchCase | catchClause | property => cases hp

/-- Whether a node waits for what its rule starts. -/
def isAwaiting (n : Node) : Bool := n.isLoop || n.isReturn

end Node

/-- What lies on a state is a part of its node, unless the state runs a function. A loop waits for its body, and a
`return` for the value of its argument. -/
structure State.Awaits (s t : State) : Prop where
  part : ¬s.isActiveCall → t.node ∈ s.node.operands
  loop : t.node.isStatement → s.node.resumesAt s.phase
  argument : s.node.isReturn → s.done ∧ t.node ∈ s.node.operands ∧ ¬t.components ∧ t.labels = []

/-- A `return` has the value of its argument once it has asked for it. -/
def State.IsAnswered (s : State) : Prop := s.node.isReturn → s.hasValue = s.done ∧ (s.done → s.node.operands ≠ [])

/-- Every state waits for the one above it, and a `return` on top has its value. -/
structure Awaiting (stack : List State) : Prop where
  chain : stack.IsChain fun t s => s.Awaits t
  top : ∀ s ∈ stack.head?, s.IsAnswered

/-! ### Rules -/

/-- What a rule of a node leaves on top waits for the part that is started. -/
def Move.Suspends (n : Node) (s : State) : Move → Prop
  | .push node _ components labels =>
    (node.isStatement → n.resumesAt s.phase) ∧
      (n.isReturn → s.done ∧ node ∈ n.operands ∧ ¬components ∧ labels = [])
  | .stay | .host .. => ¬n.isReturn
  | _ => True

/-- The rule of a node suspends it. -/
def RuleM.Suspends (r : RuleM Move) (n : Node) (f : Frame) : Prop :=
  r.wp (fun mv f' => mv.Suspends n f'.top) (fun _ _ => True) f

theorem Node.resumesAt_of_not_isLoop {n : Node} (hn : n.isLoop = false) (phase : Nat) : n.resumesAt phase := by
  unfold resumesAt
  split
  · exact Bool.noConfusion hn
  · exact Bool.noConfusion hn
  · exact Bool.noConfusion hn
  · exact Bool.noConfusion hn
  · trivial

theorem Node.not_isAwaiting_of_isCall {n : Node} (h : n.isCall) : n.isAwaiting = false := by
  unfold isCall at h
  split at h
  · rfl
  · rfl
  · cases h

theorem Move.suspends_of_not_isAwaiting {n : Node} (hn : n.isAwaiting = false) (s : State) (mv : Move) :
    mv.Suspends n s := by
  obtain ⟨hloop, hreturn⟩ := Bool.or_eq_false_iff.1 hn
  have hno : ¬n.isReturn := by simp [hreturn]
  cases mv with
  | push => exact ⟨fun _ => Node.resumesAt_of_not_isLoop hloop s.phase, fun h => absurd h hno⟩
  | stay | host => exact hno
  | _ => trivial

theorem stepWhile_suspends {l : Loc} (test : Expr) (body : Stmt) :
    (stepWhile test body).Suspends (.stmt (.while_ l test body)) f := by
  refine wp_bind (wp_top ?_)
  split
  · exact wp_bind (wp_modifyTop (wp_bind (wp_top ⟨nofun, nofun⟩)))
  · refine wp_bind (wp_take ?_)
    split
    · exact wp_bind (wp_modifyTop (wp_bind (wp_top ⟨fun _ => rfl, nofun⟩)))
    · trivial

theorem stepDoWhile_suspends {l : Loc} (body : Stmt) (test : Expr) :
    (stepDoWhile body test).Suspends (.stmt (.doWhile l body test)) f := by
  refine wp_bind (wp_top ?_)
  split
  · exact wp_bind (wp_modifyTop (wp_bind (wp_top ⟨fun _ => rfl, nofun⟩)))
  · exact wp_bind (wp_modifyTop (wp_bind (wp_top ⟨nofun, nofun⟩)))
  · refine wp_bind (wp_take ?_)
    split
    · exact wp_bind (wp_modifyTop (wp_bind (wp_top ⟨fun _ => rfl, nofun⟩)))
    · trivial

theorem stepFor_suspends {l : Loc} (init : Option ForHead) (test update : Option Expr) (body : Stmt) :
    (stepFor init test update body).Suspends (.stmt (.for_ l init test update body)) f := by
  have htest (g : Frame) : (stepForTest body).Suspends (.stmt (.for_ l init test update body)) g := by
    refine wp_bind (wp_take ?_)
    split
    · exact wp_bind (wp_modifyTop (wp_bind (wp_top ⟨fun _ => rfl, nofun⟩)))
    · trivial
  refine wp_bind (wp_top ?_)
  split
  · refine wp_bind (wp_modifyTop ?_)
    split
    · rename_i head
      cases head <;> exact wp_bind (wp_top ⟨nofun, nofun⟩)
    · exact nofun
  · refine wp_bind (wp_modifyTop ?_)
    split
    · exact wp_bind (wp_top ⟨nofun, nofun⟩)
    · exact wp_bind (wp_modifyTop (htest _))
  · exact htest f
  · refine wp_bind (wp_modifyTop ?_)
    split
    · exact wp_bind (wp_top ⟨nofun, nofun⟩)
    · exact nofun

theorem stepForIn_suspends {l : Loc} (left : ForHead) (right : Expr) (body : Stmt) :
    (stepForIn left right body).Suspends (.stmt (.forIn l left right body)) f := by
  have hbody {g : Frame} (hp : g.top.phase ∉ [0, 1, 3]) :
      (pushStmt body).Suspends (.stmt (.forIn l left right body)) g := wp_bind (wp_top ⟨fun _ => hp, nofun⟩)
  refine wp_bind (wp_top ?_)
  split
  · exact wp_bind (wp_modifyTop (wp_bind (wp_top ⟨nofun, nofun⟩)))
  · refine wp_bind (wp_take ?_)
    split
    · trivial
    · exact wp_bind (wp_heap (by split <;> exact nofun))
  · refine wp_bind (wp_top (wp_bind (wp_modifyTop ?_)))
    split
    · trivial
    · refine wp_bind (wp_of_forall fun _ g => wp_bind (wp_modifyTop (hbody ?_)))
      show 2 ∉ [0, 1, 3]
      decide
  · rename_i h₀ h₁ h₃
    have hp : f.top.phase ∉ [0, 1, 3] := by
      simp only [List.mem_cons, List.not_mem_nil, or_false, not_or]
      exact ⟨h₀, h₁, h₃⟩
    refine wp_bind (wp_top (wp_bind (wp_heap (wp_bind (wp_modifyTop ?_)))))
    split
    · trivial
    · refine wp_bind (wp_modifyTop ?_)
      split
      · rename_i d
        cases hd : d.declarators with
        | nil => exact hbody hp
        | cons x rest => exact wp_bind (wp_bind (wp_assign_top fun h => hbody hp))
      · exact wp_bind (wp_assign_top fun h => hbody hp)
      · exact wp_bind (wp_modifyTop (wp_bind (wp_top ⟨nofun, nofun⟩)))

theorem stepReturn_suspends {l : Loc} (argument : Option Expr) :
    (stepReturn argument).Suspends (.stmt (.return_ l argument)) f := by
  refine wp_bind (wp_top ?_)
  split
  · exact wp_bind (wp_modifyTop (wp_bind (wp_top ⟨nofun, fun _ => ⟨rfl, List.mem_singleton_self _, Bool.noConfusion, rfl⟩⟩)))
  · trivial

/-- The rule of every node suspends it. -/
theorem stepNode_suspends (c : Setting ω) (below : List State) (n : Node) (f : Frame) :
    (stepNode c below n).Suspends n f := by
  by_cases hn : n.isAwaiting = false
  · exact wp_of_forall fun mv f' => mv.suspends_of_not_isAwaiting hn f'.top
  · unfold Node.isAwaiting Node.isLoop Node.isReturn at hn
    split at hn
    · exact stepWhile_suspends _ _
    · exact stepDoWhile_suspends _ _
    · exact stepFor_suspends _ _ _ _
    · exact stepForIn_suspends _ _ _
    · split at hn
      · exact stepReturn_suspends _
      · cases hn rfl

/-! ### Expressions answer -/

/-- A rule that does not leave its state without a result, nor stay there without a part to wait for. -/
def RuleM.Answers (r : RuleM Move) : Prop := ∀ f, r.wp (fun mv _ => mv ≠ .drop ∧ mv ≠ .stay) (fun _ _ => True) f

namespace RuleM.Answers

variable {α : Type}

theorem bind {x : RuleM α} {k : α → RuleM Move} (hk : ∀ a, (k a).Answers) : (x >>= k).Answers := fun _ =>
  wp_bind (wp_of_forall fun a g => hk a g)

theorem pure {mv : Move} (hd : mv ≠ .drop) (hs : mv ≠ .stay) : Answers (Pure.pure mv) := fun _ => ⟨hd, hs⟩

theorem raise (t : Throw) : Answers (RuleM.raise t) := fun _ => trivial

theorem stop (t : Throw) (k : α → RuleM Move) : (RuleM.raise t >>= k).Answers := fun _ => wp_bind trivial

theorem fault (e : Fault) : Answers (RuleM.fault e) := fun _ => trivial

theorem give (v : Value) : Answers (RuleM.give v) := pure nofun nofun

theorem pushExpr (e : Expr) : Answers (RuleM.pushExpr e) := bind fun _ => pure nofun nofun

theorem pushTarget (e : Expr) : Answers (RuleM.pushTarget e) := bind fun _ => pure nofun nofun

end RuleM.Answers

theorem evalArray_answers (elements : List (Option Expr)) : (evalArray elements).Answers := by
  refine .bind fun _ => .bind fun _ => .bind fun _ => ?_
  split
  · exact .pushExpr _
  · exact .bind fun _ => .bind fun _ => .give _

theorem evalObject_answers (properties : List Property) : (evalObject properties).Answers := by
  refine .bind fun _ => .bind fun _ => ?_
  split
  · split
    · exact .pushExpr _
    · exact .raise _
  · exact .bind fun _ => .bind fun _ => .give _

theorem evalDelete_answers : evalDelete.Answers := by
  refine .bind fun _ => ?_
  split
  · exact .bind fun _ => .give _
  · rename_i r _
    rcases r with ⟨scope, name⟩ | ⟨base, name⟩
    · exact .stop _ _
    · dsimp only
      split
      · exact .stop _ _
      · refine .bind fun _ => ?_
        split
        · exact .give _
        · exact .bind fun _ => .bind fun _ => .give _

theorem evalUnary_answers (op : UnaryOp) (argument : Expr) : (evalUnary op argument).Answers := by
  refine .bind fun _ => ?_
  split
  · refine .bind fun _ => ?_
    split
    · refine .bind fun _ => .bind fun _ => ?_
      split <;> exact .give _
    · exact .pushTarget _
    · exact .pushTarget _
    · exact .pushExpr _
  · split
    · exact evalDelete_answers
    · exact .bind fun _ => .bind fun _ => .give _

theorem evalUpdate_answers (op : UpdateOp) (leading : Bool) (argument : Expr) :
    (evalUpdate op leading argument).Answers := by
  refine .bind fun _ => ?_
  split
  · exact .bind fun _ => .pushTarget _
  · refine .bind fun _ => ?_
    split
    · exact .raise _
    · exact .bind fun _ => .bind fun _ => .bind fun _ => .give _

theorem evalAssign_answers (op : AssignOp) (left right : Expr) : (evalAssign op left right).Answers := by
  refine .bind fun _ => ?_
  split
  · exact .bind fun _ => .pushTarget _
  · refine .bind fun _ => .bind fun _ => ?_
    split
    · exact .raise _
    · dsimp only
      split
      · exact .bind fun _ => .bind fun _ => .bind fun _ => .pushExpr _
      · exact .bind fun _ => .pushExpr _
  · refine .bind fun _ => .bind fun _ => .bind fun _ => ?_
    split
    · exact .raise _
    · exact .bind fun _ => .give _

theorem evalBinary_answers (op : BinaryOp) (left right : Expr) : (evalBinary op left right).Answers := by
  refine .bind fun _ => ?_
  split
  · exact .bind fun _ => .pushExpr _
  · exact .bind fun _ => .bind fun _ => .pushExpr _
  · exact .bind fun _ => .bind fun _ => .bind fun _ => .bind fun _ => .give _

theorem evalLogical_answers (op : LogicalOp) (left right : Expr) : (evalLogical op left right).Answers := by
  refine .bind fun _ => ?_
  split
  · exact .bind fun _ => .pushExpr _
  · refine .bind fun _ => ?_
    split
    · exact .give _
    · exact .bind fun _ => .pushExpr _
  · exact .bind fun _ => .give _

theorem evalConditional_answers (test consequent alternate : Expr) :
    (evalConditional test consequent alternate).Answers := by
  refine .bind fun _ => ?_
  split
  · exact .bind fun _ => .pushExpr _
  · exact .bind fun _ => .bind fun _ => .pushExpr _
  · exact .bind fun _ => .give _

theorem evalSequence_answers (expressions : List Expr) : (evalSequence expressions).Answers := by
  refine .bind fun _ => ?_
  split
  · exact .bind fun _ => .pushExpr _
  · exact .bind fun _ => .give _

theorem giveProperty_answers (key : String) : (giveProperty key).Answers := by
  refine .bind fun _ => ?_
  split
  · exact .pure nofun nofun
  · exact .bind fun _ => .bind fun _ => .give _

theorem evalMember_answers (object : Expr) (name : String) : (evalMember object name).Answers := by
  refine .bind fun _ => ?_
  split
  · exact .bind fun _ => .pushExpr _
  · exact .bind fun _ => .bind fun _ => giveProperty_answers name

theorem evalIndex_answers (object key : Expr) : (evalIndex object key).Answers := by
  refine .bind fun _ => ?_
  split
  · exact .bind fun _ => .pushExpr _
  · exact .bind fun _ => .bind fun _ => .pushExpr _
  · exact .bind fun _ => .bind fun _ => giveProperty_answers _

theorem enterClosure_answers (function : Object) (node : Int) (scope : ObjectId) (construct : Bool) :
    (enterClosure c function node scope construct).Answers := by
  have hbody (callable : Callable) : (enterBody scope callable).Answers :=
    .bind fun _ => .bind fun _ => .bind fun _ => .pure nofun nofun
  unfold enterClosure
  split
  · exact .fault _
  · dsimp only
    split
    · exact .bind fun _ => .bind fun _ => hbody _
    · exact hbody _

theorem invoke_answers (callee : Expr) (turns : Nat) (construct : Bool) :
    (invoke c below callee turns construct).Answers := by
  induction turns generalizing construct with
  | zero => exact .fault _
  | succ turns ih =>
    refine .bind fun _ => .bind fun _ => ?_
    split
    · exact .raise _
    · split
      · exact enterClosure_answers _ _ _ _
      · split
        · exact .pure nofun nofun
        · refine .bind fun reply => ?_
          cases reply with
          | value v => exact .give v
          | tail func this args => exact .bind fun _ => ih false

theorem stepArguments_answers (callee : Expr) (args : List Expr) (construct : Bool) :
    (stepArguments c below callee args construct).Answers := by
  refine .bind fun _ => ?_
  dsimp only
  split
  · refine .bind fun _ => .bind fun _ => .bind fun s => ?_
    split
    · exact .bind fun _ => .pushExpr _
    · exact .bind fun _ => invoke_answers callee tailLimit construct
  · refine .bind fun s => ?_
    split
    · exact .bind fun _ => .pushExpr _
    · exact .bind fun _ => invoke_answers callee tailLimit construct

theorem stepCall_answers (callee : Expr) (args : List Expr) (construct : Bool) :
    (stepCall c below callee args construct).Answers := by
  have hend : (endCall construct).Answers := by
    refine .bind fun _ => ?_
    split
    · exact .bind fun _ => .give _
    · exact .give _
  refine .bind fun _ => ?_
  split
  · refine .bind fun _ => ?_
    split
    · exact .pushExpr _
    · exact .pushTarget _
  · exact .bind fun _ => stepArguments_answers callee args construct
  · exact stepArguments_answers callee args construct
  · exact invoke_answers callee tailLimit construct
  · exact .bind fun _ => hend
  · exact hend

/-- Every expression has a result. -/
theorem stepExpr_answers (e : Expr) : (stepExpr c below e).Answers := by
  cases e with
  | identifier i =>
    refine .bind fun _ => ?_
    split
    · exact .pure nofun nofun
    · exact .bind fun _ => .give _
  | number | string | boolean | null => exact .give _
  | regexp => exact .raise _
  | this => exact .bind fun _ => .bind fun _ => .give _
  | function => exact .bind fun _ => .bind fun _ => .give _
  | array l elements => exact evalArray_answers elements
  | object l properties => exact evalObject_answers properties
  | unary l op argument => exact evalUnary_answers op argument
  | update l op leading argument => exact evalUpdate_answers op leading argument
  | binary l op left right => exact evalBinary_answers op left right
  | logical l op left right => exact evalLogical_answers op left right
  | assign l op left right => exact evalAssign_answers op left right
  | conditional l test consequent alternate => exact evalConditional_answers test consequent alternate
  | sequence l expressions => exact evalSequence_answers expressions
  | member l object name => exact evalMember_answers object name.name
  | index l object key => exact evalIndex_answers object key
  | call l callee args => exact stepCall_answers callee args false
  | new l callee args => exact stepCall_answers callee args true

/-! ### Machines -/

theorem State.Awaits.alike {t' : State} (h : s.Awaits t) (ha : t.Alike t') : s.Awaits t' := by
  obtain ⟨hpart, hloop, hargument⟩ := h
  rw [← ha.node] at hpart hloop
  rw [← ha.node, ← ha.components, ← ha.labels] at hargument
  exact ⟨hpart, hloop, hargument⟩

theorem State.isAnswered_of_not_isReturn (h : ¬s.node.isReturn) : s.IsAnswered := fun hs => absurd hs h

theorem Node.resumesAt_of_isCall {n : Node} (hn : n.isCall) (phase : Nat) : n.resumesAt phase := by
  unfold isCall at hn
  split at hn
  · trivial
  · trivial
  · cases hn

theorem Node.not_isReturn_of_isCall {n : Node} (hn : n.isCall) : ¬n.isReturn := by
  unfold isCall at hn
  split at hn
  · exact Bool.noConfusion
  · exact Bool.noConfusion
  · cases hn

/-- The argument of a `return` is an expression. -/
theorem Node.isExpr_of_return_operand {n part : Node} (hn : n.isReturn) (hp : part ∈ n.operands) : part.isExpr := by
  unfold isReturn at hn
  split at hn
  · obtain ⟨e, -, rfl⟩ := List.mem_map.1 hp
    rfl
  · cases hn

/-- No jump looks for an expression without labels. -/
theorem State.not_isTarget_of_isExpr (hn : t.node.isExpr) (hl : t.labels = []) (label : Option String)
    (isContinue : Bool) : ¬t.isTarget label isContinue := by
  unfold Node.isExpr at hn
  split at hn
  · rename_i e hnode
    have hloop : t.isLoop = false := by simp only [isLoop, hnode]
    have hswitch : t.isSwitch = false := by simp only [isSwitch, hnode]
    unfold isTarget
    rw [hl, hloop, hswitch]
    cases label <;> simp
  · cases hn

/-- What a jump goes on with is no `return`: that waits for an expression, and no expression is a target. -/
theorem State.Awaits.not_isReturn_of_isTarget {label : Option String} {isContinue : Bool} (h : s.Awaits t)
    (ht : t.isTarget label isContinue) : ¬s.node.isReturn := by
  intro hs
  obtain ⟨-, hop, -, hlabels⟩ := h.argument hs
  exact State.not_isTarget_of_isExpr (Node.isExpr_of_return_operand hs hop) hlabels _ _ ht

theorem State.not_isReturn_of_isLoop (h : s.isLoop) : ¬s.node.isReturn := by
  intro hs
  unfold Node.isReturn at hs
  split at hs
  · rename_i hnode
    simp only [isLoop, hnode] at h
    cases h
  · cases hs

namespace Awaiting

/-- A state that has left the stack does not matter if the one below it has its value. -/
theorem drop (h : (t :: stack).IsChain fun t s => s.Awaits t) (hs : ∀ s ∈ stack.head?, s.Awaits t → s.IsAnswered) :
    Awaiting stack :=
  ⟨(List.isChain_cons.1 h).2, fun s hmem => hs s hmem ((List.isChain_cons.1 h).1 s hmem)⟩

/-- The value that a state has delivered is the one that is waited for. -/
theorem receive (h : (t :: stack).IsChain fun t s => s.Awaits t) (v : Value) : Awaiting (deliver (·.receive v) stack) := by
  cases stack with
  | nil => exact ⟨.nil, by simp [deliver]⟩
  | cons s stack =>
    obtain ⟨hts, hs⟩ := List.isChain_cons_cons.1 h
    refine ⟨hs.imp_head fun hs => hs.alike (s.alike_receive v), fun u hu hreturn => ?_⟩
    cases hu
    obtain ⟨hdone, hop, -⟩ := hts.argument hreturn
    exact ⟨hdone.symm, fun _ => List.ne_nil_of_mem hop⟩

/-- A place is not waited for. -/
theorem receiveRef (h : (t :: stack).IsChain fun t s => s.Awaits t) (ht : t.components) (r : Reference) :
    Awaiting (deliver (·.receiveRef r) stack) := by
  cases stack with
  | nil => exact ⟨.nil, by simp [deliver]⟩
  | cons s stack =>
    obtain ⟨hts, hs⟩ := List.isChain_cons_cons.1 h
    refine ⟨hs.imp_head fun hs => hs.alike (s.alike_receiveRef r), fun u hu hreturn => ?_⟩
    cases hu
    exact absurd ht (hts.argument hreturn).2.2.1

theorem leaveTo {label : Option String} {isContinue : Bool} (h : stack.IsChain fun t s => s.Awaits t)
    (hfound : (Stepwise.leaveTo label isContinue stack).2) : Awaiting (Stepwise.leaveTo label isContinue stack).1 := by
  obtain ⟨inner, target, outer, rfl, -, -, htarget, he⟩ := leaveTo_found hfound
  rw [he]
  have hrest := h.suffix (List.suffix_append inner (target :: outer))
  split
  · rename_i hcontinue
    refine ⟨hrest, fun s hs => State.isAnswered_of_not_isReturn (State.not_isReturn_of_isLoop ?_)⟩
    cases hs
    unfold State.isTarget at htarget
    rw [hcontinue] at htarget
    cases label <;> simp_all
  · exact .drop hrest fun s hs ha => State.isAnswered_of_not_isReturn (ha.not_isReturn_of_isTarget htarget)

theorem returnTo {v : Value} (h : stack.IsChain fun t s => s.Awaits t) (hfound : (Stepwise.returnTo v stack).2) :
    Awaiting (Stepwise.returnTo v stack).1 := by
  obtain ⟨inner, call, outer, rfl, -, hcall, he⟩ := returnTo_found hfound
  rw [he]
  have hrest := h.suffix (List.suffix_append inner (call :: outer))
  refine ⟨hrest.imp_head fun hs => hs.alike ⟨rfl, rfl, rfl, rfl, rfl⟩, fun s hs => ?_⟩
  cases hs
  have hno : ¬call.node.isReturn := Node.not_isReturn_of_isCall (State.isCall_of_isActiveCall hcall)
  exact State.isAnswered_of_not_isReturn hno

end Awaiting

namespace Machine

variable {m m' : Machine} {mv : Move}

/-- An expression does not leave the stack without a result. -/
theorem Advances.not_isExpr_of_drop (ha : m.Advances c s below .drop f m') : ¬s.node.isExpr := by
  intro hexpr
  have hrule : stepNode c below s.node ⟨s, m.heap⟩ = .ok .drop f := by
    rcases ha.rule with hrule | hresumes
    · exact hrule
    · rcases hresumes.settles with ⟨_, h⟩ | ⟨_, _, h, -⟩ <;> cases h
  unfold Node.isExpr at hexpr
  split at hexpr
  · rename_i e hnode
    rw [hnode] at hrule
    exact absurd rfl ((stepExpr_answers e _).of_ok hrule).1
  · cases hexpr

/-- Whatever comes of the state on top suspends it. -/
theorem Advances.suspends (ha : m.Advances c s below mv f m') : mv.Suspends s.node f.top := by
  rcases ha.rule with hrule | hresumes
  · exact (stepNode_suspends c below s.node ⟨s, m.heap⟩).of_ok hrule
  · exact Move.suspends_of_not_isAwaiting (Node.not_isAwaiting_of_isCall hresumes.call) f.top mv

/-- Every step that advances leaves states that wait for what is above them. -/
theorem Advances.awaiting (hc : c.IsRead) (hsize : c.program.nodes.length < 2 ^ 24) (hw : m.WellFormed)
    (hseated : Seated c m.stack) (hm : Awaiting m.stack) (ha : m.Advances c s below mv f m') : Awaiting m'.stack := by
  have hchain : (f.top :: below).IsChain fun t s => s.Awaits t := by
    have hchain := hm.chain
    rw [ha.stack] at hchain
    exact hchain.imp_head fun h => h.alike ha.top.toAlike
  have hsuspends := ha.suspends
  rw [ha.stack_eq]
  cases mv with
  | stay | host =>
    refine ⟨hchain, fun u hu => State.isAnswered_of_not_isReturn ?_⟩
    cases hu
    rw [ha.top.node]
    exact hsuspends
  | push node scope components labels =>
    refine ⟨hchain.cons fun u hu => ?_, fun u hu _ => ?_⟩
    · cases hu
      rw [← ha.top.node] at hsuspends
      rcases ha.push_cases hw.heap.toFiled with ⟨hp, -⟩ | ⟨hen, -⟩
      · obtain ⟨site, hsits⟩ := hseated s below (ha.stack ▸ List.suffix_refl _)
        have hresolve : c.resolve node = node := hc.resolve_of_mem hsize (hsits.stands.operand hp.operand).mem_nodes
        rw [hresolve]
        exact ⟨fun _ => ha.top.node ▸ hp.operand, hsuspends.1, hsuspends.2⟩
      · have hcall := ha.top.node ▸ hen.call
        refine ⟨fun hno => absurd (State.isActiveCall_of_isCall hcall hen.phase) hno, fun _ => ?_, fun h => ?_⟩
        · exact Node.resumesAt_of_isCall hcall _
        · exact absurd h (Node.not_isReturn_of_isCall hcall)
    · cases hu
      exact ⟨rfl, nofun⟩
  | drop =>
    refine .drop hchain fun u hu hawaits hreturn => ?_
    have hexpr := Node.isExpr_of_return_operand hreturn (hawaits.argument hreturn).2.1
    exact absurd (ha.top.node ▸ hexpr) ha.not_isExpr_of_drop
  | give v => exact .receive hchain v
  | giveRef r =>
    have hcomponents : f.top.components := ha.fits.resolve_right id
    exact .receiveRef hchain hcomponents r
  | jump label isContinue => exact .leaveTo (List.isChain_cons.1 hchain).2 ha.target_found
  | return_ v => exact .returnTo hchain ha.call_found

theorem Reachable.awaiting (hc : c.IsRead) (hsize : c.program.nodes.length < 2 ^ 24) (hh : ∀ f ∈ c.host, f.Sound)
    {world : ω} (h : m.Reachable c world) : Awaiting m.stack := by
  induction h with
  | start h world =>
    rw [stack_start_of_isRead hc h]
    exact ⟨.singleton _, fun s hs => by cases hs; exact nofun⟩
  | step h hs ih =>
    have hw := h.wellFormed hh
    obtain ⟨s, below, mv, f, ha⟩ := advances_of_step hh hw hs
    exact ha.awaiting hc hsize hw (h.seated hc hsize hh) ih

end Machine

end Stepwise

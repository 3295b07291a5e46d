import Stepwise.Proofs.Machine.Node
import Stepwise.Proofs.Parse.Placed
import Stepwise.Proofs.Parse.Span

/-!
# Programs are lawful

* `RuleM.FaultFree`: a rule may raise an exception, but it does not stop with a fault.
* `faultFree_stepNode`: the rules of operators are such rules, so there is a rule for every operator.
* `Program.IsLawful`: all nodes of a program obey the rules for their kind and stand where they may, and there is a rule
  for each operator.
* `Program.isRegular_of_parse`: its nodes bind no keyword.
* `Program.isLawful_of_parse`: a program that is read from a source is lawful.
-/

namespace Stepwise

open RuleM

variable {α β ω : Type}

/-- A rule that never stops with a fault. -/
def RuleM.FaultFree (r : RuleM α) : Prop := ∀ f, r.wp (fun _ _ => True) (fun e _ => ∀ x, e ≠ .fault x) f

namespace RuleM.FaultFree

theorem bind {x : RuleM β} {k : β → RuleM α} (hx : x.FaultFree) (hk : ∀ b, (k b).FaultFree) : (x >>= k).FaultFree :=
  fun f => wp_bind ((hx f).mono (fun b f' _ => hk b f') fun _ _ he => he)

theorem pure (a : α) : (Pure.pure a : RuleM α).FaultFree := fun _ => trivial

theorem top : RuleM.top.FaultFree := fun _ => trivial

theorem heap : RuleM.heap.FaultFree := fun _ => trivial

theorem setHeap (h : Heap) : (RuleM.setHeap h).FaultFree := fun _ => trivial

theorem modifyTop (g : State → State) : (RuleM.modifyTop g).FaultFree := fun _ => trivial

theorem take : RuleM.take.FaultFree := fun _ => trivial

theorem raise (t : Throw) : (RuleM.raise t : RuleM α).FaultFree := fun _ _ he => Failure.noConfusion he

theorem orRaise (x : Except Throw α) : (RuleM.orRaise x).FaultFree := by
  cases x with
  | ok a => exact .pure a
  | error t => exact .raise t

theorem give (v : Value) : (RuleM.give v).FaultFree := .pure _

theorem pushExpr (e : Expr) : (RuleM.pushExpr e).FaultFree := .bind .top fun _ => .pure _

theorem pushTarget (e : Expr) : (RuleM.pushTarget e).FaultFree := .bind .top fun _ => .pure _

theorem getRef (r : Reference) : (RuleM.getRef r).FaultFree := .bind .heap fun _ => .orRaise _

theorem putRef (r : Reference) (v : Value) : (RuleM.putRef r v).FaultFree :=
  .bind .heap fun _ => .bind (.orRaise _) fun _ => .setHeap _

end RuleM.FaultFree

/-! ### Operators -/

theorem faultFree_evalDelete : evalDelete.FaultFree := by
  refine .bind .top fun s => ?_
  split
  · exact .bind .take fun _ => .give _
  · split
    · split
      · exact .raise _
      · refine .bind .heap fun h => ?_
        split
        · exact .give _
        · exact .bind .heap fun _ => .bind (.setHeap _) fun _ => .give _

theorem faultFree_evalUnary (op : UnaryOp) (argument : Expr) : (evalUnary op argument).FaultFree := by
  refine .bind .top fun s => ?_
  split
  · refine .bind (.modifyTop _) fun _ => ?_
    split
    · refine .bind .heap fun h => .bind .top fun _ => ?_
      split
      · exact .give _
      · exact .give _
    · exact .pushTarget _
    · exact .pushTarget _
    · exact .pushExpr _
  · split
    · exact faultFree_evalDelete
    · exact .bind .take fun _ => .bind .heap fun _ => .give _

theorem faultFree_evalUpdate (op : UpdateOp) (leading : Bool) (argument : Expr) :
    (evalUpdate op leading argument).FaultFree := by
  refine .bind .top fun s => ?_
  split
  · exact .bind (.modifyTop _) fun _ => .pushTarget _
  · refine .bind .top fun s => ?_
    split
    · exact .raise _
    · exact .bind .heap fun _ => .bind (.getRef _) fun _ => .bind (.putRef _ _) fun _ => .give _

theorem faultFree_evalBinary (op : BinaryOp) (left right : Expr) : (evalBinary op left right).FaultFree := by
  refine .bind .top fun s => ?_
  split
  · exact .bind (.modifyTop _) fun _ => .pushExpr _
  · exact .bind .take fun _ => .bind (.modifyTop _) fun _ => .pushExpr _
  · exact .bind .take fun _ => .bind .heap fun _ => .bind .top fun _ => .bind (.orRaise _) fun _ => .give _

theorem faultFree_evalLogical (op : LogicalOp) (left right : Expr) : (evalLogical op left right).FaultFree := by
  refine .bind .top fun s => ?_
  split
  · exact .bind (.modifyTop _) fun _ => .pushExpr _
  · refine .bind .take fun v => ?_
    split
    · exact .give _
    · exact .bind (.modifyTop _) fun _ => .pushExpr _
  · exact .bind .take fun _ => .give _

theorem faultFree_assigned (op : AssignOp) (right : Value) : (assigned op right).FaultFree := by
  unfold assigned
  split
  · exact .pure _
  · exact .bind .heap fun _ => .bind .top fun _ => .orRaise _

theorem faultFree_evalAssign (op : AssignOp) (left right : Expr) : (evalAssign op left right).FaultFree := by
  refine .bind .top fun s => ?_
  split
  · exact .bind (.modifyTop _) fun _ => .pushTarget _
  · refine .bind (.modifyTop _) fun _ => .bind .top fun s => ?_
    split
    · exact .raise _
    · split
      · refine .bind (.getRef _) fun _ => .bind (.modifyTop _) fun _ => ?_
        exact .bind (.modifyTop _) fun _ => .pushExpr _
      · exact .bind (.modifyTop _) fun _ => .pushExpr _
  · refine .bind .take fun v => .bind (faultFree_assigned _ _) fun v => .bind .top fun s => ?_
    split
    · exact .raise _
    · exact .bind (.putRef _ _) fun _ => .give _

/-- Whether a node applies an operator. -/
def Node.isOperation : Node → Bool
  | expr (.unary ..) | expr (.update ..) | expr (.binary ..) | expr (.logical ..) | expr (.assign ..) => true
  | _ => false

/-- There is a rule for every operator: it gives a result or raises an exception. -/
theorem faultFree_stepNode {n : Node} (h : n.isOperation) (c : Setting ω) (below : List State) :
    (stepNode c below n).FaultFree := by
  cases n with
  | expr e =>
    cases e with
    | unary l op argument => exact faultFree_evalUnary op argument
    | update l op leading argument => exact faultFree_evalUpdate op leading argument
    | binary l op left right => exact faultFree_evalBinary op left right
    | logical l op left right => exact faultFree_evalLogical op left right
    | assign l op left right => exact faultFree_evalAssign op left right
    | _ => cases h
  | _ => cases h

/-! ### Programs -/

/-- A program whose jumps stand in what they leave, and whose nodes obey the rules for their kind. What an operator
makes of its operands is a value or an exception, but never a fault. -/
structure Program.IsLawful (p : Program) : Prop where
  /-- A `return` stands in a function. A `break` without a label stands in a loop or a `switch`, and a `continue`
  without one in a loop, of the same function. -/
  placed : (Node.program p).placed {}
  /-- Targets are names or properties, names are not empty, parameters differ, and so on: see `Node.isLawful`. -/
  lawful : ∀ n ∈ p.nodes, n.isLawful
  operators : ∀ n ∈ p.nodes, n.isOperation → ∀ {ω : Type} (c : Setting ω) (below : List State),
    (stepNode c below n).FaultFree

variable {source name : String} {first : Int}

/-- The nodes of a program that its tokens spell are lawful, and no keyword is bound. -/
theorem Program.Spelled.isRegular {words : List Token} {last : Token} {p : Program} (h : Spelled source words last p)
    {n : Node} (hn : n ∈ p.nodes) : n.isRegular := by
  rcases h.exists_spells hn with rfl | ⟨ts, -, spelled⟩
  · rfl
  · exact spelled.isRegular

theorem Program.isRegular_of_parse {p : Program} (h : Program.parse source first name = .ok p) {n : Node}
    (hn : n ∈ p.nodes) : n.isRegular := by
  obtain ⟨words, last, q, hq, -, hpq⟩ := exists_spelled_of_parse h
  obtain ⟨m, hm, hnm⟩ := Node.exists_mem_nodes_of_outline hpq hn
  rw [Node.isRegular_of_outline hnm]
  exact hq.isRegular hm

/-- A program that is read from a source is lawful. -/
theorem Program.isLawful_of_parse {p : Program} (h : Program.parse source first name = .ok p) : p.IsLawful := by
  refine ⟨placed_of_parse h, fun n hn => ?_, fun n _ hop _ c below => faultFree_stepNode hop c below⟩
  exact (Node.isRegular_iff.1 (isRegular_of_parse h hn)).1

/-- A loop over keys in a function, with a jump, a comma and two assignable places. -/
theorem Program.isLawful_of_parse_loop :
    ∃ p, Program.parse "function f(x, y) \x7b for (x.i in y) if (x.i -= 1, -y) continue; return delete y[0]; \x7d" 1 "" =
      .ok p ∧ (p.nodes.filter fun n => n.kind ≠ .identifier).map Node.kind =
        [.program, .functionDeclaration, .blockStatement, .forInStatement, .memberExpression, .ifStatement,
          .sequenceExpression, .assignmentExpression, .memberExpression, .numberLiteral, .unaryExpression,
          .continueStatement, .returnStatement, .unaryExpression, .memberExpression, .numberLiteral] ∧ p.IsLawful := by
  have hok : (Program.parse "function f(x, y) \x7b for (x.i in y) if (x.i -= 1, -y) continue; return delete y[0]; \x7d"
      1 "").toOption.any fun p => (p.nodes.filter fun n => n.kind ≠ .identifier).map Node.kind =
        [.program, .functionDeclaration, .blockStatement, .forInStatement, .memberExpression, .ifStatement,
          .sequenceExpression, .assignmentExpression, .memberExpression, .numberLiteral, .unaryExpression,
          .continueStatement, .returnStatement, .unaryExpression, .memberExpression, .numberLiteral] := by
    decide +kernel
  obtain ⟨p, hp, hkinds⟩ := Program.exists_of_any_parse hok
  exact ⟨p, hp, of_decide_eq_true hkinds, Program.isLawful_of_parse hp⟩

/-- The nodes of a library and a program that were read are regular. -/
theorem Setting.IsRead.isRegular {c : Setting ω} {n : Node} (hc : c.IsRead)
    (h : n ∈ c.library.nodes ∨ n ∈ c.program.nodes) : n.isRegular := by
  rcases h with h | h
  · obtain ⟨text, hl⟩ := hc.library
    rw [hl] at h
    unfold Library.read at h
    cases hp : Program.parse text Library.scriptFirst Library.scriptName with
    | ok p =>
      rw [hp] at h
      exact Program.isRegular_of_parse hp h
    | error e =>
      rw [hp] at h
      change n ∈ (Node.program default).nodes at h
      rw [Node.nodes_eq] at h
      cases List.mem_singleton.1 h
      rfl
  · obtain ⟨source, hp⟩ := hc.program
    exact Program.isRegular_of_parse hp h

end Stepwise

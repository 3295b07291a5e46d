import Stepwise.Proofs.Machine.Expression

/-!
# The rules of statements

* `stepNode_calls`: the rule of any node starts parts of it, or calls.
* `stepNode_stays`: it never exchanges the state on top for another one, whatever the heap is like.
-/

namespace Stepwise

open Heap RuleM

variable {ω : Type} {parts : Starting}

theorem stepBody_starts {body : List Stmt} {last : Move} (h : ∀ s ∈ body, parts.plain (.stmt s))
    (hl : ∀ f, StartsIn parts last f) : Starts parts (stepBody body last) := by
  refine .bind .top fun s => ?_
  split
  · rename_i s hs
    exact .bind (.modifyTop fun _ => ⟨⟨rfl, rfl, rfl, rfl, rfl⟩, .inl rfl⟩) fun _ =>
      .pushStmt (h s (List.mem_of_getElem? hs))
  · exact .pure hl

theorem drop_starts : Starts parts (Pure.pure Move.drop) := .pure fun _ => trivial

theorem stay_starts : Starts parts (Pure.pure Move.stay) := .pure fun _ => trivial

theorem stepExpression_starts {e : Expr} (h : parts.plain (.expr e)) : Starts parts (stepExpression e) := by
  refine .bind .top fun s => ?_
  split
  · exact .bind (.setPhase 1) fun _ => .pushExpr h
  · exact drop_starts

theorem stepDeclarators_starts {rest : List Declarator} (h : ∀ d ∈ rest, ∀ e, d.init = some e → parts.plain (.expr e)) :
    Starts parts (stepDeclarators rest) := by
  refine .bind (.modifyTop fun _ => ⟨⟨rfl, rfl, rfl, rfl, rfl⟩, .inl rfl⟩) fun _ => ?_
  split
  · rename_i e he
    obtain ⟨d, hd, hi⟩ := Option.bind_eq_some_iff.1 he
    exact .bind (.setPhase 1) fun _ => .pushExpr (h d (List.mem_of_getElem? hd) e hi)
  · exact drop_starts

theorem stepVar_starts {declarators : List Declarator}
    (h : ∀ d ∈ declarators, ∀ e, d.init = some e → parts.plain (.expr e)) : Starts parts (stepVar declarators) := by
  have rest : Starts parts (do stepDeclarators (declarators.drop (← RuleM.top).n)) :=
    .bind .top fun s => stepDeclarators_starts fun d hd => h d (List.mem_of_mem_drop hd)
  refine .bind .top fun s => ?_
  split
  · refine .bind .top fun s => ?_
    split
    · exact .bind .take fun _ => .bind (.assign _ _) fun _ =>
        .bind (.modifyTop fun _ => ⟨⟨rfl, rfl, rfl, rfl, rfl⟩, .inl rfl⟩) fun _ => rest
    · exact .bind (.modifyTop fun _ => ⟨⟨rfl, rfl, rfl, rfl, rfl⟩, .inl rfl⟩) fun _ => rest
  · exact rest

theorem stepIf_starts {test : Expr} {consequent : Stmt} {alternate : Option Stmt} (ht : parts.plain (.expr test))
    (hc : parts.plain (.stmt consequent)) (ha : ∀ s, alternate = some s → parts.plain (.stmt s)) :
    Starts parts (stepIf test consequent alternate) := by
  refine .bind .top fun s => ?_
  split
  · exact .bind (.setPhase 1) fun _ => .pushExpr ht
  · refine .bind (.setPhase 2) fun _ => .bind .take fun v => ?_
    split
    · exact .pushStmt hc
    · split
      · exact .pushStmt (ha _ rfl)
      · exact stay_starts
  · exact drop_starts

theorem stepLabeled_starts {label : String} {body : Stmt}
    (h : ∀ labels, parts labels (.stmt body) false (labels ++ [label])) :
    Starts parts (stepLabeled label body) := by
  intro f
  show wp (if f.top.phase = 0 then _ else _) _ _ f
  split
  · exact ⟨⟨⟨⟨rfl, rfl, rfl, rfl, rfl⟩, .inl rfl⟩, .refl _⟩, h _, rfl⟩
  · exact drop_starts f

theorem stepWhile_starts {test : Expr} {body : Stmt} (ht : parts.plain (.expr test)) (hb : parts.plain (.stmt body)) :
    Starts parts (stepWhile test body) := by
  refine .bind .top fun s => ?_
  split
  · exact .bind (.setPhase 1) fun _ => .pushExpr ht
  · refine .bind .take fun v => ?_
    split
    · exact .bind (.setPhase 0) fun _ => .pushStmt hb
    · exact drop_starts

theorem stepDoWhile_starts {test : Expr} {body : Stmt} (ht : parts.plain (.expr test)) (hb : parts.plain (.stmt body)) :
    Starts parts (stepDoWhile body test) := by
  refine .bind .top fun s => ?_
  split
  · exact .bind (.setPhase 1) fun _ => .pushStmt hb
  · exact .bind (.setPhase 2) fun _ => .pushExpr ht
  · refine .bind .take fun v => ?_
    split
    · exact .bind (.setPhase 1) fun _ => .pushStmt hb
    · exact drop_starts

theorem stepForTest_starts {body : Stmt} (hb : parts.plain (.stmt body)) : Starts parts (stepForTest body) := by
  refine .bind .take fun v => ?_
  split
  · exact .bind (.setPhase 3) fun _ => .pushStmt hb
  · exact drop_starts

theorem stepFor_starts {init : Option ForHead} {test update : Option Expr} {body : Stmt}
    (hi : ∀ h, init = some h → parts.plain h.node) (ht : ∀ e, test = some e → parts.plain (.expr e))
    (hu : ∀ e, update = some e → parts.plain (.expr e)) (hb : parts.plain (.stmt body)) :
    Starts parts (stepFor init test update body) := by
  refine .bind .top fun s => ?_
  split
  · refine .bind (.setPhase 1) fun _ => ?_
    split
    · exact .push (hi _ rfl)
    · exact stay_starts
  · refine .bind (.setPhase 2) fun _ => ?_
    split
    · exact .pushExpr (ht _ rfl)
    · exact .bind (.modifyTop fun _ => ⟨⟨rfl, rfl, rfl, rfl, rfl⟩, .inl rfl⟩) fun _ => stepForTest_starts hb
  · exact stepForTest_starts hb
  · refine .bind (.setPhase 1) fun _ => ?_
    split
    · exact .pushExpr (hu _ rfl)
    · exact stay_starts

theorem enterForIn_starts : Starts parts enterForIn := by
  have rest : Starts parts (do
      let h ← RuleM.heap
      let keys := ((h.deref? (← RuleM.top).left).map h.loopKeys).getD []
      RuleM.modifyTop fun s => { s with keys, phase := 2 }
      return .stay) :=
    .bind .heap fun _ => .bind .top fun _ => .bind (.modifyTop fun _ => ⟨⟨rfl, rfl, rfl, rfl, rfl⟩, .inl rfl⟩) fun _ =>
      stay_starts
  refine .bind .take fun subject => ?_
  split
  · exact drop_starts
  · intro f
    refine wp_bind (wp_heap ?_)
    split
    · rename_i id h hb
      exact Starts.setHeap (.box? hb) (.bind (.modifyTop fun _ => ⟨⟨rfl, rfl, rfl, rfl, rfl⟩, .inl rfl⟩) fun _ => rest)
    · refine (?_ : Starts parts _) f
      exact .bind (.modifyTop fun _ => ⟨⟨rfl, rfl, rfl, rfl, rfl⟩, .inl rfl⟩) fun _ => rest

theorem nextForIn_starts {left : ForHead} {body : Stmt}
    (hl : ∀ e, left = .expr e → (∀ i, e ≠ .identifier i) → parts.place e) (hb : parts.plain (.stmt body)) :
    Starts parts (nextForIn left body) := by
  refine .bind .top fun s => .bind .heap fun h => ?_
  refine .bind (.modifyTop fun _ => ⟨⟨rfl, rfl, rfl, rfl, rfl⟩, .inl rfl⟩) fun _ => ?_
  split
  · exact drop_starts
  · refine .bind (.modifyTop fun _ => ⟨⟨rfl, rfl, rfl, rfl, rfl⟩, .inl rfl⟩) fun _ => ?_
    split
    · exact .bind (.forM (fun _ => .assign _ _) _) fun _ => .pushStmt hb
    · exact .bind (.assign _ _) fun _ => .pushStmt hb
    · rename_i e hi
      exact .bind (.setPhase 3) fun _ => .pushTarget (hl e rfl fun i he => hi i (by rw [he]))

theorem storeForIn_starts {body : Stmt} (hb : parts.plain (.stmt body)) : Starts parts (storeForIn body) := by
  refine .bind .top fun s => .bind (.modifyTop fun _ => ⟨⟨rfl, rfl, rfl, rfl, rfl⟩, .inr rfl⟩) fun _ => ?_
  split
  · exact .raise _
  · exact .bind (.putRef _ _) fun _ => .bind (.setPhase 2) fun _ => .pushStmt hb

theorem stepForIn_starts {left : ForHead} {right : Expr} {body : Stmt}
    (hl : ∀ e, left = .expr e → (∀ i, e ≠ .identifier i) → parts.place e)
    (hr : parts.plain (.expr right)) (hb : parts.plain (.stmt body)) : Starts parts (stepForIn left right body) := by
  refine .bind .top fun s => ?_
  split
  · exact .bind (.setPhase 1) fun _ => .pushExpr hr
  · exact enterForIn_starts
  · exact storeForIn_starts hb
  · exact nextForIn_starts hl hb

theorem runCases_starts {cases : List SwitchCase} (h : ∀ c ∈ cases, ∀ s ∈ c.body, parts.plain (.stmt s)) :
    Starts parts (runCases cases) := by
  induction cases with
  | nil => exact drop_starts
  | cons c rest ih =>
    rw [List.forall_mem_cons] at h
    refine .bind .top fun s => ?_
    split
    · rename_i s hs
      exact .bind (.modifyTop fun _ => ⟨⟨rfl, rfl, rfl, rfl, rfl⟩, .inl rfl⟩) fun _ =>
        .pushStmt (h.1 s (List.mem_of_getElem? hs))
    · exact .bind (.modifyTop fun _ => ⟨⟨rfl, rfl, rfl, rfl, rfl⟩, .inl rfl⟩) fun _ => ih h.2

theorem searchCases_starts {cases rest : List SwitchCase} (h : ∀ c ∈ cases, ∀ s ∈ c.body, parts.plain (.stmt s))
    (ht : ∀ c ∈ rest, ∀ e, c.test = some e → parts.plain (.expr e)) : Starts parts (searchCases cases rest) := by
  induction rest with
  | nil =>
    refine .bind .top fun s => ?_
    split
    · exact drop_starts
    · exact .bind (.modifyTop fun _ => ⟨⟨rfl, rfl, rfl, rfl, rfl⟩, .inl rfl⟩) fun _ =>
        runCases_starts fun c hc => h c (List.mem_of_mem_drop hc)
  | cons c rest ih =>
    rw [List.forall_mem_cons] at ht
    unfold searchCases
    split
    · exact .bind (.modifyTop fun _ => ⟨⟨rfl, rfl, rfl, rfl, rfl⟩, .inl rfl⟩) fun _ => ih ht.2
    · rename_i e he
      exact .bind (.setPhase 3) fun _ => .pushExpr (ht.1 e he)

theorem stepSwitch_starts {discriminant : Expr} {cases : List SwitchCase} (hd : parts.plain (.expr discriminant))
    (h : ∀ c ∈ cases, ∀ s ∈ c.body, parts.plain (.stmt s))
    (ht : ∀ c ∈ cases, ∀ e, c.test = some e → parts.plain (.expr e)) :
    Starts parts (stepSwitch discriminant cases) := by
  have search (n : Nat) : Starts parts (searchCases cases (cases.drop n)) :=
    searchCases_starts h fun c hc => ht c (List.mem_of_mem_drop hc)
  have run (n : Nat) : Starts parts (runCases (cases.drop n)) :=
    runCases_starts fun c hc => h c (List.mem_of_mem_drop hc)
  refine .bind .top fun s => ?_
  split
  · exact .bind (.setPhase 1) fun _ => .pushExpr hd
  · exact .bind .take fun _ => .bind (.modifyTop fun _ => ⟨⟨rfl, rfl, rfl, rfl, rfl⟩, .inl rfl⟩) fun _ => search 0
  · exact .bind .top fun _ => search _
  · refine .bind .top fun _ => .bind .take fun _ => ?_
    split
    · exact .bind (.modifyTop fun _ => ⟨⟨rfl, rfl, rfl, rfl, rfl⟩, .inl rfl⟩) fun _ => .bind .top fun _ => run _
    · exact .bind (.modifyTop fun _ => ⟨⟨rfl, rfl, rfl, rfl, rfl⟩, .inl rfl⟩) fun _ => .bind .top fun _ => search _
  · exact .bind .top fun _ => run _

theorem stepReturn_calls {c : Setting ω} {n : Node} {argument : Option Expr} (hn : n.isReturn)
    (h : ∀ e, argument = some e → Starting.plain n.Starts (.expr e)) : Calls c n (stepReturn argument) := by
  refine .bind .top fun s => ?_
  split
  · exact .of_starts (.bind (.modifyTop fun _ => ⟨⟨rfl, rfl, rfl, rfl, rfl⟩, .inl rfl⟩) fun _ => .pushExpr (h _ rfl))
  · exact fun f _ => ⟨.refl f, .inr hn⟩

theorem stepThrow_starts {argument : Expr} (h : parts.plain (.expr argument)) : Starts parts (stepThrow argument) := by
  refine .bind .top fun s => ?_
  split
  · exact fun f => Frame.Keeps.refl f
  · exact .bind (.modifyTop fun _ => ⟨⟨rfl, rfl, rfl, rfl, rfl⟩, .inl rfl⟩) fun _ => .pushExpr h

theorem stepReturn_stays (argument : Option Expr) : Stays (stepReturn argument) := by
  refine .bind .top fun s => ?_
  split
  · exact .bind (.modifyTop fun _ => ⟨⟨rfl, rfl, rfl, rfl, rfl⟩, .inl rfl⟩) fun _ =>
      .bind .top fun _ => .pure _
  · exact .pure _

/-- The rule of a statement that is neither a `return` nor a jump starts operands of it. -/
theorem stepStmt_starts {s : Stmt} (hreturn : ¬(Node.stmt s).isReturn) (hjump : (Node.stmt s).jump? = none) :
    Starts (Node.stmt s).Starts (stepStmt s) := by
  have plain {part : Node} (h : part ∈ (Node.stmt s).operands) (hl : ∀ labels, (Node.stmt s).handsDown labels = []) :
      Starting.plain (Node.stmt s).Starts part := Node.starts_plain h hl
  cases s with
  | var d =>
    refine stepVar_starts fun x hx e he => plain (List.mem_map_of_mem ?_) fun _ => rfl
    exact List.mem_filterMap.2 ⟨x, hx, he⟩
  | function | empty | debugger => exact drop_starts
  | expression l e => exact stepExpression_starts (plain (by simp [Node.operands]) fun _ => rfl)
  | block b => exact stepBody_starts (fun t ht => plain (List.mem_map_of_mem ht) fun _ => rfl) fun _ => trivial
  | return_ => exact absurd rfl hreturn
  | if_ l test consequent alternate =>
    exact stepIf_starts (plain (by simp [Node.operands]) fun _ => rfl) (plain (by simp [Node.operands]) fun _ => rfl)
      fun t ht => plain (by simp [Node.operands, ht]) fun _ => rfl
  | while_ l test body =>
    exact stepWhile_starts (plain (by simp [Node.operands]) fun _ => rfl) (plain (by simp [Node.operands]) fun _ => rfl)
  | doWhile l body test =>
    exact stepDoWhile_starts (plain (by simp [Node.operands]) fun _ => rfl)
      (plain (by simp [Node.operands]) fun _ => rfl)
  | for_ l init test update body =>
    have part {e : Expr} (he : .expr e ∈ (Node.stmt (.for_ l init test update body)).operands) := plain he fun _ => rfl
    exact stepFor_starts (fun h hh => plain (by simp [Node.operands, hh]) fun _ => rfl)
      (fun e he => part (by simp [Node.operands, he])) (fun e he => part (by simp [Node.operands, he]))
      (plain (by simp [Node.operands]) fun _ => rfl)
  | forIn l left right body =>
    refine stepForIn_starts (fun e he hi => Node.starts_place ?_ fun _ => rfl)
      (plain (by simp [Node.operands]) fun _ => rfl) (plain (by simp [Node.operands]) fun _ => rfl)
    exact List.mem_append_left _ (List.mem_map_of_mem (ForHead.mem_places.2 ⟨he, hi⟩))
  | break_ | continue_ => cases hjump
  | switch l discriminant cases =>
    have case {c : SwitchCase} {part : Node} (hc : c ∈ cases) (hp : part ∈ (Node.switchCase c).children) :
        part ∈ (Node.stmt (.switch l discriminant cases)).operands :=
      List.mem_cons_of_mem _ (List.mem_flatMap.2 ⟨c, hc, hp⟩)
    exact stepSwitch_starts (plain (by simp [Node.operands]) fun _ => rfl)
      (fun c hc t ht => plain (case hc (by simp [Node.children, ht])) fun _ => rfl)
      fun c hc e he => plain (case hc (by simp [Node.children, he])) fun _ => rfl
  | throw l argument => exact stepThrow_starts (plain (by simp [Node.operands]) fun _ => rfl)
  | tryCatch | with_ => exact .raise _
  | labeled l label body =>
    exact stepLabeled_starts fun labels => ⟨by simp [Node.operands], Bool.noConfusion, rfl⟩

theorem stepStmt_calls (c : Setting ω) (s : Stmt) : Calls c (.stmt s) (stepStmt s) := by
  cases s with
  | return_ l argument =>
    exact stepReturn_calls rfl fun e he => Node.starts_plain (by simp [Node.operands, he]) fun _ => rfl
  | break_ | continue_ => exact fun f _ => ⟨.refl f, .inr rfl⟩
  | _ =>
    refine .of_starts (stepStmt_starts ?_ ?_)
    · exact Bool.false_ne_true
    · rfl

theorem stepStmt_stays (s : Stmt) : Stays (stepStmt s) := by
  cases s with
  | return_ => exact stepReturn_stays _
  | break_ | continue_ => exact .pure _
  | _ =>
    refine (stepStmt_starts ?_ ?_).stays
    · exact Bool.false_ne_true
    · rfl

theorem stepProgram_starts (p : Program) : Starts (Node.program p).Starts (stepBody p.body .stay) :=
  stepBody_starts (fun _ hs => Node.starts_plain (List.mem_map_of_mem hs) fun _ => rfl) fun _ => trivial

/-- Every rule changes the heap by listed operations, keeps the state on top, and starts only what its node may start. -/
theorem stepNode_calls (c : Setting ω) (below : List State) (n : Node) : Calls c n (stepNode c below n) := by
  cases n with
  | program p => exact .of_starts (stepProgram_starts p)
  | stmt s => exact stepStmt_calls c s
  | expr e => exact stepExpr_calls c below e
  | declarator | switchCase | catchClause | property => exact fun f _ => Frame.Keeps.refl f

/-- Every rule keeps the state on top, whatever the heap is like. -/
theorem stepNode_stays (c : Setting ω) (below : List State) (n : Node) : Stays (stepNode c below n) := by
  cases n with
  | program p => exact (stepProgram_starts p).stays
  | stmt s => exact stepStmt_stays s
  | expr e => exact stepExpr_stays c below e
  | declarator | switchCase | catchClause | property => exact .throw _

end Stepwise

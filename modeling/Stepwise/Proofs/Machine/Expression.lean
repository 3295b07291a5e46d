import Stepwise.Proofs.Machine.Rule

/-!
# The rules of expressions

A call keeps to what a rule may do: it starts its function or an argument, or the body of the function, in
a scope of its own.

* `stepExpr_calls`: the rule of an expression starts its operands, or calls.
* `stepExpr_stays`: it keeps the state on top, whatever the heap is like.
-/

namespace Stepwise

open Heap RuleM

variable {ω : Type}

/-! ### Calls -/

theorem callNative_stays {native : Native} (h : native.Changes) (call : NativeCall) :
    Stays (callNative native call) := by
  intro f
  refine wp_bind (wp_heap ?_)
  have hk := h call f.heap
  unfold HeapM.wp at hk
  split
  · rename_i r h' he
    rw [show native call f.heap = _ from he] at hk
    exact ⟨.refl _, hk⟩
  · exact Frame.Keeps.refl f

theorem changes_newReceiver (h : Heap) (function : Object) : h.Changes (newReceiver h function).2 := .alloc h _ _

/-- Once the function and its closure are known, the body starts in a new scope. -/
theorem enterBody_calls {c : Setting ω} {n : Node} {h : Heap} {f : Frame} {id : Int} {closure : ObjectId}
    {callable : Callable} {o : Object} {info : FunctionInfo} (hcall : n.isCall) (hf : f.heap.Filed)
    (hh : h.next ≤ f.heap.next) (ho : f.heap.deref? f.top.func = some o) (hi : o.func = some info)
    (hc : info.code = .closure id closure)
    (hn : (c.node? id).bind Node.callable? = some callable) :
    (enterBody closure callable).wp (fun m f' => f.Keeps f' ∧ m.Fits c h n f') (fun _ => f.Keeps) f := by
  have hk : f.heap.Changes (f.heap.bindCall closure callable f.top.this f.top.values).2 := .call _ _ _ _ _
  obtain ⟨he, hs⟩ := scope?_bindCall hf closure callable f.top.this f.top.values
  refine ⟨⟨⟨⟨rfl, rfl, rfl, rfl, rfl⟩, .inl rfl⟩, hk⟩, .inr ⟨hcall, rfl, ?_, ?_⟩⟩
  · show h.next ≤ (f.heap.bindCall closure callable f.top.this f.top.values).1
    rw [he]
    exact hh
  · obtain ⟨o', ho', ha⟩ := (hk.keeps hf).2.deref? ho
    refine ⟨o', info, id, closure, callable, ho', ha.func.trans hi, hc, hn, rfl, ?_,
      declares_bindCall hf closure callable f.top.this f.top.values⟩
    show (f.heap.bindCall closure callable f.top.this f.top.values).2.scope?
      (f.heap.bindCall closure callable f.top.this f.top.values).1 = _
    rw [he]
    exact hs

theorem enterClosure_calls {c : Setting ω} {n : Node} {f : Frame} {id : Int} {closure : ObjectId}
    {o : Object} {info : FunctionInfo} (construct : Bool) (hcall : n.isCall) (hf : f.heap.Filed)
    (ho : f.heap.deref? f.top.func = some o) (hi : o.func = some info) (hc : info.code = .closure id closure) :
    (enterClosure c o id closure construct).wp (fun m f' => f.Keeps f' ∧ m.Fits c f.heap n f') (fun _ => f.Keeps) f := by
  unfold enterClosure
  split
  · exact Frame.Keeps.refl f
  · rename_i callable hn
    split
    · have hc' := changes_newReceiver f.heap o
      have hk := hc'.keeps
      obtain ⟨o', ho', ha⟩ := (hk hf).2.deref? ho
      let f' : Frame := ⟨{ f.top with this := (newReceiver f.heap o).1 }, (newReceiver f.heap o).2⟩
      have hf' : f.Keeps f' := ⟨⟨⟨rfl, rfl, rfl, rfl, rfl⟩, .inl rfl⟩, hc'⟩
      have hb : (enterBody closure callable).wp (fun m f'' => f.Keeps f'' ∧ m.Fits c f.heap n f'') (fun _ => f.Keeps) f' :=
        (enterBody_calls hcall (hk hf).1 (hk hf).2.next_le ho' (ha.func.trans hi) hc hn).mono
          (fun _ _ h => ⟨hf'.trans h.1, h.2⟩) fun _ _ h => hf'.trans h
      exact hb
    · exact enterBody_calls hcall hf (Int.le_refl _) ho hi hc hn

theorem invoke_calls (c : Setting ω) (below : List State) (callee : Expr) {n : Node} (hcall : n.isCall)
    (turns : Nat) (construct : Bool) : Calls c n (invoke c below callee turns construct) := by
  -- each turn is a native function that asks for another call
  induction turns generalizing construct with
  | zero => exact fun f _ => Frame.Keeps.refl f
  | succ turns ih =>
    intro f hf
    unfold invoke
    refine wp_bind (wp_top (wp_bind (wp_heap ?_)))
    split
    · split <;> exact Frame.Keeps.refl f
    · rename_i function info hs
      obtain ⟨o, ho, hm⟩ := Option.bind_eq_some_iff.1 hs
      obtain ⟨i, hi, he⟩ := Option.map_eq_some_iff.1 hm
      cases he
      split
      · exact enterClosure_calls construct hcall hf ho hi ‹_›
      · split
        · exact ⟨Frame.Keeps.refl f, .inr ⟨hcall, rfl⟩⟩
        · rename_i native hnative
          have hn := Library.changes_native? hnative
          refine (?_ : Calls c n _) f hf
          refine .bind (callNative_stays hn _) fun r => ?_
          split
          · exact .of_starts (.give _)
          · exact .bind (.modifyTop fun _ => ⟨⟨rfl, rfl, rfl, rfl, rfl⟩, .inl rfl⟩) fun _ => ih false

/-- What a function of the host asks for is a call again. -/
theorem resume_calls (c : Setting ω) (below : List State) {n : Node} (hcall : n.isCall) (answer : Except Failure Reply) :
    Calls c n (resume c below answer) := by
  unfold resume
  split
  · exact fun f _ => Frame.Keeps.refl f
  · exact .of_starts (.give _)
  · refine .bind (.modifyTop fun _ => ⟨⟨rfl, rfl, rfl, rfl, rfl⟩, .inl rfl⟩) fun _ => .bind .top fun s => ?_
    split
    · exact invoke_calls c below _ hcall _ _
    · exact invoke_calls c below _ hcall _ _
    · exact fun f _ => Frame.Keeps.refl f

section

variable {c : Setting ω} {below : List State} {callee : Expr} {n : Node}

theorem stepArguments_calls {args : List Expr} {construct : Bool} (hcall : n.isCall)
    (h : ∀ e ∈ args, Starting.plain n.Starts (.expr e)) :
    Calls c n (stepArguments c below callee args construct) := by
  have next {e : Expr} (he : e ∈ args) : Calls c n (do
      RuleM.modifyTop fun s => { s with n := s.n + 1 }
      RuleM.pushExpr e) :=
    .of_starts (.bind (.modifyTop fun _ => ⟨⟨rfl, rfl, rfl, rfl, rfl⟩, .inl rfl⟩) fun _ => .pushExpr (h e he))
  have last : Calls c n (do
      RuleM.setPhase CallPhase.invoke
      invoke c below callee tailLimit construct) :=
    .bind (.setPhase _) fun _ => invoke_calls c below callee hcall _ _
  refine .bind .top fun s => ?_
  split
  · refine .bind .take fun _ => .bind (.modifyTop fun _ => ⟨⟨rfl, rfl, rfl, rfl, rfl⟩, .inl rfl⟩) fun _ =>
    .bind .top fun s => ?_
    split
    · exact next (List.mem_of_getElem? ‹_›)
    · exact last
  · refine .bind .top fun s => ?_
    split
    · exact next (List.mem_of_getElem? ‹_›)
    · exact last

theorem takeFunction_stays : Stays takeFunction := by
  refine .bind .top fun s => ?_
  split
  · exact .bind (.getRef _) fun _ => .bind (.modifyTop fun _ => ⟨⟨rfl, rfl, rfl, rfl, rfl⟩, .inr rfl⟩) fun _ =>
      .modifyTop fun _ => ⟨⟨rfl, rfl, rfl, rfl, rfl⟩, .inl rfl⟩
  · exact .bind (.modifyTop fun _ => ⟨⟨rfl, rfl, rfl, rfl, rfl⟩, .inl rfl⟩) fun _ =>
      .modifyTop fun _ => ⟨⟨rfl, rfl, rfl, rfl, rfl⟩, .inl rfl⟩

theorem endCall_starts {parts : Starting} (construct : Bool) : Starts parts (endCall construct) := by
  refine .bind .take fun v => ?_
  split
  · exact .bind .top fun _ => .give _
  · exact .give _

theorem stepCall_calls {args : List Expr} {construct : Bool} (hcall : n.isCall)
    (hc : Starting.plain n.Starts (.expr callee)) (hp : Starting.place n.Starts callee)
    (h : ∀ e ∈ args, Starting.plain n.Starts (.expr e)) : Calls c n (stepCall c below callee args construct) := by
  refine .bind .top fun s => ?_
  split
  · refine .bind (.setPhase _) fun _ => ?_
    split
    · exact .of_starts (.pushExpr hc)
    · exact .of_starts (.pushTarget hp)
  · exact .bind takeFunction_stays fun _ => stepArguments_calls hcall h
  · exact stepArguments_calls hcall h
  · exact invoke_calls c below callee hcall _ _
  · exact .bind (.modifyTop fun _ => ⟨⟨rfl, rfl, rfl, rfl, rfl⟩, .inl rfl⟩) fun _ => .of_starts (endCall_starts _)
  · exact .of_starts (endCall_starts _)

end

/-! ### Calls in any heap -/

section

variable {c : Setting ω}

theorem enterBody_stays (scope : ObjectId) (callable : Callable) : Stays (enterBody scope callable) :=
  .bind .top fun s => .bind (.onHeap fun h => .call h scope callable s.this s.values) fun _ =>
    .bind (.setPhase _) fun _ => .pure _

theorem enterClosure_stays (function : Object) (node : Int) (scope : ObjectId) (construct : Bool) :
    Stays (enterClosure c function node scope construct) := by
  unfold enterClosure
  split
  · exact .throw _
  · split
    · exact .bind (.onHeap fun h => changes_newReceiver h function) fun _ =>
        .bind (.modifyTop fun _ => ⟨⟨rfl, rfl, rfl, rfl, rfl⟩, .inl rfl⟩) fun _ => enterBody_stays _ _
    · exact enterBody_stays _ _

theorem invoke_stays (below : List State) (callee : Expr) (turns : Nat) (construct : Bool) :
    Stays (invoke c below callee turns construct) := by
  induction turns generalizing construct with
  | zero => exact .throw _
  | succ turns ih =>
    unfold invoke
    refine .bind .top fun s => .bind .heap fun h => ?_
    split
    · exact .raise _
    · split
      · exact enterClosure_stays _ _ _ _
      · split
        · exact .pure _
        · rename_i native hnative
          refine .bind (callNative_stays (Library.changes_native? hnative) _) fun r => ?_
          split
          · exact .pure _
          · exact .bind (.modifyTop fun _ => ⟨⟨rfl, rfl, rfl, rfl, rfl⟩, .inl rfl⟩) fun _ => ih false

theorem resume_stays (below : List State) (answer : Except Failure Reply) : Stays (resume c below answer) := by
  unfold resume
  split
  · exact .throw _
  · exact .pure _
  · refine .bind (.modifyTop fun _ => ⟨⟨rfl, rfl, rfl, rfl, rfl⟩, .inl rfl⟩) fun _ => .bind .top fun s => ?_
    split
    · exact invoke_stays _ _ _ _
    · exact invoke_stays _ _ _ _
    · exact .throw _

theorem stepArguments_stays (below : List State) (callee : Expr) (args : List Expr) (construct : Bool) :
    Stays (stepArguments c below callee args construct) := by
  have next (e : Expr) : Stays (do
      RuleM.modifyTop fun s => { s with n := s.n + 1 }
      RuleM.pushExpr e) :=
    .bind (.modifyTop fun _ => ⟨⟨rfl, rfl, rfl, rfl, rfl⟩, .inl rfl⟩) fun _ => .bind .top fun _ => .pure _
  have last : Stays (do
      RuleM.setPhase CallPhase.invoke
      invoke c below callee tailLimit construct) :=
    .bind (.setPhase _) fun _ => invoke_stays _ _ _ _
  refine .bind .top fun s => ?_
  split
  · refine .bind .take fun _ => .bind (.modifyTop fun _ => ⟨⟨rfl, rfl, rfl, rfl, rfl⟩, .inl rfl⟩) fun _ =>
      .bind .top fun s => ?_
    split
    · exact next _
    · exact last
  · refine .bind .top fun s => ?_
    split
    · exact next _
    · exact last

theorem stepCall_stays (below : List State) (callee : Expr) (args : List Expr) (construct : Bool) :
    Stays (stepCall c below callee args construct) := by
  have ends : Stays (endCall construct) := (endCall_starts construct : Starts (Node.expr callee).Starts _).stays
  refine .bind .top fun s => ?_
  split
  · refine .bind (.setPhase _) fun _ => ?_
    split <;> exact .bind .top fun _ => .pure _
  · exact .bind takeFunction_stays fun _ => stepArguments_stays _ _ _ _
  · exact stepArguments_stays _ _ _ _
  · exact invoke_stays _ _ _ _
  · exact .bind (.modifyTop fun _ => ⟨⟨rfl, rfl, rfl, rfl, rfl⟩, .inl rfl⟩) fun _ => ends
  · exact ends

end

/-! ### Expressions -/

variable {parts : Starting}

theorem evalIdentifier_starts (name : String) : Starts parts (evalIdentifier name) := by
  intro f
  refine wp_bind (wp_top ?_)
  split
  · exact ⟨.refl f, ‹_›⟩
  · exact Starts.bind (.getRef _) (fun _ => .give _) f

theorem evalThis_starts : Starts parts evalThis := .bind .heap fun _ => .bind .top fun _ => .give _

theorem keepElement_stays : Stays keepElement := by
  refine .bind .top fun s => ?_
  split
  · exact .bind .take fun _ => .modifyTop fun _ => ⟨⟨rfl, rfl, rfl, rfl, rfl⟩, .inl rfl⟩
  · exact .pure _

theorem evalArray_starts {elements : List (Option Expr)} (h : ∀ e, some e ∈ elements → parts.plain (.expr e)) :
    Starts parts (evalArray elements) := by
  refine .bind keepElement_stays fun _ => .bind .top fun s => ?_
  refine .bind (.modifyTop fun _ => ⟨⟨rfl, rfl, rfl, rfl, rfl⟩, .inl rfl⟩) fun _ => ?_
  split
  · rename_i e he
    exact .pushExpr (h e (List.mem_of_mem_drop (List.mem_of_getElem? he)))
  · exact .bind .top fun _ => .bind (.onHeap fun h => .newArray h _) fun _ => .give _

theorem evalObject_starts {properties : List Property} (h : ∀ p ∈ properties, parts.plain (.expr p.value)) :
    Starts parts (evalObject properties) := by
  refine .bind keepElement_stays fun _ => .bind .top fun s => ?_
  split
  · rename_i p hp
    split
    · exact .pushExpr (h p (List.mem_of_getElem? hp))
    · exact .raise _
  · exact .bind .top fun _ => .bind (.onHeap fun h => .record h _) fun _ => .give _

theorem evalDelete_starts : Starts parts evalDelete := by
  refine .bind .top fun s => ?_
  split
  · exact .bind .take fun _ => .give _
  · rename_i r hr
    rcases r with ⟨scope, name⟩ | ⟨base, name⟩
    · exact fun f => Frame.Keeps.refl f
    · dsimp only
      split
      · exact fun f => Frame.Keeps.refl f
      · intro f
        refine wp_bind (wp_heap ?_)
        split
        · exact Starts.give _ f
        · rename_i o ho
          exact Starts.setHeap (.remove ho _) (.give _)

theorem evalUnary_starts {op : UnaryOp} {argument : Expr}
    (h : (∀ i, op = .typeof → argument ≠ .identifier i) → parts.plain (.expr argument))
    (hp : op ≠ .typeof → parts.place argument) : Starts parts (evalUnary op argument) := by
  refine .bind .top fun s => ?_
  split
  · refine .bind (.setPhase 1) fun _ => ?_
    split
    · refine .bind .heap fun _ => .bind .top fun _ => ?_
      split <;> exact .give _
    · exact .pushTarget (hp UnaryOp.noConfusion)
    · exact .pushTarget (hp UnaryOp.noConfusion)
    · rename_i ht _ _
      exact .pushExpr (h ht)
  · split
    · exact evalDelete_starts
    · exact .bind .take fun _ => .bind .heap fun _ => .give _

theorem evalUpdate_starts {op : UpdateOp} {leading : Bool} {argument : Expr} (h : parts.place argument) :
    Starts parts (evalUpdate op leading argument) := by
  refine .bind .top fun s => ?_
  split
  · exact .bind (.setPhase 1) fun _ => .pushTarget h
  · refine .bind .top fun s => ?_
    split
    · exact .raise _
    · exact .bind .heap fun _ => .bind (.getRef _) fun _ => .bind (.putRef _ _) fun _ => .give _

theorem assigned_stays (op : AssignOp) (right : Value) : Stays (assigned op right) := by
  unfold assigned
  split
  · exact .pure _
  · exact .bind .heap fun _ => .bind .top fun _ => .orRaise _

theorem evalAssign_starts {op : AssignOp} {left right : Expr} (hl : parts.place left)
    (hr : parts.plain (.expr right)) : Starts parts (evalAssign op left right) := by
  refine .bind .top fun s => ?_
  split
  · exact .bind (.setPhase 1) fun _ => .pushTarget hl
  · refine .bind (.modifyTop fun _ => ⟨⟨rfl, rfl, rfl, rfl, rfl⟩, .inl rfl⟩) fun _ => .bind .top fun s => ?_
    split
    · exact .raise _
    · split
      · exact .bind (.getRef _) fun _ => .bind (.modifyTop fun _ => ⟨⟨rfl, rfl, rfl, rfl, rfl⟩, .inl rfl⟩) fun _ =>
          .bind (.setPhase 2) fun _ => .pushExpr hr
      · exact .bind (.setPhase 2) fun _ => .pushExpr hr
  · refine .bind .take fun _ => .bind (assigned_stays _ _) fun _ => .bind .top fun s => ?_
    split
    · exact .raise _
    · exact .bind (.putRef _ _) fun _ => .give _

theorem evalBinary_starts {op : BinaryOp} {left right : Expr} (hl : parts.plain (.expr left))
    (hr : parts.plain (.expr right)) : Starts parts (evalBinary op left right) := by
  refine .bind .top fun s => ?_
  split
  · exact .bind (.setPhase 1) fun _ => .pushExpr hl
  · exact .bind .take fun _ => .bind (.modifyTop fun _ => ⟨⟨rfl, rfl, rfl, rfl, rfl⟩, .inl rfl⟩) fun _ => .pushExpr hr
  · exact .bind .take fun _ => .bind .heap fun _ => .bind .top fun _ => .bind (.orRaise _) fun _ => .give _

theorem evalLogical_starts {op : LogicalOp} {left right : Expr} (hl : parts.plain (.expr left))
    (hr : parts.plain (.expr right)) : Starts parts (evalLogical op left right) := by
  refine .bind .top fun s => ?_
  split
  · exact .bind (.setPhase 1) fun _ => .pushExpr hl
  · refine .bind .take fun v => ?_
    split
    · exact .give _
    · exact .bind (.setPhase 2) fun _ => .pushExpr hr
  · exact .bind .take fun _ => .give _

theorem evalConditional_starts {test consequent alternate : Expr} (ht : parts.plain (.expr test))
    (hc : parts.plain (.expr consequent)) (ha : parts.plain (.expr alternate)) :
    Starts parts (evalConditional test consequent alternate) := by
  refine .bind .top fun s => ?_
  split
  · exact .bind (.setPhase 1) fun _ => .pushExpr ht
  · refine .bind (.setPhase 2) fun _ => .bind .take fun v => .pushExpr ?_
    split
    · exact hc
    · exact ha
  · exact .bind .take fun _ => .give _

theorem evalSequence_starts {expressions : List Expr} (h : ∀ e ∈ expressions, parts.plain (.expr e)) :
    Starts parts (evalSequence expressions) := by
  refine .bind .top fun s => ?_
  split
  · rename_i e he
    exact .bind (.modifyTop fun _ => ⟨⟨rfl, rfl, rfl, rfl, rfl⟩, .inl rfl⟩) fun _ =>
      .pushExpr (h e (List.mem_of_getElem? he))
  · exact .bind .take fun _ => .give _

theorem giveProperty_starts (key : String) : Starts parts (giveProperty key) := by
  intro f
  refine wp_bind (wp_top ?_)
  split
  · exact ⟨.refl f, ‹_›⟩
  · exact Starts.bind .heap (fun _ => .bind (.orRaise _) fun _ => .give _) f

theorem evalMember_starts {object : Expr} {name : String} (h : parts.plain (.expr object)) :
    Starts parts (evalMember object name) := by
  refine .bind .top fun s => ?_
  split
  · exact .bind (.setPhase 1) fun _ => .pushExpr h
  · exact .bind .take fun _ => .bind (.modifyTop fun _ => ⟨⟨rfl, rfl, rfl, rfl, rfl⟩, .inl rfl⟩) fun _ =>
      giveProperty_starts _

theorem evalIndex_starts {object key : Expr} (ho : parts.plain (.expr object)) (hk : parts.plain (.expr key)) :
    Starts parts (evalIndex object key) := by
  refine .bind .top fun s => ?_
  split
  · exact .bind (.setPhase 1) fun _ => .pushExpr ho
  · exact .bind .take fun _ => .bind (.modifyTop fun _ => ⟨⟨rfl, rfl, rfl, rfl, rfl⟩, .inl rfl⟩) fun _ => .pushExpr hk
  · exact .bind .take fun _ => .bind .heap fun _ => giveProperty_starts _

/-- The rule of an expression that is no call starts operands of it. -/
theorem stepExpr_starts (c : Setting ω) (below : List State) {e : Expr} (hcall : ¬(Node.expr e).isCall) :
    Starts (Node.expr e).Starts (stepExpr c below e) := by
  have plain {part : Node} (h : part ∈ (Node.expr e).operands) : Starting.plain (Node.expr e).Starts part :=
    Node.starts_plain h fun _ => rfl
  have place {part : Expr} (h : .expr part ∈ (Node.expr e).operands) : Starting.place (Node.expr e).Starts part :=
    Node.starts_place h fun _ => rfl
  cases e with
  | identifier i => exact evalIdentifier_starts _
  | number | string | boolean | null => exact .give _
  | regexp => exact .raise _
  | this => exact evalThis_starts
  | function l name params body => exact .bind .top fun s => .bind (.onHeap fun h => .function h _ _) fun _ => .give _
  | array l elements => exact evalArray_starts fun e he => plain (by simpa [Node.operands] using he)
  | object l properties => exact evalObject_starts fun p hp => plain (List.mem_map_of_mem hp)
  | unary l op argument =>
    refine evalUnary_starts (fun h => plain ?_) fun h => place ?_
    · unfold Node.operands
      split <;> simp_all
    · unfold Node.operands
      split <;> simp_all
  | update l op leading argument => exact evalUpdate_starts (place (by simp [Node.operands]))
  | binary l op left right => exact evalBinary_starts (plain (by simp [Node.operands])) (plain (by simp [Node.operands]))
  | logical l op left right =>
    exact evalLogical_starts (plain (by simp [Node.operands])) (plain (by simp [Node.operands]))
  | assign l op left right => exact evalAssign_starts (place (by simp [Node.operands])) (plain (by simp [Node.operands]))
  | conditional l test consequent alternate =>
    exact evalConditional_starts (plain (by simp [Node.operands])) (plain (by simp [Node.operands]))
      (plain (by simp [Node.operands]))
  | call | new => exact absurd rfl hcall
  | member l object name => exact evalMember_starts (plain (by simp [Node.operands]))
  | index l object key => exact evalIndex_starts (plain (by simp [Node.operands])) (plain (by simp [Node.operands]))
  | sequence l expressions => exact evalSequence_starts fun e he => plain (by simp [Node.operands, he])

theorem stepExpr_calls (c : Setting ω) (below : List State) (e : Expr) :
    Calls c (.expr e) (stepExpr c below e) := by
  by_cases hcall : (Node.expr e).isCall
  · cases e with
    | call l callee args | new l callee args =>
      exact stepCall_calls rfl (Node.starts_plain (by simp [Node.operands]) fun _ => rfl)
        (Node.starts_place (by simp [Node.operands]) fun _ => rfl)
        fun e he => Node.starts_plain (by simp [Node.operands, he]) fun _ => rfl
    | _ => cases hcall
  · exact .of_starts (stepExpr_starts c below hcall)

theorem stepExpr_stays (c : Setting ω) (below : List State) (e : Expr) : Stays (stepExpr c below e) := by
  by_cases hcall : (Node.expr e).isCall
  · cases e with
    | call | new => exact stepCall_stays _ _ _ _
    | _ => cases hcall
  · exact (stepExpr_starts c below hcall).stays

end Stepwise

import Mathlib.Data.List.Chain
import Stepwise.Proofs.Machine.Bound
import Stepwise.Proofs.Machine.Jump
import Stepwise.Proofs.Parse.Placed

/-!
# Places that are awaited

An assignment cannot go on before its left side has given a place. The parser lets only such expressions stand there
that give one.

* `State.Supplies`: how a state lies on one that awaits a place.
* `Supplied`: the state on top has its place, and every other state has it or awaits it from the state above.
* `Machine.Reachable.supplied`: so it is in every machine that a program reaches.
-/

namespace Stepwise

open RuleM

variable {ω : Type} {c : Setting ω} {s t u : State} {below stack stack' : List State}

/-- Whether a node is an expression. -/
def Node.isExpr : Node → Bool
  | expr _ => true
  | _ => false

theorem Node.isExpr_of_isTarget {n : Node} (h : n.isTarget) : n.isExpr := by
  cases n with
  | expr => rfl
  | _ => cases h

/-- What a rule may start is a statement or an expression. -/
theorem Node.of_operand {P : Node → Prop} (hstmt : ∀ s, P (.stmt s)) (hexpr : ∀ e, P (.expr e)) {n part : Node}
    (hp : part ∈ n.operands) : P part := by
  have hhead (h : ForHead) : P h.node := by
    cases h
    · exact hstmt _
    · exact hexpr _
  have hcase (c : SwitchCase) : ∀ part ∈ (switchCase c).children, P part := by
    simp [children, hstmt, hexpr, or_imp, forall_and]
  have hall : ∀ part ∈ n.operands, P part := by
    unfold operands
    split
    case h_12 => exact List.forall_mem_cons.2 ⟨hexpr _, List.forall_mem_flatMap.2 fun c _ => hcase c⟩
    all_goals
      simp only [List.forall_mem_append, List.forall_mem_cons, List.forall_mem_map, List.not_mem_nil, false_imp_iff,
        implies_true, hstmt, hexpr, hhead, and_self]
  exact hall part hp

/-- An expression starts expressions only. -/
theorem Node.isExpr_of_operand {n part : Node} (hn : n.isExpr) (hp : part ∈ n.operands) : part.isExpr := by
  cases n with
  | expr e =>
    have hall : ∀ part ∈ (Node.expr e).operands, part.isExpr := by
      unfold operands
      split <;> simp_all [isExpr]
    exact hall part hp
  | _ => cases hn

namespace State

/-- The state has the place that it needs. -/
def IsSupplied (s : State) : Prop := s.awaitsPlace → s.ref.isSome

/-- How a state lies on the state `s`: it gives the place that this one needs, if there is none yet. Only the body of
a function is a statement in an expression. -/
structure Supplies (t s : State) : Prop where
  place : s.awaitsPlace → s.ref.isSome ∨ t.components
  target : t.components → t.node.isTarget
  expr : s.node.isExpr → t.node.isExpr ∨ s.isActiveCall

theorem Supplies.alike {t' : State} (h : t.Supplies s) (ha : t.Alike t') : t'.Supplies s := by
  refine ⟨?_, ?_, ?_⟩
  · rw [ha.components]
    exact h.place
  · rw [ha.components, ha.node]
    exact h.target
  · rw [ha.node]
    exact h.expr

/-- Below a state that wants no place is one that needs none or has it. -/
theorem Supplies.isSupplied (h : t.Supplies s) (ht : ¬t.components) : s.IsSupplied := fun ha =>
  (h.place ha).resolve_right ht

theorem awaitsPlace_eq_false (hn : ∀ l op leading e, s.node ≠ .expr (.update l op leading e))
    (ha : ∀ l op left right, s.node ≠ .expr (.assign l op left right))
    (hf : ∀ l left right body, s.node ≠ .stmt (.forIn l left right body)) : s.awaitsPlace = false := by
  unfold awaitsPlace
  split
  · exact absurd ‹_› (hn _ _ _ _)
  · exact absurd ‹_› (ha _ _ _ _)
  · exact absurd ‹_› (hf _ _ _ _)
  · rfl

theorem awaitsPlace_of_isCall (hs : s.node.isCall) : s.awaitsPlace = false := by
  refine awaitsPlace_eq_false ?_ ?_ ?_ <;> intro _ _ _ _ hn <;> rw [hn] at hs <;> cases hs

end State

/-- Every state has the place that it needs, or the state above gives it. -/
structure Supplied (stack : List State) : Prop where
  chain : stack.IsChain State.Supplies
  top : ∀ s ∈ stack.head?, s.IsSupplied

/-! ### Rules -/

/-- What a move leaves on top: a state that has its place, or gets it from the part that is started. -/
def Move.Leaves (s : State) : Move → Prop
  | .stay | .host .. => s.IsSupplied
  | .push _ _ components _ => s.awaitsPlace → s.ref.isSome ∨ components
  | _ => True

section

variable {f : Frame}

/-- The move leaves a state that has its place, or gets it from the part that is started. -/
def RuleM.Leaves (r : RuleM Move) (f : Frame) : Prop := r.wp (fun mv f' => mv.Leaves f'.top) (fun _ _ => True) f

theorem wp_of_forall {α : Type} {r : RuleM α} {Q : α → Frame → Prop} (hQ : ∀ a f', Q a f') :
    r.wp Q (fun _ _ => True) f := by
  unfold wp
  split
  · exact hQ _ _
  · trivial

theorem evalUpdate_leaves (op : UpdateOp) (leading : Bool) {argument : Expr} (ht : argument.isTarget) :
    (evalUpdate op leading argument).Leaves f := by
  refine wp_bind (wp_top ?_)
  split
  · exact wp_bind (wp_modifyTop (wp_bind (wp_top fun _ => .inr ht)))
  · refine wp_bind (wp_top ?_)
    split
    · trivial
    · refine wp_bind (wp_heap (wp_bind (wp_of_forall fun _ _ => wp_bind ?_)))
      exact wp_of_forall fun _ _ => trivial

theorem evalAssign_leaves (op : AssignOp) {left : Expr} (right : Expr) (ht : left.isTarget) :
    (evalAssign op left right).Leaves f := by
  refine wp_bind (wp_top ?_)
  split
  · exact wp_bind (wp_modifyTop (wp_bind (wp_top fun _ => .inr ht)))
  · refine wp_bind (wp_modifyTop (wp_bind (wp_top ?_)))
    split
    · trivial
    · rename_i r hr
      have hsome : f.top.ref.isSome := Option.isSome_of_eq_some hr
      split
      · refine wp_bind (wp_bind (wp_heap (wp_orRaise (fun old _ => ?_) fun _ _ => trivial)))
        exact wp_bind (wp_modifyTop (wp_bind (wp_modifyTop (wp_bind (wp_top fun _ => .inl hsome)))))
      · exact wp_bind (wp_modifyTop (wp_bind (wp_top fun _ => .inl hsome)))
  · refine wp_bind (wp_take (wp_bind (wp_of_forall fun _ _ => wp_bind (wp_top ?_))))
    split
    · trivial
    · exact wp_bind (wp_of_forall fun _ _ => trivial)

/-- Assigning to a variable does not change the state. -/
theorem wp_putRef_top {Q : Unit → Frame → Prop} {r : Reference} {v : Value} (hQ : ∀ h, Q () { f with heap := h }) :
    (putRef r v).wp Q (fun _ _ => True) f :=
  wp_bind (wp_heap (wp_bind (wp_orRaise (fun h _ => hQ h) fun _ _ => trivial)))

theorem wp_assign_top {Q : Unit → Frame → Prop} {name : String} {v : Value}
    (hQ : ∀ h, Q () { f with heap := h }) : (assign name v).wp Q (fun _ _ => True) f :=
  wp_bind (wp_top (wp_putRef_top hQ))

/-- A loop over keys whose phase is not the one for a place awaits none. -/
theorem isSupplied_of_phase {s : State} {l : Loc} {left : ForHead} {right : Expr} {body : Stmt}
    (hn : s.node = .stmt (.forIn l left right body)) (hp : s.phase ≠ 3) : s.awaitsPlace = false := by
  unfold State.awaitsPlace
  rw [hn]
  exact beq_eq_false_iff_ne.2 hp

theorem stepForIn_leaves {l : Loc} {left : ForHead} {right : Expr} {body : Stmt}
    (hn : f.top.node = .stmt (.forIn l left right body)) (ht : ∀ e, left = .expr e → e.isTarget) :
    (stepForIn left right body).Leaves f := by
  have hstay {s : State} (hs : s.node = f.top.node) (hp : s.phase ≠ 3) : s.IsSupplied := fun ha => by
    rw [isSupplied_of_phase (hs.trans hn) hp] at ha
    cases ha
  have hpush (node : Node) {f' : Frame} (hs : f'.top.node = f.top.node) (hp : f'.top.phase ≠ 3) :
      (push node).Leaves f' := wp_bind (wp_top fun ha => .inl (hstay hs hp ha))
  refine wp_bind (wp_top ?_)
  split
  · exact wp_bind (wp_modifyTop (hpush _ rfl (by simp)))
  · refine wp_bind (wp_take ?_)
    split
    · trivial
    · refine wp_bind (wp_heap ?_)
      split
      · refine (hstay ?_ ?_ : State.IsSupplied _)
        · rfl
        · simp
      · refine (hstay ?_ ?_ : State.IsSupplied _)
        · rfl
        · simp
  · refine wp_bind (wp_top (wp_bind (wp_modifyTop ?_)))
    split
    · trivial
    · refine wp_bind (wp_bind (wp_heap (wp_bind (wp_orRaise (fun h _ => ?_) fun _ _ => trivial))))
      show (push (.stmt body)).Leaves ⟨{ f.top with ref := none, hasValue := false, phase := 2 }, h⟩
      exact hpush _ rfl (by simp)
  · rename_i hp
    refine wp_bind (wp_top (wp_bind (wp_heap (wp_bind (wp_modifyTop ?_)))))
    split
    · trivial
    · refine wp_bind (wp_modifyTop ?_)
      split
      · rename_i d
        cases hd : d.declarators with
        | nil => exact hpush (.stmt body) rfl hp
        | cons x rest => exact wp_bind (wp_bind (wp_assign_top fun h => hpush (.stmt body) rfl hp))
      · exact wp_bind (wp_assign_top fun h => hpush _ rfl hp)
      · exact wp_bind (wp_modifyTop (wp_bind (wp_top fun _ => .inr (ht _ rfl))))

/-- A rule of a node that never awaits a place. -/
theorem leaves_of_not_awaitsPlace {n : Node} {r : RuleM Move} (hn : ∀ s : State, s.node = n → s.awaitsPlace = false) :
    r.wp (fun mv f' => f'.top.node = n → mv.Leaves f'.top) (fun _ _ => True) f := by
  refine wp_of_forall fun mv f' he => ?_
  have hno : ¬f'.top.awaitsPlace := by
    rw [hn _ he]
    exact Bool.noConfusion
  cases mv with
  | stay | host | push => exact fun ha => absurd ha hno
  | drop | give | giveRef | jump | return_ => trivial

/-- Every rule leaves a state that has its place, or gets it from the part that is started. -/
theorem stepNode_leaves {ctx : Context} (below : List State) (hp : f.top.node.isPlacedIn ctx) :
    (stepNode c below f.top.node).wp (fun mv f' => f'.top.node = f.top.node → mv.Leaves f'.top) (fun _ _ => True) f := by
  have hrule {n : Node} {r : RuleM Move} (h : r.Leaves f) :
      r.wp (fun mv f' => f'.top.node = n → mv.Leaves f'.top) (fun _ _ => True) f :=
    h.mono (fun _ _ h _ => h) fun _ _ _ => trivial
  cases hn : f.top.node with
  | expr e =>
    rw [hn] at hp
    cases e with
    | update l op leading argument => exact hrule (evalUpdate_leaves op leading hp)
    | assign l op left right => exact hrule (evalAssign_leaves op right hp)
    | _ => exact leaves_of_not_awaitsPlace fun s hs => by unfold State.awaitsPlace; rw [hs]
  | stmt s =>
    rw [hn] at hp
    cases s with
    | forIn l left right body =>
      refine hrule (stepForIn_leaves hn ?_)
      rintro e rfl
      exact hp
    | _ => exact leaves_of_not_awaitsPlace fun s hs => by unfold State.awaitsPlace; rw [hs]
  | _ => exact leaves_of_not_awaitsPlace fun s hs => by unfold State.awaitsPlace; rw [hs]

end

/-! ### Moves -/

/-- A state that has just been started awaits no place. -/
theorem State.isSupplied_of_start (hp : s.phase = 0) : s.IsSupplied := fun ha => by
  unfold awaitsPlace at ha
  rw [hp] at ha
  split at ha <;> cases ha

theorem Node.not_isExpr_of_jump {n : Node} (h : n.jump?.isSome) : ¬n.isExpr := by
  cases n with
  | expr => cases h
  | _ => exact Bool.noConfusion

namespace Supplied

theorem nil : Supplied [] := ⟨.nil, by simp⟩

theorem cons (h : stack.IsChain State.Supplies) (ht : t.IsSupplied) (hs : ∀ s ∈ stack.head?, t.Supplies s) :
    Supplied (t :: stack) := by
  refine ⟨h.cons hs, fun s hs => ?_⟩
  cases hs
  exact ht

/-- A state whose place is not wanted leaves the stack. -/
theorem drop (h : (t :: stack).IsChain State.Supplies) (ht : t.node.isTarget → ¬t.components) : Supplied stack := by
  obtain ⟨hts, hs⟩ := List.isChain_cons.1 h
  exact ⟨hs, fun s hs => (hts s hs).isSupplied fun hc => ht ((hts s hs).target hc) hc⟩

/-- A value does not change what places there are. -/
theorem receive (h : Supplied stack) (v : Value) : Supplied (deliver (·.receive v) stack) := by
  cases stack with
  | nil => exact .nil
  | cons s stack =>
    refine ⟨h.chain.imp_head fun hs => hs.alike (s.alike_receive v), fun u hu => ?_⟩
    cases hu
    exact h.top s rfl

/-- A place goes to the state below. -/
theorem popRef (h : (t :: stack).IsChain State.Supplies) (r : Reference) : Supplied (deliver (·.receiveRef r) stack) := by
  cases stack with
  | nil => exact .nil
  | cons s stack =>
    obtain ⟨-, hs⟩ := List.isChain_cons_cons.1 h
    refine ⟨hs.imp_head fun hs => hs.alike (s.alike_receiveRef r), fun u hu => ?_⟩
    cases hu
    exact fun _ => rfl

/-- A jump leaves statements only, so no state that gives a place. -/
theorem leaveTo {label : Option String} {isContinue : Bool} (h : (t :: stack).IsChain State.Supplies)
    (ht : ¬t.node.isExpr) (hfound : (Stepwise.leaveTo label isContinue stack).2) :
    Supplied (Stepwise.leaveTo label isContinue stack).1 := by
  have hplain {u v : State} (hu : ¬u.node.isExpr) (h : u.Supplies v) : v.IsSupplied :=
    h.isSupplied fun hc => hu (Node.isExpr_of_isTarget (h.target hc))
  induction stack generalizing t with
  | nil => cases hfound
  | cons s stack ih =>
    obtain ⟨hts, hs⟩ := List.isChain_cons_cons.1 h
    unfold Stepwise.leaveTo at hfound ⊢
    split at hfound
    · cases hfound
    · rename_i hactive
      rw [if_neg hactive]
      have hstmt : ¬s.node.isExpr := fun hs => (hts.expr hs).elim ht hactive
      split at hfound
      · rename_i htarget
        rw [if_pos htarget]
        dsimp only
        cases isContinue with
        | true => exact ⟨hs, fun u hu => by cases hu; exact hplain ht hts⟩
        | false => exact ⟨(List.isChain_cons.1 hs).2, fun u hu => hplain hstmt ((List.isChain_cons.1 hs).1 u hu)⟩
      · rename_i htarget
        rw [if_neg htarget]
        exact ih hs hstmt hfound

/-- The call that gets the value of a function awaits no place. -/
theorem returnTo {v : Value} (h : stack.IsChain State.Supplies) : Supplied (Stepwise.returnTo v stack).1 := by
  induction stack with
  | nil => exact .nil
  | cons s stack ih =>
    unfold Stepwise.returnTo
    split
    · rename_i hactive
      refine ⟨h.imp_head fun hs => hs.alike ⟨rfl, rfl, rfl, rfl, rfl⟩, fun u hu => ?_⟩
      cases hu
      have hcall := State.isCall_of_isActiveCall hactive
      unfold Node.isCall at hcall
      intro ha
      unfold State.awaitsPlace State.receive at ha
      split at hcall <;> simp_all
    · exact ih (List.isChain_cons.1 h).2

end Supplied

/-! ### Machines -/

/-- What is read stands in its place, in the program and in its library. -/
theorem Setting.IsRead.placed {n : Node} {site : Site} (hc : c.IsRead) (h : c.StandsAt n site) :
    n.isPlacedIn site.context := by
  have hlibrary : (Node.program c.library).placed {} := by
    obtain ⟨text, hl⟩ := hc.library
    rw [hl]
    unfold Library.read
    cases hp : Program.parse text Library.scriptFirst Library.scriptName with
    | ok p => exact Program.placed_of_parse hp
    | error => exact Node.placed_iff.2 ⟨rfl, fun n hn => by cases hn⟩
  obtain ⟨source, hp⟩ := hc.program
  rcases h with h | h
  · exact (Node.placed_iff.1 (h.placed (Program.placed_of_parse hp))).1
  · exact (Node.placed_iff.1 (h.placed hlibrary)).1

namespace Machine

variable {m m' : Machine} {mv : Move} {f : Frame}

/-- Whatever comes of the state on top, it has its place, or gets it from what it starts. -/
theorem Advances.leaves {site : Site} (hp : s.node.isPlacedIn site.context) (ha : m.Advances c s below mv f m') :
    mv.Leaves f.top := by
  rcases ha.rule with hrule | hresumes
  · exact (stepNode_leaves (c := c) (f := ⟨s, m.heap⟩) below hp).of_ok hrule ha.top.node
  · rcases hresumes.settles with ⟨v, rfl⟩ | ⟨b, scope, rfl, -⟩
    · trivial
    · intro hawaits
      rw [State.awaitsPlace_of_isCall (ha.top.node ▸ hresumes.call)] at hawaits
      cases hawaits

/-- A step that advances leaves every state with its place, or with a part that gives it. -/
theorem Advances.supplied (hc : c.IsRead) (hsize : c.program.nodes.length < 2 ^ 24) (hw : m.WellFormed)
    (hseated : Seated c m.stack) (hm : Supplied m.stack) (ha : m.Advances c s below mv f m') : Supplied m'.stack := by
  obtain ⟨site, hsits⟩ := hseated s below (ha.stack ▸ List.suffix_refl _)
  rw [ha.stack] at hm
  have hchain : (f.top :: below).IsChain State.Supplies := hm.chain.imp_head fun h => h.alike ha.top.toAlike
  have hleaves := ha.leaves (hc.placed hsits.stands)
  have hplain (hno : ¬mv.Locates s) : f.top.node.isTarget → ¬f.top.components := fun hn hcomp => hno (ha.locates hn hcomp)
  rw [ha.stack_eq]
  cases mv with
  | stay | host => exact .cons (List.isChain_cons.1 hchain).2 (hleaves : f.top.IsSupplied) (List.isChain_cons.1 hchain).1
  | push node scope components labels =>
    refine .cons hchain (State.isSupplied_of_start rfl) fun u hu => ?_
    cases hu
    rcases ha.push_cases hw.heap.toFiled with ⟨hp, -⟩ | ⟨hen, rfl, -⟩
    · have hresolve : c.resolve node = node := hc.resolve_of_mem hsize (hsits.stands.operand hp.operand).mem_nodes
      rw [hresolve]
      refine ⟨hleaves, hp.target, fun hexpr => .inl ?_⟩
      exact Node.isExpr_of_operand (ha.top.node ▸ hexpr) hp.operand
    · refine ⟨hleaves, Bool.noConfusion, fun _ => .inr ?_⟩
      exact State.isActiveCall_of_isCall (ha.top.node ▸ hen.call) hen.phase
  | drop => exact .drop hchain (hplain id)
  | give v => exact (Supplied.drop hchain (hplain id)).receive v
  | giveRef r => exact .popRef hchain r
  | jump label isContinue =>
    have hjump : s.node.jump? = some (label, isContinue) := ha.fits.resolve_left id
    have hexpr := Node.not_isExpr_of_jump (Option.isSome_of_eq_some hjump)
    exact .leaveTo hchain (ha.top.node ▸ hexpr) ha.target_found
  | return_ v => exact .returnTo hchain

theorem Reachable.supplied (hc : c.IsRead) (hsize : c.program.nodes.length < 2 ^ 24) (hh : ∀ f ∈ c.host, f.Sound)
    {world : ω} (h : m.Reachable c world) : Supplied m.stack := by
  induction h with
  | start h world =>
    rw [stack_start_of_isRead hc h]
    exact .cons .nil (State.isSupplied_of_start rfl) (by simp)
  | step h hs ih =>
    have hw := h.wellFormed hh
    obtain ⟨s, below, mv, f, ha⟩ := advances_of_step hh hw hs
    exact ha.supplied hc hsize hw (h.seated hc hsize hh) ih

end Machine

end Stepwise

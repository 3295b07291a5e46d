import Stepwise.Proofs.Machine.Evaluate
import Stepwise.Proofs.Machine.Shape

/-!
# Evaluation by steps

A machine that starts an expression without calls computes what recursion computes.

* `Machine.Computes`: steps lead from a machine to the result of a computation, or the stack grows too high.
* `Computed`: starting an expression computes its value, or its place if that is wanted.
* `Machine.push_evaluates`: every expression without calls is computed, the heap included.
-/

namespace Stepwise

open EvalM

variable {ω α β : Type}

/-- The object that an exception becomes above some states, and the heap with it. -/
def Raised.object (r : Raised) (h : Heap) (stack : List State) : Value × Heap :=
  let (id, h) := h.newError r.exception.type.name r.exception.message
  let trace := String.intercalate "\n" (traceLines h (some r.node) stack)
  (.object id, h.modify id (·.putHidden "stack" (.string trace)))

/-- A state that is no running call does not show in a trace. -/
theorem Raised.object_cons {s : State} {stack : List State} (r : Raised) (h : Heap) (hs : ¬s.isActiveCall) :
    r.object h (s :: stack) = r.object h stack := by
  unfold Raised.object
  simp only [traceLines, if_neg hs]

namespace Machine

/-- A number of steps that advance and leave the world alone, each from a stack of more than `floor` states. -/
inductive Steps (c : Setting ω) (world : ω) (floor : Nat) : Nat → Machine → Machine → Prop where
  | refl (m : Machine) : Steps c world floor 0 m m
  | head {n : Nat} {m m' m'' : Machine} (hm : floor < m.stack.length) (h : m.step c world = (.advanced, m', world))
    (hs : Steps c world floor n m' m'') : Steps c world floor (n + 1) m m''

/-- Steps that lead to a stack that is too high. -/
def Overflows (c : Setting ω) (world : ω) (floor : Nat) (m : Machine) : Prop :=
  ∃ n m' m'', Steps c world floor n m m' ∧ floor < m'.stack.length ∧
    m'.step c world = (.fault .stackOverflow, m'', world) ∧ c.maxDepth < m''.stack.length

/-- Steps that lead to a result above some states: the states that come after it, or an exception. -/
def Ends (c : Setting ω) (world : ω) (m : Machine) (stack : List State) (r : EStateM.Result Raised Heap α)
    (after : α → List State) : Prop :=
  match r with
  | .ok a h => ∃ n id, Steps c world stack.length n m ⟨m.global, h, after a, id⟩
  | .error e h => ∃ n m' above id, Steps c world stack.length n m m' ∧
    m'.step c world = (.exception (e.object h stack).1, ⟨m.global, (e.object h stack).2, above ++ stack, id⟩, world)

/-- Steps that lead to a result, unless the stack grows too high on the way. -/
def Computes (c : Setting ω) (world : ω) (m : Machine) (stack : List State) (r : EStateM.Result Raised Heap α)
    (after : α → List State) : Prop := m.Overflows c world stack.length ∨ m.Ends c world stack r after

variable {c : Setting ω} {world : ω} {m m' m'' : Machine} {n k floor : Nat} {s s' parent : State}
  {stack below : List State}

theorem Steps.trans (h : Steps c world floor n m m') (h' : Steps c world floor k m' m'') :
    Steps c world floor (n + k) m m'' := by
  induction h with
  | refl => simpa using h'
  | head hm hs _ ih =>
    rw [Nat.add_right_comm]
    exact .head hm hs (ih h')

theorem Steps.mono {floor' : Nat} (hle : floor' ≤ floor) (h : Steps c world floor n m m') :
    Steps c world floor' n m m' := by
  induction h with
  | refl => exact .refl _
  | head hm hs _ ih => exact .head (Nat.lt_of_le_of_lt hle hm) hs ih

/-- Running goes through the steps. -/
theorem Steps.run (h : Steps c world floor n m m') (done k : Nat) :
    run.go c (n + k) done m world = run.go c k (done + n) m' world := by
  induction h generalizing done with
  | refl => rw [Nat.zero_add, Nat.add_zero]
  | @head n m m' m'' _ hs _ ih =>
    rw [Nat.add_right_comm, run.go, hs]
    dsimp only
    rw [ih, Nat.add_right_comm, Nat.add_assoc]

/-- The stack does not sink below the floor on the way. -/
theorem Steps.floor_lt (h : Steps c world floor n m m') (hm' : floor < m'.stack.length) (done : Nat) :
    ∀ k ≤ n, floor < (run.go c k done m world).machine.stack.length := by
  induction h generalizing done with
  | refl =>
    intro k hk
    cases Nat.le_zero.1 hk
    exact hm'
  | @head n m m' m'' hm hs _ ih =>
    rintro (_ | k) hk
    · exact hm
    · rw [run.go, hs]
      exact ih hm' (done + 1) k (Nat.le_of_succ_le_succ hk)

/-- Running stops after the steps if the next one does not advance. -/
theorem Steps.run_stop (h : Steps c world floor n m m') {outcome : Outcome}
    (hs : m'.step c world = (outcome, m'', world)) (ho : outcome ≠ .advanced) :
    m.run c (n + 1) world = ⟨outcome, n, m'', world⟩ := by
  have hrun : m.run c (n + 1) world = run.go c 1 (0 + n) m' world := h.run 0 1
  rw [hrun, Nat.zero_add, run.go, hs]
  cases outcome with
  | advanced => exact absurd rfl ho
  | ended | exception | fault => rfl

/-! ### Composition -/

/-- What comes after a result may depend on it in any way. -/
theorem Computes.map {x : EvalM α} {h : Heap} {g : α → β} {after : β → List State}
    (hc : m.Computes c world stack (x h) fun a => after (g a)) : m.Computes c world stack ((g <$> x) h) after := by
  unfold Computes Ends at hc ⊢
  rw [map_run]
  cases he : x h <;> rw [he] at hc <;> exact hc

namespace Computes

variable {x : EvalM α} {f : α → EvalM β} {h : Heap} {after : α → List State} {after' : β → List State}
  {r : EStateM.Result Raised Heap α}

/-- Steps on the way to a machine that computes. -/
theorem of_steps (hs : Steps c world stack.length n m m') (hg : m'.global = m.global)
    (hc : m'.Computes c world stack r after) : m.Computes c world stack r after := by
  rcases hc with ⟨k, m₁, m₂, h₁, h₂⟩ | hc
  · exact .inl ⟨n + k, m₁, m₂, hs.trans h₁, h₂⟩
  · refine .inr ?_
    unfold Ends at hc ⊢
    rw [hg] at hc
    cases r with
    | ok a h =>
      obtain ⟨k, id, h₁⟩ := hc
      exact ⟨n + k, id, hs.trans h₁⟩
    | error e h =>
      obtain ⟨k, m₁, above, id, h₁, h₂⟩ := hc
      exact ⟨n + k, m₁, above, id, hs.trans h₁, h₂⟩

/-- What is computed for a state is followed by what this state goes on to compute. -/
theorem bind (hs : ¬s.isActiveCall) (hx : m.Computes c world (s :: stack) (x h) after)
    (hf : ∀ a h' id, Computes c world ⟨m.global, h', after a, id⟩ stack (f a h') after') :
    m.Computes c world stack ((x >>= f) h) after' := by
  rw [show (x >>= f) h = EStateM.bind x f h from rfl]
  unfold EStateM.bind
  have hle : stack.length ≤ (s :: stack).length := Nat.le_succ _
  rcases hx with ⟨n, m', m'', hsteps, hm, hx⟩ | hx
  · exact .inl ⟨n, m', m'', hsteps.mono hle, Nat.lt_of_le_of_lt hle hm, hx⟩
  · unfold Ends at hx
    cases he : x h with
    | ok a h' =>
      rw [he] at hx
      obtain ⟨n, id, hx⟩ := hx
      exact of_steps (hx.mono hle) rfl (hf a h' id)
    | error e h' =>
      rw [he] at hx
      obtain ⟨n, m', above, id, hsteps, hx⟩ := hx
      rw [e.object_cons h' hs] at hx
      exact .inr ⟨n, m', above ++ [s], id, hsteps.mono hle, by rw [hx]; simp⟩

end Computes

/-! ### Steps of an expression -/

variable {e operand : Expr} {h : Heap}

/-- A step of a machine with an expression on top that calls no function of the host. -/
theorem step_expr {r : EStateM.Result Failure Frame Move} (hm : m.stack = s :: stack) (hs : s.node = .expr e)
    (hrule : stepExpr c stack e ⟨s, m.heap⟩ = r) (hr : ∀ name call f, r ≠ .ok (.host name call) f) :
    m.step c world = ((m.finish c stack r).1, (m.finish c stack r).2, world) := by
  refine step_of_rule_eq hm ?_ (hs ▸ hrule) hr world
  unfold isEnded
  rw [hm]
  dsimp only
  rw [hs]

/-- A rule that ends with a move of the stack. -/
theorem Computes.of_move {mv : Move} {m' : Machine} {r : EStateM.Result Raised Heap α} {after : α → List State}
    (hm : m.stack = s :: stack) (hs : s.node = .expr e) (hrule : stepExpr c stack e ⟨s, m.heap⟩ = .ok mv ⟨s', h⟩)
    (hhost : ∀ name call, mv ≠ .host name call)
    (hmove : ({ m with heap := h } : Machine).apply c s' stack mv = (m', none)) (hg : m'.global = m.global)
    (hc : m'.Computes c world stack r after) : m.Computes c world stack r after := by
  have habove : stack.length < m.stack.length := by
    rw [hm]
    exact Nat.lt_succ_self _
  have hstep : m.step c world =
      (if c.maxDepth < m'.stack.length then .fault .stackOverflow else .advanced, m', world) := by
    rw [step_expr hm hs hrule fun name call f he => hhost name call (by cases he; rfl)]
    simp only [finish, move, hmove]
    split <;> rfl
  split at hstep
  · exact .inl ⟨0, m, m', .refl m, habove, hstep, ‹_›⟩
  · exact .of_steps (.head habove hstep (.refl m')) hg hc

/-- A rule that gives the value of its expression. -/
theorem Computes.give {v : Value} (hm : m.stack = s :: parent :: below) (hs : s.node = .expr e)
    (hrule : stepExpr c (parent :: below) e ⟨s, m.heap⟩ = .ok (.give v) ⟨s', h⟩) :
    m.Computes c world (parent :: below) (.ok v h) fun v => parent.receive v :: below :=
  .of_move hm hs hrule (fun _ _ => nofun) rfl rfl (.inr ⟨0, m.lastId, .refl _⟩)

/-- A rule that gives the place of its expression. -/
theorem Computes.giveRef {r : Reference} (hm : m.stack = s :: parent :: below) (hs : s.node = .expr e)
    (hrule : stepExpr c (parent :: below) e ⟨s, m.heap⟩ = .ok (.giveRef r) ⟨s', h⟩) :
    m.Computes c world (parent :: below) (.ok r h) fun r => parent.receiveRef r :: below :=
  .of_move hm hs hrule (fun _ _ => nofun) rfl rfl (.inr ⟨0, m.lastId, .refl _⟩)

theorem not_isActiveCall (hs : s.node = .expr e) (he : ¬(Node.expr e).isCall) : ¬s.isActiveCall := by
  unfold State.isActiveCall
  intro h
  rw [hs] at h
  exact he (Bool.and_eq_true_iff.1 h).2

/-- A rule that raises an exception. -/
theorem Computes.raise {t : Throw} {after : α → List State} (s' : State) (hm : m.stack = s :: stack)
    (hs : s.node = .expr e) (hs' : s'.node = .expr e) (he : ¬(Node.expr e).isCall)
    (hrule : stepExpr c stack e ⟨s, m.heap⟩ = .error (.raised t) ⟨s', h⟩) :
    m.Computes c world stack (.error ⟨t, .expr e⟩ h) after := by
  refine .inr ⟨0, m, [s'], m.lastId, .refl m, ?_⟩
  rw [step_expr hm hs hrule fun _ _ _ => nofun]
  have htrace (h : Heap) : stackTrace h (s' :: stack) =
      String.intercalate "\n" (traceLines h (some (.expr e)) stack) := by
    rw [stackTrace, List.head?_cons, Option.map_some, hs', traceLines, if_neg (not_isActiveCall hs' he)]
  dsimp only [finish, fail, Machine.raise, Raised.object]
  rw [htrace]
  rfl

/-- The answer of a rule that concludes its node `n` with the result of a computation. -/
inductive Concludes (n : Node) : EStateM.Result Raised Heap Value → EStateM.Result Failure Frame Move → Prop where
  | give (v : Value) (h : Heap) (s : State) : Concludes n (.ok v h) (.ok (.give v) ⟨s, h⟩)
  | raise (t : Throw) (h : Heap) {s : State} (hs : s.node = n) :
    Concludes n (.error ⟨t, n⟩ h) (.error (.raised t) ⟨s, h⟩)

theorem Computes.conclude {r : EStateM.Result Raised Heap Value} (hm : m.stack = s :: parent :: below)
    (hs : s.node = .expr e) (he : ¬(Node.expr e).isCall)
    (hr : Concludes (.expr e) r (stepExpr c (parent :: below) e ⟨s, m.heap⟩)) :
    m.Computes c world (parent :: below) r fun v => parent.receive v :: below := by
  generalize hrule : stepExpr c (parent :: below) e ⟨s, m.heap⟩ = answer at hr
  cases hr with
  | give v h s' => exact .give hm hs hrule
  | raise t h hs' => exact .raise _ hm hs hs' he hrule

/-- A rule that gives the result of an operation, or raises its exception. -/
theorem Computes.orRaise {x : Except Throw Value} (s' : State) (hm : m.stack = s :: parent :: below)
    (hs : s.node = .expr e) (hs' : s'.node = .expr e) (he : ¬(Node.expr e).isCall)
    (hrule : stepExpr c (parent :: below) e ⟨s, m.heap⟩ = (RuleM.orRaise x >>= RuleM.give) ⟨s', h⟩) :
    m.Computes c world (parent :: below) (EvalM.orRaise (.expr e) x h) fun v => parent.receive v :: below := by
  refine .conclude hm hs he ?_
  rw [hrule]
  cases x with
  | ok v => exact .give v h s'
  | error t => exact .raise t h hs'

/-! ### Expressions -/

/-- Starting the expression computes its value, or its place if that is wanted. -/
structure Computed (c : Setting ω) (world : ω) (e : Expr) : Prop where
  value : ∀ (m : Machine) parent below scope, m.stack = parent :: below →
    (m.push c (.expr e) scope false []).Computes c world (parent :: below) (e.value scope m.heap)
      fun v => parent.receive v :: below
  place : ∀ (m : Machine) parent below scope, e.isTarget → m.stack = parent :: below →
    (m.push c (.expr e) scope true []).Computes c world (parent :: below) (e.place scope m.heap)
      fun r => parent.receiveRef r :: below

/-- A rule that needs the value of a part. -/
theorem Computes.part {f : Value → EvalM α} {after : α → List State} {scope : ObjectId} (s' : State)
    (hm : m.stack = s :: stack) (hs : s.node = .expr e) (hs' : s'.node = .expr e) (he : ¬(Node.expr e).isCall)
    (hrule : stepExpr c stack e ⟨s, m.heap⟩ = .ok (.push (.expr operand) scope false []) ⟨s', h⟩)
    (hpart : Computed c world operand)
    (hf : ∀ v h' id, Computes c world ⟨m.global, h', s'.receive v :: stack, id⟩ stack (f v h') after) :
    m.Computes c world stack ((operand.value scope >>= f) h) after := by
  refine .of_move hm hs hrule (fun _ _ => nofun) rfl rfl ?_
  exact .bind (not_isActiveCall hs' he) (hpart.value { m with heap := h, stack := s' :: stack } s' stack scope rfl) hf

/-- A rule that needs the place of a part. -/
theorem Computes.partPlace {f : Reference → EvalM α} {after : α → List State} {scope : ObjectId} (s' : State)
    (hm : m.stack = s :: stack) (hs : s.node = .expr e) (hs' : s'.node = .expr e) (he : ¬(Node.expr e).isCall)
    (hrule : stepExpr c stack e ⟨s, m.heap⟩ = .ok (.push (.expr operand) scope true []) ⟨s', h⟩)
    (hpart : Computed c world operand) (ht : operand.isTarget)
    (hf : ∀ r h' id, Computes c world ⟨m.global, h', s'.receiveRef r :: stack, id⟩ stack (f r h') after) :
    m.Computes c world stack ((operand.place scope >>= f) h) after := by
  refine .of_move hm hs hrule (fun _ _ => nofun) rfl rfl ?_
  have hplace := hpart.place { m with heap := h, stack := s' :: stack } s' stack scope ht rfl
  exact .bind (not_isActiveCall hs' he) hplace hf

/-- A rule that ends with the value of a part. -/
theorem Computes.lastPart {scope : ObjectId} (s' : State) (hm : m.stack = s :: parent :: below) (hs : s.node = .expr e)
    (hs' : s'.node = .expr e) (he : ¬(Node.expr e).isCall)
    (hrule : stepExpr c (parent :: below) e ⟨s, m.heap⟩ = .ok (.push (.expr operand) scope false []) ⟨s', h⟩)
    (hpart : Computed c world operand)
    (hgive : ∀ v h', ∃ t, stepExpr c (parent :: below) e ⟨s'.receive v, h'⟩ = .ok (.give v) ⟨t, h'⟩) :
    m.Computes c world (parent :: below) (operand.value scope h) fun v => parent.receive v :: below := by
  rw [← bind_pure (operand.value scope)]
  refine .part s' hm hs hs' he hrule hpart fun v h' id => ?_
  obtain ⟨t, ht⟩ := hgive v h'
  exact .give rfl hs' ht

theorem getElem?_of_drop {l rest : List α} {i : Nat} {a : α} (h : l.drop i = a :: rest) :
    l[i]? = some a ∧ l.drop (i + 1) = rest ∧ a ∈ l := by
  have ha : l[i]? = some a := by rw [← List.head?_drop, h, List.head?_cons]
  exact ⟨ha, by rw [← List.tail_drop, h, List.tail_cons], List.mem_of_getElem? ha⟩

namespace Computed

variable {l : Loc}

/-- An expression is computed if its states at the start compute its value and its place. -/
theorem of_start (he : c.resolve (.expr e) = .expr e)
    (hv : ∀ global h id parent below scope,
      Computes c world ⟨global, h, { id, node := .expr e, scope } :: parent :: below, id⟩ (parent :: below)
        (e.value scope h) fun v => parent.receive v :: below)
    (hp : e.isTarget → ∀ global h id parent below scope,
      Computes c world ⟨global, h, { id, node := .expr e, scope, components := true } :: parent :: below, id⟩
        (parent :: below) (e.place scope h) fun r => parent.receiveRef r :: below) : Computed c world e := by
  constructor
  · intro m parent below scope hm
    rw [push, he, hm]
    exact hv _ _ _ _ _ _
  · intro m parent below scope ht hm
    rw [push, he, hm]
    exact hp ht _ _ _ _ _ _

/-- An expression that has no place is computed if its state at the start computes its value. -/
theorem of_value (he : c.resolve (.expr e) = .expr e) (ht : ¬e.isTarget)
    (hv : ∀ global h id parent below scope,
      Computes c world ⟨global, h, { id, node := .expr e, scope } :: parent :: below, id⟩ (parent :: below)
        (e.value scope h) fun v => parent.receive v :: below) : Computed c world e :=
  of_start he hv fun h => absurd h ht

/-- An expression that is its own value. -/
theorem of_give (v : Heap → ObjectId → Value) (he : c.resolve (.expr e) = .expr e) (ht : ¬e.isTarget)
    (hv : ∀ scope h, e.value scope h = .ok (v h scope) h)
    (hrule : ∀ (s : State) below h, stepExpr c below e ⟨s, h⟩ = .ok (.give (v h s.scope)) ⟨s, h⟩) :
    Computed c world e := by
  refine of_value he ht fun global h id parent below scope => ?_
  rw [hv]
  exact .give rfl rfl (hrule _ _ _)

theorem identifier {i : Identifier} (he : c.resolve (.expr (.identifier i)) = .expr (.identifier i)) :
    Computed c world (.identifier i) := by
  refine of_start he (fun global h id parent below scope => ?_) fun _ global h id parent below scope => ?_
  · rw [Expr.value]
    exact .orRaise { id, node := .expr (.identifier i), scope } rfl rfl rfl nofun (by simp [stepExpr, evalIdentifier])
  · exact .giveRef rfl rfl (by simp [stepExpr, evalIdentifier]; rfl)

theorem this (he : c.resolve (.expr (.this l)) = .expr (.this l)) : Computed c world (.this l) :=
  of_give (fun h scope => (h.lookup? scope "this").getD .undefined) he nofun (fun _ _ => rfl) fun _ _ _ => rfl

theorem regexp {raw : String} (he : c.resolve (.expr (.regexp l raw)) = .expr (.regexp l raw)) :
    Computed c world (.regexp l raw) :=
  of_value he nofun fun _ _ id _ _ scope =>
    .raise { id, node := .expr (.regexp l raw), scope } rfl rfl rfl nofun rfl

theorem function {name : Option Identifier} {params : List Identifier} {body : Block}
    (he : c.resolve (.expr (.function l name params body)) = .expr (.function l name params body)) :
    Computed c world (.function l name params body) := by
  refine of_value he nofun fun global h id parent below scope => ?_
  rw [Expr.value]
  exact .give rfl rfl rfl

theorem binary {op : BinaryOp} {left right : Expr} (hleft : Computed c world left) (hright : Computed c world right)
    (he : c.resolve (.expr (.binary l op left right)) = .expr (.binary l op left right)) :
    Computed c world (.binary l op left right) := by
  refine of_value he nofun fun global h id parent below scope => ?_
  let s : State := { id, node := .expr (.binary l op left right), scope }
  rw [Expr.value]
  refine .part { s with phase := 1 } rfl rfl rfl nofun (by simp [s, stepExpr, evalBinary]) hleft fun a h id => ?_
  refine .part { s with phase := 2, left := a, value := a } rfl rfl rfl nofun
    (by simp [s, stepExpr, evalBinary, State.receive]) hright fun b h id => ?_
  exact .orRaise { s with phase := 2, left := a, value := b } rfl rfl rfl nofun
    (by simp [s, stepExpr, evalBinary, State.receive])

theorem logical {op : LogicalOp} {left right : Expr} (hleft : Computed c world left) (hright : Computed c world right)
    (he : c.resolve (.expr (.logical l op left right)) = .expr (.logical l op left right)) :
    Computed c world (.logical l op left right) := by
  refine of_value he nofun fun global h id parent below scope => ?_
  let s : State := { id, node := .expr (.logical l op left right), scope }
  rw [Expr.value]
  refine .part { s with phase := 1 } rfl rfl rfl nofun (by simp [s, stepExpr, evalLogical]) hleft fun a h id => ?_
  by_cases ha : a.truthy = decide (op = .or)
  · rw [if_pos ha]
    exact .give rfl rfl (by simp [s, stepExpr, evalLogical, State.receive, ha]; rfl)
  · rw [if_neg ha]
    refine .lastPart { s with phase := 2, value := a } rfl rfl rfl nofun
      (by simp [s, stepExpr, evalLogical, State.receive, ha]) hright fun b h => ?_
    exact ⟨_, by simp [s, stepExpr, evalLogical, State.receive]; rfl⟩

theorem conditional {test consequent alternate : Expr} (htest : Computed c world test)
    (hconsequent : Computed c world consequent) (halternate : Computed c world alternate)
    (he : c.resolve (.expr (.conditional l test consequent alternate)) =
      .expr (.conditional l test consequent alternate)) :
    Computed c world (.conditional l test consequent alternate) := by
  refine of_value he nofun fun global h id parent below scope => ?_
  let s : State := { id, node := .expr (.conditional l test consequent alternate), scope }
  rw [Expr.value]
  refine .part { s with phase := 1 } rfl rfl rfl nofun (by simp [s, stepExpr, evalConditional]) htest fun v h id => ?_
  by_cases hv : v.truthy
  · rw [if_pos hv]
    refine .lastPart { s with phase := 2, value := v } rfl rfl rfl nofun
      (by simp [s, stepExpr, evalConditional, State.receive, hv]) hconsequent fun w h => ?_
    exact ⟨_, by simp [s, stepExpr, evalConditional, State.receive]; rfl⟩
  · rw [if_neg hv]
    refine .lastPart { s with phase := 2, value := v } rfl rfl rfl nofun
      (by simp [s, stepExpr, evalConditional, State.receive, hv]) halternate fun w h => ?_
    exact ⟨_, by simp [s, stepExpr, evalConditional, State.receive]; rfl⟩

theorem member {object : Expr} {name : Identifier} (hobject : Computed c world object)
    (he : c.resolve (.expr (.member l object name)) = .expr (.member l object name)) :
    Computed c world (.member l object name) := by
  refine of_start he (fun global h id parent below scope => ?_) fun _ global h id parent below scope => ?_
  · let s : State := { id, node := .expr (.member l object name), scope }
    rw [Expr.value]
    refine .part { s with phase := 1 } rfl rfl rfl nofun (by simp [s, stepExpr, evalMember]) hobject fun v h id => ?_
    exact .orRaise { s with phase := 1, value := v, left := v } rfl rfl rfl nofun
      (by simp [s, stepExpr, evalMember, giveProperty, State.receive])
  · let s : State := { id, node := .expr (.member l object name), scope, components := true }
    rw [Expr.place]
    refine .part { s with phase := 1 } rfl rfl rfl nofun (by simp [s, stepExpr, evalMember]) hobject fun v h id => ?_
    exact .giveRef rfl rfl (by simp [s, stepExpr, evalMember, giveProperty, State.receive]; rfl)

theorem index {object key : Expr} (hobject : Computed c world object) (hkey : Computed c world key)
    (he : c.resolve (.expr (.index l object key)) = .expr (.index l object key)) :
    Computed c world (.index l object key) := by
  refine of_start he (fun global h id parent below scope => ?_) fun _ global h id parent below scope => ?_
  · let s : State := { id, node := .expr (.index l object key), scope }
    rw [Expr.value]
    refine .part { s with phase := 1 } rfl rfl rfl nofun (by simp [s, stepExpr, evalIndex]) hobject fun v h id => ?_
    refine .part { s with phase := 2, value := v, left := v } rfl rfl rfl nofun
      (by simp [s, stepExpr, evalIndex, State.receive]) hkey fun k h id => ?_
    exact .orRaise { s with phase := 2, value := k, left := v } rfl rfl rfl nofun
      (by simp [s, stepExpr, evalIndex, giveProperty, State.receive])
  · let s : State := { id, node := .expr (.index l object key), scope, components := true }
    rw [Expr.place]
    refine .part { s with phase := 1 } rfl rfl rfl nofun (by simp [s, stepExpr, evalIndex]) hobject fun v h id => ?_
    refine .part { s with phase := 2, value := v, left := v } rfl rfl rfl nofun
      (by simp [s, stepExpr, evalIndex, State.receive]) hkey fun k h id => ?_
    exact .giveRef rfl rfl (by simp [s, stepExpr, evalIndex, giveProperty, State.receive]; rfl)

/-- Deleting the place that was evaluated. -/
theorem delete_end {argument : Expr} {r : Reference} (hs : s.node = .expr (.unary l .delete argument))
    (hphase : s.phase = 1) (href : s.ref = some r) :
    Concludes (.expr (.unary l .delete argument)) (EvalM.delete (.expr (.unary l .delete argument)) r h)
      (stepExpr c below (.unary l .delete argument) ⟨s, h⟩) := by
  have hrule : stepExpr c below (.unary l .delete argument) ⟨s, h⟩ = evalDelete ⟨s, h⟩ := by
    simp [stepExpr, evalUnary, hphase]
  rw [hrule]
  rcases r with ⟨scope, name⟩ | ⟨base, name⟩
  · simpa [evalDelete, href, EvalM.delete, Value.isNullish] using .raise .deleteOfNothing h hs
  · by_cases hbase : base.isNullish
    · simpa [evalDelete, href, EvalM.delete, hbase] using .raise .deleteOfNothing h hs
    · cases ho : h.deref? base with
      | none => simpa [evalDelete, href, EvalM.delete, hbase, ho] using .give (.bool true) h s
      | some o =>
        simpa [evalDelete, href, EvalM.delete, hbase, ho] using
          .give (.bool (Heap.remove o name).2) (h.store (Heap.remove o name).1) s

/-- The rule of a unary expression that starts its argument for the value. -/
theorem evalUnary_push {op : UnaryOp} {argument : Expr} (hphase : s.phase = 0)
    (htypeof : ∀ i, op = .typeof → argument = .identifier i → False)
    (hmember : ∀ l object name, op = .delete → argument = .member l object name → False)
    (hindex : ∀ l object key, op = .delete → argument = .index l object key → False) :
    evalUnary op argument ⟨s, h⟩ = .ok (.push (.expr argument) s.scope false []) ⟨{ s with phase := 1 }, h⟩ := by
  unfold evalUnary
  rw [RuleM.bind_run, RuleM.top_run]
  dsimp only
  rw [if_pos hphase, RuleM.bind_run, RuleM.setPhase_run]
  dsimp only
  split
  · exact (htypeof _ rfl rfl).elim
  · exact (hmember _ _ _ rfl rfl).elim
  · exact (hindex _ _ _ rfl rfl).elim
  · rfl

theorem unary {op : UnaryOp} {argument : Expr}
    (hargument : .expr argument ∈ (Node.expr (.unary l op argument)).operands → Computed c world argument)
    (he : c.resolve (.expr (.unary l op argument)) = .expr (.unary l op argument)) :
    Computed c world (.unary l op argument) := by
  refine of_value he Bool.false_ne_true fun global h id parent below scope => ?_
  let s : State := { id, node := .expr (.unary l op argument), scope }
  rw [Expr.value]
  unfold unaryValue
  split
  · rename_i i
    refine .conclude rfl rfl Bool.false_ne_true ?_
    cases hi : h.lookup? scope i.name with
    | none => simpa [s, stepExpr, evalUnary, hi] using .give _ h _
    | some v => simpa [s, stepExpr, evalUnary, hi] using .give _ h _
  · refine .partPlace { s with phase := 1 } rfl rfl rfl Bool.false_ne_true (by simp [s, stepExpr, evalUnary, Expr.isTarget])
      (hargument (by simp [Node.operands])) rfl fun r h id => ?_
    exact .conclude rfl rfl Bool.false_ne_true (delete_end rfl rfl rfl)
  · refine .partPlace { s with phase := 1 } rfl rfl rfl Bool.false_ne_true (by simp [s, stepExpr, evalUnary, Expr.isTarget])
      (hargument (by simp [Node.operands])) rfl fun r h id => ?_
    exact .conclude rfl rfl Bool.false_ne_true (delete_end rfl rfl rfl)
  · rename_i hmember hindex
    refine .part { s with phase := 1 } rfl rfl rfl Bool.false_ne_true
      (evalUnary_push rfl (fun _ h => UnaryOp.noConfusion h) (fun l o n _ => hmember l o n) fun l o k _ => hindex l o k)
      (hargument (by simp [Node.operands])) fun v h id => ?_
    exact .give rfl rfl (by simp [s, stepExpr, evalUnary, evalDelete, State.receive]; rfl)
  · rename_i hdelete htypeof hmember hindex
    have hoperand : .expr argument ∈ (Node.expr (.unary l op argument)).operands := by
      unfold Node.operands
      split <;> simp_all
    refine .part { s with phase := 1 } rfl rfl rfl Bool.false_ne_true (evalUnary_push rfl htypeof hmember hindex)
      (hargument hoperand) fun v h id => ?_
    have hop : op ≠ .delete := hdelete
    exact .give rfl rfl (by simp [s, stepExpr, evalUnary, State.receive, hop]; rfl)

theorem update {op : UpdateOp} {leading : Bool} {argument : Expr} (hargument : Computed c world argument)
    (he : c.resolve (.expr (.update l op leading argument)) = .expr (.update l op leading argument)) :
    Computed c world (.update l op leading argument) := by
  refine of_value he nofun fun global h id parent below scope => ?_
  let s : State := { id, node := .expr (.update l op leading argument), scope }
  rw [Expr.value, updateValue, placeOr]
  by_cases ht : argument.isTarget
  · rw [if_pos ht, bind_map_left]
    refine .partPlace { s with phase := 1 } rfl rfl rfl nofun (by simp [s, stepExpr, evalUpdate, ht]) hargument ht
      fun r h id => ?_
    refine .conclude rfl rfl nofun ?_
    cases hr : RuleM.readRef h r with
    | error t => simpa [s, State.receiveRef, stepExpr, evalUpdate, hr] using .raise t h rfl
    | ok v =>
      simp only [s, stepExpr, evalUpdate, State.receiveRef, Nat.succ_ne_self, ↓reduceIte, hr, bind_run, get_run,
        read_run, write_run, orRaise_run, RuleM.bind_run, RuleM.top_run, RuleM.heap_run, RuleM.getRef_run,
        RuleM.putRef_run, RuleM.orRaise_run]
      generalize RuleM.writeRef h r _ = w
      cases w with
      | error t => exact .raise t h rfl
      | ok h' => exact .give _ h' _
  · rw [if_neg ht, bind_assoc]
    simp only [pure_bind]
    refine .part { s with phase := 1 } rfl rfl rfl nofun (by simp [s, stepExpr, evalUpdate, ht]) hargument
      fun v h id => ?_
    exact .raise { s with phase := 1, value := v, hasValue := true } rfl rfl rfl nofun
      (by simp [s, stepExpr, evalUpdate, State.receive])

theorem assigned_run (op : AssignOp) (v : Value) (f : Frame) :
    assigned op v f = RuleM.orRaise (assignedValue f.heap op f.top.left v) f := by
  cases op <;> simp [assigned, assignedValue]

/-- An assignment that has its place and its right side. -/
theorem assign_end {op : AssignOp} {left right : Expr} {r : Reference} {old v : Value}
    (hs : s.node = .expr (.assign l op left right)) (hphase : s.phase = 2) (href : s.ref = some r) (hold : s.left = old)
    (hv : s.value = v) :
    Concludes (.expr (.assign l op left right))
      ((do
        let v ← orRaise (.expr (.assign l op left right)) (assignedValue (← get) op old v)
        write (.expr (.assign l op left right)) r v
        return v : EvalM Value) h)
      (stepExpr c below (.assign l op left right) ⟨s, h⟩) := by
  subst hold hv
  simp only [stepExpr, evalAssign, RuleM.bind_run, RuleM.top_run, hphase, RuleM.take_run, assigned_run]
  cases hv : assignedValue h op s.left s.value with
  | error t => simpa [hv] using .raise t h hs
  | ok v =>
    cases hw : RuleM.writeRef h r v with
    | error t => simpa [hv, href, hw] using .raise t h hs
    | ok h' => simpa [hv, href, hw] using .give v h' _

theorem assign {op : AssignOp} {left right : Expr} (hleft : Computed c world left) (hright : Computed c world right)
    (he : c.resolve (.expr (.assign l op left right)) = .expr (.assign l op left right)) :
    Computed c world (.assign l op left right) := by
  refine of_value he nofun fun global h id parent below scope => ?_
  let s : State := { id, node := .expr (.assign l op left right), scope }
  rw [Expr.value, assignValue, placeOr]
  by_cases ht : left.isTarget
  · rw [if_pos ht, bind_map_left]
    refine .partPlace { s with phase := 1 } rfl rfl rfl nofun (by simp [s, stepExpr, evalAssign, ht]) hleft ht
      fun r h id => ?_
    dsimp only
    rw [bind_run]
    unfold oldValue
    by_cases hop : op = .plain
    · rw [if_pos hop]
      refine .part { s with phase := 2, ref := some r } rfl rfl rfl nofun
        (by simp [s, stepExpr, evalAssign, State.receiveRef, hop]) hright fun v h id => ?_
      exact .conclude rfl rfl nofun (assign_end rfl rfl rfl rfl rfl)
    · rw [if_neg hop, read_run]
      cases hr : RuleM.readRef h r with
      | error t =>
        exact .raise { s with phase := 1, ref := some r } rfl rfl rfl nofun
          (by simp [s, stepExpr, evalAssign, State.receiveRef, hop, hr])
      | ok old =>
        refine .part { s with phase := 2, ref := some r, left := old } rfl rfl rfl nofun
          (by simp [s, stepExpr, evalAssign, State.receiveRef, hop, hr]) hright fun v h id => ?_
        exact .conclude rfl rfl nofun (assign_end rfl rfl rfl rfl rfl)
  · rw [if_neg ht, bind_assoc]
    simp only [pure_bind]
    refine .part { s with phase := 1 } rfl rfl rfl nofun (by simp [s, stepExpr, evalAssign, ht]) hleft
      fun v h id => ?_
    exact .raise { s with phase := 1, value := v } rfl rfl rfl nofun
      (by simp [s, stepExpr, evalAssign, State.receive])

/-- A sequence from some expression on. -/
theorem lastValue {expressions : List Expr} (hall : ∀ e ∈ expressions, Computed c world e) {s : State}
    (hs : s.node = .expr (.sequence l expressions)) (es : List Expr) :
    ∀ (i : Nat) (v : Value) (b : Bool) global h id parent below, expressions.drop i = es →
      Computes c world ⟨global, h, { s with n := i, value := v, hasValue := b } :: parent :: below, id⟩
        (parent :: below) (lastValue s.scope v es h) fun v => parent.receive v :: below := by
  induction es with
  | nil =>
    intro i v b global h id parent below hi
    have hend : expressions[i]? = none := List.getElem?_eq_none_iff.2 (List.drop_eq_nil_iff.1 hi)
    exact .give rfl hs (by simp [stepExpr, evalSequence, hend]; rfl)
  | cons e es ih =>
    intro i v b global h id parent below hi
    obtain ⟨hnext, hrest, hmem⟩ := getElem?_of_drop hi
    refine .part { s with n := i + 1, value := v, hasValue := b } rfl hs hs nofun
      (by simp [stepExpr, evalSequence, hnext]) (hall e hmem) fun v h id => ?_
    exact ih (i + 1) v true _ _ _ _ _ hrest

theorem sequence {expressions : List Expr} (hall : ∀ e ∈ expressions, Computed c world e)
    (he : c.resolve (.expr (.sequence l expressions)) = .expr (.sequence l expressions)) :
    Computed c world (.sequence l expressions) := by
  refine of_value he nofun fun global h id parent below scope => ?_
  rw [Expr.value]
  exact lastValue hall (s := { id, node := .expr (.sequence l expressions), scope }) rfl expressions 0 .undefined false
    _ _ _ _ _ rfl

/-- A state of a literal that has gathered some values, the last of them perhaps in its hands. -/
def Gathered (t : State) (i : Nat) (vs : List Value) : Prop :=
  ∃ u : State, (∀ h, keepElement ⟨t, h⟩ = .ok () ⟨u, h⟩) ∧ u.node = t.node ∧ u.scope = t.scope ∧ u.n = i ∧ u.values = vs

theorem Gathered.receive {u : State} (v : Value) : Gathered (u.receive v) (u.n + 1) (u.values ++ [v]) :=
  ⟨{ u with n := u.n + 1, values := u.values ++ [v], value := v, hasValue := false },
    fun h => by simp [keepElement, State.receive], rfl, rfl, rfl, rfl⟩

theorem Gathered.start {t : State} (ht : t.hasValue = false) : Gathered t t.n t.values :=
  ⟨t, fun h => by simp [keepElement, ht], rfl, rfl, rfl, rfl⟩

/-- An object literal from some property on, after some values. -/
theorem propertyValues {properties : List Property} (hall : ∀ p ∈ properties, Computed c world p.value)
    {scope : ObjectId} (ps : List Property) :
    ∀ (t : State) (i : Nat) (vs : List Value) global h id parent below, properties.drop i = ps → Gathered t i vs →
      t.node = .expr (.object l properties) → t.scope = scope →
      Computes c world ⟨global, h, t :: parent :: below, id⟩ (parent :: below)
        ((do
          let ws ← propertyValues scope (.expr (.object l properties)) ps
          return .object (← onHeap (·.newRecord ((properties.map (·.name.key)).zip (vs ++ ws)))) : EvalM Value) h)
        fun v => parent.receive v :: below := by
  induction ps with
  | nil =>
    rintro t i vs global h id parent below hi ⟨u, hkeep, hnode, hscope', rfl, rfl⟩ hn rfl
    have hend : properties[u.n]? = none := List.getElem?_eq_none_iff.2 (List.drop_eq_nil_iff.1 hi)
    simp only [Stepwise.propertyValues, List.append_nil, bind_run, onHeap_run, pure_run]
    exact .give rfl hn (by simp [stepExpr, evalObject, hkeep, hend]; rfl)
  | cons p ps ih =>
    rintro t i vs global h id parent below hi ⟨u, hkeep, hnode, hscope', rfl, rfl⟩ hn rfl
    obtain ⟨hnext, hrest, hmem⟩ := getElem?_of_drop hi
    obtain ⟨pl, name, value, kind⟩ := p
    rw [Stepwise.propertyValues, Stepwise.propertyValue]
    by_cases hkind : kind = .init
    · rw [if_pos hkind, bind_assoc]
      refine .part u rfl hn (hnode.trans hn) nofun
        (by simp [stepExpr, evalObject, hkeep, hnext, hkind, hscope']) (hall _ hmem) fun v h id => ?_
      have hgoal := ih (u.receive v) (u.n + 1) (u.values ++ [v]) global h id parent below hrest (.receive v)
        (hnode.trans hn) hscope'
      simp only [bind_assoc, pure_bind]
      simp only [List.append_assoc, List.singleton_append] at hgoal
      exact hgoal
    · rw [if_neg hkind]
      exact .raise u rfl hn (hnode.trans hn) nofun (by simp [stepExpr, evalObject, hkeep, hnext, hkind])

theorem object {properties : List Property} (hall : ∀ p ∈ properties, Computed c world p.value)
    (he : c.resolve (.expr (.object l properties)) = .expr (.object l properties)) :
    Computed c world (.object l properties) := by
  refine of_value he nofun fun global h id parent below scope => ?_
  rw [Expr.value]
  exact propertyValues hall properties { id, node := .expr (.object l properties), scope } 0 [] _ _ _ _ _ rfl
    (.start rfl) rfl rfl

theorem elementValues_append (scope : ObjectId) (es es' : List (Option Expr)) :
    Stepwise.elementValues scope (es ++ es') = (do
      let vs ← Stepwise.elementValues scope es
      return vs ++ (← Stepwise.elementValues scope es')) := by
  induction es with
  | nil => simp [Stepwise.elementValues]
  | cons e es ih => simp [Stepwise.elementValues, ih]

theorem elementValues_replicate (scope : ObjectId) (n : Nat) :
    Stepwise.elementValues scope (List.replicate n none) = pure (List.replicate n .undefined) := by
  induction n with
  | zero => rfl
  | succ n ih => simp [List.replicate_succ, Stepwise.elementValues, Stepwise.elementValue, ih]

/-- The holes at the front of some elements. -/
theorem eq_holes_append (es : List (Option Expr)) :
    es = List.replicate (es.takeWhile Option.isNone).length none ∨
      ∃ e rest, es = List.replicate (es.takeWhile Option.isNone).length none ++ some e :: rest := by
  induction es with
  | nil => exact .inl rfl
  | cons e es ih =>
    cases e with
    | some e => exact .inr ⟨e, es, rfl⟩
    | none =>
      rw [List.takeWhile_cons_of_pos rfl, List.length_cons, List.replicate_succ]
      rcases ih with ih | ⟨e, rest, ih⟩
      · exact .inl (congrArg _ ih)
      · exact .inr ⟨e, rest, congrArg _ ih⟩

/-- What the rule of an array literal does once it has kept its last element: it fills the holes, and goes on with
the next element or ends. -/
theorem evalArray_run {elements : List (Option Expr)} {t u : State} {holes : Nat}
    (hkeep : keepElement ⟨t, h⟩ = .ok () ⟨u, h⟩)
    (hholes : ((elements.drop u.n).takeWhile Option.isNone).length = holes) :
    evalArray elements ⟨t, h⟩ =
      let u' : State := { u with n := u.n + holes, values := u.values ++ List.replicate holes .undefined }
      match (elements.drop u.n)[holes]? with
      | some (some e) => .ok (.push (.expr e) u.scope false []) ⟨u', h⟩
      | _ =>
        let array := h.newArray u'.values.toArray
        .ok (.give (.object array.1)) ⟨u', array.2⟩ := by
  subst hholes
  unfold evalArray
  rw [RuleM.bind_run, hkeep]
  dsimp only
  rw [RuleM.bind_run, RuleM.top_run]
  dsimp only
  rw [RuleM.bind_run, RuleM.modifyTop_run]
  rcases (elements.drop u.n)[((elements.drop u.n).takeWhile Option.isNone).length]? with _ | _ | e <;> rfl

/-- An array literal from some element on, after some values. -/
theorem elementValues {elements : List (Option Expr)} (hall : ∀ e, some e ∈ elements → Computed c world e)
    {scope : ObjectId} (n : Nat) :
    ∀ (t : State) (i : Nat) (vs : List Value) global h id parent below, (elements.drop i).length < n → Gathered t i vs →
      t.node = .expr (.array l elements) → t.scope = scope →
      Computes c world ⟨global, h, t :: parent :: below, id⟩ (parent :: below)
        ((do
          let ws ← elementValues scope (elements.drop i)
          return .object (← onHeap (·.newArray (vs ++ ws).toArray)) : EvalM Value) h)
        fun v => parent.receive v :: below := by
  induction n with
  | zero => exact fun _ _ _ _ _ _ _ _ hn => absurd hn (Nat.not_lt_zero _)
  | succ n ih =>
    rintro t i vs global h id parent below hn ⟨u, hkeep, hnode, hscope', rfl, rfl⟩ ht hscope
    obtain rfl := hscope'.trans hscope
    generalize hholes : ((elements.drop u.n).takeWhile Option.isNone).length = holes
    have hrule := evalArray_run (hkeep h) hholes
    have hsplit := eq_holes_append (elements.drop u.n)
    rw [hholes] at hsplit
    rcases hsplit with hdrop | ⟨e, rest, hdrop⟩
    · rw [hdrop, List.getElem?_eq_none_iff.2 (Nat.le_of_eq List.length_replicate)] at hrule
      rw [hdrop, elementValues_replicate, pure_bind, bind_run, onHeap_run]
      exact .give rfl ht hrule
    · rw [hdrop, List.getElem?_append_right (Nat.le_of_eq List.length_replicate), List.length_replicate,
        Nat.sub_self] at hrule
      have hnext : elements.drop (u.n + holes) = some e :: rest := by
        rw [← List.drop_drop, hdrop, List.drop_left' (List.length_replicate)]
      obtain ⟨-, hrest, hmem⟩ := getElem?_of_drop hnext
      have hless : rest.length < n := by
        rw [hdrop, List.length_append, List.length_cons] at hn
        omega
      let u' : State := { u with n := u.n + holes, values := u.values ++ List.replicate holes .undefined }
      rw [hdrop, elementValues_append, elementValues_replicate]
      simp only [Stepwise.elementValues, Stepwise.elementValue, bind_assoc, pure_bind]
      refine .part u' rfl ht (hnode.trans ht) nofun hrule (hall e hmem) fun v h id => ?_
      have hgoal := ih (u'.receive v) (u'.n + 1) (u'.values ++ [v]) global h id parent below (by rwa [hrest])
        (.receive v) (hnode.trans ht) rfl
      rw [hrest] at hgoal
      simp only [u', List.append_assoc, List.singleton_append] at hgoal
      exact hgoal

theorem array {elements : List (Option Expr)} (hall : ∀ e, some e ∈ elements → Computed c world e)
    (he : c.resolve (.expr (.array l elements)) = .expr (.array l elements)) :
    Computed c world (.array l elements) := by
  refine of_value he nofun fun global h id parent below scope => ?_
  rw [Expr.value]
  exact elementValues hall (elements.length + 1) { id, node := .expr (.array l elements), scope } 0 [] _ _ _ _ _
    (Nat.lt_succ_self _) (.start rfl) rfl rfl

end Computed

/-- Every expression without calls is computed. -/
theorem computed_of_callFree (hc : c.IsRead) (hsize : c.program.nodes.length < 2 ^ 24) (world : ω) {n : Node}
    (hn : n ∈ c.library.nodes ∨ n ∈ c.program.nodes) (hcalls : n.CallFree) :
    ∀ e, n = .expr e → Computed c world e := by
  induction hcalls with
  | @mk n hcall _ ih =>
    rintro e rfl
    have he : c.resolve (.expr e) = .expr e := hc.resolve_of_mem hsize hn
    have hpart {part : Expr} (hp : .expr part ∈ (Node.expr e).operands) : Computed c world part :=
      ih _ hp (Setting.IsRead.mem_of_part hn (Node.part_of_operand hp)) part rfl
    cases e with
    | identifier => exact .identifier he
    | number | string | boolean | null => exact .of_give (fun _ _ => _) he nofun (fun _ _ => rfl) fun _ _ _ => rfl
    | regexp => exact .regexp he
    | this => exact .this he
    | array l elements => exact .array (fun e h => hpart (by simpa [Node.operands] using h)) he
    | object l properties =>
      exact .object (fun p h => hpart (List.mem_map_of_mem h)) he
    | function => exact .function he
    | unary => exact .unary hpart he
    | update => exact .update (hpart (by simp [Node.operands])) he
    | binary => exact .binary (hpart (by simp [Node.operands])) (hpart (by simp [Node.operands])) he
    | logical => exact .logical (hpart (by simp [Node.operands])) (hpart (by simp [Node.operands])) he
    | assign => exact .assign (hpart (by simp [Node.operands])) (hpart (by simp [Node.operands])) he
    | conditional =>
      exact .conditional (hpart (by simp [Node.operands])) (hpart (by simp [Node.operands]))
        (hpart (by simp [Node.operands])) he
    | call | new => exact absurd rfl hcall
    | member => exact .member (hpart (by simp [Node.operands])) he
    | index => exact .index (hpart (by simp [Node.operands])) (hpart (by simp [Node.operands])) he
    | sequence l expressions => exact .sequence (fun e h => hpart (List.mem_map_of_mem h)) he

/-- Starting an expression without calls leads to what recursion computes, after finitely many steps, unless the
stack grows too high before the expression ends: the state below gets its value or its place and nothing else of it
changes, nor do the states below that; or the exception is raised. The heap is that of the recursion. -/
theorem push_evaluates {source text : String} {program : Program} {host : List (HostFunction ω)} {maxDepth : Nat}
    {draws : Nat → Float}
    (hp : Program.ofSource source = .ok program) (hsize : program.nodes.length < 2 ^ 24) {e : Expr}
    (he : .expr e ∈ program.nodes) (hcalls : (Node.expr e).CallFree) {m : Machine} {parent : State}
    {below : List State} (hm : m.stack = parent :: below) (scope : ObjectId) {components : Bool}
    (ht : components → e.isTarget) (world : ω) :
    let c := Setting.ofPrograms (Library.read text) program host maxDepth draws
    let start := m.push c (.expr e) scope components []
    (∃ n, (∀ k ≤ n, (parent :: below).length < (start.run c k world).machine.stack.length) ∧
        (start.run c (n + 1) world).outcome = .fault .stackOverflow ∧
        maxDepth < (start.run c (n + 1) world).machine.stack.length) ∨
      match e.deliver scope components m.heap with
      | .ok receive h =>
        ∃ n id, start.run c n world = ⟨.advanced, n, ⟨m.global, h, receive parent :: below, id⟩, world⟩
      | .error r h =>
        ∃ n above id, start.run c (n + 1) world =
          ⟨.exception (r.object h (parent :: below)).1, n,
            ⟨m.global, (r.object h (parent :: below)).2, above ++ parent :: below, id⟩, world⟩ := by
  intro c start
  have hc : c.IsRead := Setting.isRead_ofPrograms hp text host maxDepth draws
  have hcomputed := computed_of_callFree hc hsize world (.inr he) hcalls e rfl
  have hcomputes : start.Computes c world (parent :: below) (e.deliver scope components m.heap)
      fun receive => receive parent :: below := by
    unfold Expr.deliver
    cases components with
    | false =>
      rw [if_neg Bool.false_ne_true]
      exact .map (hcomputed.value m parent below scope hm)
    | true =>
      rw [if_pos rfl]
      exact .map (hcomputed.place m parent below scope (ht rfl) hm)
  rcases hcomputes with ⟨n, m', m'', hsteps, hfloor, hstep, hdepth⟩ | hends
  · have hrun := hsteps.run_stop hstep fun h => Outcome.noConfusion h
    exact .inl ⟨n, hsteps.floor_lt hfloor 0, by rw [hrun], by rw [hrun]; exact hdepth⟩
  · refine .inr ?_
    unfold Ends at hends
    cases hr : e.deliver scope components m.heap with
    | ok receive h =>
      rw [hr] at hends
      obtain ⟨n, id, hsteps⟩ := hends
      have hrun := hsteps.run 0 0
      rw [Nat.zero_add] at hrun
      exact ⟨n, id, hrun⟩
    | error r h =>
      rw [hr] at hends
      obtain ⟨n, m', above, id, hsteps, hstep⟩ := hends
      exact ⟨n, above, id, hsteps.run_stop hstep fun h => Outcome.noConfusion h⟩

/-- Whether a node assigns the sum of two texts to a name. -/
private def isTextSum : Node → Bool
  | .expr (.assign _ _ (.identifier _) (.binary _ _ (.string ..) (.string ..))) => true
  | _ => false

private theorem exists_of_isTextSum {n : Node} (h : isTextSum n) :
    ∃ e, n = .expr e ∧ (Node.expr e).CallFree := by
  unfold isTextSum at h
  split at h
  · have hleaf {leaf : Node} (hcall : ¬leaf.isCall) (hnone : leaf.operands = []) : leaf.CallFree :=
      ⟨hcall, by simp [hnone]⟩
    refine ⟨_, rfl, Bool.false_ne_true, List.forall_mem_cons.2 ⟨hleaf Bool.false_ne_true rfl, ?_⟩⟩
    refine List.forall_mem_singleton.2 ⟨Bool.false_ne_true, List.forall_mem_cons.2 ⟨hleaf Bool.false_ne_true rfl, ?_⟩⟩
    exact List.forall_mem_singleton.2 (hleaf Bool.false_ne_true rfl)
  · cases h

/-- Whether an expression delivers a text to the only state of a stack. -/
private def delivers (text : String) (n : Node) (m : Machine) : Bool :=
  match n, m.stack with
  | .expr e, [parent] =>
    match e.deliver m.global false m.heap with
    | .ok receive _ =>
      match (receive parent).value with
      | .string s => s == text
      | _ => false
    | .error .. => false
  | _, _ => false

private theorem exists_of_delivers {text : String} {e : Expr} {m : Machine} (h : delivers text (.expr e) m) :
    ∃ parent receive after, m.stack = [parent] ∧ e.deliver m.global false m.heap = .ok receive after ∧
      (receive parent).value = .string text := by
  unfold delivers at h
  split at h
  · rename_i e' parent he hstack
    cases he
    split at h
    · rename_i receive after hdeliver
      split at h
      · rename_i s hs
        rw [eq_of_beq h] at hs
        exact ⟨parent, receive, after, hstack, hdeliver, hs⟩
      · cases h
    · cases h
  · cases h

/-- An assignment of a sum of two texts. -/
theorem push_evaluates_assign :
    ∃ (program : Program) (e : Expr) (m : Machine) (parent : State),
      let c := Setting.ofPrograms (Library.read "") program ([] : List (HostFunction Unit)) Setting.defaultDepth Setting.zeros
      let start := m.push c (.expr e) m.global false []
      Program.ofSource "var x; x = 'a' + 'b';" = .ok program ∧ program.nodes.length < 2 ^ 24 ∧
        .expr e ∈ program.nodes ∧ (Node.expr e).CallFree ∧ m.stack = [parent] ∧
        ∃ receive h, e.deliver m.global false m.heap = .ok receive h ∧ (receive parent).value = .string "ab" ∧
          ((∃ n, (start.run c (n + 1) ()).outcome = .fault .stackOverflow) ∨
            ∃ n id, start.run c n () = ⟨.advanced, n, ⟨m.global, h, [receive parent], id⟩, ()⟩) := by
  let source := "var x; x = 'a' + 'b';"
  let program := (Program.ofSource source).toOption.getD default
  let c := Setting.ofPrograms (Library.read "") program ([] : List (HostFunction Unit)) Setting.defaultDepth Setting.zeros
  have hp : Program.ofSource source = .ok program := eq_ok_of_isSome (by decide +kernel)
  have hsize : program.nodes.length < 2 ^ 24 := by decide +kernel
  have hrun : (program.nodes.find? isTextSum).any
      fun n => (Machine.start c).toOption.any (delivers "ab" n) := by decide +kernel
  obtain ⟨n, hn, hrun⟩ := (Option.any_eq_true _ _).1 hrun
  have hmem := List.mem_of_find?_eq_some hn
  obtain ⟨e, rfl, hcalls⟩ := exists_of_isTextSum (List.find?_some hn)
  obtain ⟨m, hm, hrun⟩ := (Option.any_eq_true _ _).1 hrun
  obtain ⟨parent, receive, h, hstack, hdeliver, htext⟩ := exists_of_delivers hrun
  have hall := @push_evaluates Unit source "" program [] Setting.defaultDepth Setting.zeros hp hsize e hmem hcalls m parent []
    hstack m.global false Bool.noConfusion ()
  refine ⟨program, e, m, parent, hp, hsize, hmem, hcalls, hstack, receive, h, hdeliver, htext, ?_⟩
  refine hall.imp (fun ⟨n, _, hfault, _⟩ => ⟨n, hfault⟩) fun hends => ?_
  rwa [hdeliver] at hends

end Machine

end Stepwise

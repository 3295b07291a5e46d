import Mathlib.Algebra.Order.Ring.Nat
import Mathlib.Data.Prod.Lex
import Mathlib.Order.WellFounded
import Stepwise.Proofs.Machine.Await

/-!
# What is left of a node

Between two states of interest a node can only go on for so long.

* `Node.rest`: a bound on the steps of a state that start neither an expression nor a statement that does something.
* `Node.isBare`: a loop without a test and an update, whose body is empty. Nothing bounds its steps.
* `stepNode_rest`: every other quiet step takes something from what is left.
-/

namespace Stepwise

open RuleM

/-- Whether a statement is empty. -/
def Stmt.isEmpty : Stmt → Bool
  | .empty _ => true
  | _ => false

namespace Node

/-- Whether a node is an empty statement. -/
def isEmpty : Node → Bool
  | stmt s => s.isEmpty
  | _ => false

theorem exists_of_isEmpty {n : Node} (h : n.isEmpty) : ∃ l, n = .stmt (.empty l) := by
  unfold isEmpty Stmt.isEmpty at h
  split at h
  · split at h
    · exact ⟨_, rfl⟩
    · cases h
  · cases h

/-- Whether a node is a loop without a test and an update whose body is empty. -/
def isBare : Node → Bool
  | stmt (.for_ _ _ none none body) => body.isEmpty
  | _ => false

end Node

/-- How many statements are left in some cases, from a statement of the first on. -/
def statementsLeft (m : Nat) : List SwitchCase → Nat
  | [] => 0
  | c :: rest => c.body.length - m + (rest.map (·.body.length)).sum

/-- What is left of a `for` loop, up to the next test or update. A loop without either comes to its body. -/
def forLeft (test update : Option Expr) (phase : Nat) : Nat :=
  match test with
  | some _ => if phase = 1 then 0 else if phase = 2 then 2 else 1
  | none =>
    if phase = 0 then 2
    else if phase = 1 ∨ phase = 2 then (if update.isSome then 1 else 0)
    else if update.isSome then 0 else 1

/-- What is left of a node for a state. A loop over keys first finds its keys, and a `switch` its case. -/
def Node.rest (n : Node) (s : State) : ℕ ×ₗ ℕ :=
  match n with
  | .program p => toLex (0, p.body.length - s.n)
  | .stmt (.block b) => toLex (0, b.body.length - s.n)
  | .stmt (.if_ ..) => toLex (0, 2 - s.phase)
  | .stmt (.labeled ..) => toLex (0, 1 - s.phase)
  | .stmt (.while_ ..) => toLex (0, s.phase)
  | .stmt (.doWhile ..) => toLex (0, if s.phase = 1 then 0 else 1)
  | .stmt (.for_ _ _ test update body) =>
    if test.isNone && update.isNone && body.isEmpty then toLex (0, 0) else toLex (0, forLeft test update s.phase)
  | .stmt (.forIn ..) => if s.phase ∈ [0, 1, 3] then toLex (1, 0) else toLex (0, s.keys.length - s.n)
  | .stmt (.switch _ _ cases) => if s.phase ≤ 3 then toLex (1, 0) else toLex (0, statementsLeft s.m (cases.drop s.n))
  | .expr (.call ..) | .expr (.new ..) => toLex (0, CallPhase.body - s.phase)
  | _ => toLex (0, 0)

/-- A move that leaves the state in its place and starts nothing but an empty statement, or the body of the function
that a call calls. -/
def Move.IsQuiet (n : Node) : Move → Prop
  | .stay => True
  | .push (.stmt s) _ _ _ => n.isCall ∨ s.isEmpty
  | _ => False

/-- A rule takes something from what is left of its node if its move is quiet. -/
def RuleM.Nears (r : RuleM Move) (n : Node) (f : Frame) : Prop :=
  r.wp (fun mv f' => mv.IsQuiet n → n.rest f'.top < n.rest f.top) (fun _ _ => True) f

variable {ω : Type} {c : Setting ω} {below : List State} {f : Frame} {n : Node}

theorem lex_lt_of_snd {β : Type} [Preorder β] {a : ℕ} {b b' : β} (h : b < b') : toLex (a, b) < toLex (a, b') :=
  Prod.Lex.toLex_lt_toLex.2 (.inr ⟨rfl, h⟩)

theorem lex_lt_of_fst {β : Type} [Preorder β] {a a' : ℕ} (h : a < a') (b b' : β) : toLex (a, b) < toLex (a', b') :=
  Prod.Lex.toLex_lt_toLex.2 (.inl h)

/-- A rule that never makes a quiet move. -/
def RuleM.Loud (r : RuleM Move) (n : Node) : Prop := ∀ f, r.wp (fun mv _ => ¬mv.IsQuiet n) (fun _ _ => True) f

theorem RuleM.Loud.nears {r : RuleM Move} (h : r.Loud n) : r.Nears n f :=
  (h f).mono (fun _ _ hq h => absurd h hq) fun _ _ _ => trivial

theorem stepBody_nears {body : List Stmt} {last : Move} (hlast : last.IsQuiet n → f.top.n < body.length)
    (hrest : ∀ s, n.rest s = toLex (0, body.length - s.n)) : (stepBody body last).Nears n f := by
  refine wp_bind (wp_top ?_)
  split
  · rename_i s hs
    have hlt : f.top.n < body.length := (List.getElem?_eq_some_iff.1 hs).1
    refine wp_bind (wp_modifyTop (wp_bind (wp_top fun _ => ?_)))
    rw [hrest, hrest]
    exact lex_lt_of_snd (by dsimp only; omega)
  · rename_i hnone
    exact fun hq => absurd (hlast hq) (Nat.not_lt.2 (List.getElem?_eq_none_iff.1 hnone))

/-- What starts an expression is not quiet. -/
theorem pushExpr_loud (e : Expr) : (pushExpr e).Loud n := fun _ => wp_bind (wp_top nofun)

theorem stepExpression_loud (e : Expr) : (stepExpression e).Loud n := by
  refine fun f => wp_bind (wp_top ?_)
  split
  · exact wp_bind (wp_modifyTop (pushExpr_loud e _))
  · exact nofun

theorem stepDeclarators_loud (rest : List Declarator) : (stepDeclarators rest).Loud n := by
  refine fun f => wp_bind (wp_modifyTop ?_)
  split
  · exact wp_bind (wp_modifyTop (pushExpr_loud _ _))
  · exact nofun

theorem stepVar_loud (declarators : List Declarator) : (stepVar declarators).Loud n := by
  refine fun f => wp_bind (wp_top ?_)
  split
  · refine wp_bind (wp_top ?_)
    split
    · exact wp_bind (wp_of_forall fun _ _ => wp_bind (wp_of_forall fun _ _ => wp_bind (wp_modifyTop (wp_bind (wp_top
        (stepDeclarators_loud _ _))))))
    · exact wp_bind (wp_modifyTop (wp_bind (wp_top (stepDeclarators_loud _ _))))
  · exact wp_bind (wp_top (stepDeclarators_loud _ _))

theorem stepReturn_loud (argument : Option Expr) : (stepReturn argument).Loud n := by
  refine fun f => wp_bind (wp_top ?_)
  split
  · exact wp_bind (wp_modifyTop (pushExpr_loud _ _))
  · exact nofun

theorem stepThrow_loud (argument : Expr) : (stepThrow argument).Loud n := by
  refine fun f => wp_bind (wp_top ?_)
  split
  · trivial
  · exact wp_bind (wp_modifyTop (pushExpr_loud _ _))

/-- Starting a statement takes something from what is left. -/
theorem pushStmt_nears {s : State} {b : Stmt} (h : n.rest f.top < n.rest s) :
    (pushStmt b).wp (fun mv f' => mv.IsQuiet n → n.rest f'.top < n.rest s) (fun _ _ => True) f :=
  wp_bind (wp_top fun _ => h)

/-- What starts an expression goes on with something else. -/
theorem pushExpr_nears {s : State} (e : Expr) :
    (pushExpr e).wp (fun mv f' => mv.IsQuiet n → n.rest f'.top < n.rest s) (fun _ _ => True) f :=
  (pushExpr_loud e f).mono (fun _ _ hq h => absurd h hq) fun _ _ _ => trivial

theorem stepIf_nears {l : Loc} (test : Expr) (consequent : Stmt) (alternate : Option Stmt) :
    (stepIf test consequent alternate).Nears (.stmt (.if_ l test consequent alternate)) f := by
  have hlt (v : Bool) (hp : f.top.phase = 1) : (Node.stmt (.if_ l test consequent alternate)).rest
      { f.top with phase := 2, hasValue := v } < (Node.stmt (.if_ l test consequent alternate)).rest f.top :=
    lex_lt_of_snd (show 2 - 2 < 2 - f.top.phase by omega)
  refine wp_bind (wp_top ?_)
  split
  · exact wp_bind (wp_modifyTop (wp_bind (wp_top nofun)))
  · refine wp_bind (wp_modifyTop (wp_bind (wp_take ?_)))
    split
    · exact pushStmt_nears (hlt false ‹_›)
    · split
      · exact pushStmt_nears (hlt false ‹_›)
      · exact fun _ => hlt false ‹_›
  · exact nofun

theorem stepLabeled_nears {l : Loc} (label : Identifier) (body : Stmt) :
    (stepLabeled label.name body).Nears (.stmt (.labeled l label body)) f := by
  refine wp_bind (wp_top ?_)
  split
  · rename_i hp
    exact wp_bind (wp_modifyTop fun _ => lex_lt_of_snd (show 1 - 1 < 1 - f.top.phase by omega))
  · exact nofun

theorem stepWhile_nears {l : Loc} (test : Expr) (body : Stmt) :
    (stepWhile test body).Nears (.stmt (.while_ l test body)) f := by
  refine wp_bind (wp_top ?_)
  split
  · exact wp_bind (wp_modifyTop (wp_bind (wp_top nofun)))
  · rename_i hp
    refine wp_bind (wp_take ?_)
    split
    · exact wp_bind (wp_modifyTop (pushStmt_nears (lex_lt_of_snd (Nat.pos_of_ne_zero hp))))
    · exact nofun

theorem stepDoWhile_nears {l : Loc} (body : Stmt) (test : Expr) :
    (stepDoWhile body test).Nears (.stmt (.doWhile l body test)) f := by
  have hlt (hp : f.top.phase ≠ 1) : 0 < if f.top.phase = 1 then 0 else 1 := by
    rw [if_neg hp]
    exact Nat.one_pos
  refine wp_bind (wp_top ?_)
  split
  · rename_i hp
    exact wp_bind (wp_modifyTop (pushStmt_nears (lex_lt_of_snd (hlt (by omega)))))
  · exact wp_bind (wp_modifyTop (wp_bind (wp_top nofun)))
  · refine wp_bind (wp_take ?_)
    split
    · exact wp_bind (wp_modifyTop (pushStmt_nears (lex_lt_of_snd (hlt ‹_›))))
    · exact nofun

theorem stepForTest_nears {body : Stmt} {r : ℕ ×ₗ ℕ} (hn : n.isCall = false)
    (h : body.isEmpty → ∀ s : State, s.phase = 3 → n.rest s < r) :
    (stepForTest body).wp (fun mv f' => mv.IsQuiet n → n.rest f'.top < r) (fun _ _ => True) f := by
  refine wp_bind (wp_take ?_)
  split
  · refine wp_bind (wp_modifyTop (wp_bind (wp_top fun hq => ?_)))
    rcases hq with hq | hq
    · rw [hn] at hq
      cases hq
    · exact h hq _ rfl
  · exact nofun

/-- A loop with a test or an update, or with a body that is not empty, comes to one of them. -/
theorem stepFor_nears {l : Loc} (init : Option ForHead) {test update : Option Expr} {body : Stmt}
    (hn : (Node.stmt (.for_ l init test update body)).isBare = false) :
    (stepFor init test update body).Nears (.stmt (.for_ l init test update body)) f := by
  have hbody (hb : body.isEmpty) : test.isSome ∨ update.isSome := by
    cases test <;> cases update <;> simp_all [Node.isBare]
  have hlt {s s' : State} (h : forLeft test update s.phase < forLeft test update s'.phase) :
      (Node.stmt (.for_ l init test update body)).rest s < (Node.stmt (.for_ l init test update body)).rest s' := by
    have hnot : ¬(test.isNone && update.isNone && body.isEmpty) := by
      cases test <;> cases update <;> simp_all [Node.isBare]
    unfold Node.rest
    dsimp only
    rw [if_neg hnot, if_neg hnot]
    exact lex_lt_of_snd h
  have hnext (hp : f.top.phase = 1 → test = none) (hp' : f.top.phase = 1 ∨ f.top.phase = 2) (hb : body.isEmpty) (s : State)
      (hs : s.phase = 3) : (Node.stmt (.for_ l init test update body)).rest s <
        (Node.stmt (.for_ l init test update body)).rest f.top := by
    refine hlt ?_
    rw [hs]
    have := hbody hb
    unfold forLeft
    rcases hp' with h | h <;> cases test <;> cases update <;> simp_all
  refine wp_bind (wp_top ?_)
  split
  · rename_i hp
    refine wp_bind (wp_modifyTop ?_)
    split
    · rename_i head
      cases head <;> exact wp_bind (wp_top nofun)
    · have hfirst : forLeft test update 1 < forLeft test update 0 := by
        cases test <;> cases update <;> simp [forLeft]
      exact fun _ => hlt (hp ▸ hfirst)
  · rename_i hp
    refine wp_bind (wp_modifyTop ?_)
    split
    · exact pushExpr_nears _
    · exact wp_bind (wp_modifyTop (stepForTest_nears rfl (hnext (fun _ => rfl) (.inl hp))))
  · rename_i hp
    exact stepForTest_nears rfl (hnext (fun h => by omega) (.inr hp))
  · rename_i h₀ h₁ h₂
    refine wp_bind (wp_modifyTop ?_)
    split
    · exact pushExpr_nears _
    · refine fun _ => hlt ?_
      unfold forLeft
      cases test <;> simp_all

theorem enterForIn_nears {l : Loc} (left : ForHead) (right : Expr) (body : Stmt) (hp : f.top.phase = 1) :
    enterForIn.Nears (.stmt (.forIn l left right body)) f := by
  have hlt (s : State) (hs : s.phase = 2) : (Node.stmt (.forIn l left right body)).rest s <
      (Node.stmt (.forIn l left right body)).rest f.top := by
    unfold Node.rest
    dsimp only
    rw [hs, hp, if_neg (by decide), if_pos (by decide)]
    exact lex_lt_of_fst Nat.one_pos _ _
  refine wp_bind (wp_take ?_)
  split
  · exact nofun
  · refine wp_bind (wp_heap ?_)
    split
    · exact fun _ => hlt _ rfl
    · exact fun _ => hlt _ rfl

/-- Every turn takes a key. -/
theorem nextForIn_nears {l : Loc} {left : ForHead} (right : Expr) {body : Stmt} (hp : f.top.phase ∉ [0, 1, 3]) :
    (nextForIn left body).Nears (.stmt (.forIn l left right body)) f := by
  have hlt (gone : ℕ) (h : gone < (f.top.keys.drop f.top.n).length) (s : State) (hs : s.phase = f.top.phase)
      (hkeys : s.keys = f.top.keys) (hsn : s.n = f.top.n + gone + 1) :
      (Node.stmt (.forIn l left right body)).rest s < (Node.stmt (.forIn l left right body)).rest f.top := by
    unfold Node.rest
    dsimp only
    rw [hs, if_neg hp, if_neg hp, hkeys, hsn]
    rw [List.length_drop] at h
    exact lex_lt_of_snd (by omega)
  refine wp_bind (wp_top (wp_bind (wp_heap (wp_bind (wp_modifyTop ?_)))))
  split
  · exact nofun
  · rename_i key hkey
    have hgone := (List.getElem?_eq_some_iff.1 hkey).1
    refine wp_bind (wp_modifyTop ?_)
    split
    · rename_i d
      cases hd : d.declarators with
      | nil => exact pushStmt_nears (hlt _ hgone _ rfl rfl rfl)
      | cons x rest => exact wp_bind (wp_bind (wp_assign_top fun h => pushStmt_nears (hlt _ hgone _ rfl rfl rfl)))
    · exact wp_bind (wp_assign_top fun h => pushStmt_nears (hlt _ hgone _ rfl rfl rfl))
    · exact wp_bind (wp_modifyTop (wp_bind (wp_top nofun)))

theorem storeForIn_nears {l : Loc} (left : ForHead) (right : Expr) {body : Stmt} (hp : f.top.phase = 3) :
    (storeForIn body).Nears (.stmt (.forIn l left right body)) f := by
  refine wp_bind (wp_top (wp_bind (wp_modifyTop ?_)))
  split
  · trivial
  · refine wp_bind (wp_putRef_top fun h => wp_bind (wp_modifyTop (pushStmt_nears ?_)))
    unfold Node.rest
    dsimp only
    rw [hp, if_neg (by decide), if_pos (by decide)]
    exact lex_lt_of_fst Nat.one_pos _ _

theorem stepForIn_nears {l : Loc} (left : ForHead) (right : Expr) (body : Stmt) :
    (stepForIn left right body).Nears (.stmt (.forIn l left right body)) f := by
  refine wp_bind (wp_top ?_)
  split
  · exact wp_bind (wp_modifyTop (wp_bind (wp_top nofun)))
  · exact enterForIn_nears left right body ‹_›
  · exact storeForIn_nears left right ‹_›
  · rename_i h₀ h₁ h₃
    refine nextForIn_nears right ?_
    simp only [List.mem_cons, List.not_mem_nil, or_false, not_or]
    exact ⟨h₀, h₁, h₃⟩

theorem statementsLeft_zero (cases : List SwitchCase) : statementsLeft 0 cases = (cases.map (·.body.length)).sum := by
  cases cases <;> rfl

/-- The cases from the current one on run the next statement that is left. -/
theorem runCases_nears {l : Loc} {discriminant : Expr} {cases rest : List SwitchCase} {r : ℕ ×ₗ ℕ}
    (hphase : 3 < f.top.phase) (hrest : rest = cases.drop f.top.n)
    (hr : toLex (0, statementsLeft f.top.m rest) ≤ r) :
    (runCases rest).wp (fun mv f' => mv.IsQuiet (.stmt (.switch l discriminant cases)) →
      (Node.stmt (.switch l discriminant cases)).rest f'.top < r) (fun _ _ => True) f := by
  induction rest generalizing f with
  | nil => exact nofun
  | cons c rest ih =>
    refine wp_bind (wp_top ?_)
    split
    · rename_i s hs
      have hlt : f.top.m < c.body.length := (List.getElem?_eq_some_iff.1 hs).1
      refine wp_bind (wp_modifyTop (wp_bind (wp_top fun _ => lt_of_lt_of_le ?_ hr)))
      unfold Node.rest
      dsimp only
      rw [if_neg (by omega), ← hrest]
      exact lex_lt_of_snd (by simp only [statementsLeft]; omega)
    · rename_i hnone
      have hle : c.body.length ≤ f.top.m := List.getElem?_eq_none_iff.1 hnone
      refine wp_bind (wp_modifyTop (ih hphase ?_ ?_))
      · dsimp only
        rw [← List.drop_drop, ← hrest]
        rfl
      · refine le_trans (le_of_eq ?_) hr
        rw [statementsLeft_zero, statementsLeft, Nat.sub_eq_zero_of_le hle, Nat.zero_add]

theorem searchCases_nears {l : Loc} {discriminant : Expr} {cases rest : List SwitchCase} {r : ℕ ×ₗ ℕ}
    (hr : toLex (1, 0) ≤ r) :
    (searchCases cases rest).wp (fun mv f' => mv.IsQuiet (.stmt (.switch l discriminant cases)) →
      (Node.stmt (.switch l discriminant cases)).rest f'.top < r) (fun _ _ => True) f := by
  have hle (b : ℕ) : toLex (0, b) ≤ r := le_trans (le_of_lt (lex_lt_of_fst Nat.one_pos b 0)) hr
  induction rest generalizing f with
  | nil =>
    refine wp_bind (wp_top ?_)
    split
    · exact nofun
    · exact wp_bind (wp_modifyTop (runCases_nears (show 3 < 4 by decide) rfl (hle _)))
  | cons c rest ih =>
    unfold searchCases
    split
    · exact wp_bind (wp_modifyTop ih)
    · exact wp_bind (wp_modifyTop (wp_bind (wp_top nofun)))

theorem stepSwitch_nears {l : Loc} (discriminant : Expr) (cases : List SwitchCase) :
    (stepSwitch discriminant cases).Nears (.stmt (.switch l discriminant cases)) f := by
  have hsearching (hp : f.top.phase ≤ 3) :
      toLex (1, 0) ≤ (Node.stmt (.switch l discriminant cases)).rest f.top := by
    unfold Node.rest
    dsimp only
    rw [if_pos hp]
  have hle (hp : f.top.phase ≤ 3) (b : ℕ) : toLex (0, b) ≤ (Node.stmt (.switch l discriminant cases)).rest f.top :=
    le_trans (le_of_lt (lex_lt_of_fst Nat.one_pos b 0)) (hsearching hp)
  refine wp_bind (wp_top ?_)
  split
  · exact wp_bind (wp_modifyTop (wp_bind (wp_top nofun)))
  · exact wp_bind (wp_take (wp_bind (wp_modifyTop (searchCases_nears (hsearching (by omega))))))
  · exact wp_bind (wp_top (searchCases_nears (hsearching (by omega))))
  · rename_i hp
    refine wp_bind (wp_top (wp_bind (wp_take ?_)))
    split
    · exact wp_bind (wp_modifyTop (wp_bind (wp_top (runCases_nears (show 3 < 4 by decide) rfl (hle hp.le _)))))
    · exact wp_bind (wp_modifyTop (wp_bind (wp_top (searchCases_nears (hsearching hp.le)))))
  · rename_i h₀ h₁ h₂ h₃
    have hp : 3 < f.top.phase := by
      have h₀ : f.top.phase ≠ 0 := h₀
      have h₁ : f.top.phase ≠ 1 := h₁
      have h₂ : f.top.phase ≠ 2 := h₂
      have h₃ : f.top.phase ≠ 3 := h₃
      omega
    refine wp_bind (wp_top (runCases_nears hp rfl ?_))
    unfold Node.rest
    dsimp only
    rw [if_neg (by omega)]

/-! ### Expressions -/

/-- A call whose function has run gives a value. -/
theorem stepCall_gives {callee : Expr} {args : List Expr} {construct : Bool} (hp : CallPhase.body ≤ f.top.phase) :
    (stepCall c below callee args construct).wp (fun mv _ => ∃ v, mv = .give v) (fun _ _ => True) f := by
  have hend (g : Frame) : (endCall construct).wp (fun mv _ => ∃ v, mv = .give v) (fun _ _ => True) g := by
    refine wp_bind ?_
    show (if construct && !g.top.value.isObject then _ else _ : RuleM Move).wp _ _ _
    split
    · exact ⟨_, rfl⟩
    · exact ⟨_, rfl⟩
  have hp : 4 ≤ f.top.phase := hp
  refine wp_bind (wp_top ?_)
  split
  · omega
  · omega
  · omega
  · omega
  · exact wp_bind (hend _)
  · exact hend f

/-- An expression starts no statement, unless it calls a function. Then it has come to the phase for that. -/
theorem stepExpr_nears (e : Expr) (hf : f.heap.Filed) : (stepExpr c below e).Nears (.expr e) f := by
  unfold Nears wp
  split
  · rename_i mv f' he
    obtain ⟨-, hstay⟩ := (stepExpr_answers e f).of_ok he
    obtain ⟨-, hfits⟩ := (stepNode_calls c below (.expr e) f hf).of_ok he
    intro hq
    cases mv with
    | stay => exact absurd rfl hstay
    | push node scope components labels =>
      cases node with
      | stmt s =>
        rcases hfits with ⟨hstarts, -⟩ | henters
        · cases Node.isExpr_of_operand rfl hstarts.operand
        · have hcall := henters.call
          have hphase : f.top.phase < CallPhase.body := by
            by_contra hge
            cases e with
            | call | new =>
              obtain ⟨v, hv⟩ := (stepCall_gives (Nat.not_lt.1 hge)).of_ok he
              cases hv
            | _ => cases hcall
          have hrest (t : State) : (Node.expr e).rest t = toLex (0, CallPhase.body - t.phase) := by
            cases e with
            | call | new => rfl
            | _ => cases hcall
          rw [hrest, hrest, henters.phase]
          exact lex_lt_of_snd (by omega)
      | _ => cases hq
    | _ => cases hq
  · trivial

/-! ### All nodes -/

/-- A quiet step takes something from what is left of its node, unless that is bare. A program that has not ended has a
statement left. -/
theorem stepNode_rest (c : Setting ω) (below : List State) (hf : f.heap.Filed) (hbare : f.top.node.isBare = false)
    (hend : ∀ p, f.top.node = .program p → f.top.n < p.body.length) :
    (stepNode c below f.top.node).Nears f.top.node f := by
  cases hn : f.top.node with
  | program p => exact stepBody_nears (fun _ => hend p hn) fun s => rfl
  | expr e => exact stepExpr_nears e hf
  | declarator | switchCase | catchClause | property => trivial
  | stmt s =>
    rw [hn] at hbare
    cases s with
    | block b => exact stepBody_nears nofun fun s => rfl
    | expression l e => exact (stepExpression_loud e).nears
    | var d => exact (stepVar_loud d.declarators).nears
    | function | empty | debugger | break_ | continue_ => exact nofun
    | if_ l test consequent alternate => exact stepIf_nears test consequent alternate
    | labeled l label body => exact stepLabeled_nears label body
    | while_ l test body => exact stepWhile_nears test body
    | doWhile l body test => exact stepDoWhile_nears body test
    | for_ l init test update body => exact stepFor_nears init hbare
    | forIn l left right body => exact stepForIn_nears left right body
    | switch l discriminant cases => exact stepSwitch_nears discriminant cases
    | return_ l argument => exact (stepReturn_loud argument).nears
    | throw l argument => exact (stepThrow_loud argument).nears
    | tryCatch | with_ => trivial

end Stepwise

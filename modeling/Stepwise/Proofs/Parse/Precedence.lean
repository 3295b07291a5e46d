import Stepwise.Proofs.Parse.AgreeProgram

/-!
# How operators group operands

Reading operands that are joined by operators groups them by how tightly the operators bind.

* `Grouping.Graded`: operators of the same kind group to the left, and an operator that binds more tightly stands below.
* `Grouping.Graded.unique`: a sequence of operands and operators has only one such grouping.
* `Grammar.Joins`: the operators and operands that follow a first operand in a stream.
* `Grammar.binaryExpression_groups`: reading takes all of them, and gives the expression of this grouping.
-/

namespace Stepwise

open Reader

theorem Connective.precedence_pos (op : Connective) : 0 < op.precedence := by
  cases op with
  | binary op => cases op <;> decide
  | logical op => cases op <;> decide

/-! ### Groupings -/

/-- A way to group operands that are joined by operators. -/
inductive Grouping where
  | operand (e : Expr)
  | node (op : Connective) (left right : Grouping)

namespace Grouping

/-- The first operand. -/
def first : Grouping → Expr
  | operand e => e
  | node _ left _ => left.first

/-- The operators in order, each with the operand behind it. -/
def rest : Grouping → List (Connective × Expr)
  | operand _ => []
  | node op left right => left.rest ++ (op, right.first) :: right.rest

/-- How tightly the operator at the root binds. -/
def root? : Grouping → Option Nat
  | operand _ => none
  | node op _ _ => some op.precedence

/-- Every operator binds at most as tightly as the one to the left below it, and less tightly than the one to the
right below it. -/
def Graded : Grouping → Prop
  | operand _ => True
  | node op left right => (∀ p ∈ left.root?, op.precedence ≤ p) ∧ (∀ p ∈ right.root?, op.precedence < p) ∧
    left.Graded ∧ right.Graded

/-- The expression of a grouping, wherever its nodes start and stop. -/
inductive Builds : Grouping → Expr → Prop where
  | operand (e : Expr) : Builds (operand e) e
  | binary {left right : Grouping} {a b : Expr} (op : BinaryOp) (loc : Loc) (ha : Builds left a) (hb : Builds right b) :
    Builds (node (.binary op) left right) (.binary loc op a b)
  | logical {left right : Grouping} {a b : Expr} (op : LogicalOp) (loc : Loc) (ha : Builds left a)
    (hb : Builds right b) : Builds (node (.logical op) left right) (.logical loc op a b)

variable {tree tree' left right left' right' : Grouping} {op op' : Connective} {a b : Expr}

theorem Builds.joined (ha : left.Builds a) (hb : right.Builds b) (loc : Loc) :
    (node op left right).Builds (Grammar.joined op loc a b) := by
  cases op with
  | binary op => exact .binary op loc ha hb
  | logical op => exact .logical op loc ha hb

namespace Graded

/-- No operator binds less tightly than the one at the root. -/
theorem le_of_mem {p : Nat} (h : tree.Graded) (hp : ∀ q ∈ tree.root?, p ≤ q) :
    ∀ x ∈ tree.rest, p ≤ x.1.precedence := by
  induction tree generalizing p with
  | operand e => exact fun x hx => absurd hx List.not_mem_nil
  | node op left right ihl ihr =>
    obtain ⟨hleft, hright, hl, hr⟩ := h
    have hop : p ≤ op.precedence := hp _ rfl
    intro x hx
    rcases List.mem_append.1 hx with hx | hx
    · exact ihl hl (fun q hq => hop.trans (hleft q hq)) x hx
    · rcases List.mem_cons.1 hx with rfl | hx
      · exact hop
      · exact ihr hr (fun q hq => hop.trans (Nat.le_of_lt (hright q hq))) x hx

/-- The root of a grouping does not stand before that of another one of the same sequence. -/
theorem eq_nil_of_rest {between : List (Connective × Expr)} (h : (node op left right).Graded)
    (h' : (node op' left' right').Graded) (hleft : left'.rest = left.rest ++ between)
    (hright : (op, right.first) :: right.rest = between ++ (op', right'.first) :: right'.rest) : between = [] := by
  cases between with
  | nil => rfl
  | cons x between =>
    obtain ⟨rfl, htail⟩ := List.cons.inj hright
    have hmem : (op, right.first) ∈ left'.rest := hleft ▸ List.mem_append_right _ List.mem_cons_self
    have hmem' : (op', right'.first) ∈ right.rest := htail ▸ List.mem_append_right _ List.mem_cons_self
    have hle : op'.precedence ≤ op.precedence := h'.2.2.1.le_of_mem h'.1 _ hmem
    have hlt : op.precedence + 1 ≤ op'.precedence := h.2.2.2.le_of_mem h.2.1 _ hmem'
    omega

/-- A sequence of operands and operators is graded in one way only. -/
theorem unique (h : tree.Graded) (h' : tree'.Graded) (hfirst : tree.first = tree'.first)
    (hrest : tree.rest = tree'.rest) : tree = tree' := by
  induction tree generalizing tree' with
  | operand e =>
    cases tree' with
    | operand e' => exact congrArg operand hfirst
    | node op' left' right' => simp [rest] at hrest
  | node op left right ihl ihr =>
    cases tree' with
    | operand e' => simp [rest] at hrest
    | node op' left' right' =>
      -- the roots are the same place of the sequence
      have hsame : left.rest = left'.rest ∧ (op, right.first) :: right.rest = (op', right'.first) :: right'.rest := by
        rcases List.append_eq_append_iff.1 hrest with ⟨between, hl, hr⟩ | ⟨between, hl, hr⟩
        · obtain rfl := h.eq_nil_of_rest h' hl hr
          exact ⟨by rw [hl, List.append_nil], hr⟩
        · obtain rfl := h'.eq_nil_of_rest h hl hr
          exact ⟨by rw [hl, List.append_nil], hr.symm⟩
      obtain ⟨hl, hroot⟩ := hsame
      obtain ⟨hroot, hr⟩ := List.cons.inj hroot
      obtain ⟨rfl, hrf⟩ := Prod.mk.inj hroot
      rw [ihl h.2.2.1 h'.2.2.1 hfirst hl, ihr h.2.2.2 h'.2.2.2 hrf hr]

end Graded

end Grouping

/-! ### Readers -/

namespace Reader

variable {α : Type} {r r' : Reader α} {s s' : Stream} {P : α → Stream → Prop} {a : α}

/-- Readers that agree come to the same from a stream that ends. -/
theorem Agrees.run_eq (h : r.Agrees r' s P) (hs : s.Ends) : r'.run s = r.run s := by
  obtain ⟨a, s', hrun, hrun', -⟩ := h hs
  exact hrun'.trans hrun.symm

theorem Agrees.of_returns (h : r.Agrees r' s P) (hs : s.Ends) (hr : r.Returns s a s') : s'.Ends ∧ P a s' := by
  obtain ⟨b, s₁, hrun, -, hends, -, hb⟩ := h hs
  obtain ⟨rfl, rfl⟩ := Prod.mk.inj (Option.some.inj (hrun.symm.trans hr.1))
  exact ⟨hends, hb⟩

end Reader

namespace Grammar

variable {g : Grammar} {ctx : Context} {s s' t u : Stream} {start : Position} {e left right : Expr} {op : Connective}
  {rest : List (Connective × Expr)} {least turns n m : Nat}

/-- The operators and operands that follow a first operand, up to a token that goes on with none. -/
inductive Joins (g : Grammar) (ctx : Context) : Stream → List (Connective × Expr) → Stream → Prop where
  | done {s : Stream} (hs : s.errors = []) (hop : Connective.ofToken? s.current.kind = none)
    (hk : s.current.kind ≠ .punctuator .power) : Joins g ctx s [] s
  | more {s s₁ s₂ t : Stream} {op : Connective} {e : Expr} {rest : List (Connective × Expr)}
    (hop : Connective.ofToken? s.current.kind = some op) (hadvance : advance.Returns s () s₁)
    (he : (g.unaryExpression ctx).Returns s₁ e s₂) (h : Joins g ctx s₂ rest t) : Joins g ctx s ((op, e) :: rest) t

/-- A first operand with the operators and operands that follow it, if there are fewer than `turns` operands. -/
def operands? (g : Grammar) (ctx : Context) : (turns : Nat) → Stream → Option (Expr × List (Connective × Expr))
  | 0, _ => none
  | turns + 1, s =>
    match (g.unaryExpression ctx).run s with
    | none => none
    | some (e, s) =>
      if s.errors ≠ [] then none
      else
        match Connective.ofToken? s.current.kind with
        | none => if s.current.kind = .punctuator .power then none else some (e, [])
        | some op =>
          match advance.run s with
          | none => none
          | some (_, s) =>
            if s.errors ≠ [] then none
            else (g.operands? ctx turns s).map fun (e', rest) => (e, (op, e') :: rest)

theorem joins_of_operands? (h : g.operands? ctx turns s = some (e, rest)) :
    ∃ s' t, (g.unaryExpression ctx).Returns s e s' ∧ g.Joins ctx s' rest t := by
  induction turns generalizing s e rest with
  | zero => cases h
  | succ turns ih =>
    unfold operands? at h
    split at h
    · cases h
    · next e' s' he =>
      split at h
      · cases h
      · next hs' =>
        have hs' : s'.errors = [] := not_not.1 hs'
        split at h
        · next hop =>
          split at h
          · cases h
          · cases h
            exact ⟨s', s', ⟨he, hs'⟩, .done hs' hop ‹_›⟩
        · next op hop =>
          split at h
          · cases h
          · next s₁ hadvance =>
            split at h
            · cases h
            · next hs₁ =>
              obtain ⟨⟨e₂, rest'⟩, hrest, h⟩ := Option.map_eq_some_iff.1 h
              cases h
              obtain ⟨s₂, t, he₂, hjoins⟩ := ih hrest
              exact ⟨s', t, ⟨he, hs'⟩, .more hop ⟨hadvance, not_not.1 hs₁⟩ he₂ hjoins⟩

/-! ### One turn -/

theorem returns_connective? (ctx : Context) (least : Nat) (hs : s.errors = []) (hk : s.current.kind ≠ .punctuator .power) :
    (connective? ctx least).Returns s (connectiveOf? ctx least s.current.kind) s := by
  have hno : (failIf (s.current.kind = .punctuator .power) (.unsupported .exponentiation)).Returns s () s := by
    rw [failIf, if_neg hk]
    exact ⟨rfl, hs⟩
  have hkind : kind.Returns s s.current.kind s := ⟨rfl, hs⟩
  exact hkind.bind (hno.bind ⟨rfl, hs⟩)

theorem connectiveOf?_of_some (hctx : ctx.noIn = false) (hop : Connective.ofToken? s.current.kind = some op) :
    connectiveOf? ctx least s.current.kind = if least < op.precedence then some op else none := by
  rw [connectiveOf?, if_neg (by simp [hctx]), hop, Option.filter_some]
  simp only [decide_eq_true_eq]

theorem connectiveOf?_of_none (hop : Connective.ofToken? s.current.kind = none) :
    connectiveOf? ctx least s.current.kind = none := by
  rw [connectiveOf?, hop]
  split <;> rfl

theorem binaryTail_stop (h : (connective? ctx least).Returns s none s) :
    (g.binaryTail ctx least start (turns + 1) left).Returns s left s := h.bind ⟨rfl, h.2⟩

theorem binaryTail_turn {s₁ s₂ : Stream} (h : (connective? ctx least).Returns s (some op) s)
    (hadvance : advance.Returns s () s₁) (hright : (g.binary ctx op.precedence).Returns s₁ right s₂) {e : Expr}
    (hrest : (g.binaryTail ctx least start turns (joined op (.span start s₂.previousStop) left right)).Returns s₂ e u) :
    (g.binaryTail ctx least start (turns + 1) left).Returns s e u := by
  have hspan : (spanFrom start).Returns s₂ (.span start s₂.previousStop) s₂ := ⟨rfl, hright.2⟩
  exact h.bind (hadvance.bind (hright.bind (hspan.bind hrest)))

/-! ### All turns -/

/-- From the stream the reader takes a first operand and what follows it as far as the operators bind more tightly than
`least`. It gives a graded expression and reports no error, and the rest of the sequence is left. -/
def Groups (g : Grammar) (ctx : Context) (least : Nat) (first : Expr) (rest : List (Connective × Expr)) (t : Stream)
    (r : Reader Expr) (s : Stream) : Prop :=
  ∃ (e : Expr) (u : Stream) (tree : Grouping) (far : List (Connective × Expr)), r.Returns s e u ∧ tree.Builds e ∧
    tree.Graded ∧ tree.first = first ∧ tree.rest ++ far = rest ∧ (∀ p ∈ tree.root?, least < p) ∧
    (∀ x ∈ far.head?, x.1.precedence ≤ least) ∧ g.Joins ctx u far t

/-- The turns keep a graded expression: the operator at the front never binds more tightly than the one at its root, and
what is read to the right of it only has operators that do. -/
theorem binaryTail_groups (hctx : ctx.noIn = false)
    (hright : ∀ {s s' : Stream} {e : Expr} {rest : List (Connective × Expr)} (least : Nat), s.Ends → s.ahead < m →
      ((nested n).unaryExpression ctx).Returns s e s' → (nested n).Joins ctx s' rest t →
      (nested n).Groups ctx least e rest t ((nested m).binaryExpression ctx least) s)
    (tree : Grouping) (hs : s.Ends) (hm : s.ahead ≤ m) (ht : s.ahead < turns) (hjoins : (nested n).Joins ctx s rest t)
    (hbuilds : tree.Builds left) (hgraded : tree.Graded) (hroot : ∀ p ∈ tree.root?, least < p)
    (hnext : ∀ p ∈ tree.root?, ∀ x ∈ rest.head?, x.1.precedence ≤ p) :
    (nested n).Groups ctx least tree.first (tree.rest ++ rest) t
      ((nested (m + 1)).binaryTail ctx least start turns left) s := by
  induction turns generalizing s rest left tree with
  | zero => omega
  | succ turns ih =>
    cases hjoins with
    | done herrors hop hk =>
      have hfront := returns_connective? ctx least herrors hk
      rw [connectiveOf?_of_none hop] at hfront
      exact ⟨left, t, tree, [], binaryTail_stop hfront, hbuilds, hgraded, rfl, rfl, hroot, by simp, .done herrors hop hk⟩
    | @more _ s₁ s₂ _ op e rest hop hadvance he hjoins =>
      have hk : s.current.kind ≠ .punctuator .power := by
        intro hk
        rw [hk] at hop
        cases hop
      have hfront := returns_connective? ctx least hadvance.errors_eq_nil hk
      rw [connectiveOf?_of_some hctx hop] at hfront
      by_cases hlt : least < op.precedence
      · rw [if_pos hlt] at hfront
        have hpos := hs.ahead_pos (Connective.ne_eof_of_ofToken? hop)
        obtain ⟨hs₁, hpast⟩ := agrees_advance.of_returns hs hadvance
        have hpast : s₁.ahead ≤ s.ahead - 1 := hpast
        obtain ⟨right, u, tree', far, hread, hbuilds', hgraded', rfl, hfar, hroot', hhead, hjoins'⟩ :=
          hright op.precedence hs₁ (by omega) he hjoins
        obtain ⟨hu, hpast'⟩ := (agrees_binaryExpression (agrees_nested m 0) op.precedence (by omega)).of_returns hs₁ hread
        have hpast' : u.ahead ≤ s₁.ahead - 1 := hpast'
        obtain ⟨result, v, whole, last, htail, hgroups⟩ := ih (.node op tree tree') hu (by omega) (by omega) hjoins'
          (hbuilds.joined hbuilds' (.span start u.previousStop)) ⟨fun p hp => hnext p hp _ rfl, hroot', hgraded, hgraded'⟩
          (fun p hp => Option.some.inj hp ▸ hlt) (fun p hp x hx => Option.some.inj hp ▸ hhead x hx)
        have hsequence : (Grouping.node op tree tree').rest ++ far = tree.rest ++ (op, tree'.first) :: rest := by
          rw [← hfar]
          simp [Grouping.rest]
        rw [hsequence] at hgroups
        exact ⟨result, v, whole, last, binaryTail_turn hfront hadvance hread htail, hgroups⟩
      · rw [if_neg hlt] at hfront
        exact ⟨left, s, tree, _, binaryTail_stop hfront, hbuilds, hgraded, rfl, rfl, hroot,
          fun x hx => Option.some.inj hx ▸ Nat.le_of_not_lt hlt, .more hop hadvance he hjoins⟩

/-- Reading goes on as long as the operators bind more tightly than `least`, whatever the bound on the nesting. -/
theorem binaryExpression_groups_least (hctx : ctx.noIn = false) (hmn : m ≤ n) (least : Nat) (hs : s.Ends)
    (hm : s.ahead < m) (he : ((nested n).unaryExpression ctx).Returns s e s') (hjoins : (nested n).Joins ctx s' rest t) :
    (nested n).Groups ctx least e rest t ((nested m).binaryExpression ctx least) s := by
  induction m generalizing s s' e rest least with
  | zero => omega
  | succ m ih =>
    obtain ⟨extra, rfl⟩ := Nat.exists_eq_add_of_le hmn
    have hagrees : ((nested (m + 1)).unaryExpression ctx).Agrees ((nested (m + 1 + extra)).unaryExpression ctx) s s.Past :=
      agrees_unaryExpression (agrees_nested (m + 1) extra) (Nat.le_of_lt hm)
    have he' : ((nested (m + 1)).unaryExpression ctx).Returns s e s' := ⟨(hagrees.run_eq hs).symm.trans he.1, he.2⟩
    obtain ⟨hs', hpast⟩ := hagrees.of_returns hs he'
    have hpast : s'.ahead ≤ s.ahead - 1 := hpast
    have hgroups : (nested (m + 1 + extra)).Groups ctx least e rest t
        ((nested (m + 1)).binaryTail ctx least s.current.start (s'.ahead + 1) e) s' :=
      binaryTail_groups hctx (fun least hs hm => ih (by omega) least hs hm) (.operand e) hs' (by omega) (by omega) hjoins
        (.operand e) trivial (by simp [Grouping.root?]) (by simp [Grouping.root?])
    obtain ⟨result, u, tree, far, htail, hgroups⟩ := hgroups
    have hhere : here.Returns s s.current.start s := ⟨rfl, he.errors_eq_nil⟩
    have hturns : Reader.turns.Returns s' (s'.ahead + 1) s' := ⟨rfl, he.2⟩
    exact ⟨result, u, tree, far, hhere.bind (he'.bind (hturns.bind htail)), hgroups⟩

/-- Operators group operands by how tightly they bind. Where an operand and any operators and operands behind it can be
read, they are all read together, and the expression has the only grouping of them, in their order, in which an operator
binds at most as tightly as the one to its left below it and less tightly than the one to its right below it. The
logical operators make logical nodes, and all others binary nodes. -/
theorem binaryExpression_groups (hctx : ctx.noIn = false) (hs : s.Ends) (hn : s.ahead < n)
    (he : ((nested n).unaryExpression ctx).Returns s e s') (hjoins : (nested n).Joins ctx s' rest t) :
    ∃ result tree, ((nested n).binaryExpression ctx 0).Returns s result t ∧ Grouping.Builds tree result ∧
      tree.first = e ∧ tree.rest = rest ∧ tree.Graded ∧
      ∀ tree' : Grouping, tree'.first = e → tree'.rest = rest → tree'.Graded → tree' = tree := by
  obtain ⟨result, u, tree, far, hread, hbuilds, hgraded, hfirst, hrest, -, hhead, hjoins⟩ :=
    binaryExpression_groups_least hctx le_rfl 0 hs hn he hjoins
  -- every operator binds more tightly than 0, so nothing is left
  cases hjoins with
  | @more _ _ _ _ op _ _ hop =>
    exact absurd (hhead _ rfl) (Nat.not_le_of_lt op.precedence_pos)
  | done =>
    rw [List.append_nil] at hrest
    refine ⟨result, tree, hread, hbuilds, hfirst, hrest, hgraded, fun tree' hfirst' hrest' hgraded' => ?_⟩
    exact hgraded'.unique hgraded (hfirst'.trans hfirst.symm) (hrest'.trans hrest.symm)

/-- Operators of six levels, with two of one level next to each other and two of it with a tighter one between them. -/
theorem binaryExpression_groups_levels :
    ∃ (s s' t : Stream) (a b c d e f u v w result : Expr),
      let g := nested (tokenize "a - b * c - d < e in f && u == v || w;").length
      let differ : Grouping := .node (.binary .subtract)
        (.node (.binary .subtract) (.operand a) (.node (.binary .multiply) (.operand b) (.operand c))) (.operand d)
      let within : Grouping := .node (.binary .within) (.node (.binary .less) differ (.operand e)) (.operand f)
      let equal : Grouping := .node (.binary .equal) (.operand u) (.operand v)
      s = .ofTokens (tokenize "a - b * c - d < e in f && u == v || w;") ∧ (g.unaryExpression {}).Returns s a s' ∧
        g.Joins {} s' [(.binary .subtract, b), (.binary .multiply, c), (.binary .subtract, d), (.binary .less, e),
          (.binary .within, f), (.logical .and, u), (.binary .equal, v), (.logical .or, w)] t ∧
        (g.binaryExpression {} 0).Returns s result t ∧
        Grouping.Builds (.node (.logical .or) (.node (.logical .and) within equal) (.operand w)) result := by
  let source := "a - b * c - d < e in f && u == v || w;"
  let g := nested (tokenize source).length
  let s := Stream.ofTokens (tokenize source)
  have hrun : (g.operands? {} 10 s).any fun operands =>
      operands.2.map Prod.fst = [.binary .subtract, .binary .multiply, .binary .subtract, .binary .less, .binary .within,
        .logical .and, .binary .equal, .logical .or] := by
    decide +kernel
  obtain ⟨⟨a, rest⟩, hoperands, hops⟩ := (Option.any_eq_true _ _).1 hrun
  obtain ⟨s', t, ha, hjoins⟩ := joins_of_operands? hoperands
  obtain ⟨-, -, hahead, hends⟩ := Stream.ends_tokenize source
  obtain ⟨result, tree, hread, hbuilds, -, -, -, hunique⟩ := binaryExpression_groups rfl hends hahead ha hjoins
  -- the operands have names, and the grouping that they are expected to have is graded
  have hops := of_decide_eq_true hops
  simp only [List.map_eq_cons_iff, List.map_eq_nil_iff, Prod.exists] at hops
  obtain ⟨_, b, _, rfl, rfl, _, c, _, rfl, rfl, _, d, _, rfl, rfl, _, e, _, rfl, rfl, _, f, _, rfl, rfl, _, u, _, rfl, rfl,
    _, v, _, rfl, rfl, _, w, _, rfl, rfl, rfl⟩ := hops
  have htree := hunique (.node (.logical .or) (.node (.logical .and) (.node (.binary .within) (.node (.binary .less)
    (.node (.binary .subtract) (.node (.binary .subtract) (.operand a) (.node (.binary .multiply) (.operand b)
      (.operand c))) (.operand d)) (.operand e)) (.operand f)) (.node (.binary .equal) (.operand u) (.operand v)))
    (.operand w)) rfl rfl (by simp [Grouping.Graded, Grouping.root?]; decide)
  exact ⟨s, s', t, a, b, c, d, e, f, u, v, w, result, rfl, ha, hjoins, hread, htree ▸ hbuilds⟩

end Grammar

end Stepwise

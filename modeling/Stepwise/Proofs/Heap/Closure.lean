import Stepwise.Proofs.Heap.Chain

/-!
# Making functions and scopes

Functions and scopes are made by function expressions, by calls and by the declarations of a program or a
body.

* `Heap.WellFormed.evalFunction`, `Heap.WellFormed.bindCall` and `Heap.WellFormed.hoist`: the heap stays well-formed.
* `Heap.Binds`: a scope or one around it binds a name. In a well-formed heap the name is then found,
  `Heap.Binds.isSome_lookup?`.
* `Heap.builds_evalFunction` and `Heap.builds_bindCall`: what functions are made, and what their scopes bind.
-/

namespace Stepwise.Heap

variable {h : Heap}

namespace WellFormed

theorem newScope (hw : h.WellFormed) {parent : ObjectId} (hp : parent = 0 ∨ (h.scope? parent).isSome)
    (strict : Bool) : (h.newScope parent strict).2.WellFormed := by
  obtain ⟨hf, g⟩ := keeps_newScope h parent strict hw.toFiled
  have ha : (h.alloc .object 0).2.WellFormed :=
    ((edits_alloc (.inl rfl) : h.Edits False (h.alloc .object 0).2).wellFormed hw).1
  refine ⟨hf, fun ho => ?_, fun ho => ha.proto_lt ho, fun {id s} hs => ?_, fun hi => ha.intrinsic hi⟩
  · -- the scope comes after the object that binds its names
    have hs := ha.sound ho
    have hscope {id : ObjectId} (hi : ((h.alloc .object 0).2.scope? id).isSome) :
        ((h.newScope parent strict).2.scope? id).isSome := g.isSome_scope? hi
    refine ⟨hs.proto, hs.nodup, hs.mem_keys, hs.prop, hs.elem, hs.func, fun f hf => ?_, hs.primitive, hs.elems⟩
    have hc := hs.closure f hf
    unfold FunctionInfo.In at hc ⊢
    split
    · trivial
    · rename_i he
      rw [he] at hc
      exact hscope hc
  · have hs' : (if h.next = id then some ⟨h.next, parent, strict⟩ else h.scope? id) = some s := by
      rw [← hs]
      exact (scope?_addScope (h.alloc .object 0).2 ⟨h.next, parent, strict⟩ id).symm
    split at hs'
    · rename_i he
      cases hs'
      refine hp.imp_right fun hi => ⟨?_, g.isSome_scope? hi⟩
      obtain ⟨p, hp⟩ := Option.isSome_iff_exists.1 hi
      obtain ⟨o, ho⟩ := Option.isSome_iff_exists.1 (hw.scope hp).2
      rw [← he]
      exact (hw.object ho).2.2
    · exact (hw.parent hs').imp_right (And.imp_right g.isSome_scope?)

theorem newFunction (hw : h.WellFormed) {f : FunctionInfo} (hn : f.IsNamed) (hf : f.In h) :
    (h.newFunction f).2.WellFormed ∧ (Value.object (h.newFunction f).1).In (h.newFunction f).2 := by
  let o : Object := { id := 0, cls := .function, proto := h.intrinsic Intrinsic.functionPrototype, func := some f }
  have ho : o.Sound h := {
    proto := hw.intrinsic_in _
    nodup := List.nodup_nil
    mem_keys := fun key => by simp [o, Object.own?]
    prop := fun key v hv => by simp [o, Object.own?] at hv
    elem := fun v hv => by simp [o] at hv
    func := by simp [o]
    closure := fun g hg => by cases hg; exact hf
    primitive := rfl
    elems := fun he => absurd rfl he }
  have hadd : (h.add o).2.WellFormed := hw.add ho fun g hg => by cases hg; exact hn
  have hin : (Value.object (h.add o).1).In (h.add o).2 := in_add h o
  obtain ⟨name, code, length⟩ := f
  cases code with
  | native => exact ⟨hadd, hin⟩
  | closure node scope =>
    -- the function and its prototype object point to each other
    have e₁ : (h.add o).2.Edits False (h.add o).2.newPlain.2 := edits_newPlain hadd
    obtain ⟨hw₁, g₁⟩ := e₁.wellFormed hadd
    obtain ⟨hw₂, g₂⟩ := Edits.wellFormed (edits_putHidden hw₁ (h.add o).2.newPlain.1 "constructor" (hin.mono g₁) :
      (h.add o).2.newPlain.2.Edits False _) hw₁
    have hproto : (Value.object (h.add o).2.newPlain.1).In (h.add o).2.newPlain.2 := in_add _ _
    obtain ⟨hw₃, g₃⟩ := Edits.wellFormed (edits_putHidden hw₂ (h.add o).1 "prototype" (hproto.mono g₂) :
      Edits False _ _) hw₂
    exact ⟨hw₃, hin.mono (g₁.trans (g₂.trans g₃))⟩

theorem newClosure (hw : h.WellFormed) (c : Callable) {scope : ObjectId} (hs : (h.scope? scope).isSome) :
    (h.newClosure c scope).2.WellFormed ∧ (Value.object (h.newClosure c scope).1).In (h.newClosure c scope).2 :=
  hw.newFunction (by simp [FunctionInfo.IsNamed]) hs

theorem declare (hw : h.WellFormed) (scope : ObjectId) (name : String) {v : Value} (hv : v.In h) :
    (h.declare scope name v).WellFormed :=
  ((edits_declare hw scope name hv : h.Edits False _).wellFormed hw).1

theorem declareMissing (hw : h.WellFormed) (scope : ObjectId) (name : String) :
    (h.declareMissing scope name).WellFormed := by
  unfold Heap.declareMissing
  split
  · exact hw
  · exact hw.declare scope name trivial

theorem declareFunction (hw : h.WellFormed) {scope : ObjectId} (hs : (h.scope? scope).isSome) (c : Callable) :
    (h.declareFunction scope c).WellFormed := by
  obtain ⟨hw', hin⟩ := hw.newClosure c hs
  exact hw'.declare scope _ hin

/-- A change that is made again and again keeps a heap well-formed, if it does so once. -/
theorem foldl {α : Type} {f : Heap → α → Heap} (hk : ∀ (h : Heap) a, h.Keeps (f h a)) {scope : ObjectId}
    (hf : ∀ {h : Heap} a, h.WellFormed → (h.scope? scope).isSome → (f h a).WellFormed) (l : List α)
    (hw : h.WellFormed) (hs : (h.scope? scope).isSome) : (l.foldl f h).WellFormed := by
  induction l generalizing h with
  | nil => exact hw
  | cons a l ih => exact ih (hf a hw hs) ((hk h a hw.toFiled).2.isSome_scope? hs)

theorem hoist (hw : h.WellFormed) (declarations : List Declaration) {scope : ObjectId}
    (hs : (h.scope? scope).isSome) : (h.hoist declarations scope).WellFormed := by
  have hmissing (h : Heap) (name : String) : h.Keeps (h.declareMissing scope name) :=
    keeps_declareMissing h scope name
  refine foldl (fun h c => keeps_declareFunction h scope c) (fun c hw hs => hw.declareFunction hs c) _ ?_ ?_
  · exact foldl hmissing (fun name hw _ => hw.declareMissing scope name) _ hw hs
  · exact (Keeps.foldl hmissing _ h hw.toFiled).2.isSome_scope? hs

theorem evalFunction (hw : h.WellFormed) (c : Callable) {scope : ObjectId} (hs : (h.scope? scope).isSome) :
    (h.evalFunction c scope).2.WellFormed ∧ (h.evalFunction c scope).1.In (h.evalFunction c scope).2 := by
  unfold Heap.evalFunction
  split
  · exact hw.newClosure c hs
  · rename_i name _
    have hw₁ := hw.newScope (.inr hs) true
    have hs₁ : ((h.newScope scope true).2.scope? (h.newScope scope true).1).isSome := by
      rw [scope?_newScope]
      rfl
    obtain ⟨hw₂, hin⟩ := hw₁.newClosure c hs₁
    obtain ⟨hw₃, g₃⟩ := (edits_declare hw₂ (h.newScope scope true).1 name.name hin : Edits False _ _).wellFormed hw₂
    exact ⟨hw₃, hin.mono g₃⟩

theorem bindParams (hw : h.WellFormed) (scope : ObjectId) (params : List Identifier) {args : List Value}
    (ha : ∀ v ∈ args, v.In h) : (h.bindParams scope params args).WellFormed := by
  induction params generalizing h args with
  | nil => exact hw
  | cons p params ih =>
    cases args with
    | nil => exact ih (hw.declare scope p.name (v := .undefined) trivial) (by simp)
    | cons v args =>
      obtain ⟨hv, ha⟩ := List.forall_mem_cons.1 ha
      refine ih (hw.declare scope p.name hv) fun w hm => (ha w hm).mono ?_
      exact (keeps_declare h scope p.name v hw.toFiled).2

theorem bindCall (hw : h.WellFormed) {closure : ObjectId} (hs : (h.scope? closure).isSome) (c : Callable)
    {this : Value} {args : List Value} (ht : this.In h) (ha : ∀ v ∈ args, v.In h) :
    (h.bindCall closure c this args).2.WellFormed := by
  unfold Heap.bindCall
  have hw₁ := hw.newScope (.inr hs) true
  have g₁ := (keeps_newScope h closure true hw.toFiled).2
  have hs₁ : ((h.newScope closure true).2.scope? (h.newScope closure true).1).isSome := by
    rw [scope?_newScope]
    rfl
  generalize h.newScope closure true = r at hw₁ g₁ hs₁ ⊢
  obtain ⟨scope, h₁⟩ := r
  dsimp only at *
  have hw₂ := hw₁.declare scope "this" (ht.mono g₁)
  have g₂ := g₁.trans (keeps_declare h₁ scope "this" this hw₁.toFiled).2
  have hs₂ := (keeps_declare h₁ scope "this" this hw₁.toFiled).2.isSome_scope? hs₁
  generalize h₁.declare scope "this" this = h₂ at hw₂ g₂ hs₂ ⊢
  let o : Object := { id := 0, cls := .arguments, proto := h₂.intrinsic Intrinsic.objectPrototype, elems := args.toArray }
  have ho : o.Sound h₂ := .new (hw₂.intrinsic_in _) (by decide) rfl
    (fun v hv => (ha v (List.mem_toArray.1 hv)).mono g₂) fun _ => rfl
  have hw₃ : (h₂.add o).2.WellFormed := hw₂.add ho (by simp [o])
  have g₃ := (keeps_add h₂ o (by simp [o]) hw₂.toFiled).2
  have hin : (Value.object (h₂.add o).1).In (h₂.add o).2 := in_add h₂ o
  have hw₄ := hw₃.declare scope "arguments" hin
  have g₄ := g₃.trans (keeps_declare _ scope "arguments" (.object (h₂.add o).1) hw₃.toFiled).2
  have hw₅ := hw₄.bindParams scope c.params fun v hv => (ha v hv).mono (g₂.trans g₄)
  have g₅ := g₄.trans (keeps_bindParams _ scope c.params args hw₄.toFiled).2
  exact hw₅.hoist c.body.declarations (g₅.isSome_scope? hs₂)

end WellFormed

/-! ### Bound names -/

variable {h' h'' : Heap} {made : FunctionCode → Prop} {id scope : ObjectId} {name x : String} {v : Value}

/-- A scope, or one around it, binds a name. -/
inductive Binds (h : Heap) : ObjectId → String → Prop where
  | here {id : ObjectId} {name : String} (hs : (h.scope? id).isSome) (hb : (h.binding? id name).isSome) :
    Binds h id name
  | outer {id : ObjectId} {name : String} {s : Scope} (hs : h.scope? id = some s) (hp : s.parent ≠ 0)
    (hb : Binds h s.parent name) : Binds h id name

/-- A name that is bound is found. -/
theorem Binds.isSome_lookup? (hb : h.Binds id name) (hw : h.WellFormed) : (h.lookup? id name).isSome := by
  -- a list of scopes that comes to its end has all scopes around
  have hmem (limit : Nat) (hl : ∃ t, (h.enclosing limit id).getLast? = some t ∧ t.parent = 0) :
      ∃ s ∈ h.enclosing limit id, (h.binding? s.id name).isSome := by
    induction hb generalizing limit with
    | @here id name hs hb =>
      obtain ⟨s, hs⟩ := Option.isSome_iff_exists.1 hs
      cases limit with
      | zero => obtain ⟨t, ht, -⟩ := hl; cases ht
      | succ limit =>
        unfold enclosing
        rw [hs]
        exact ⟨s, List.mem_cons_self, by rw [(hw.scope hs).1]; exact hb⟩
    | @outer id name s hs hp hb ih =>
      cases limit with
      | zero => obtain ⟨t, ht, -⟩ := hl; cases ht
      | succ limit =>
        unfold enclosing at hl ⊢
        rw [hs] at hl ⊢
        dsimp only at hl ⊢
        rw [if_neg hp] at hl ⊢
        obtain ⟨t, ht, hz⟩ := hl
        obtain ⟨u, hu, hb⟩ := ih limit (by
          cases hc : h.enclosing limit s.parent with
          | nil =>
            rw [hc] at ht
            cases ht
            exact absurd hz hp
          | cons u rest =>
            rw [hc, List.getLast?_cons_cons] at ht
            exact ⟨t, ht, hz⟩)
        exact ⟨u, List.mem_cons_of_mem s hu, hb⟩
  have hs : ∃ s, h.scope? id = some s := by
    cases hb with
    | here hs _ => exact Option.isSome_iff_exists.1 hs
    | outer hs _ _ => exact ⟨_, hs⟩
  obtain ⟨s, hs⟩ := hs
  obtain ⟨t, ht, hb⟩ := hmem _ (hw.scopeChain_ends hs)
  exact List.findSome?_isSome_iff.2 ⟨t, ht, hb⟩

/-- Names stay bound. -/
theorem Builds.binds (b : h.Builds made h') (hf : h.Filed) (hb : h.Binds id name) : h'.Binds id name := by
  have g := (b.keeps hf).2
  induction hb with
  | here hs hb =>
    exact .here (g.isSome_scope? hs) (b.binding hf hb)
  | outer hs hp _ ih => exact .outer (g.scope hs) hp ih

/-- Edits make no functions. -/
theorem Edits.runs {loses : Prop} {code : FunctionCode} (e : h.Edits loses h') (hr : h'.Runs code) : h.Runs code := by
  obtain ⟨id, o, f, ho, hf, hc⟩ := hr
  obtain ⟨p, hp, hf⟩ := e.func_eq ho hf
  exact ⟨id, p, f, hp, hf, hc⟩

/-- Changes that lose nothing make no functions. -/
theorem Edits.builds {loses : Prop} (e : h.Edits loses h') (hl : ¬loses) (hw : h.WellFormed) :
    h.Builds (fun _ => False) h' where
  keeps _ := ⟨(e.wellFormed hw).1.toFiled, (e.wellFormed hw).2⟩
  runs _ _ hr := .inl (e.runs hr)
  binding _ _ _ hb := e.isSome_binding? hl hw hb

/-! ### What is bound -/

theorem Declares.binds (hd : h.Declares scope x) : h.Binds scope x := .here hd.isScope hd.isBound

theorem Binds.isSome_scope? (hb : h.Binds id x) : (h.scope? id).isSome := by
  cases hb with
  | here hs _ => exact hs
  | outer hs _ _ => rw [hs]; rfl

theorem binds_newScope (hf : h.Filed) {parent : ObjectId} (strict : Bool) (hb : h.Binds parent x) :
    (h.newScope parent strict).2.Binds (h.newScope parent strict).1 x := by
  have b : h.Builds (fun _ => True) (h.newScope parent strict).2 := builds_newScope h parent strict
  refine .outer (scope?_newScope h parent strict) ?_ (b.binds hf hb)
  obtain ⟨s, hs⟩ := Option.isSome_iff_exists.1 hb.isSome_scope?
  obtain ⟨o, ho⟩ := Option.isSome_iff_exists.1 (hf.scope hs).2
  have hpos := (hf.object ho).2.1
  show parent ≠ 0
  lia

/-- A function expression makes one function. Its scope binds what is bound around it, and its own name. -/
theorem builds_evalFunction (hf : h.Filed) (c : Callable) (scope : ObjectId) :
    ∃ closure, h.Builds (· = .closure c.loc.id closure) (h.evalFunction c scope).2 ∧
      (∀ {x}, h.Binds scope x → (h.evalFunction c scope).2.Binds closure x) ∧
      ∀ i, c.name = some i → (h.evalFunction c scope).2.Binds closure i.name := by
  unfold evalFunction
  split
  · have b := builds_newClosure h c scope
    exact ⟨scope, b, fun hb => b.binds hf hb, fun i hi => by simp [*] at hi⟩
  · rename_i name hn
    have hf₁ := (keeps_newScope h scope true hf).1
    have hs₁ : ((h.newScope scope true).2.scope? (h.newScope scope true).1).isSome := by
      rw [scope?_newScope]
      rfl
    have b₂ := builds_newClosure (h.newScope scope true).2 c (h.newScope scope true).1
    obtain ⟨hf₂, g₂⟩ := b₂.keeps hf₁
    have b₃ := b₂.trans (builds_declare _ (h.newScope scope true).1 name.name
      (.object ((h.newScope scope true).2.newClosure c (h.newScope scope true).1).1))
    refine ⟨_, (builds_newScope h scope true).trans b₃, fun hb => ?_, fun i hi => ?_⟩
    · exact b₃.binds hf₁ (binds_newScope hf true hb)
    · cases hi.symm.trans hn
      exact (declares_declare hf₂ (g₂.isSome_scope? hs₁) name.name _).binds

/-- A call makes the functions that are declared in the body. Its scope is new and binds what is bound where the
function was made, and all that the call binds itself. -/
theorem builds_bindCall (hf : h.Filed) (closure : ObjectId) (c : Callable) (this : Value) (args : List Value) :
    h.Builds (fun code => ∃ d ∈ declaredFunctions c.body.declarations, code = .closure d.loc.id h.next)
        (h.bindCall closure c this args).2 ∧
      (∀ {x}, h.Binds closure x → (h.bindCall closure c this args).2.Binds h.next x) ∧
      ∀ x ∈ c.bound, (h.bindCall closure c this args).2.Binds h.next x := by
  obtain ⟨o, ho, he⟩ := bindCall_eq h closure c this args
  have hdeclares := declares_bindCall hf closure c this args
  rw [he] at hdeclares ⊢
  have b₀ : h.Builds (fun _ => False) (h.newScope closure true).2 := builds_newScope h closure true
  have hs₀ : ((h.newScope closure true).2.scope? h.next).isSome :=
    congrArg Option.isSome (scope?_newScope h closure true)
  obtain ⟨hf₀, -⟩ := b₀.keeps hf
  obtain ⟨b, -⟩ := builds_bindOwn hf₀ hs₀ ho c this args
  exact ⟨(b₀.mono fun _ => False.elim).trans b, fun hb => b.binds hf₀ (binds_newScope hf true hb),
    fun x hx => (hdeclares x (List.mem_cons_of_mem _ hx)).binds⟩

end Stepwise.Heap

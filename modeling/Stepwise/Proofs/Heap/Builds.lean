import Stepwise.Proofs.Heap.Filed

/-!
# Making functions and declaring names

* `Heap.Runs`: some function of the heap runs this code.
* `Heap.Builds`: a change under which names stay bound and only some functions are made. There is one lemma
  for each operation, up to `Heap.builds_hoist` and `Heap.builds_bindOwn`.
* `Heap.Declares`: a scope itself binds a name. `Heap.declares_hoist` and `Heap.declares_bindCall`: declarations and
  calls bind what they declare.
-/

namespace Stepwise

/-- The names that a call of a function binds, beside its receiver. -/
def Callable.bound (c : Callable) : List String :=
  "arguments" :: (c.params.map Identifier.name ++ c.body.declarations.map Declaration.name)

theorem Object.own?_put (o : Object) (key : String) (v : Value) (k : String) :
    (o.put key v).own? k = if key = k then some v else o.own? k := by
  unfold Object.put own?
  rw [Std.ExtTreeMap.getElem?_insert]
  simp [Std.LawfulEqCmp.compare_eq_iff_eq]

/-- Properties under other keys make no difference to a key. -/
theorem Object.own?_foldl_put (o : Object) {properties : List (String × Value)} {key : String}
    (hother : ∀ p ∈ properties, p.1 ≠ key) :
    (properties.foldl (fun o p => o.put p.1 p.2) o).own? key = o.own? key := by
  induction properties generalizing o with
  | nil => rfl
  | cons p properties ih =>
    obtain ⟨hp, hother⟩ := List.forall_mem_cons.1 hother
    rw [List.foldl_cons, ih _ hother, own?_put, if_neg hp]

namespace Heap

variable {h h' h'' : Heap} {made : FunctionCode → Prop} {id scope : ObjectId} {name x : String} {v : Value}

theorem isSome_own?_put (o : Object) (key : String) (v : Value) (k : String) (hk : (o.own? k).isSome) :
    ((o.put key v).own? k).isSome := by
  rw [Object.own?_put]
  split
  · rfl
  · exact hk

theorem isSome_own?_putHidden (o : Object) (key : String) (v : Value) (k : String) (hk : (o.own? k).isSome) :
    ((o.putHidden key v).own? k).isSome := by
  simp only [Object.putHidden]
  split <;> exact isSome_own?_put o key v k hk

/-- Some function of the heap runs this code. -/
def Runs (h : Heap) (code : FunctionCode) : Prop :=
  ∃ id o f, h.object? id = some o ∧ o.func = some f ∧ f.code = code

/-- A change of a heap that makes only functions with code of this kind, and under which names stay bound. -/
structure Builds (made : FunctionCode → Prop) (h h' : Heap) : Prop where
  keeps : h.Keeps h'
  runs : h.Filed → ∀ {code}, h'.Runs code → h.Runs code ∨ made code
  binding : h.Filed → ∀ {id name}, (h.binding? id name).isSome → (h'.binding? id name).isSome

namespace Builds

@[refl] theorem refl (h : Heap) : h.Builds made h := ⟨.refl h, fun _ _ hr => .inl hr, fun _ _ _ hb => hb⟩

theorem trans (b : h.Builds made h') (b' : h'.Builds made h'') : h.Builds made h'' where
  keeps := b.keeps.trans b'.keeps
  runs hf _ hr := (b'.runs (b.keeps hf).1 hr).elim (b.runs hf) .inr
  binding hf _ _ hb := b'.binding (b.keeps hf).1 (b.binding hf hb)

theorem mono {made' : FunctionCode → Prop} (b : h.Builds made h') (hm : ∀ code, made code → made' code) :
    h.Builds made' h' := ⟨b.keeps, fun hf _ hr => (b.runs hf hr).imp_right (hm _), b.binding⟩

theorem foldl {α : Type} {f : Heap → α → Heap} (l : List α) (hf : ∀ (h : Heap), ∀ a ∈ l, h.Builds made (f h a))
    (h : Heap) : h.Builds made (l.foldl f h) := by
  induction l generalizing h with
  | nil => exact .refl h
  | cons a l ih =>
    obtain ⟨ha, hl⟩ := List.forall_mem_cons.1 (fun a ha h => hf h a ha)
    exact (ha h).trans (ih (fun h a ha => hl a ha h) (f h a))

end Builds

theorem builds_add (h : Heap) (o : Object) (hn : ∀ f, o.func = some f → f.IsNamed ∧ made f.code) :
    h.Builds made (h.add o).2 where
  keeps := keeps_add h o fun f hf => (hn f hf).1
  runs := by
    rintro hfiled code ⟨id, p, f, hp, hf, rfl⟩
    rw [object?_add] at hp
    split at hp
    · cases hp
      exact .inr (hn f hf).2
    · exact .inl ⟨id, p, f, hp, hf, rfl⟩
  binding hfiled id name hb := by
    have hne : h.next ≠ id := by
      rintro rfl
      rw [binding?, hfiled.object?_next] at hb
      cases hb
    unfold binding? at hb ⊢
    rw [object?_add, if_neg hne]
    exact hb

theorem builds_modify {f : Object → Object} (ha : ∀ o : Object, o.Alike (f o))
    (hk : ∀ (o : Object) key, (o.own? key).isSome → ((f o).own? key).isSome) (h : Heap) (id : ObjectId) :
    h.Builds made (h.modify id f) := by
  refine ⟨keeps_modify ha h id, fun hfiled code hr => .inl ?_, fun hfiled key name hb => ?_⟩
  · obtain ⟨key, p, g, hp, hg, rfl⟩ := hr
    unfold modify at hp
    split at hp
    · rename_i o ho
      rw [object?_store] at hp
      split at hp
      · cases hp
        exact ⟨id, o, g, ho, (ha o).func ▸ hg, rfl⟩
      · exact ⟨key, p, g, hp, hg, rfl⟩
    · exact ⟨key, p, g, hp, hg, rfl⟩
  · unfold modify
    split
    · rename_i o ho
      unfold binding? at hb ⊢
      rw [object?_store]
      split
      · rename_i he
        rw [(ha o).id, (hfiled.object ho).1] at he
        rw [← he, ho] at hb
        exact hk o name hb
      · exact hb
    · exact hb

theorem builds_putHidden (h : Heap) (id : ObjectId) (key : String) (v : Value) :
    h.Builds made (h.modify id (·.putHidden key v)) :=
  builds_modify (·.alike_putHidden key v) (fun o => isSome_own?_putHidden o key v) h id

theorem builds_declare (h : Heap) (scope : ObjectId) (name : String) (v : Value) :
    h.Builds made (h.declare scope name v) :=
  builds_modify (·.alike_put name v) (fun o => isSome_own?_put o name v) h scope

theorem builds_newScope (h : Heap) (parent : ObjectId) (strict : Bool) :
    h.Builds made (h.newScope parent strict).2 := by
  have b : h.Builds made (h.alloc .object 0).2 := builds_add h _ (by simp)
  exact ⟨keeps_newScope h parent strict, b.runs, b.binding⟩

theorem builds_newFunction (h : Heap) {f : FunctionInfo} (hf : f.IsNamed) :
    h.Builds (· = f.code) (h.newFunction f).2 := by
  have hadd (proto : ObjectId) :
      h.Builds (· = f.code) (h.add { id := 0, cls := .function, proto, func := some f }).2 :=
    builds_add h _ (by rintro _ ⟨⟩; exact ⟨hf, rfl⟩)
  obtain ⟨name, code, length⟩ := f
  cases code with
  | native => exact hadd _
  | closure =>
    exact (hadd _).trans ((builds_add _ _ (by simp)).trans ((builds_putHidden _ _ _ _).trans (builds_putHidden _ _ _ _)))

theorem builds_newClosure (h : Heap) (c : Callable) (scope : ObjectId) :
    h.Builds (· = .closure c.loc.id scope) (h.newClosure c scope).2 := by
  have hn (name : String) (arity : Nat) : FunctionInfo.IsNamed ⟨name, .closure c.loc.id scope, arity⟩ := by
    simp [FunctionInfo.IsNamed]
  exact builds_newFunction h (hn _ _)

theorem builds_declareMissing (h : Heap) (scope : ObjectId) (name : String) :
    h.Builds made (h.declareMissing scope name) := by
  unfold declareMissing
  split
  · exact .refl h
  · exact builds_declare h scope name _

theorem builds_declareFunction (h : Heap) (scope : ObjectId) (c : Callable) :
    h.Builds (· = .closure c.loc.id scope) (h.declareFunction scope c) :=
  (builds_newClosure h c scope).trans (builds_declare _ _ _ _)

/-- Declarations make the functions that are declared. -/
theorem builds_hoist (h : Heap) (ds : List Declaration) (scope : ObjectId) :
    h.Builds (fun code => ∃ c ∈ declaredFunctions ds, code = .closure c.loc.id scope) (h.hoist ds scope) := by
  refine (Builds.foldl (localNames ds) (fun h name _ => builds_declareMissing h scope name) h).trans ?_
  refine Builds.foldl (declaredFunctions ds) (fun h c hc => ?_) _
  exact (builds_declareFunction h scope c).mono fun code he => ⟨c, hc, he⟩

theorem builds_bindParams (h : Heap) (scope : ObjectId) (params : List Identifier) (args : List Value) :
    h.Builds made (h.bindParams scope params args) := by
  induction params generalizing h args with
  | nil => exact .refl h
  | cons p params ih =>
    cases args with
    | nil => exact (builds_declare _ _ _ _).trans (ih _ _)
    | cons v args => exact (builds_declare _ _ _ _).trans (ih _ _)

/-! ### Names that a scope binds -/

/-- A scope itself binds a name. -/
structure Declares (h : Heap) (scope : ObjectId) (name : String) : Prop where
  isScope : (h.scope? scope).isSome
  isBound : (h.binding? scope name).isSome

/-- Names stay bound where they are. -/
theorem Builds.declares (b : h.Builds made h') (hf : h.Filed) (hd : h.Declares scope x) : h'.Declares scope x :=
  ⟨(b.keeps hf).2.isSome_scope? hd.isScope, b.binding hf hd.isBound⟩

theorem declares_modify {f : Object → Object} (ha : ∀ o : Object, o.Alike (f o)) (hf : h.Filed)
    (hs : (h.scope? scope).isSome) (hb : ∀ o : Object, ((f o).own? name).isSome) :
    (h.modify scope f).Declares scope name := by
  obtain ⟨s, hs⟩ := Option.isSome_iff_exists.1 hs
  obtain ⟨o, ho⟩ := Option.isSome_iff_exists.1 (hf.scope hs).2
  refine ⟨by rw [(keeps_modify ha h scope hf).2.scope hs]; rfl, ?_⟩
  unfold modify binding?
  rw [ho]
  dsimp only
  rw [object?_store, if_pos (by exact (ha o).id.trans (hf.object ho).1)]
  exact hb o

theorem declares_declare (hf : h.Filed) (hs : (h.scope? scope).isSome) (name : String) (v : Value) :
    (h.declare scope name v).Declares scope name :=
  declares_modify (·.alike_put name v) hf hs fun o => by simp [Object.own?, Object.put]

theorem declares_putHidden (hf : h.Filed) (hs : (h.scope? scope).isSome) (name : String) (v : Value) :
    (h.modify scope (·.putHidden name v)).Declares scope name := by
  refine declares_modify (·.alike_putHidden name v) hf hs fun o => ?_
  simp only [Object.putHidden]
  split <;> simp [Object.own?, Object.put]

theorem declares_declareMissing (hf : h.Filed) (hs : (h.scope? scope).isSome) (name : String) :
    (h.declareMissing scope name).Declares scope name := by
  unfold declareMissing
  split
  · exact ⟨hs, ‹_›⟩
  · exact declares_declare hf hs name _

/-- What is declared is bound. -/
theorem declares_hoist (hf : h.Filed) (hs : (h.scope? scope).isSome) {ds : List Declaration} {d : Declaration}
    (hd : d ∈ ds) : (h.hoist ds scope).Declares scope d.name := by
  have hfold (names : List String) {h : Heap} (hf : h.Filed) (hs : (h.scope? scope).isSome) (hn : d.name ∈ names) :
      (names.foldl (·.declareMissing scope ·) h).Filed ∧
        (names.foldl (·.declareMissing scope ·) h).Declares scope d.name := by
    induction names generalizing h with
    | nil => cases hn
    | cons name names ih =>
      obtain ⟨hf', g⟩ := keeps_declareMissing h scope name hf
      rcases List.mem_cons.1 hn with he | hn
      · have b : (h.declareMissing scope name).Builds (fun _ => True)
            (names.foldl (·.declareMissing scope ·) (h.declareMissing scope name)) :=
          .foldl names (fun h name _ => builds_declareMissing h scope name) _
        exact ⟨(b.keeps hf').1, b.declares hf' (he ▸ declares_declareMissing hf hs name)⟩
      · exact ih hf' (g.isSome_scope? hs) hn
  obtain ⟨hf', hb⟩ := hfold (localNames ds) hf hs (List.mem_eraseDups.2 (List.mem_map_of_mem hd))
  have b : (_ : Heap).Builds (fun _ => True) (h.hoist ds scope) :=
    .foldl (declaredFunctions ds) (fun h c _ => (builds_declareFunction h scope c).mono fun _ _ => trivial) _
  exact b.declares hf' hb

theorem declares_bindParams (hf : h.Filed) (hs : (h.scope? scope).isSome) {params : List Identifier}
    (args : List Value) {p : Identifier} (hp : p ∈ params) :
    (h.bindParams scope params args).Declares scope p.name := by
  induction params generalizing h args with
  | nil => cases hp
  | cons q params ih =>
    have hstep (v : Value) (args : List Value) :
        ((h.declare scope q.name v).bindParams scope params args).Declares scope p.name := by
      obtain ⟨hf', g⟩ := keeps_declare h scope q.name v hf
      rcases List.mem_cons.1 hp with rfl | hp
      · have b : (h.declare scope p.name v).Builds (fun _ => True) _ := builds_bindParams _ scope params args
        exact b.declares hf' (declares_declare hf hs p.name v)
      · exact ih hf' (g.isSome_scope? hs) args hp
    cases args with
    | nil => exact hstep .undefined []
    | cons v args => exact hstep v args

/-! ### Calls -/

/-- What a call binds in its own scope: the receiver, the arguments as an object, the parameters and what the body
declares. -/
def bindOwn (h : Heap) (scope : ObjectId) (arguments : Object) (c : Callable) (this : Value) (args : List Value) :
    Heap :=
  let h := h.declare scope "this" this
  let h := (h.add arguments).2.declare scope "arguments" (.object (h.add arguments).1)
  (h.bindParams scope c.params args).hoist c.body.declarations scope

theorem bindCall_eq (h : Heap) (closure : ObjectId) (c : Callable) (this : Value) (args : List Value) :
    ∃ o : Object, o.func = none ∧
      h.bindCall closure c this args = (h.next, (h.newScope closure true).2.bindOwn h.next o c this args) :=
  ⟨_, rfl, rfl⟩

/-- A call makes the functions that are declared in the body, and its scope binds all that the call binds. -/
theorem builds_bindOwn (hf : h.Filed) (hs : (h.scope? scope).isSome) {o : Object} (ho : o.func = none) (c : Callable)
    (this : Value) (args : List Value) :
    h.Builds (fun code => ∃ d ∈ declaredFunctions c.body.declarations, code = .closure d.loc.id scope)
        (h.bindOwn scope o c this args) ∧
      ∀ x ∈ "this" :: c.bound, (h.bindOwn scope o c this args).Declares scope x := by
  unfold bindOwn
  dsimp only
  have b₁ : h.Builds (fun _ => False) (h.declare scope "this" this) := builds_declare h _ _ _
  have hthis := declares_declare hf hs "this" this
  generalize h.declare scope "this" this = h₁ at b₁ hthis
  obtain ⟨hf₁, g₁⟩ := b₁.keeps hf
  have b₂ : h₁.Builds (fun _ => False) (h₁.add o).2 := builds_add h₁ o (by simp [ho])
  obtain ⟨hf₂, g₂⟩ := b₂.keeps hf₁
  have b₃ := b₂.trans (builds_declare _ scope "arguments" (.object (h₁.add o).1))
  have hargs := declares_declare hf₂ (g₂.isSome_scope? (g₁.isSome_scope? hs)) "arguments" (.object (h₁.add o).1)
  generalize (h₁.add o).2.declare scope "arguments" (.object (h₁.add o).1) = h₃ at b₃ hargs
  obtain ⟨hf₃, g₃⟩ := b₃.keeps hf₁
  have b₄ : h₃.Builds (fun _ => False) (h₃.bindParams scope c.params args) := builds_bindParams h₃ _ _ _
  obtain ⟨hf₄, g₄⟩ := b₄.keeps hf₃
  have hparams {p : Identifier} (hp : p ∈ c.params) := declares_bindParams hf₃ hargs.isScope args hp
  generalize h₃.bindParams scope c.params args = h₄ at b₄ hf₄ g₄ hparams
  have b₅ := builds_hoist h₄ c.body.declarations scope
  -- what is bound first is bound last
  have late : h₃.Builds _ _ := (b₄.mono fun _ => False.elim).trans b₅
  have all : h₁.Builds _ _ := (b₃.mono fun _ => False.elim).trans late
  refine ⟨(b₁.mono fun _ => False.elim).trans all, fun x hx => ?_⟩
  rcases List.mem_cons.1 hx with rfl | hx
  · exact all.declares hf₁ hthis
  · rcases List.mem_cons.1 hx with rfl | hx
    · exact late.declares hf₃ hargs
    · rcases List.mem_append.1 hx with hx | hx
      · obtain ⟨p, hp, rfl⟩ := List.mem_map.1 hx
        exact b₅.declares hf₄ (hparams hp)
      · obtain ⟨d, hd, rfl⟩ := List.mem_map.1 hx
        exact declares_hoist hf₄ (g₄.isSome_scope? hargs.isScope) hd

/-- The scope of a call is new and binds all that the call binds. -/
theorem declares_bindCall (hf : h.Filed) (closure : ObjectId) (c : Callable) (this : Value) (args : List Value) :
    ∀ x ∈ "this" :: c.bound, (h.bindCall closure c this args).2.Declares (h.bindCall closure c this args).1 x := by
  obtain ⟨o, ho, he⟩ := bindCall_eq h closure c this args
  rw [he]
  have hs : ((h.newScope closure true).2.scope? h.next).isSome :=
    congrArg Option.isSome (scope?_newScope h closure true)
  exact (builds_bindOwn (keeps_newScope h closure true hf).1 hs ho c this args).2

end Heap

end Stepwise

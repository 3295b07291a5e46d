import Stepwise.Proofs.Heap.Builds
import Stepwise.Proofs.Heap.Resolve
import Stepwise.Proofs.Lint.FreeName
import Stepwise.Proofs.Machine.Intact

/-!
# The scope of a call

A call binds its receiver, its arguments, the parameters and what the body declares, in this order. Names may coincide,
and then the order decides which value is left.

* `Heap.Spares`: a change that concerns what one scope binds and leaves all other objects and scopes as they are.
* `Heap.CallBinds`: what a name is bound to in the scope of a call.
* `Heap.bindCall_binds`: a call adds one scope, inside the one that the function closes over, which binds every name as
  it should, and changes nothing that was there before.
-/

namespace Stepwise

/-- The name of a function, as a text. -/
def Callable.ownName (c : Callable) : String := (c.name.map Identifier.name).getD ""

/-- A function that is declared has a name. -/
theorem Block.exists_name_of_declared {b : Block} {d : Callable} (hd : d ∈ declaredFunctions b.declarations) :
    ∃ name, d.name = some name := by
  obtain ⟨declaration, hm, hd⟩ := List.mem_filterMap.1 hd
  have hm : declaration ∈ (Node.stmt (.block b)).declarations := hm
  refine Node.declared_cases (P := fun declaration => declaration.callable? = some d → ∃ name, d.name = some name) hm ?_ ?_ hd
  · nofun
  · rintro l name params body ⟨⟩
    exact ⟨name, rfl⟩

namespace Heap

variable {h h' h'' : Heap} {scope id : ObjectId} {x : String} {v : Value}

/-! ### What a scope alone concerns -/

/-- The second heap has all scopes of the first, and all objects but one as they are there. -/
structure Spares (scope : ObjectId) (h h' : Heap) : Prop where
  object : ∀ {id o}, id ≠ scope → h.object? id = some o → h'.object? id = some o
  scopes : h'.scopes = h.scopes

namespace Spares

@[refl] theorem refl (h : Heap) : h.Spares scope h := ⟨fun _ ho => ho, rfl⟩

theorem trans (e : Spares scope h h') (e' : Spares scope h' h'') : Spares scope h h'' :=
  ⟨fun hne ho => e'.object hne (e.object hne ho), e'.scopes.trans e.scopes⟩

end Spares

theorem Extends.spares (e : h.Extends h') : Spares scope h h' := ⟨fun _ ho => e.object ho, e.scopes⟩

theorem spares_declare (hf : h.Filed) (scope : ObjectId) (name : String) (v : Value) :
    Spares scope h (h.declare scope name v) := by
  unfold declare modify
  split
  · rename_i o ho
    have hid : (o.put name v).id = scope := (hf.object ho).1
    refine ⟨fun hne hp => ?_, rfl⟩
    rw [object?_store, hid, if_neg (Ne.symm hne)]
    exact hp
  · exact .refl h

/-- New objects bind nothing in the scopes that are there. -/
theorem Extends.binding? (e : h.Extends h') (hs : (h.object? scope).isSome) (x : String) :
    h'.binding? scope x = h.binding? scope x := by
  obtain ⟨o, ho⟩ := Option.isSome_iff_exists.1 hs
  unfold Heap.binding?
  rw [ho, e.object ho]

/-! ### Making functions -/

/-- An object that the first heap does not have is in the second a function that closes over a scope. -/
structure MadeClosure (h h' : Heap) (c : Callable) (scope id : ObjectId) : Prop where
  new : h.object? id = none
  object : ∃ o, h'.object? id = some o ∧ o.cls = .function ∧
    o.func = some ⟨c.ownName, .closure c.loc.id scope, c.params.length⟩

/-- A function that was made later than some heap is not in it, and stays what it is. -/
theorem MadeClosure.widen {c : Callable} {h₁ h₂ : Heap} (hm : MadeClosure h₁ h₂ c scope id) (g : h.Grows h₁)
    (hne : id ≠ scope) (e : Spares scope h₂ h') : MadeClosure h h' c scope id where
  new := by
    rw [← Option.not_isSome_iff_eq_none]
    intro hs
    have hlater := g.isSome_object? hs
    rw [hm.new] at hlater
    cases hlater
  object := by
    obtain ⟨o, ho, hcls, hfunc⟩ := hm.object
    exact ⟨o, e.object hne ho, hcls, hfunc⟩

theorem extends_newClosure (hf : h.Filed) (c : Callable) (scope : ObjectId) : h.Extends (h.newClosure c scope).2 := by
  let info : FunctionInfo := ⟨c.ownName, .closure c.loc.id scope, c.params.length⟩
  let o : Object := { id := 0, cls := .function, proto := h.intrinsic Intrinsic.functionPrototype, func := some info }
  have hnamed : ∀ f, o.func = some f → f.IsNamed := by
    rintro f ⟨⟩
    simp [info, FunctionInfo.IsNamed]
  have hfunction : (h.add o).2.Filed := (keeps_add h o hnamed hf).1
  have hproto : (h.add o).2.newPlain.2.Filed := (keeps_newPlain _ hfunction).1
  have e : h.Extends (h.add o).2.newPlain.2 := (Extends.add hf o).trans (Extends.add hfunction _)
  have hnext : h.object? (h.next + 1) = none := by
    cases hn : h.object? (h.next + 1) with
    | none => rfl
    | some p => exact absurd (hf.object hn).2.2 (by lia)
  refine (e.modify hnext hproto fun o => o.alike_putHidden "constructor" (.object h.next)).modify hf.object?_next ?_
    fun o => o.alike_putHidden "prototype" (.object (h.next + 1))
  exact (keeps_putHidden _ _ _ _ hproto).1

theorem made_newClosure (hf : h.Filed) (c : Callable) (scope : ObjectId) :
    MadeClosure h (h.newClosure c scope).2 c scope (h.newClosure c scope).1 := by
  let info : FunctionInfo := ⟨c.ownName, .closure c.loc.id scope, c.params.length⟩
  let o : Object := { id := 0, cls := .function, proto := h.intrinsic Intrinsic.functionPrototype, func := some info }
  have hnamed : ∀ f, o.func = some f → f.IsNamed := by
    rintro f ⟨⟩
    simp [info, FunctionInfo.IsNamed]
  have hadd : (h.add o).2.object? h.next = some { o with id := h.next } := by
    rw [object?_add, if_pos rfl]
  -- the prototype comes after the function
  have k : (h.add o).2.Keeps (h.newClosure c scope).2 :=
    (keeps_newPlain _).trans ((keeps_putHidden _ _ _ _).trans (keeps_putHidden _ _ _ _))
  obtain ⟨o', ho', ha⟩ := (k (keeps_add h o hnamed hf).1).2.object hadd
  exact ⟨hf.object?_next, o', ho', ha.cls, ha.func⟩

theorem Filed.ne_next (hf : h.Filed) (hs : (h.object? scope).isSome) : h.next ≠ scope := by
  rintro rfl
  rw [hf.object?_next] at hs
  cases hs

/-! ### What the parts of a call bind -/

theorem spares_declareFunction (hf : h.Filed) (scope : ObjectId) (c : Callable) :
    Spares scope h (h.declareFunction scope c) :=
  (extends_newClosure hf c scope).spares.trans (spares_declare (keeps_newClosure h c scope hf).1 scope _ _)

theorem spares_foldl {α : Type} {f : Heap → α → Heap} (hk : ∀ (h : Heap) a, h.Keeps (f h a))
    (he : ∀ (h : Heap) a, h.Filed → Spares scope h (f h a)) (l : List α) (hf : h.Filed) : Spares scope h (l.foldl f h) := by
  induction l generalizing h with
  | nil => exact .refl h
  | cons a l ih =>
    rw [List.foldl_cons]
    exact (he h a hf).trans (ih (hk h a hf).1)

theorem binding?_declareFunction (hf : h.Filed) (hs : (h.object? scope).isSome) (c : Callable) (x : String) :
    (h.declareFunction scope c).binding? scope x =
      if x = c.ownName then some (.object h.next) else h.binding? scope x := by
  obtain ⟨hf', g⟩ := keeps_newClosure h c scope hf
  have hbinding : (h.declareFunction scope c).binding? scope x =
      if scope = scope ∧ x = c.ownName then some (.object h.next) else (h.newClosure c scope).2.binding? scope x :=
    binding?_declare hf' (g.isSome_object? hs) _ _ scope x
  rw [hbinding, (extends_newClosure hf c scope).binding? hs]
  simp only [true_and]

/-- Of functions that are declared with the same name, the last one is left. -/
theorem binding?_declareFunctions (hf : h.Filed) (hs : (h.object? scope).isSome) (ds : List Callable) (x : String) :
    ((∀ d ∈ ds, d.ownName ≠ x) ∧ (ds.foldl (·.declareFunction scope ·) h).binding? scope x = h.binding? scope x) ∨
      ∃ earlier d later id, ds = earlier ++ d :: later ∧ d.ownName = x ∧ (∀ e ∈ later, e.ownName ≠ x) ∧
        MadeClosure h (ds.foldl (·.declareFunction scope ·) h) d scope id ∧
        (ds.foldl (·.declareFunction scope ·) h).binding? scope x = some (.object id) := by
  induction ds generalizing h with
  | nil => exact .inl ⟨nofun, rfl⟩
  | cons d ds ih =>
    rw [List.foldl_cons]
    obtain ⟨hf', g⟩ := keeps_declareFunction h scope d hf
    have hs' := g.isSome_object? hs
    have hrest : Spares scope (h.declareFunction scope d) (ds.foldl (·.declareFunction scope ·) (h.declareFunction scope d)) :=
      spares_foldl (fun h c => keeps_declareFunction h scope c) (fun h c hf => spares_declareFunction hf scope c) ds hf'
    have hbinding := binding?_declareFunction hf hs d x
    rcases ih hf' hs' with ⟨hother, he⟩ | ⟨earlier, e, later, id, rfl, hname, hlater, hmade, he⟩
    · by_cases hname : d.ownName = x
      · refine .inr ⟨[], d, ds, h.next, rfl, hname, hother, ?_, ?_⟩
        · exact (made_newClosure hf d scope).widen (.refl h) (hf.ne_next hs)
            ((spares_declare (keeps_newClosure h d scope hf).1 scope _ _).trans hrest)
        · rw [he, hbinding, if_pos hname.symm]
      · exact .inl ⟨List.forall_mem_cons.2 ⟨hname, hother⟩, by rw [he, hbinding, if_neg (Ne.symm hname)]⟩
    · refine .inr ⟨d :: earlier, e, later, id, rfl, hname, hlater, hmade.widen g ?_ (.refl _), he⟩
      rintro rfl
      rw [hmade.new] at hs'
      cases hs'

/-- Names that are bound keep their values when they are declared. -/
theorem binding?_declareMissings (hf : h.Filed) (hs : (h.object? scope).isSome) (names : List String) (x : String) :
    (names.foldl (·.declareMissing scope ·) h).binding? scope x =
      (h.binding? scope x).or (if x ∈ names then some .undefined else none) := by
  have hone {h : Heap} (hf : h.Filed) (hs : (h.object? scope).isSome) (name : String) :
      (h.declareMissing scope name).binding? scope x =
        (h.binding? scope x).or (if x = name then some .undefined else none) := by
    unfold declareMissing
    split
    · rename_i hbound
      obtain ⟨u, hu⟩ := Option.isSome_iff_exists.1 hbound
      split
      · rename_i he
        rw [he, hu]
        rfl
      · rw [Option.or_none]
    · rename_i hfree
      rw [binding?_declare hf hs]
      split
      · rename_i he
        rw [if_pos he.2, he.2, Option.not_isSome_iff_eq_none.1 hfree, Option.none_or]
      · rename_i hne
        rw [if_neg fun he => hne ⟨rfl, he⟩, Option.or_none]
  induction names generalizing h with
  | nil => simp
  | cons name names ih =>
    obtain ⟨hf', g⟩ := keeps_declareMissing h scope name hf
    rw [List.foldl_cons, ih hf' (g.isSome_object? hs), hone hf hs, Option.or_assoc]
    congr 1
    by_cases he : x = name <;> simp [he]

/-- Declarations bind functions before variables, and leave other names that are bound. -/
theorem binding?_hoist (hf : h.Filed) (hs : (h.object? scope).isSome) (ds : List Declaration) (x : String) :
    ((∀ d ∈ declaredFunctions ds, d.ownName ≠ x) ∧
        (h.hoist ds scope).binding? scope x = (h.binding? scope x).or (if x ∈ localNames ds then some .undefined else none)) ∨
      ∃ earlier d later id, declaredFunctions ds = earlier ++ d :: later ∧ d.ownName = x ∧
        (∀ e ∈ later, e.ownName ≠ x) ∧ MadeClosure h (h.hoist ds scope) d scope id ∧
        (h.hoist ds scope).binding? scope x = some (.object id) := by
  obtain ⟨hf', g⟩ := Keeps.foldl (fun h name => keeps_declareMissing h scope name) (localNames ds) h hf
  have hs' := g.isSome_object? hs
  rw [← binding?_declareMissings hf hs (localNames ds) x]
  refine (binding?_declareFunctions hf' hs' (declaredFunctions ds) x).imp_right ?_
  rintro ⟨earlier, d, later, id, hd, hname, hlater, hmade, he⟩
  refine ⟨earlier, d, later, id, hd, hname, hlater, hmade.widen g ?_ (.refl _), he⟩
  rintro rfl
  rw [hmade.new] at hs'
  cases hs'

theorem spares_hoist (hf : h.Filed) (scope : ObjectId) (ds : List Declaration) : Spares scope h (h.hoist ds scope) := by
  have hvariables : Spares scope h ((localNames ds).foldl (·.declareMissing scope ·) h) := by
    refine spares_foldl (fun h name => keeps_declareMissing h scope name) (fun h name hf => ?_) (localNames ds) hf
    unfold declareMissing
    split
    · exact .refl h
    · exact spares_declare hf scope name .undefined
  have hf' := (Keeps.foldl (fun h name => keeps_declareMissing h scope name) (localNames ds) h hf).1
  exact hvariables.trans (spares_foldl (fun h c => keeps_declareFunction h scope c)
    (fun h c hf => spares_declareFunction hf scope c) (declaredFunctions ds) hf')

theorem bindParams_cons (h : Heap) (scope : ObjectId) (p : Identifier) (ps : List Identifier) (args : List Value) :
    h.bindParams scope (p :: ps) args =
      (h.declare scope p.name (args.head?.getD .undefined)).bindParams scope ps args.tail := by
  cases args <;> rfl

theorem spares_bindParams (hf : h.Filed) (scope : ObjectId) (params : List Identifier) (args : List Value) :
    Spares scope h (h.bindParams scope params args) := by
  induction params generalizing h args with
  | nil => exact .refl h
  | cons p params ih =>
    rw [bindParams_cons]
    exact (spares_declare hf scope _ _).trans (ih (keeps_declare h scope _ _ hf).1 _)

/-- Of parameters with the same name, the last one is left. -/
theorem binding?_bindParams (hf : h.Filed) (hs : (h.object? scope).isSome) (params : List Identifier) (args : List Value)
    (x : String) :
    ((∀ p ∈ params, p.name ≠ x) ∧ (h.bindParams scope params args).binding? scope x = h.binding? scope x) ∨
      ∃ before p after, params = before ++ p :: after ∧ p.name = x ∧ (∀ q ∈ after, q.name ≠ x) ∧
        (h.bindParams scope params args).binding? scope x = some (args[before.length]?.getD .undefined) := by
  induction params generalizing h args with
  | nil => exact .inl ⟨nofun, rfl⟩
  | cons p params ih =>
    rw [bindParams_cons]
    obtain ⟨hf', g⟩ := keeps_declare h scope p.name (args.head?.getD .undefined) hf
    have hbinding := binding?_declare hf hs p.name (args.head?.getD .undefined) scope x
    simp only [true_and] at hbinding
    rcases ih hf' (g.isSome_object? hs) args.tail with ⟨hother, he⟩ | ⟨before, q, after, rfl, hname, hafter, he⟩
    · by_cases hname : p.name = x
      · refine .inr ⟨[], p, params, rfl, hname, hother, ?_⟩
        rw [he, hbinding, if_pos hname.symm, List.length_nil, List.head?_eq_getElem?]
      · exact .inl ⟨List.forall_mem_cons.2 ⟨hname, hother⟩, by rw [he, hbinding, if_neg (Ne.symm hname)]⟩
    · refine .inr ⟨p :: before, q, after, rfl, hname, hafter, ?_⟩
      rw [he, List.getElem?_tail, List.length_cons]

/-! ### Calls -/

/-- What a name is bound to in the scope of a call, which made the second heap from the first one. A function that is
declared comes before a parameter, a parameter before the receiver and the object with the arguments. -/
inductive CallBinds (h h' : Heap) (scope : ObjectId) (c : Callable) (this : Value) (args : List Value) (x : String) :
    Option Value → Prop where
  | function {earlier later : List Callable} {d : Callable} {name : Identifier} {id : ObjectId}
    (hd : declaredFunctions c.body.declarations = earlier ++ d :: later) (hn : d.name = some name) (hx : name.name = x)
    (hlast : ∀ e ∈ later, e.name.map Identifier.name ≠ some x) (hmade : MadeClosure h h' d scope id) :
    CallBinds h h' scope c this args x (some (.object id))
  | param {before after : List Identifier} {p : Identifier}
    (hd : ∀ d ∈ declaredFunctions c.body.declarations, d.name.map Identifier.name ≠ some x)
    (hp : c.params = before ++ p :: after) (hx : p.name = x) (hlast : ∀ q ∈ after, q.name ≠ x) :
    CallBinds h h' scope c this args x (some (args[before.length]?.getD .undefined))
  | receiver (hd : ∀ d ∈ declaredFunctions c.body.declarations, d.name.map Identifier.name ≠ some x)
    (hp : ∀ p ∈ c.params, p.name ≠ x) (hx : x = "this") : CallBinds h h' scope c this args x (some this)
  | arguments {id : ObjectId} {o : Object}
    (hd : ∀ d ∈ declaredFunctions c.body.declarations, d.name.map Identifier.name ≠ some x)
    (hp : ∀ p ∈ c.params, p.name ≠ x) (hx : x = "arguments") (hnew : h.object? id = none)
    (ho : h'.object? id = some o) (hcls : o.cls = .arguments) (helems : o.elems = args.toArray)
    (hproto : o.proto = h.intrinsic Intrinsic.objectPrototype) :
    CallBinds h h' scope c this args x (some (.object id))
  | variable (hd : ∀ d ∈ declaredFunctions c.body.declarations, d.name.map Identifier.name ≠ some x)
    (hp : ∀ p ∈ c.params, p.name ≠ x) (hx : x ≠ "this" ∧ x ≠ "arguments") (hl : x ∈ c.body.locals) :
    CallBinds h h' scope c this args x (some .undefined)
  | free (hp : ∀ p ∈ c.params, p.name ≠ x) (hx : x ≠ "this" ∧ x ≠ "arguments") (hl : x ∉ c.body.locals) :
    CallBinds h h' scope c this args x none

/-- The receiver and the object with the arguments are bound first. -/
theorem binding?_receiver (hf : h.Filed) (hs : (h.object? scope).isSome) (this : Value) {o : Object} (ho : o.func = none)
    (x : String) :
    (((h.declare scope "this" this).add o).2.declare scope "arguments"
        (.object (h.declare scope "this" this).next)).binding? scope x =
      if x = "arguments" then some (.object (h.declare scope "this" this).next)
      else if x = "this" then some this else h.binding? scope x := by
  obtain ⟨hf₁, g₁⟩ := keeps_declare h scope "this" this hf
  obtain ⟨hf₂, g₂⟩ := keeps_add (h.declare scope "this" this) o (by simp [ho]) hf₁
  have hs₁ := g₁.isSome_object? hs
  rw [binding?_declare hf₂ (g₂.isSome_object? hs₁), (Extends.add hf₁ o).binding? hs₁, binding?_declare hf hs]
  simp only [true_and]

/-- A new scope binds nothing, and all objects stay as they are. -/
theorem object?_newScope (h : Heap) (parent : ObjectId) (strict : Bool) (id : ObjectId) :
    (h.newScope parent strict).2.object? id =
      if h.next = id then some { id := h.next, cls := .object, proto := 0 } else h.object? id :=
  object?_add h _ id

theorem intrinsics_modify (h : Heap) (id : ObjectId) (f : Object → Object) : (h.modify id f).intrinsics = h.intrinsics := by
  unfold modify
  split <;> rfl

/-- A call of a function of the source adds one scope, inside the one that the function closes over. There, every name is
bound as it should, and what is neither receiver nor argument nor declared is not bound. All objects and scopes that
were there before are as they were. -/
theorem bindCall_binds (hf : h.Filed) (closure : ObjectId) (c : Callable) (this : Value) (args : List Value) :
    let scope := (h.bindCall closure c this args).1
    let h' := (h.bindCall closure c this args).2
    h.object? scope = none ∧ h.scope? scope = none ∧ h'.scope? scope = some ⟨scope, closure, true⟩ ∧
      (∀ id ≠ scope, h'.scope? id = h.scope? id) ∧ (∀ id o, h.object? id = some o → h'.object? id = some o) ∧
      ∀ x, CallBinds h h' scope c this args x (h'.binding? scope x) := by
  intro scope h'
  let h₀ := (h.newScope closure true).2
  let h₁ := h₀.declare scope "this" this
  let o : Object := { id := 0, cls := .arguments, proto := h₁.intrinsic Intrinsic.objectPrototype, elems := args.toArray }
  let h₂ := (h₁.add o).2
  let h₃ := h₂.declare scope "arguments" (.object h₁.next)
  let h₄ := h₃.bindParams scope c.params args
  have hlast : h' = h₄.hoist c.body.declarations scope := rfl
  have hfresh : h.object? scope = none := hf.object?_next
  have hproto : o.proto = h.intrinsic Intrinsic.objectPrototype := by
    show h₁.intrinsics[Intrinsic.objectPrototype]?.getD 0 = _
    rw [show h₁.intrinsics = h₀.intrinsics from intrinsics_modify h₀ scope _]
    rfl
  obtain ⟨hf₀, g₀⟩ := keeps_newScope h closure true hf
  obtain ⟨hf₁, g₁⟩ := keeps_declare h₀ scope "this" this hf₀
  obtain ⟨hf₂, g₂⟩ := keeps_add h₁ o (by simp [o]) hf₁
  obtain ⟨hf₃, g₃⟩ := keeps_declare h₂ scope "arguments" (.object h₁.next) hf₂
  obtain ⟨hf₄, g₄⟩ := keeps_bindParams h₃ scope c.params args hf₃
  have hobject : h₀.object? scope = some { id := scope, cls := .object, proto := 0 } := by
    rw [show h₀.object? scope = _ from object?_newScope h closure true scope]
    exact if_pos rfl
  have hs₀ : (h₀.object? scope).isSome := by rw [hobject]; rfl
  have hs₁ := g₁.isSome_object? hs₀
  have hs₂ := g₂.isSome_object? hs₁
  have hs₃ := g₃.isSome_object? hs₂
  have hs₄ := g₄.isSome_object? hs₃
  have hafter : Spares scope h₂ h' := (spares_declare hf₂ scope "arguments" _).trans
    ((spares_bindParams hf₃ scope c.params args).trans (spares_hoist hf₄ scope _))
  have hspares : Spares scope h₀ h' :=
    (spares_declare hf₀ scope "this" this).trans ((Extends.add hf₁ o).spares.trans hafter)
  have hscope (id : ObjectId) : h'.scope? id = if scope = id then some ⟨scope, closure, true⟩ else h.scope? id := by
    rw [show h'.scope? id = h₀.scope? id from congrArg (·[id]?) hspares.scopes]
    exact scope?_addScope _ _ id
  refine ⟨hfresh, hf.scope?_next, by rw [hscope, if_pos rfl], fun id hne => by rw [hscope, if_neg (Ne.symm hne)],
    fun id p hp => ?_, fun x => ?_⟩
  · have hne : scope ≠ id := by
      rintro rfl
      rw [hfresh] at hp
      cases hp
    exact hspares.object (Ne.symm hne) ((object?_newScope h closure true id).trans ((if_neg hne).trans hp))
  · -- the binding of a name, from the last change back to the first
    have hnone (d : Callable) (hd : d.ownName ≠ x) : d.name.map Identifier.name ≠ some x := fun hn =>
      hd (by unfold Callable.ownName; rw [hn]; rfl)
    rcases binding?_hoist hf₄ hs₄ c.body.declarations x with ⟨hd, hb⟩ | ⟨earlier, d, later, id, hd, hn, hlater, hmade, hb⟩
    · have hd' (d : Callable) (hm : d ∈ declaredFunctions c.body.declarations) := hnone d (hd d hm)
      rcases binding?_bindParams hf₃ hs₃ c.params args x with ⟨hp, hb'⟩ | ⟨before, p, after, hp, hn, hafter, hb'⟩
      · have hb'' := hb'.trans (binding?_receiver hf₀ hs₀ this (o := o) rfl x)
        have hempty : h₀.binding? scope x = none := by
          unfold Heap.binding?
          rw [hobject]
          exact Std.ExtTreeMap.getElem?_empty
        rw [hempty] at hb''
        rw [hlast, hb, hb'']
        by_cases harguments : x = "arguments"
        · rw [if_pos harguments]
          refine .arguments (o := { o with id := h₁.next }) hd' hp harguments ?_
            (hafter.object (hf₁.ne_next hs₁) ?_) rfl rfl hproto
          · rw [← Option.not_isSome_iff_eq_none]
            intro hs
            have hnext := (g₀.trans g₁).isSome_object? hs
            rw [hf₁.object?_next] at hnext
            cases hnext
          · exact (object?_add h₁ o h₁.next).trans (if_pos rfl)
        · rw [if_neg harguments]
          by_cases hthis : x = "this"
          · rw [if_pos hthis]
            exact .receiver hd' hp hthis
          · rw [if_neg hthis, Option.none_or]
            split
            · exact .variable hd' hp ⟨hthis, harguments⟩ ‹_›
            · exact .free hp ⟨hthis, harguments⟩ ‹_›
      · rw [hlast, hb, hb']
        exact .param hd' hp hn hafter
    · obtain ⟨name, hname⟩ := Block.exists_name_of_declared (b := c.body) (d := d) (by rw [hd]; simp)
      rw [hlast, hb]
      refine .function hd hname ?_ (fun e he => hnone e (hlater e he)) (hmade.widen ?_ ?_ (.refl _))
      · rw [← hn, Callable.ownName, hname]
        rfl
      · exact g₀.trans (g₁.trans (g₂.trans (g₃.trans g₄)))
      · rintro rfl
        rw [hmade.new] at hs₄
        cases hs₄

/-- Names that coincide: a parameter and a variable, a parameter and the object with the arguments, a parameter and two
functions. -/
theorem bindCall_binds_shadowed :
    ∃ (h : Heap) (c : Callable),
      let r := h.bindCall 1 c .null [.string "one", .string "two", .string "three"]
      h.Filed ∧ c.params.map Identifier.name = ["a", "arguments", "b"] ∧ c.body.locals = ["a", "d", "b"] ∧
        ["this", "a", "arguments", "d"].map (fun x => (r.2.binding? r.1 x).map Value.text) =
          [some "null", some "one", some "two", some "undefined"] ∧
        ((r.2.binding? r.1 "b").bind r.2.deref?).bind (fun o => o.func.map FunctionInfo.length) = some 2 ∧
        h.object? r.1 = none ∧ h.scope? r.1 = none ∧ r.2.scope? r.1 = some ⟨r.1, 1, true⟩ ∧
        (∀ id ≠ r.1, r.2.scope? id = h.scope? id) ∧ (∀ id o, h.object? id = some o → r.2.object? id = some o) ∧
        ∀ x, CallBinds h r.2 r.1 c .null [.string "one", .string "two", .string "three"] x (r.2.binding? r.1 x) := by
  let source := "function f(a, arguments, b) { var a, d; function b() {} function b(x, y) {} }"
  let program := (Program.ofSource source).toOption.getD default
  let c := (declaredFunctions program.declarations).headD default
  let h := (empty.newScope 0 true).2
  let r := h.bindCall 1 c .null [.string "one", .string "two", .string "three"]
  have hw : h.WellFormed := by decide +kernel
  have hnames : c.params.map Identifier.name = ["a", "arguments", "b"] ∧ c.body.locals = ["a", "d", "b"] ∧
      ["this", "a", "arguments", "d"].map (fun x => (r.2.binding? r.1 x).map Value.text) =
        [some "null", some "one", some "two", some "undefined"] ∧
      ((r.2.binding? r.1 "b").bind r.2.deref?).bind (fun o => o.func.map FunctionInfo.length) = some 2 := by
    decide +kernel
  obtain ⟨hparams, hlocals, htexts, hfunction⟩ := hnames
  clear_value h c
  exact ⟨h, c, hw.toFiled, hparams, hlocals, htexts, hfunction, bindCall_binds hw.toFiled 1 c .null _⟩

end Heap

end Stepwise

import Stepwise.Heap.Property
import Stepwise.Machine.Rule

/-!
# Heaps only grow

* `Heap.Filed`: objects and scopes are stored under their own identities, which lie below the next one.
* `Heap.Grows`: what a heap holds stays, and what is new has a new identity.
* `Heap.Keeps`: a change that keeps the first and obeys the second. Every operation on heaps does.
* `Heap.Extends`: all objects and scopes of a heap are in another as they were, and the other has further objects alone.
-/

namespace Stepwise

/-- Two versions of an object: their contents may differ, but not what they are. -/
structure Object.Alike (o o' : Object) : Prop where
  id : o'.id = o.id
  cls : o'.cls = o.cls
  proto : o'.proto = o.proto
  func : o'.func = o.func
  primitive : o'.primitive = o.primitive

/-- Whether a function is of the source, or native with a name. -/
def FunctionInfo.IsNamed (f : FunctionInfo) : Prop := f.code ≠ .native ""

namespace Heap

/-- Objects and scopes are stored under their own identities, scopes have bindings, and natives have
names. -/
structure Filed (h : Heap) : Prop where
  next_pos : 0 < h.next
  object : ∀ {id o}, h.object? id = some o → o.id = id ∧ 0 < id ∧ id < h.next
  scope : ∀ {id s}, h.scope? id = some s → s.id = id ∧ (h.object? id).isSome
  func : ∀ {id o f}, h.object? id = some o → o.func = some f → f.IsNamed

/-- What the first heap holds is still there in the second, and what is new has a new identity. -/
structure Grows (h h' : Heap) : Prop where
  next_le : h.next ≤ h'.next
  object : ∀ {id o}, h.object? id = some o → ∃ o', h'.object? id = some o' ∧ o.Alike o'
  scope : ∀ {id s}, h.scope? id = some s → h'.scope? id = some s
  new_object : ∀ {id}, h.object? id = none → (h'.object? id).isSome → h.next ≤ id
  new_scope : ∀ {id}, h.scope? id = none → (h'.scope? id).isSome → h.next ≤ id

/-- A change of a heap that leaves what is there in its place. -/
def Keeps (h h' : Heap) : Prop := h.Filed → h'.Filed ∧ h.Grows h'

end Heap

namespace Object

namespace Alike

@[refl] theorem refl (o : Object) : o.Alike o := ⟨rfl, rfl, rfl, rfl, rfl⟩

theorem trans {o o' o'' : Object} (h : o.Alike o') (h' : o'.Alike o'') : o.Alike o'' :=
  ⟨h'.id.trans h.id, h'.cls.trans h.cls, h'.proto.trans h.proto, h'.func.trans h.func,
    h'.primitive.trans h.primitive⟩

end Alike

theorem alike_put (o : Object) (key : String) (v : Value) : o.Alike (o.put key v) :=
  ⟨rfl, rfl, rfl, rfl, rfl⟩

theorem alike_putHidden (o : Object) (key : String) (v : Value) : o.Alike (o.putHidden key v) := by
  simp only [putHidden]
  split <;> exact ⟨rfl, rfl, rfl, rfl, rfl⟩

theorem alike_delete (o : Object) (key : String) : o.Alike (o.delete key) := by
  unfold delete
  split <;> exact ⟨rfl, rfl, rfl, rfl, rfl⟩

theorem alike_foldl {α : Type} {f : Object → α → Object} (hf : ∀ (o : Object) a, o.Alike (f o a)) (l : List α)
    (o : Object) : o.Alike (l.foldl f o) := by
  induction l generalizing o with
  | nil => exact .refl o
  | cons a l ih => exact (hf o a).trans (ih (f o a))

end Object

namespace Heap

variable {h h' h'' : Heap} {o : Object} {id : ObjectId}

namespace Grows

@[refl] theorem refl (h : Heap) : h.Grows h where
  next_le := Int.le_refl _
  object ho := ⟨_, ho, .refl _⟩
  scope hs := hs
  new_object hn hs := by simp [hn] at hs
  new_scope hn hs := by simp [hn] at hs

theorem trans (g : h.Grows h') (g' : h'.Grows h'') : h.Grows h'' where
  next_le := Int.le_trans g.next_le g'.next_le
  object ho := by
    obtain ⟨o', ho', ha⟩ := g.object ho
    obtain ⟨o'', ho'', ha'⟩ := g'.object ho'
    exact ⟨o'', ho'', ha.trans ha'⟩
  scope hs := g'.scope (g.scope hs)
  new_object {id} hn hs := by
    cases hm : h'.object? id with
    | none => exact Int.le_trans g.next_le (g'.new_object hm hs)
    | some o => exact g.new_object hn (by simp [hm])
  new_scope {id} hn hs := by
    cases hm : h'.scope? id with
    | none => exact Int.le_trans g.next_le (g'.new_scope hm hs)
    | some s => exact g.new_scope hn (by simp [hm])

/-- What a value refers to stays what it is. -/
theorem deref? {v : Value} (g : h.Grows h') (ho : h.deref? v = some o) :
    ∃ o', h'.deref? v = some o' ∧ o.Alike o' := by
  unfold Heap.deref? at *
  split at ho
  · exact g.object ho
  · cases ho

theorem isSome_object? (g : h.Grows h') (hs : (h.object? id).isSome) :
    (h'.object? id).isSome := by
  obtain ⟨o, ho⟩ := Option.isSome_iff_exists.1 hs
  obtain ⟨o', ho', -⟩ := g.object ho
  simp [ho']

theorem isSome_scope? (g : h.Grows h') (hs : (h.scope? id).isSome) :
    (h'.scope? id).isSome := by
  obtain ⟨s, hs⟩ := Option.isSome_iff_exists.1 hs
  simp [g.scope hs]

end Grows

namespace Keeps

@[refl, simp] theorem refl (h : Heap) : h.Keeps h := fun hf => ⟨hf, .refl h⟩

theorem trans (k : h.Keeps h') (k' : h'.Keeps h'') : h.Keeps h'' := fun hf =>
  have ⟨hf', g⟩ := k hf
  have ⟨hf'', g'⟩ := k' hf'
  ⟨hf'', g.trans g'⟩

theorem foldl {α : Type} {f : Heap → α → Heap} (hf : ∀ (h : Heap) a, h.Keeps (f h a)) (l : List α) (h : Heap) :
    h.Keeps (l.foldl f h) := by
  induction l generalizing h with
  | nil => exact .refl h
  | cons a l ih => exact (hf h a).trans (ih (f h a))

end Keeps

/-! ### Storing objects -/

theorem object?_store (h : Heap) (o : Object) (id : ObjectId) :
    (h.store o).object? id = if o.id = id then some o else h.object? id := by
  unfold object? store
  rw [Std.ExtTreeMap.getElem?_insert]
  simp [Std.LawfulEqCmp.compare_eq_iff_eq]

theorem scope?_store (h : Heap) (o : Object) (id : ObjectId) : (h.store o).scope? id = h.scope? id := rfl

/-- Storing a new version of an object keeps the heap. -/
theorem keeps_store {o' : Object} (ho : h.object? o.id = some o) (ha : o.Alike o') : h.Keeps (h.store o') := by
  intro hf
  have hid : o'.id = o.id := ha.id
  refine ⟨⟨hf.next_pos, ?_, ?_, ?_⟩, ⟨Int.le_refl _, ?_, fun hs => hs, ?_, ?_⟩⟩
  · intro id p hp
    rw [object?_store] at hp
    split at hp
    · cases hp
      have := hf.object ho
      rw [show (h.store o').next = h.next from rfl]
      lia
    · exact hf.object hp
  · intro id s hs
    obtain ⟨h0, h1⟩ := hf.scope hs
    refine ⟨h0, ?_⟩
    rw [object?_store]
    split
    · rfl
    · exact h1
  · intro id p f hp hpf
    rw [object?_store] at hp
    split at hp
    · cases hp
      exact hf.func ho (ha.func ▸ hpf)
    · exact hf.func hp hpf
  · intro id p hp
    rw [object?_store]
    split
    · rename_i he
      rw [← he, hid, ho] at hp
      cases hp
      exact ⟨o', rfl, ha⟩
    · exact ⟨p, hp, .refl p⟩
  · intro id hn hs
    rw [object?_store] at hs
    split at hs
    · rename_i he
      rw [← he, hid, ho] at hn
      cases hn
    · simp [hn] at hs
  · intro id hn hs
    rw [scope?_store, hn] at hs
    cases hs

/-- An object that a value refers to is stored under its own identity. -/
theorem Filed.object?_id {v : Value} (hf : h.Filed) (ho : h.deref? v = some o) : h.object? o.id = some o := by
  unfold deref? at ho
  split at ho
  · rw [(hf.object ho).1]; exact ho
  · cases ho

theorem keeps_store_deref {v : Value} {o' : Object} (ho : h.deref? v = some o) (ha : o.Alike o') :
    h.Keeps (h.store o') := fun hf => keeps_store (hf.object?_id ho) ha hf

theorem keeps_modify {f : Object → Object} (hf : ∀ o : Object, o.Alike (f o)) (h : Heap) (id : ObjectId) :
    h.Keeps (h.modify id f) := by
  unfold modify
  split
  · rename_i o ho
    exact keeps_store_deref (v := .object id) ho (hf o)
  · exact .refl h

theorem keeps_putHidden (h : Heap) (id : ObjectId) (key : String) (v : Value) :
    h.Keeps (h.modify id (·.putHidden key v)) := keeps_modify (·.alike_putHidden key v) h id

theorem keeps_declare (h : Heap) (scope : ObjectId) (name : String) (v : Value) :
    h.Keeps (h.declare scope name v) := keeps_modify (·.alike_put name v) h scope

theorem keeps_setIntrinsic (h : Heap) (name : String) (id : ObjectId) : h.Keeps (h.setIntrinsic name id) :=
  fun hf => ⟨⟨hf.next_pos, hf.object, hf.scope, hf.func⟩, ⟨Int.le_refl _, (Grows.refl h).object,
    (Grows.refl h).scope, (Grows.refl h).new_object, (Grows.refl h).new_scope⟩⟩

/-! ### Adding objects -/

/-- There is no object under the next identity. -/
theorem Filed.object?_next (hf : h.Filed) : h.object? h.next = none := by
  cases hn : h.object? h.next with
  | none => rfl
  | some o => have := hf.object hn; lia

theorem Filed.scope?_next (hf : h.Filed) : h.scope? h.next = none := by
  cases hn : h.scope? h.next with
  | none => rfl
  | some s => have := (hf.scope hn).2; simp [hf.object?_next] at this

theorem object?_add (h : Heap) (o : Object) (id : ObjectId) :
    (h.add o).2.object? id = if h.next = id then some { o with id := h.next } else h.object? id :=
  object?_store h { o with id := h.next } id

theorem keeps_add (h : Heap) (o : Object) (hn : ∀ f, o.func = some f → f.IsNamed) : h.Keeps (h.add o).2 := by
  intro hf
  have hpos := hf.next_pos
  have hnext : (h.add o).2.next = h.next + 1 := rfl
  refine ⟨⟨by lia, ?_, ?_, ?_⟩, ⟨by lia, ?_, fun hs => hs, ?_, ?_⟩⟩
  · intro id p hp
    rw [object?_add] at hp
    split at hp
    · cases hp
      dsimp only
      lia
    · have := hf.object hp
      lia
  · intro id s hs
    obtain ⟨h0, h1⟩ := hf.scope hs
    refine ⟨h0, ?_⟩
    rw [object?_add]
    split
    · rfl
    · exact h1
  · intro id p f hp hpf
    rw [object?_add] at hp
    split at hp
    · cases hp
      exact hn f hpf
    · exact hf.func hp hpf
  · intro id p hp
    rw [object?_add]
    split
    · rename_i he
      rw [← he, hf.object?_next] at hp
      cases hp
    · exact ⟨p, hp, .refl p⟩
  · intro id hn hs
    rw [object?_add] at hs
    split at hs
    · lia
    · simp [hn] at hs
  · intro id hn hs
    rw [show (h.add o).2.scope? id = h.scope? id from rfl, hn] at hs
    cases hs

theorem keeps_alloc (h : Heap) (cls : Class) (proto : ObjectId) : h.Keeps (h.alloc cls proto).2 :=
  keeps_add h _ (by simp)

theorem keeps_newPlain (h : Heap) : h.Keeps h.newPlain.2 := keeps_alloc h _ _

theorem keeps_newArray (h : Heap) (elems : Array Value) : h.Keeps (h.newArray elems).2 :=
  keeps_add h _ (by simp)

theorem keeps_newFunction (h : Heap) {f : FunctionInfo} (hf : f.IsNamed) : h.Keeps (h.newFunction f).2 := by
  have hadd (proto : ObjectId) : h.Keeps (h.add { id := 0, cls := .function, proto, func := some f }).2 :=
    keeps_add h _ (by rintro _ ⟨⟩; exact hf)
  obtain ⟨name, code, length⟩ := f
  cases code with
  | native => exact hadd _
  | closure =>
    exact (hadd _).trans ((keeps_newPlain _).trans ((keeps_putHidden _ _ _ _).trans (keeps_putHidden _ _ _ _)))

theorem keeps_newError (h : Heap) (type message : String) : h.Keeps (h.newError type message).2 := by
  refine keeps_add h _ ?_
  intro f hf
  rw [(Object.alike_putHidden _ _ _).func] at hf
  cases hf

/-! ### Scopes -/

theorem scope?_addScope (h : Heap) (s : Scope) (id : ObjectId) :
    (h.addScope s).scope? id = if s.id = id then some s else h.scope? id := by
  unfold scope? addScope
  rw [Std.ExtTreeMap.getElem?_insert]
  simp [Std.LawfulEqCmp.compare_eq_iff_eq]

/-- A scope may be added to an object that is new. -/
theorem keeps_addScope {s : Scope} (k : h.Keeps h') (hid : h.next ≤ s.id) (ho : (h'.object? s.id).isSome)
    (hs : h'.scope? s.id = none) : h.Keeps (h'.addScope s) := by
  intro hf
  obtain ⟨hf', g⟩ := k hf
  have hobj : ∀ id, (h'.addScope s).object? id = h'.object? id := fun _ => rfl
  refine ⟨⟨hf'.next_pos, hf'.object, ?_, hf'.func⟩, ⟨g.next_le, g.object, ?_, g.new_object, ?_⟩⟩
  · intro id t ht
    rw [scope?_addScope] at ht
    rw [hobj]
    split at ht
    · rename_i he
      cases ht
      exact ⟨he, he ▸ ho⟩
    · exact hf'.scope ht
  · intro id t ht
    rw [scope?_addScope]
    split
    · rename_i he
      rw [← he] at ht
      rw [g.scope ht] at hs
      cases hs
    · exact g.scope ht
  · intro id hn ht
    rw [scope?_addScope] at ht
    split at ht
    · lia
    · exact g.new_scope hn ht

theorem keeps_newScope (h : Heap) (parent : ObjectId) (strict : Bool) :
    h.Keeps (h.newScope parent strict).2 := by
  intro hf
  have k := keeps_alloc h .object 0
  have ho : ((h.alloc .object 0).2.object? h.next).isSome := by
    unfold alloc
    rw [object?_add]
    simp
  exact keeps_addScope (s := ⟨h.next, parent, strict⟩) k (Int.le_refl _) ho hf.scope?_next hf

theorem scope?_newScope (h : Heap) (parent : ObjectId) (strict : Bool) :
    (h.newScope parent strict).2.scope? (h.newScope parent strict).1 =
      some ⟨(h.newScope parent strict).1, parent, strict⟩ := by
  simp [newScope, scope?_addScope]

theorem keeps_assign {scope : ObjectId} {name : String} {v : Value} (ha : h.assign scope name v = .ok h') :
    h.Keeps h' := by
  simp only [assign] at ha
  split at ha
  · cases ha
    exact keeps_declare _ _ _ _
  · split at ha
    · split at ha <;> cases ha
      exact keeps_declare _ _ _ _
    · cases ha

/-! ### Properties -/

theorem alike_putOn {o' : Object} {key : String} {v : Value} (ho : h.putOn o key v = .ok o') : o.Alike o' := by
  unfold putOn at ho
  split at ho
  · split at ho
    · split at ho <;> cases ho
      exact ⟨rfl, rfl, rfl, rfl, rfl⟩
    · split at ho <;> cases ho <;> exact ⟨rfl, rfl, rfl, rfl, rfl⟩
  · split at ho
    · split at ho <;> cases ho
      exact ⟨rfl, rfl, rfl, rfl, rfl⟩
    · split at ho <;> cases ho <;> exact ⟨rfl, rfl, rfl, rfl, rfl⟩
  · split at ho <;> cases ho
    exact ⟨rfl, rfl, rfl, rfl, rfl⟩
  · cases ho
    exact ⟨rfl, rfl, rfl, rfl, rfl⟩

theorem keeps_put {target v : Value} {key : String} (hp : h.put target key v = .ok h') : h.Keeps h' := by
  unfold put at hp
  split at hp
  · rename_i o ho
    cases hq : h.putOn o key v with
    | error t => rw [hq] at hp; cases hp
    | ok o' =>
      rw [hq] at hp
      cases hp
      exact keeps_store_deref ho (alike_putOn hq)
  · split at hp <;> cases hp

theorem alike_remove (o : Object) (key : String) : o.Alike (remove o key).1 := by
  unfold remove
  split
  · split
    · rfl
    · split
      · exact ⟨rfl, rfl, rfl, rfl, rfl⟩
      · exact o.alike_delete key
  · exact o.alike_delete key

/-! ### Functions and calls -/

theorem keeps_newClosure (h : Heap) (c : Callable) (scope : ObjectId) : h.Keeps (h.newClosure c scope).2 :=
  keeps_newFunction h (by simp [FunctionInfo.IsNamed])

theorem keeps_declareMissing (h : Heap) (scope : ObjectId) (name : String) :
    h.Keeps (h.declareMissing scope name) := by
  unfold declareMissing
  split
  · exact .refl h
  · exact keeps_declare _ _ _ _

theorem keeps_declareFunction (h : Heap) (scope : ObjectId) (c : Callable) :
    h.Keeps (h.declareFunction scope c) :=
  (keeps_newClosure h c scope).trans (keeps_declare _ _ _ _)

theorem keeps_hoist (h : Heap) (declarations : List Declaration) (scope : ObjectId) :
    h.Keeps (h.hoist declarations scope) :=
  (Keeps.foldl (fun h name => keeps_declareMissing h scope name) _ h).trans
    (Keeps.foldl (fun h c => keeps_declareFunction h scope c) _ _)

theorem keeps_evalFunction (h : Heap) (c : Callable) (scope : ObjectId) : h.Keeps (h.evalFunction c scope).2 := by
  unfold evalFunction
  split
  · exact keeps_newClosure h c scope
  · exact (keeps_newScope h scope true).trans ((keeps_newClosure _ c _).trans (keeps_declare _ _ _ _))

theorem keeps_bindParams (h : Heap) (scope : ObjectId) (params : List Identifier) (args : List Value) :
    h.Keeps (h.bindParams scope params args) := by
  induction params generalizing h args with
  | nil => exact .refl h
  | cons p params ih =>
    cases args with
    | nil => exact (keeps_declare _ _ _ _).trans (ih _ _)
    | cons v args => exact (keeps_declare _ _ _ _).trans (ih _ _)

/-- What a call binds after its scope was added. -/
private theorem keeps_bindCall_rest (h : Heap) (closure : ObjectId) (c : Callable) (this : Value)
    (args : List Value) : (h.newScope closure true).2.Keeps (h.bindCall closure c this args).2 :=
  (keeps_declare _ _ _ _).trans ((keeps_add _ _ (by simp)).trans
    ((keeps_declare _ _ _ _).trans ((keeps_bindParams _ _ _ _).trans (keeps_hoist _ _ _))))

theorem keeps_bindCall (h : Heap) (closure : ObjectId) (c : Callable) (this : Value) (args : List Value) :
    h.Keeps (h.bindCall closure c this args).2 :=
  (keeps_newScope h closure true).trans (keeps_bindCall_rest h closure c this args)

/-- A call gets a new scope inside the scope that the function closes over. -/
theorem scope?_bindCall (hf : h.Filed) (closure : ObjectId) (c : Callable) (this : Value) (args : List Value) :
    (h.bindCall closure c this args).1 = h.next ∧
      (h.bindCall closure c this args).2.scope? h.next = some ⟨h.next, closure, true⟩ := by
  have hs := keeps_newScope h closure true hf
  exact ⟨rfl, (keeps_bindCall_rest h closure c this args hs.1).2.scope (scope?_newScope h closure true)⟩

/-! ### Heaps that are extended -/

/-- The second heap has all objects and scopes of the first as they are there, and new objects under new identities. -/
structure Extends (h h' : Heap) : Prop where
  next_le : h.next ≤ h'.next
  object : ∀ {id o}, h.object? id = some o → h'.object? id = some o
  new_object : ∀ {id}, h.object? id = none → (h'.object? id).isSome → h.next ≤ id
  scopes : h'.scopes = h.scopes

namespace Extends

@[refl] theorem refl (h : Heap) : h.Extends h := ⟨Int.le_refl _, id, fun hn hs => by simp [hn] at hs, rfl⟩

theorem trans (e : h.Extends h') (e' : h'.Extends h'') : h.Extends h'' where
  next_le := Int.le_trans e.next_le e'.next_le
  object ho := e'.object (e.object ho)
  new_object {id} hn hs := by
    cases hm : h'.object? id with
    | none => exact Int.le_trans e.next_le (e'.new_object hm hs)
    | some o => exact e.new_object hn (by simp [hm])
  scopes := e'.scopes.trans e.scopes

theorem add (hf : h.Filed) (o : Object) : h.Extends (h.add o).2 where
  next_le := Int.le_add_one (Int.le_refl _)
  object {id p} hp := by
    rw [object?_add, if_neg]
    · exact hp
    · rintro rfl
      rw [hf.object?_next] at hp
      cases hp
  new_object {id} hn hs := by
    rw [object?_add] at hs
    split at hs
    · exact Int.le_of_eq ‹_›
    · simp [hn] at hs
  scopes := rfl

/-- What is new may be changed. -/
theorem modify (e : h.Extends h') {id : ObjectId} (hn : h.object? id = none) {f : Object → Object}
    (hf : h'.Filed) (ha : ∀ o : Object, o.Alike (f o)) : h.Extends (h'.modify id f) := by
  unfold Heap.modify
  split
  · rename_i o ho
    have hid : (f o).id = id := (ha o).id.trans (hf.object ho).1
    refine ⟨e.next_le, fun {other p} hp => ?_, fun {other} hother hs => ?_, e.scopes⟩
    · rw [object?_store, if_neg]
      · exact e.object hp
      · rintro rfl
        rw [hid, hn] at hp
        cases hp
    · rw [object?_store] at hs
      split at hs
      · rename_i he
        exact e.new_object hother (by rw [← he, hid, ho]; rfl)
      · exact e.new_object hother hs
  · exact e

/-- What is added does not touch what is there. -/
theorem object?_eq (e : h.Extends h') (hid : id < h.next) : h'.object? id = h.object? id := by
  cases ho : h.object? id with
  | some o => exact e.object ho
  | none =>
    cases ho' : h'.object? id with
    | none => rfl
    | some o =>
      have := e.new_object ho (by rw [ho']; rfl)
      lia

end Extends

end Heap

end Stepwise

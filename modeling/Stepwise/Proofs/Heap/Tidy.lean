import Stepwise.Machine.Start
import Stepwise.Proofs.Heap.Install
import Stepwise.Proofs.Heap.Native

/-!
# Indices are no names

An object with elements keeps what it has under an index among its elements.

* `Object.Tidy`, `Heap.Tidy`: no such object stores a named property under an index, and names are bound in objects
  without elements.
* `Heap.Changes.tidies`: whatever natives and rules do to a heap, it stays tidy.
* `Library.tidy_install`: the heap of the library is tidy.
-/

namespace Stepwise

/-- An object with elements stores no property under an index. -/
def Object.Tidy (o : Object) : Prop := o.cls.hasElements → ∀ key ∈ o.keys, arrayIndex? key = none

instance (o : Object) : Decidable o.Tidy :=
  inferInstanceAs (Decidable (o.cls.hasElements = true → ∀ key ∈ o.keys, arrayIndex? key = none))

/-- The objects are tidy, and what binds the names of a scope stores no elements. -/
structure Heap.Tidy (h : Heap) : Prop extends h.Filed where
  tidy : ∀ {id o}, h.object? id = some o → o.Tidy
  names : ∀ {id s}, h.scope? id = some s → h.Names id

/-- A change that leaves a tidy heap tidy. -/
def Heap.Tidies (h h' : Heap) : Prop := h.Tidy → h'.Tidy

open Heap

/-! ### Objects -/

namespace Object

variable {o o' : Object} {h : Heap} {key : String} {v : Value}

theorem tidy_of_not_hasElements (hc : o.cls.hasElements = false) : o.Tidy := fun he => absurd he (by simp [hc])

theorem Tidy.of_keys (ht : o.Tidy) (hc : o'.cls = o.cls) (hk : ∀ k ∈ o'.keys, k ∈ o.keys) : o'.Tidy :=
  fun he k hm => ht (hc ▸ he) k (hk k hm)

theorem eq_or_mem_keys_of_put {k : String} (hm : k ∈ (o.put key v).keys) : k = key ∨ k ∈ o.keys := by
  unfold Object.put at hm
  dsimp only at hm
  split at hm
  · exact .inr hm
  · exact (List.mem_append.1 hm).symm.imp_left List.mem_singleton.1

theorem eq_or_mem_keys_of_putHidden {k : String} (hm : k ∈ (o.putHidden key v).keys) : k = key ∨ k ∈ o.keys := by
  simp only [Object.putHidden] at hm
  split at hm <;> exact eq_or_mem_keys_of_put (v := v) hm

theorem Tidy.put (ht : o.Tidy) (hk : arrayIndex? key = none) : (o.put key v).Tidy := by
  intro he k hm
  rcases eq_or_mem_keys_of_put hm with rfl | hm
  · exact hk
  · exact ht he k hm

theorem Tidy.putOn (ht : o.Tidy) (hp : h.putOn o key v = .ok o') : o'.Tidy := by
  have hcls := (alike_putOn hp).cls
  unfold Heap.putOn at hp
  split at hp
  case h_3 | h_4 => exact tidy_of_not_hasElements (by rw [hcls]; simp_all [Class.hasElements])
  all_goals
    split at hp
    · split at hp <;> cases hp
      exact ht.of_keys rfl fun _ hm => hm
    · split at hp <;> cases hp
      · exact ht.of_keys rfl fun _ hm => hm
      · exact ht.put ‹_›

theorem Tidy.remove (ht : o.Tidy) (key : String) : (remove o key).1.Tidy := by
  have hdelete : (o.delete key).Tidy := by
    unfold Object.delete
    split
    · exact ht.of_keys rfl fun _ hm => List.mem_of_mem_erase hm
    · exact ht
  unfold Heap.remove
  split
  · split
    · exact ht
    · split
      · exact ht.of_keys rfl fun _ hm => hm
      · exact hdelete
  · exact hdelete

end Object

/-! ### Heaps -/

namespace Heap

variable {h h' h'' : Heap} {o o' : Object} {id scope : ObjectId} {v : Value}

theorem Tidy.deref? (ht : h.Tidy) (ho : h.deref? v = some o) : o.Tidy := by
  unfold Heap.deref? at ho
  split at ho
  · exact ht.tidy ho
  · cases ho

/-- A heap is tidy after a change if its objects are, and if the new scopes have no elements. -/
theorem Tidy.of_keeps (ht : h.Tidy) (hk : h.Keeps h') (ho : ∀ {id o}, h'.object? id = some o → o.Tidy)
    (hs : ∀ {id}, h.scope? id = none → (h'.scope? id).isSome → h'.Names id) : h'.Tidy := by
  obtain ⟨hf, g⟩ := hk ht.toFiled
  refine ⟨hf, ho, fun {id s} hs' => ?_⟩
  cases hold : h.scope? id with
  | none => exact hs hold (by rw [hs']; rfl)
  | some t => exact (ht.names hold).mono g

namespace Tidies

@[refl] theorem refl (h : Heap) : h.Tidies h := id

theorem trans (t : h.Tidies h') (t' : h'.Tidies h'') : h.Tidies h'' := fun ht => t' (t ht)

end Tidies

theorem tidies_add (h : Heap) (ho : o.Tidy) (hn : ∀ f, o.func = some f → f.IsNamed) : h.Tidies (h.add o).2 := fun ht => by
  refine ht.of_keeps (keeps_add h o hn) (fun {id p} hp => ?_) fun {id} hn hs => ?_
  · rw [object?_add] at hp
    split at hp
    · cases hp
      exact ho
    · exact ht.tidy hp
  · rw [show (h.add o).2.scope? id = h.scope? id from rfl, hn] at hs
    cases hs

theorem tidies_store (ho : h.deref? v = some o) (ha : o.Alike o') (hk : o.Tidy → o'.Tidy) : h.Tidies (h.store o') :=
  fun ht => by
    refine ht.of_keeps (keeps_store_deref ho ha) (fun {id p} hp => ?_) fun {id} hn hs => ?_
    · rw [object?_store] at hp
      split at hp
      · cases hp
        exact hk (ht.deref? ho)
      · exact ht.tidy hp
    · rw [scope?_store, hn] at hs
      cases hs

theorem tidies_modify {f : Object → Object} (ha : ∀ o : Object, o.Alike (f o)) (hk : ∀ o : Object, o.Tidy → (f o).Tidy)
    (h : Heap) (id : ObjectId) : h.Tidies (h.modify id f) := by
  unfold modify
  split
  · rename_i o ho
    exact tidies_store (v := .object id) ho (ha o) (hk o)
  · exact .refl h

/-- What an object without elements stores does not matter. -/
theorem tidies_names {f : Object → Object} (ha : ∀ o : Object, o.Alike (f o)) (hn : h.Names id) :
    h.Tidies (h.modify id f) := by
  obtain ⟨o, ho, hc⟩ := hn
  unfold modify
  rw [ho]
  exact tidies_store (v := .object id) ho (ha o) fun _ => Object.tidy_of_not_hasElements (by rw [(ha o).cls, hc])

/-! ### Names -/

theorem Tidy.declare (ht : h.Tidy) (hs : (h.scope? scope).isSome) (name : String) (v : Value) :
    (h.declare scope name v).Tidy := by
  obtain ⟨s, hs⟩ := Option.isSome_iff_exists.1 hs
  exact tidies_names (·.alike_put name v) (ht.names hs) ht

theorem scope?_of_mem_enclosing (hf : h.Filed) {limit : Nat} {s : Scope} (hs : s ∈ h.enclosing limit id) :
    h.scope? s.id = some s := by
  induction limit generalizing id with
  | zero => cases hs
  | succ limit ih =>
    unfold enclosing at hs
    split at hs
    · cases hs
    · rename_i t ht
      rcases List.mem_cons.1 hs with rfl | hs
      · rw [(hf.scope ht).1, ht]
      · split at hs
        · cases hs
        · exact ih hs

theorem tidies_assign {name : String} (ha : h.assign scope name v = .ok h') : h.Tidies h' := fun ht => by
  have hscope {s : Scope} (hs : s ∈ h.scopeChain scope) : (h.declare s.id name v).Tidy :=
    ht.declare (by rw [scope?_of_mem_enclosing ht.toFiled hs]; rfl) name v
  simp only [assign] at ha
  split at ha
  · cases ha
    exact hscope (List.mem_of_find?_eq_some ‹_›)
  · split at ha
    · split at ha <;> cases ha
      exact hscope (List.mem_of_getLast? ‹_›)
    · cases ha

theorem tidies_put {target : Value} {key : String} (hp : h.put target key v = .ok h') : h.Tidies h' := by
  unfold put at hp
  split at hp
  · rename_i o ho
    cases hq : h.putOn o key v with
    | error t => rw [hq] at hp; cases hp
    | ok o' =>
      rw [hq] at hp
      cases hp
      exact tidies_store ho (alike_putOn hq) fun ht => ht.putOn hq
  · split at hp <;> cases hp

/-! ### New functions and scopes -/

theorem tidies_newFunction (h : Heap) {f : FunctionInfo} (hf : f.IsNamed) : h.Tidies (h.newFunction f).2 := fun ht => by
  let o : Object := { id := 0, cls := .function, proto := h.intrinsic Intrinsic.functionPrototype, func := some f }
  have hn : ∀ g, o.func = some g → g.IsNamed := by
    rintro _ ⟨⟩
    exact hf
  have hadd : (h.add o).2.Tidy := tidies_add h (Object.tidy_of_not_hasElements rfl) hn ht
  obtain ⟨name, code, length⟩ := f
  cases code with
  | native => exact hadd
  | closure =>
    have hown : (h.add o).2.Names (h.add o).1 := names_add h rfl
    have hproto : (h.add o).2.newPlain.2.Names (h.add o).2.newPlain.1 := names_add _ rfl
    have ht₁ : (h.add o).2.newPlain.2.Tidy := tidies_add _ (Object.tidy_of_not_hasElements rfl) (by simp) hadd
    have ht₂ := tidies_names (·.alike_putHidden "constructor" (.object (h.add o).1)) hproto ht₁
    have g := (keeps_newPlain (h.add o).2 hadd.toFiled).2.trans
      (keeps_putHidden _ (h.add o).2.newPlain.1 "constructor" (.object (h.add o).1) ht₁.toFiled).2
    exact tidies_names (·.alike_putHidden "prototype" (.object (h.add o).2.newPlain.1)) (hown.mono g) ht₂

theorem tidies_newClosure (h : Heap) (c : Callable) (scope : ObjectId) : h.Tidies (h.newClosure c scope).2 :=
  tidies_newFunction h (by simp [FunctionInfo.IsNamed])

theorem tidies_newScope (h : Heap) (parent : ObjectId) (strict : Bool) : h.Tidies (h.newScope parent strict).2 :=
  fun ht => by
    have ha : (h.alloc .object 0).2.Tidy := tidies_add h (Object.tidy_of_not_hasElements rfl) (by simp) ht
    refine ht.of_keeps (keeps_newScope h parent strict) (fun ho => ha.tidy ho) fun {id} hn hs => ?_
    have hs' : ((h.alloc .object 0).2.addScope ⟨h.next, parent, strict⟩).scope? id ≠ none :=
      Option.isSome_iff_ne_none.1 hs
    rw [scope?_addScope] at hs'
    split at hs'
    · rename_i he
      cases he
      have hnew : (h.alloc .object 0).2.Names h.next := names_add h rfl
      exact hnew
    · exact absurd hn hs'

/-- A change that is made again and again leaves a heap tidy, if it does so once. -/
theorem Tidy.foldl {α : Type} {f : Heap → α → Heap} (hk : ∀ (h : Heap) a, h.Keeps (f h a))
    (hf : ∀ {h : Heap} a, h.Tidy → (h.scope? scope).isSome → (f h a).Tidy) (l : List α) (ht : h.Tidy)
    (hs : (h.scope? scope).isSome) : (l.foldl f h).Tidy := by
  induction l generalizing h with
  | nil => exact ht
  | cons a l ih => exact ih (hf a ht hs) ((hk h a ht.toFiled).2.isSome_scope? hs)

theorem Tidy.hoist (ht : h.Tidy) (declarations : List Declaration) (hs : (h.scope? scope).isSome) :
    (h.hoist declarations scope).Tidy := by
  have hmissing (h : Heap) (name : String) : h.Keeps (h.declareMissing scope name) :=
    keeps_declareMissing h scope name
  have hnames : ((localNames declarations).foldl (·.declareMissing scope ·) h).Tidy := by
    refine .foldl hmissing (fun {h} name ht hs => ?_) _ ht hs
    unfold declareMissing
    split
    · exact ht
    · exact ht.declare hs name .undefined
  refine .foldl (fun h c => keeps_declareFunction h scope c) (fun {h} c ht hs => ?_) _ hnames
    ((Keeps.foldl hmissing _ h ht.toFiled).2.isSome_scope? hs)
  exact (tidies_newClosure h c scope ht).declare ((keeps_newClosure h c scope ht.toFiled).2.isSome_scope? hs) _ _

theorem tidies_evalFunction (h : Heap) (c : Callable) (scope : ObjectId) : h.Tidies (h.evalFunction c scope).2 :=
  fun ht => by
    unfold evalFunction
    split
    · exact tidies_newClosure h c scope ht
    · have ht₁ := tidies_newScope h scope true ht
      have hs : ((h.newScope scope true).2.scope? (h.newScope scope true).1).isSome := by
        rw [scope?_newScope]
        rfl
      have g := (keeps_newClosure _ c (h.newScope scope true).1 ht₁.toFiled).2
      exact (tidies_newClosure _ c _ ht₁).declare (g.isSome_scope? hs) _ _

theorem Tidy.bindParams (ht : h.Tidy) (hs : (h.scope? scope).isSome) (params : List Identifier) (args : List Value) :
    (h.bindParams scope params args).Tidy := by
  induction params generalizing h args with
  | nil => exact ht
  | cons p params ih =>
    have hdeclare (v : Value) := (keeps_declare h scope p.name v ht.toFiled).2.isSome_scope? hs
    cases args with
    | nil => exact ih (ht.declare hs p.name .undefined) (hdeclare _) []
    | cons v args => exact ih (ht.declare hs p.name v) (hdeclare _) args

theorem tidies_bindCall (h : Heap) (closure : ObjectId) (c : Callable) (this : Value) (args : List Value) :
    h.Tidies (h.bindCall closure c this args).2 := fun ht => by
  unfold bindCall
  have ht₁ := tidies_newScope h closure true ht
  have hs₁ : ((h.newScope closure true).2.scope? (h.newScope closure true).1).isSome := by
    rw [scope?_newScope]
    rfl
  generalize h.newScope closure true = r at ht₁ hs₁ ⊢
  obtain ⟨scope, h₁⟩ := r
  dsimp only at *
  have ht₂ := ht₁.declare hs₁ "this" this
  have hs₂ := (keeps_declare h₁ scope "this" this ht₁.toFiled).2.isSome_scope? hs₁
  generalize h₁.declare scope "this" this = h₂ at ht₂ hs₂ ⊢
  let o : Object := { id := 0, cls := .arguments, proto := h₂.intrinsic Intrinsic.objectPrototype, elems := args.toArray }
  have ho : o.Tidy := fun _ _ hm => absurd hm List.not_mem_nil
  have ht₃ : (h₂.add o).2.Tidy := tidies_add h₂ ho (by simp [o]) ht₂
  have hs₃ := (keeps_add h₂ o (by simp [o]) ht₂.toFiled).2.isSome_scope? hs₂
  have ht₄ := ht₃.declare hs₃ "arguments" (.object (h₂.add o).1)
  have hs₄ := (keeps_declare (h₂.add o).2 scope "arguments" (.object (h₂.add o).1) ht₃.toFiled).2.isSome_scope? hs₃
  have ht₅ := ht₄.bindParams hs₄ c.params args
  have hs₅ := (keeps_bindParams _ scope c.params args ht₄.toFiled).2.isSome_scope? hs₄
  exact ht₅.hoist c.body.declarations hs₅

/-! ### Every change -/

/-- What natives and rules do leaves a heap tidy. -/
theorem Changes.tidies (c : h.Changes h') : h.Tidies h' := by
  induction c with
  | refl h => exact .refl h
  | trans _ _ ih ih' => exact ih.trans ih'
  | add h hk hf => exact tidies_add h (fun _ _ hm => by rw [hk] at hm; cases hm) (by simp [hf])
  | error h type message =>
    refine tidies_add h (Object.tidy_of_not_hasElements ?_) fun f hf => ?_
    · rw [(Object.alike_putHidden _ _ _).cls]
      rfl
    · rw [(Object.alike_putHidden _ _ _).func] at hf
      cases hf
  | record h properties =>
    have hn : h.newPlain.2.Names h.newPlain.1 := names_add h rfl
    refine (tidies_add h (Object.tidy_of_not_hasElements rfl) (by simp)).trans (tidies_names (fun o => ?_) hn)
    exact Object.alike_foldl (fun o (p : String × Value) => o.alike_put p.1 p.2) properties o
  | function h c scope => exact tidies_evalFunction h c scope
  | call h closure c this args => exact tidies_bindCall h closure c this args
  | hide hn key v => exact tidies_names (·.alike_putHidden key v) hn
  | elements ho _ _ => exact tidies_store ho ⟨rfl, rfl, rfl, rfl, rfl⟩ fun ht => ht.of_keys rfl fun _ hm => hm
  | put hp => exact tidies_put hp
  | remove ho key => exact tidies_store ho (alike_remove _ key) fun ht => ht.remove key
  | assign ha => exact tidies_assign ha

end Heap

/-- The heap of the library is tidy. -/
theorem Library.tidy_install : Library.install.2.Tidy := by
  have hall : (Library.install.2.objects.toList.all fun e => decide e.2.Tidy) &&
      Library.install.2.scopes.toList.all fun e => (Library.install.2.object? e.1).any fun o => !o.cls.hasElements := by
    decide +kernel
  obtain ⟨hobjects, hscopes⟩ := Bool.and_eq_true_iff.1 hall
  refine ⟨Library.filed_install.1, fun {id o} ho => ?_, fun {id s} hs => ?_⟩
  · exact of_decide_eq_true (List.all_eq_true.1 hobjects (id, o) (Std.ExtTreeMap.mem_toList_iff_getElem?_eq_some.2 ho))
  · have hany := List.all_eq_true.1 hscopes (id, s) (Std.ExtTreeMap.mem_toList_iff_getElem?_eq_some.2 hs)
    obtain ⟨o, ho, hc⟩ := (Option.any_eq_true _ _).1 hany
    exact ⟨o, ho, by simpa using hc⟩

end Stepwise

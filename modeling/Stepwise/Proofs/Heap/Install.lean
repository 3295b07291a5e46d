import Stepwise.Proofs.Heap.Native

/-!
# The heap of the library

`Library.filed_install`: the objects that exist before a program runs are stored under their identities,
and the global scope, which lies in no other scope, is among them.
-/

namespace Stepwise.Library

open Heap

/-- Building that keeps what is in the heap. -/
def Build.Keeps {α : Type} (x : Build α) : Prop := ∀ h : Heap, h.Keeps (x h).2

namespace Build.Keeps

variable {α β : Type}

theorem bind {x : Build α} {k : α → Build β} (hx : Build.Keeps x) (hk : ∀ a, Build.Keeps (k a)) :
    Build.Keeps (x >>= k) := fun h => (hx h).trans (hk (x h).1 (x h).2)

theorem pure (a : α) : Build.Keeps (Pure.pure a : Build α) := fun h => .refl h

theorem forM {g : α → Build PUnit} {l : List α} (hg : ∀ a ∈ l, Build.Keeps (g a)) : Build.Keeps (l.forM g) := by
  induction l with
  | nil => exact pure _
  | cons a l ih =>
    rw [List.forall_mem_cons] at hg
    exact .bind hg.1 fun _ => ih hg.2

theorem allocate (cls : Class) (proto : ObjectId) : Build.Keeps (Library.allocate cls proto) := fun h =>
  keeps_alloc h cls proto

theorem hide (id : ObjectId) (key : String) (v : Value) : Build.Keeps (Library.hide id key v) := fun h =>
  keeps_putHidden h id key v

theorem nameIntrinsic (name : String) (id : ObjectId) : Build.Keeps (Library.nameIntrinsic name id) := fun h =>
  keeps_setIntrinsic h name id

end Build.Keeps

open Build (Keeps)

theorem fullName_ne {path name : String} (h : name ≠ "") : fullName path name ≠ "" := by
  unfold fullName
  split
  · exact h
  · intro he
    have := congrArg String.length he
    simp at this

theorem addFunction_keeps (path : String) {name : String} (length : Nat) (h : name ≠ "") :
    Build.Keeps (addFunction path name length) := by
  have hn : FunctionInfo.IsNamed ⟨name, .native (fullName path name), length⟩ := by
    simpa [FunctionInfo.IsNamed] using fullName_ne h
  exact fun heap => keeps_newFunction heap hn

theorem addMethods_keeps (id : ObjectId) (path : String) {methods : List Method}
    (h : ∀ m ∈ methods, m.name ≠ "") : Build.Keeps (addMethods id path methods) :=
  .forM fun m hm => .bind (addFunction_keeps path m.length (h m hm)) fun _ => .hide _ _ _

theorem addConstructor_keeps {name : String} (proto : ObjectId) (h : name ≠ "") :
    Build.Keeps (addConstructor name proto) :=
  .bind (addFunction_keeps "" 1 h) fun _ => .bind (.hide _ _ _) fun _ => .bind (.hide _ _ _) fun _ => .pure _

theorem wrappingPrototype_keeps (cls : Class) (parent : ObjectId) (v : Value) (name : String) :
    Build.Keeps (wrappingPrototype cls parent v name) :=
  .bind (fun h => keeps_add h _ (by simp)) fun _ => .bind (.nameIntrinsic _ _) fun _ => .pure _

theorem installObject_keeps (proto : ObjectId) : Build.Keeps (installObject proto) :=
  .bind (addMethods_keeps _ _ (by decide)) fun _ => .bind (addConstructor_keeps _ (by decide)) fun _ =>
    .bind (addMethods_keeps _ _ (by decide)) fun _ => .pure _

theorem installFunction_keeps (proto : ObjectId) : Build.Keeps (installFunction proto) :=
  .bind (addMethods_keeps _ _ (by decide)) fun _ => addConstructor_keeps _ (by decide)

theorem installArray_keeps (root : ObjectId) : Build.Keeps (installArray root) :=
  .bind (.allocate _ _) fun _ => .bind (.nameIntrinsic _ _) fun _ =>
    .bind (addMethods_keeps _ _ (by decide)) fun _ => .bind (addConstructor_keeps _ (by decide)) fun _ =>
      .bind (addMethods_keeps _ _ (by decide)) fun _ => .pure _

theorem installString_keeps (root : ObjectId) : Build.Keeps (installString root) :=
  .bind (wrappingPrototype_keeps _ _ _ _) fun _ => .bind (addMethods_keeps _ _ (by decide)) fun _ =>
    .bind (addConstructor_keeps _ (by decide)) fun _ => .bind (addMethods_keeps _ _ (by decide)) fun _ => .pure _

theorem installNumber_keeps (root : ObjectId) : Build.Keeps (installNumber root) :=
  .bind (wrappingPrototype_keeps _ _ _ _) fun _ => .bind (addMethods_keeps _ _ (by decide)) fun _ =>
    .bind (addConstructor_keeps _ (by decide)) fun _ => .bind (.forM fun _ _ => .hide _ _ _) fun _ => .pure _

theorem installBoolean_keeps (root : ObjectId) : Build.Keeps (installBoolean root) :=
  .bind (wrappingPrototype_keeps _ _ _ _) fun _ => .bind (addMethods_keeps _ _ (by decide)) fun _ =>
    addConstructor_keeps _ (by decide)

theorem installErrorPrototype_keeps (root : ObjectId) : Build.Keeps (installErrorPrototype root) :=
  .bind (.allocate _ _) fun _ => .bind (.nameIntrinsic _ _) fun _ => .bind (.hide _ _ _) fun _ =>
    .bind (.hide _ _ _) fun _ => .bind (addMethods_keeps _ _ (by decide)) fun _ => .pure _

theorem installErrorType_keeps (parent : ObjectId) (type : ErrorType) :
    Build.Keeps (installErrorType parent type) :=
  .bind (.allocate _ _) fun _ => .bind (.hide _ _ _) fun _ => .bind (.hide _ _ _) fun _ =>
    .bind (.nameIntrinsic _ _) fun _ => addConstructor_keeps _ (by cases type <;> decide)

theorem installMath_keeps (root : ObjectId) : Build.Keeps (installMath root) :=
  .bind (.allocate _ _) fun _ => .bind (.forM fun _ _ => .hide _ _ _) fun _ =>
    .bind (addMethods_keeps _ _ (by decide)) fun _ => .pure _

theorem installGlobals_keeps (roots : Roots) : Build.Keeps (installGlobals roots) := by
  refine .bind (.hide _ _ _) fun _ => .bind (installObject_keeps _) fun _ => .bind (.hide _ _ _) fun _ => ?_
  refine .bind (installFunction_keeps _) fun _ => .bind (.hide _ _ _) fun _ => ?_
  refine .bind (installArray_keeps _) fun _ => .bind (.hide _ _ _) fun _ => ?_
  refine .bind (installString_keeps _) fun _ => .bind (.hide _ _ _) fun _ => ?_
  refine .bind (installNumber_keeps _) fun _ => .bind (.hide _ _ _) fun _ => ?_
  refine .bind (installBoolean_keeps _) fun _ => .bind (.hide _ _ _) fun _ => ?_
  refine .bind (installErrorPrototype_keeps _) fun _ => ?_
  refine .bind (addConstructor_keeps _ (by decide)) fun _ => .bind (.hide _ _ _) fun _ => ?_
  refine .bind (.forM fun type _ => .bind (installErrorType_keeps _ type) fun _ => .hide _ _ _) fun _ => ?_
  refine .bind (installMath_keeps _) fun _ => .bind (.hide _ _ _) fun _ => ?_
  refine .bind (addMethods_keeps _ _ (by decide)) fun _ => .bind (.hide _ _ _) fun _ => ?_
  exact .bind (.hide _ _ _) fun _ => .hide _ _ _

theorem allocateRoots_keeps : Build.Keeps allocateRoots :=
  .bind (.allocate _ _) fun _ => .bind (.nameIntrinsic _ _) fun _ => .bind (.allocate _ _) fun _ =>
    .bind (.nameIntrinsic _ _) fun _ => .bind (.allocate _ _) fun _ => .bind (.nameIntrinsic _ _) fun _ => .pure _

theorem filed_empty : Heap.empty.Filed := by
  refine ⟨by decide, ?_, ?_, ?_⟩ <;> intro _ _ <;> simp [Heap.object?, Heap.scope?, Heap.empty]

/-- The heap with the global scope but without anything in it. -/
private theorem keeps_addGlobal :
    Heap.empty.Keeps ((allocateRoots .empty).2.addScope ⟨(allocateRoots .empty).1.global, 0, true⟩) := by
  have hg : (allocateRoots .empty).1.global = 3 := rfl
  refine keeps_addScope (allocateRoots_keeps .empty) (by decide) ?_ ?_
  · rw [hg]
    decide
  · rfl

private theorem bind_apply {α β : Type} (x : Build α) (k : α → Build β) (h : Heap) :
    (x >>= k) h = k (x h).1 (x h).2 := rfl

private theorem modify_apply (f : Heap → Heap) (h : Heap) : (modify f : Build PUnit) h = (⟨⟩, f h) := rfl

private theorem pure_apply {α : Type} (a : α) (h : Heap) : (pure a : Build α) h = (a, h) := rfl

/-- The objects of the library are stored under their identities, and the global scope lies in no other. -/
theorem filed_install : install.2.Filed ∧ install.2.scope? install.1 = some ⟨install.1, 0, true⟩ := by
  unfold install installAll
  rw [StateT.run, bind_apply, bind_apply, bind_apply, modify_apply, pure_apply]
  have hf := keeps_addGlobal filed_empty
  have hg := installGlobals_keeps (allocateRoots .empty).1 _ hf.1
  dsimp only
  refine ⟨hg.1, hg.2.scope ?_⟩
  rw [scope?_addScope]
  exact if_pos rfl

end Stepwise.Library

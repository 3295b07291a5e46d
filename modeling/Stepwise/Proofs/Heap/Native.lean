import Stepwise.Library.Install
import Stepwise.Machine.Expression
import Stepwise.Proofs.Heap.Filed

/-!
# What natives do to the heap

`Heap.Changes`: the operations by which natives and rules change a heap. What each of them keeps is kept by every
native and by every rule: `Heap.Changes.keeps` is the first such fact.

`Library.changes_native?`: whatever function of the library is called with whatever arguments, it only makes such
changes as `Heap.Changes` lists. The statement is proved for each function, and collected along the tables that
`Library.native?` searches.
-/

namespace Stepwise

/-! ### Changes of a heap -/

namespace Heap

/-- There is an object of this identity, and it stores no elements. -/
def Names (h : Heap) (id : ObjectId) : Prop := ∃ o, h.object? id = some o ∧ o.cls.hasElements = false

variable {h h' : Heap} {id : ObjectId}

theorem Names.mono (g : h.Grows h') (hn : h.Names id) : h'.Names id := by
  obtain ⟨o, ho, hc⟩ := hn
  obtain ⟨o', ho', ha⟩ := g.object ho
  exact ⟨o', ho', ha.cls ▸ hc⟩

theorem names_add (h : Heap) {o : Object} (hc : o.cls.hasElements = false) : (h.add o).2.Names (h.add o).1 :=
  ⟨{ o with id := h.next }, (object?_add h o h.next).trans (if_pos rfl), hc⟩

theorem names_newError (h : Heap) (type message : String) :
    (h.newError type message).2.Names (h.newError type message).1 :=
  names_add h (by rw [(Object.alike_putHidden _ _ _).cls]; rfl)

/-- The second heap comes from the first by what natives and rules do. -/
inductive Changes : Heap → Heap → Prop where
  | refl (h : Heap) : Changes h h
  | trans {h h' h'' : Heap} (c : Changes h h') (c' : Changes h' h'') : Changes h h''
  /-- An object without properties is added that is no function. -/
  | add (h : Heap) {o : Object} (hk : o.keys = []) (hf : o.func = none) : Changes h (h.add o).2
  | error (h : Heap) (type message : String) : Changes h (h.newError type message).2
  | record (h : Heap) (properties : List (String × Value)) : Changes h (h.newRecord properties).2
  | function (h : Heap) (c : Callable) (scope : ObjectId) : Changes h (h.evalFunction c scope).2
  | call (h : Heap) (closure : ObjectId) (c : Callable) (this : Value) (args : List Value) :
    Changes h (h.bindCall closure c this args).2
  | hide {h : Heap} {id : ObjectId} (hn : h.Names id) (key : String) (v : Value) :
    Changes h (h.modify id (·.putHidden key v))
  | elements {h : Heap} {v : Value} {o : Object} (ho : h.deref? v = some o) (hc : o.cls.hasElements)
    (elems : Array Value) : Changes h (h.store { o with elems })
  | put {h h' : Heap} {target v : Value} {key : String} (hp : h.put target key v = .ok h') : Changes h h'
  | remove {h : Heap} {v : Value} {o : Object} (ho : h.deref? v = some o) (key : String) :
    Changes h (h.store (remove o key).1)
  | assign {h h' : Heap} {scope : ObjectId} {name : String} {v : Value} (ha : h.assign scope name v = .ok h') :
    Changes h h'

theorem keeps_newRecord (h : Heap) (properties : List (String × Value)) : h.Keeps (h.newRecord properties).2 :=
  (keeps_newPlain h).trans (keeps_modify
    (fun o => Object.alike_foldl (fun o (p : String × Value) => o.alike_put p.1 p.2) _ o) _ _)

namespace Changes

theorem keeps (c : h.Changes h') : h.Keeps h' := by
  induction c with
  | refl h => exact .refl h
  | trans _ _ ih ih' => exact ih.trans ih'
  | add h _ hf => exact keeps_add h _ (by simp [hf])
  | error h type message => exact keeps_newError h type message
  | record h properties => exact keeps_newRecord h properties
  | function h c scope => exact keeps_evalFunction h c scope
  | call h closure c this args => exact keeps_bindCall h closure c this args
  | hide _ key v => exact keeps_putHidden _ _ key v
  | elements ho _ _ => exact keeps_store_deref ho ⟨rfl, rfl, rfl, rfl, rfl⟩
  | put hp => exact keeps_put hp
  | remove ho key => exact keeps_store_deref ho (alike_remove _ key)
  | assign ha => exact keeps_assign ha

theorem alloc (h : Heap) (cls : Class) (proto : ObjectId) : h.Changes (h.alloc cls proto).2 := .add h rfl rfl

theorem newPlain (h : Heap) : h.Changes h.newPlain.2 := alloc h _ _

theorem newArray (h : Heap) (elems : Array Value) : h.Changes (h.newArray elems).2 := .add h rfl rfl

theorem newTexts (h : Heap) (texts : List String) : h.Changes (h.newTexts texts).2 := newArray h _

theorem box? {v : Value} {p : ObjectId × Heap} (hb : h.box? v = some p) : h.Changes p.2 := by
  unfold Heap.box? at hb
  split at hb <;> cases hb <;> exact .add h rfl rfl

end Changes

end Heap

/-! ### Natives -/

open Heap

/-- What holds of the result and the heap of an operation, unless it raises an exception. -/
def HeapM.wp {α : Type} (x : HeapM α) (Q : α → Heap → Prop) (h : Heap) : Prop :=
  match x h with
  | .ok (a, h') => Q a h'
  | .error _ => True

/-- A native function that only makes the listed changes. -/
def Native.Changes (f : Native) : Prop := ∀ c h, (f c).wp (fun _ => h.Changes) h

namespace HeapM

variable {α β : Type} {Q : α → Heap → Prop} {h : Heap}

theorem wp_bind {x : HeapM β} {f : β → HeapM α} : (x >>= f).wp Q = x.wp fun b => (f b).wp Q := by
  funext h
  unfold wp
  simp only [bind, StateT.bind, Except.bind]
  cases x h <;> rfl

theorem wp_get {Q : Heap → Heap → Prop} : (get : HeapM Heap).wp Q = fun h => Q h h := rfl

theorem wp.bind {x : HeapM β} {f : β → HeapM α} (hx : x.wp (fun b => (f b).wp Q) h) : (x >>= f).wp Q h := by
  rw [wp_bind]
  exact hx

theorem wp.mono {Q' : α → Heap → Prop} {x : HeapM α} (hx : x.wp Q h) (hQ : ∀ a h', Q a h' → Q' a h') :
    x.wp Q' h := by
  unfold wp at *
  split
  · rename_i he
    rw [he] at hx
    exact hQ _ _ hx
  · trivial

end HeapM

namespace Library

open HeapM Native

variable {α : Type} {c : NativeCall} {method : String} {h : Heap}

/-! ### Receivers -/

theorem wp_thisArray {Q : Object → Heap → Prop} (hQ : ∀ o, h.deref? c.this = some o → o.cls.hasElements → Q o h) :
    (thisArray c method).wp Q h := by
  simp only [thisArray, wp_bind, wp_get]
  split
  · split
    · exact hQ _ ‹_› ‹_›
    · trivial
  · trivial

theorem wp_thisObject {Q : Object → Heap → Prop} (hQ : ∀ o, h.deref? c.this = some o → Q o h) :
    (thisObject c method).wp Q h := by
  simp only [thisObject, wp_bind, wp_get]
  split
  · exact hQ _ ‹_›
  · trivial

theorem wp_toObject {v : Value} {Q : Object → Heap → Prop} (hQ : ∀ o h', h.Changes h' → Q o h') :
    (toObject v method).wp Q h := by
  simp only [toObject, wp_bind, wp_get]
  split
  · trivial
  · split
    · exact hQ _ _ (.refl h)
    · split
      · exact hQ _ _ (Changes.box? ‹_›)
      · exact hQ _ _ (.refl h)

theorem wp_thisNumber {Q : Float → Heap → Prop} (hQ : ∀ n, Q n h) : (thisNumber c method).wp Q h := by
  simp only [thisNumber, wp_bind, wp_get]
  split
  · exact hQ _
  · exact hQ _
  · trivial

theorem wp_thisBool {Q : Bool → Heap → Prop} (hQ : ∀ b, Q b h) : (thisBool c).wp Q h := by
  simp only [thisBool, wp_bind, wp_get]
  split
  · exact hQ _
  · exact hQ _
  · trivial

theorem wp_thisChars {Q : List Char → Heap → Prop} (hQ : ∀ cs, Q cs h) : (thisChars c method).wp Q h := by
  unfold thisChars
  split
  · trivial
  · exact hQ _

/-! ### Arrays -/

theorem arrayConstructor_changes : Native.Changes arrayConstructor := by
  intro c h
  unfold arrayConstructor
  split
  · split
    · trivial
    · exact Changes.newArray h _
  · exact Changes.newArray h _

theorem isArray_changes : Native.Changes isArray := fun _ h => Heap.Changes.refl h

theorem arrayPush_changes : Native.Changes arrayPush := fun _ _ =>
  wp.bind (wp_thisArray fun _ ho hc => Changes.elements ho hc _)

theorem arrayPop_changes : Native.Changes arrayPop := by
  intro c h
  refine wp.bind (wp_thisArray fun o ho hc => ?_)
  split
  · exact .refl h
  · exact Changes.elements ho hc _

theorem arrayShift_changes : Native.Changes arrayShift := by
  intro c h
  refine wp.bind (wp_thisArray fun o ho hc => ?_)
  split
  · exact .refl h
  · exact Changes.elements ho hc _

theorem arrayUnshift_changes : Native.Changes arrayUnshift := fun _ _ =>
  wp.bind (wp_thisArray fun _ ho hc => Changes.elements ho hc _)

theorem arraySplice_changes : Native.Changes arraySplice := fun _ _ =>
  wp.bind (wp_thisArray fun _ ho hc => (Changes.elements ho hc _).trans (.newArray _ _))

theorem arraySlice_changes : Native.Changes arraySlice := fun _ h =>
  wp.bind (wp_thisArray fun _ _ _ => Changes.newArray h _)

theorem arrayConcat_changes : Native.Changes arrayConcat := fun _ h =>
  wp.bind (wp_thisArray fun _ _ _ => Changes.newArray h _)

theorem givePosition_changes (i : Option Nat) : (givePosition i).wp (fun _ => h.Changes) h := by
  cases i <;> exact Heap.Changes.refl h

theorem arrayIndexOf_changes : Native.Changes arrayIndexOf := by
  intro c h
  simp only [arrayIndexOf, wp_bind, wp_get]
  exact wp_thisArray fun _ _ _ => givePosition_changes _

theorem arrayLastIndexOf_changes : Native.Changes arrayLastIndexOf := by
  intro c h
  simp only [arrayLastIndexOf, wp_bind, wp_get]
  exact wp_thisArray fun _ _ _ => givePosition_changes _

theorem arrayReverse_changes : Native.Changes arrayReverse := fun _ _ =>
  wp.bind (wp_thisArray fun _ ho hc => Changes.elements ho hc _)

theorem arrayJoin_changes : Native.Changes arrayJoin := fun _ h =>
  wp.bind (wp_thisArray fun _ _ _ => Heap.Changes.refl h)

theorem objectToString_changes : Native.Changes objectToString := by
  intro c h
  unfold objectToString
  split
  · exact .refl h
  · exact .refl h
  · exact wp.bind (wp_toObject fun _ _ k => k)

theorem arrayToString_changes : Native.Changes arrayToString := by
  intro c h
  simp only [arrayToString, wp_bind, wp_get]
  split
  · exact .refl h
  · exact objectToString_changes c h

theorem arrayMethods_change : ∀ m ∈ arrayMethods, m.run.Changes := by
  simp only [arrayMethods, List.forall_mem_cons]
  exact ⟨arrayPush_changes, arrayPop_changes, arrayShift_changes, arrayUnshift_changes, arraySplice_changes,
    arraySlice_changes, arrayConcat_changes, arrayIndexOf_changes, arrayLastIndexOf_changes, arrayReverse_changes,
    arrayJoin_changes, arrayToString_changes, List.forall_mem_nil _⟩

/-! ### Objects, functions and errors -/

theorem objectConstructor_changes : Native.Changes objectConstructor := by
  intro c h
  simp only [objectConstructor]
  split
  · exact Changes.newPlain h
  · split
    · exact .refl h
    · exact wp.bind (wp_toObject fun _ _ k => k)

theorem hasOwnProperty_changes : Native.Changes hasOwnProperty := fun _ _ =>
  wp.bind (wp_toObject fun _ _ k => k)

theorem objectValueOf_changes : Native.Changes objectValueOf := fun _ _ =>
  wp.bind (wp_toObject fun _ _ k => k)

theorem isPrototypeOf_changes : Native.Changes isPrototypeOf := by
  intro c h
  simp only [isPrototypeOf, wp_bind, wp_get]
  split <;> exact .refl h

theorem propertyIsEnumerable_changes : Native.Changes propertyIsEnumerable := fun _ _ =>
  wp.bind (wp_toObject fun _ _ k => k)

theorem objectKeys_changes : Native.Changes objectKeys := fun _ _ =>
  wp.bind (wp_toObject fun _ _ k => k.trans (.newTexts _ _))

theorem objectCreate_changes : Native.Changes objectCreate := by
  intro c h
  unfold objectCreate
  split
  · exact Changes.alloc h _ _
  · exact Changes.alloc h _ _
  · trivial
  · trivial
  · trivial

theorem getPrototypeOf_changes : Native.Changes getPrototypeOf := fun _ _ =>
  wp.bind (wp_toObject fun _ _ k => k)

theorem getOwnPropertyNames_changes : Native.Changes getOwnPropertyNames := fun _ _ =>
  wp.bind (wp_toObject fun _ _ k => k.trans (.newTexts _ _))

theorem objectIs_changes : Native.Changes objectIs := fun _ h => Heap.Changes.refl h

theorem objectMethods_change : ∀ m ∈ objectMethods, m.run.Changes := by
  simp only [objectMethods, List.forall_mem_cons]
  exact ⟨hasOwnProperty_changes, objectToString_changes, objectValueOf_changes, isPrototypeOf_changes,
    propertyIsEnumerable_changes, List.forall_mem_nil _⟩

theorem objectStatics_change : ∀ m ∈ objectStatics, m.run.Changes := by
  simp only [objectStatics, List.forall_mem_cons]
  exact ⟨objectKeys_changes, objectCreate_changes, getPrototypeOf_changes, getOwnPropertyNames_changes,
    objectIs_changes, List.forall_mem_nil _⟩

theorem functionConstructor_changes : Native.Changes functionConstructor := fun _ _ => trivial

theorem functionCall_changes : Native.Changes functionCall := by
  intro c h
  simp only [functionCall, wp_bind, wp_get]
  split
  · exact .refl h
  · trivial

theorem functionApply_changes : Native.Changes functionApply := by
  intro c h
  simp only [functionApply, wp_bind, wp_get]
  split
  · trivial
  · split
    · exact .refl h
    · exact .refl h
    · exact .refl h
    · trivial

theorem functionToString_changes : Native.Changes functionToString := by
  intro c h
  simp only [functionToString, wp_bind, wp_get]
  split
  · exact .refl h
  · trivial

theorem functionMethods_change : ∀ m ∈ functionMethods, m.run.Changes := by
  simp only [functionMethods, List.forall_mem_cons]
  exact ⟨functionCall_changes, functionApply_changes, functionToString_changes, List.forall_mem_nil _⟩

theorem errorConstructor_changes (type : ErrorType) : Native.Changes (errorConstructor type) := by
  intro c h
  simp only [errorConstructor, wp_bind, wp_get]
  cases c.trace with
  | none => exact Changes.error h _ _
  | some trace => exact (Changes.error h _ _).trans (.hide (names_newError h _ _) _ _)

theorem errorMethods_change : ∀ m ∈ errorMethods, m.run.Changes := by
  simp only [errorMethods, List.forall_mem_cons]
  exact ⟨fun _ h => wp.bind (wp_thisObject fun _ _ => Heap.Changes.refl h), List.forall_mem_nil _⟩

/-! ### Numbers, truth values and strings -/

theorem giveWrapped_changes (v : Value) : (giveWrapped c v).wp (fun _ => h.Changes) h := by
  unfold giveWrapped
  split
  · simp only [wp_bind, wp_get]
    split
    · exact Changes.box? ‹_›
    · exact .refl h
  · exact .refl h

theorem numberConstructor_changes : Native.Changes numberConstructor := by
  intro c h
  simp only [numberConstructor, wp_bind, wp_get]
  exact giveWrapped_changes _

theorem numberToFixed_changes : Native.Changes numberToFixed := by
  intro c h
  simp only [numberToFixed, wp_bind, wp_get]
  refine wp_thisNumber fun n => ?_
  split
  · trivial
  · split <;> exact .refl h

theorem numberToPrecision_changes : Native.Changes numberToPrecision := by
  intro c h
  simp only [numberToPrecision, wp_bind, wp_get]
  refine wp_thisNumber fun n => ?_
  split
  · exact .refl h
  · split
    · trivial
    · exact .refl h

theorem numberToString_changes : Native.Changes numberToString := by
  intro c h
  simp only [numberToString, wp_bind, wp_get]
  refine wp_thisNumber fun n => ?_
  split
  · split
    · trivial
    · split <;> exact .refl h
  · split
    · trivial
    · split <;> exact .refl h

theorem numberValueOf_changes : Native.Changes numberValueOf := fun _ h =>
  wp.bind (wp_thisNumber fun _ => Heap.Changes.refl h)

theorem numberMethods_change : ∀ m ∈ numberMethods, m.run.Changes := by
  simp only [numberMethods, List.forall_mem_cons]
  exact ⟨numberToFixed_changes, numberToPrecision_changes, numberToString_changes, numberValueOf_changes,
    List.forall_mem_nil _⟩

theorem booleanConstructor_changes : Native.Changes booleanConstructor := fun _ _ => giveWrapped_changes _

theorem booleanMethods_change : ∀ m ∈ booleanMethods, m.run.Changes := by
  simp only [booleanMethods, List.forall_mem_cons]
  exact ⟨fun _ h => wp.bind (wp_thisBool fun _ => Heap.Changes.refl h),
    fun _ h => wp.bind (wp_thisBool fun _ => Heap.Changes.refl h), List.forall_mem_nil _⟩

theorem stringConstructor_changes : Native.Changes stringConstructor := by
  intro c h
  simp only [stringConstructor, wp_bind, wp_get]
  exact giveWrapped_changes _

theorem stringCharCodeAt_changes : Native.Changes stringCharCodeAt := by
  intro c h
  simp only [stringCharCodeAt, wp_bind, wp_get]
  refine wp_thisChars fun cs => ?_
  split <;> exact .refl h

theorem stringIndexOf_changes : Native.Changes stringIndexOf := by
  intro c h
  simp only [stringIndexOf, wp_bind, wp_get]
  exact wp_thisChars fun _ => givePosition_changes _

theorem stringLastIndexOf_changes : Native.Changes stringLastIndexOf := by
  intro c h
  simp only [stringLastIndexOf, wp_bind, wp_get]
  exact wp_thisChars fun _ => givePosition_changes _

theorem stringSplit_changes : Native.Changes stringSplit := fun _ h =>
  wp.bind (wp_thisChars fun _ => Changes.newTexts h _)

theorem stringReplace_changes : Native.Changes stringReplace := by
  intro c h
  simp only [stringReplace, wp_bind, wp_get]
  refine wp_thisChars fun cs => ?_
  split
  · trivial
  · split <;> exact .refl h

theorem stringValueOf_changes : Native.Changes stringValueOf := by
  intro c h
  simp only [stringValueOf, wp_bind, wp_get]
  split
  · exact .refl h
  · exact .refl h
  · trivial

/-- A function that answers with a value made of the characters of the receiver. -/
private theorem changes_chars {g : List Char → Heap → Value} :
    (do let cs ← thisChars c method; give (g cs (← get)) : HeapM Reply).wp (fun _ => h.Changes) h :=
  wp.bind (wp_thisChars fun _ => Heap.Changes.refl h)

theorem stringMethods_change : ∀ m ∈ stringMethods, m.run.Changes := by
  have chars {f : Native} {name : String} {g : NativeCall → List Char → Heap → Value}
      (hf : f = fun c => do let cs ← thisChars c name; give (g c cs (← get))) : f.Changes := by
    rw [hf]
    exact fun _ _ => changes_chars
  simp only [stringMethods, List.forall_mem_cons]
  exact ⟨chars rfl, stringCharCodeAt_changes, stringIndexOf_changes, stringLastIndexOf_changes, chars rfl,
    chars rfl, chars rfl, chars rfl, chars rfl, chars rfl, stringSplit_changes, chars rfl,
    stringReplace_changes, stringValueOf_changes, stringValueOf_changes, List.forall_mem_nil _⟩

/-! ### Every function of the library -/

theorem extreme_changes (start : Float) (better : Float → Float → Bool) :
    Native.Changes (extreme start better) := by
  intro c h
  simp only [extreme, wp_bind, wp_get]
  split <;> exact .refl h

theorem mathMethods_change : ∀ m ∈ mathMethods, m.run.Changes := by
  have unary (f : Float → Float) : Native.Changes (unaryMath f) := fun _ h => Heap.Changes.refl h
  have binary (f : Float → Float → Float) : Native.Changes (binaryMath f) := fun _ h => Heap.Changes.refl h
  simp only [mathMethods, List.forall_mem_cons]
  exact ⟨unary _, unary _, unary _, unary _, unary _, unary _, unary _, unary _, unary _, unary _, unary _,
    unary _, unary _, extreme_changes _ _, extreme_changes _ _, binary _, binary _,
    fun _ h => Heap.Changes.refl h, List.forall_mem_nil _⟩

theorem globalMethods_change : ∀ m ∈ globalMethods, m.run.Changes := by
  simp only [globalMethods, List.forall_mem_cons]
  exact ⟨fun _ h => Heap.Changes.refl h, fun _ h => Heap.Changes.refl h, fun _ h => Heap.Changes.refl h,
    fun _ h => Heap.Changes.refl h, List.forall_mem_nil _⟩

theorem constructors_change : ∀ m ∈ constructors, m.run.Changes := by
  simp only [constructors, List.forall_mem_append, List.forall_mem_cons, List.forall_mem_map]
  exact ⟨⟨objectConstructor_changes, functionConstructor_changes, arrayConstructor_changes,
    stringConstructor_changes, numberConstructor_changes, booleanConstructor_changes, List.forall_mem_nil _⟩,
    fun type _ => errorConstructor_changes type⟩

theorem families_change : ∀ family ∈ families, ∀ m ∈ family.2, m.run.Changes := by
  simp only [families, List.forall_mem_cons]
  exact ⟨constructors_change, globalMethods_change, objectMethods_change, objectStatics_change,
    functionMethods_change, arrayMethods_change, ⟨isArray_changes, List.forall_mem_nil _⟩, stringMethods_change,
    ⟨fun _ h => Heap.Changes.refl h, List.forall_mem_nil _⟩, numberMethods_change, booleanMethods_change,
    errorMethods_change, mathMethods_change, List.forall_mem_nil _⟩

/-- Every function of the library only makes the listed changes. -/
theorem changes_native? {name : String} {f : Native} (hf : native? name = some f) : f.Changes := by
  obtain ⟨p, hp, rfl⟩ := Option.map_eq_some_iff.1 hf
  obtain ⟨family, hfamily, hm⟩ := List.mem_flatMap.1 (List.mem_of_find?_eq_some hp)
  obtain ⟨m, hmem, rfl⟩ := List.mem_map.1 hm
  exact families_change family hfamily m hmem

end Library

end Stepwise

import Stepwise.Proofs.Heap.Closure

/-!
# What natives answer

`Library.sound_native?`: whatever function of the library is called with values of the heap, it only edits the
heap, answers with values of the heap, and raises no error about names or syntax. The statement is proved for
each function, and collected along the tables that `Library.native?` searches.
-/

namespace Stepwise

open Heap

/-- The receiver and the arguments of a call are in the heap. -/
def NativeCall.In (c : NativeCall) (h : Heap) : Prop := c.this.In h ∧ ∀ v ∈ c.args, v.In h

/-- What a native function answers is in the heap. -/
def Reply.In : Reply → Heap → Prop
  | .value v, h => v.In h
  | .tail func this args, h => func.In h ∧ this.In h ∧ ∀ v ∈ args, v.In h

/-- An exception that is neither about a name that is bound nowhere nor about syntax. -/
def Throw.IsOrdinary (t : Throw) : Prop := t.type ≠ .referenceError ∧ t.type ≠ .syntaxError

instance (t : Throw) : Decidable t.IsOrdinary := inferInstanceAs (Decidable (_ ∧ _))

/-- An operation that only edits the heap, with what then holds of its result. -/
def HeapM.Yields {α : Type} (x : HeapM α) (Q : α → Heap → Prop) (h : Heap) : Prop :=
  match x h with
  | .ok (a, h') => h.Edits False h' ∧ Q a h'
  | .error t => t.IsOrdinary

/-- A native function that answers with what is in the heap. -/
def Native.Sound (f : Native) : Prop := ∀ c h, h.WellFormed → c.In h → (f c).Yields Reply.In h

theorem NativeCall.In.arg {c : NativeCall} {h : Heap} (hc : c.In h) (i : Nat) : (c.arg i).In h := by
  unfold NativeCall.arg
  cases ha : c.args[i]? with
  | none => trivial
  | some v => exact hc.2 v (List.mem_of_getElem? ha)

namespace HeapM.Yields

variable {α β : Type} {Q : α → Heap → Prop} {h h' : Heap} {v : Value}

theorem bind {x : HeapM β} {f : β → HeapM α} (hx : x.Yields (fun b => (f b).Yields Q) h) :
    (x >>= f).Yields Q h := by
  unfold Yields at *
  simp only [Bind.bind, StateT.bind, Except.bind]
  cases hr : x h with
  | error t =>
    rw [hr] at hx
    exact hx
  | ok p =>
    obtain ⟨b, h'⟩ := p
    rw [hr] at hx
    obtain ⟨e, hy⟩ := hx
    dsimp only
    split
    · rename_i he
      rw [he] at hy
      exact ⟨e.trans hy.1, hy.2⟩
    · rename_i he
      rw [he] at hy
      exact hy

theorem get {f : Heap → HeapM α} (hf : (f h).Yields Q h) : (MonadState.get >>= f).Yields Q h := hf

theorem give (hv : v.In h) : (Native.give v).Yields Reply.In h := ⟨.refl, hv⟩

theorem giveText (s : String) : (Native.giveText s).Yields Reply.In h := give trivial

theorem giveNumber (n : Float) : (Native.giveNumber n).Yields Reply.In h := give trivial

theorem giveBool (b : Bool) : (Native.giveBool b).Yields Reply.In h := give trivial

theorem typeError (message : String) : (Native.typeError message : HeapM α).Yields Q h :=
  ⟨ErrorType.noConfusion, ErrorType.noConfusion⟩

theorem rangeError (message : String) : (Native.rangeError message : HeapM α).Yields Q h :=
  ⟨ErrorType.noConfusion, ErrorType.noConfusion⟩

/-- An object that was added is in the heap. -/
theorem giveNew {add : Heap → ObjectId × Heap} (e : h.Edits False (add h).2)
    (hv : (Value.object (add h).1).In (add h).2) : (Native.giveNew add).Yields Reply.In h := ⟨e, hv⟩

theorem giveWrapped {c : NativeCall} (hw : h.WellFormed) (hv : v.In h) :
    (Native.giveWrapped c v).Yields Reply.In h := by
  unfold Native.giveWrapped
  split
  · refine .get ?_
    split
    · exact edits_box? hw ‹_›
    · exact give hv
  · exact give hv

end HeapM.Yields

namespace Library

open HeapM (Yields)

variable {c : NativeCall} {method : String} {h : Heap} {v : Value} {α : Type} {Q : α → Heap → Prop}

/-! ### Receivers -/

theorem yields_thisArray {k : Object → HeapM α}
    (hk : ∀ o, h.deref? c.this = some o → o.cls.hasElements → (k o).Yields Q h) :
    (thisArray c method >>= k).Yields Q h := by
  unfold thisArray
  refine .bind (.get ?_)
  split
  · split
    · exact ⟨.refl, hk _ ‹_› ‹_›⟩
    · exact .typeError _
  · exact .typeError _

theorem yields_thisObject {k : Object → HeapM α} (hk : ∀ o, h.deref? c.this = some o → (k o).Yields Q h) :
    (thisObject c method >>= k).Yields Q h := by
  unfold thisObject
  refine .bind (.get ?_)
  split
  · exact ⟨.refl, hk _ ‹_›⟩
  · exact .typeError _

/-- The object of a value is in the heap, which has grown if the value had to be wrapped. -/
theorem yields_toObject {k : Object → HeapM α} (hw : h.WellFormed) (hv : v.In h)
    (hk : ∀ o h', h'.WellFormed → h.Grows h' → h'.object? o.id = some o → (k o).Yields Q h') :
    (toObject v method >>= k).Yields Q h := by
  unfold toObject
  refine .bind (.get ?_)
  split
  · exact .typeError _
  · split
    · exact ⟨.refl, hk _ _ hw (.refl h) (hw.object?_id ‹_›)⟩
    · rename_i hn
      split
      · rename_i id h' hb
        obtain ⟨e, hin⟩ : h.Edits False h' ∧ (Value.object id).In h' := edits_box? hw hb
        obtain ⟨hw', g⟩ := e.wellFormed hw
        obtain ⟨o, ho⟩ := Option.isSome_iff_exists.1 hin
        refine ⟨e, ?_⟩
        rw [show h'.object? id = some o from ho]
        exact hk o h' hw' g ((hw'.object ho).1 ▸ ho)
      · rename_i hb
        cases v with
        | object id =>
          have hv : (h.deref? (.object id)).isSome := hv
          rw [hn] at hv
          cases hv
        | undefined | null => contradiction
        | bool | number | string => cases hb

theorem yields_thisNumber {k : Float → HeapM α} (hk : ∀ n, (k n).Yields Q h) :
    (thisNumber c method >>= k).Yields Q h := by
  unfold thisNumber
  refine .bind (.get ?_)
  split
  · exact ⟨.refl, hk _⟩
  · exact ⟨.refl, hk _⟩
  · exact .typeError _

theorem yields_thisBool {k : Bool → HeapM α} (hk : ∀ b, (k b).Yields Q h) :
    (thisBool c >>= k).Yields Q h := by
  unfold thisBool
  refine .bind (.get ?_)
  split
  · exact ⟨.refl, hk _⟩
  · exact ⟨.refl, hk _⟩
  · exact .typeError _

theorem yields_thisChars {k : List Char → HeapM α} (hk : ∀ cs, (k cs).Yields Q h) :
    (thisChars c method >>= k).Yields Q h := by
  unfold thisChars
  refine .bind ?_
  split
  · exact .typeError _
  · exact ⟨.refl, hk _⟩

/-! ### Arrays -/

theorem edits_setElements {o : Object} {elems : Array Value} (hw : h.WellFormed) (ho : h.deref? v = some o)
    (hc : o.cls.hasElements) (he : ∀ w ∈ elems, w.In h) : h.Edits False (h.store { o with elems }) :=
  edits_store_deref hw ho ⟨rfl, rfl, rfl, rfl, rfl⟩ ((hw.sound_deref? ho).with_elems hc he) (.inr fun _ hk => hk)

/-- Stores elements and goes on. -/
theorem yields_setElements {o : Object} {elems : Array Value} {k : HeapM α} (hw : h.WellFormed)
    (ho : h.deref? v = some o) (hc : o.cls.hasElements) (he : ∀ w ∈ elems, w.In h)
    (hk : ∀ h', h'.WellFormed → h.Grows h' → k.Yields Q h') : (do setElements o elems; k).Yields Q h := by
  have e := edits_setElements hw ho hc he
  obtain ⟨hw', g⟩ := e.wellFormed hw
  exact .bind ⟨e, hk _ hw' g⟩

theorem yields_newArray {elems : Array Value} (hw : h.WellFormed) (he : ∀ w ∈ elems, w.In h) :
    (Native.giveNew (·.newArray elems)).Yields Reply.In h := .giveNew (edits_newArray hw he) (in_add _ _)

theorem yields_newTexts {texts : List String} (hw : h.WellFormed) :
    (Native.giveNew (·.newTexts texts)).Yields Reply.In h := .giveNew (edits_newTexts hw texts) (in_add _ _)

theorem sound_arrayConstructor : Native.Sound arrayConstructor := by
  intro c h hw hc
  unfold arrayConstructor
  split
  · split
    · exact .rangeError _
    · refine yields_newArray hw fun w hm => ?_
      rw [(Array.mem_replicate.1 hm).2]
      trivial
  · exact yields_newArray hw fun w hm => hc.2 w (List.mem_toArray.1 hm)

theorem sound_isArray : Native.Sound isArray := fun _ _ _ _ => .giveBool _

theorem sound_arrayPush : Native.Sound arrayPush := by
  intro c h hw hc
  refine yields_thisArray fun o ho he => yields_setElements hw ho he (fun w hm => ?_) fun _ _ _ => .give trivial
  rcases Array.mem_append.1 hm with hm | hm
  · exact (hw.sound_deref? ho).elem w hm
  · exact hc.2 w (List.mem_toArray.1 hm)

theorem sound_arrayPop : Native.Sound arrayPop := by
  intro c h hw hc
  refine yields_thisArray fun o ho he => ?_
  have hs := hw.sound_deref? ho
  split
  · exact .give trivial
  · rename_i last hl
    refine yields_setElements hw ho he (fun w hm => ?_) fun h' _ g => .give ?_
    · rw [Array.mem_def, Array.toList_pop] at hm
      exact hs.elem w (Array.mem_def.2 (List.dropLast_subset _ hm))
    · exact (hs.elem last (Array.mem_of_getElem? hl)).mono g

theorem sound_arrayShift : Native.Sound arrayShift := by
  intro c h hw hc
  refine yields_thisArray fun o ho he => ?_
  have hs := hw.sound_deref? ho
  split
  · exact .give trivial
  · rename_i first hf
    refine yields_setElements hw ho he (fun w hm => ?_) fun h' _ g => .give ?_
    · rw [Array.drop_eq_extract] at hm
      exact hs.elem w (mem_of_mem_extract hm)
    · exact (hs.elem first (Array.mem_of_getElem? hf)).mono g

theorem sound_arrayUnshift : Native.Sound arrayUnshift := by
  intro c h hw hc
  refine yields_thisArray fun o ho he => yields_setElements hw ho he (fun w hm => ?_) fun _ _ _ => .give trivial
  rcases Array.mem_append.1 hm with hm | hm
  · exact hc.2 w (List.mem_toArray.1 hm)
  · exact (hw.sound_deref? ho).elem w hm

theorem sound_arraySplice : Native.Sound arraySplice := by
  intro c h hw hc
  refine yields_thisArray fun o ho he => .get ?_
  have hs := hw.sound_deref? ho
  refine yields_setElements hw ho he (fun w hm => ?_) fun h' hw' g => yields_newArray hw' fun w hm => ?_
  · rw [Array.take_eq_extract, Array.drop_eq_extract] at hm
    rcases Array.mem_append.1 hm with hm | hm
    · rcases Array.mem_append.1 hm with hm | hm
      · exact hs.elem w (mem_of_mem_extract hm)
      · exact hc.2 w (List.mem_of_mem_drop (List.mem_toArray.1 hm))
    · exact hs.elem w (mem_of_mem_extract hm)
  · exact (hs.elem w (mem_of_mem_extract hm)).mono g

theorem sound_arraySlice : Native.Sound arraySlice := by
  intro c h hw hc
  refine yields_thisArray fun o ho _ => .get (yields_newArray hw fun w hm => ?_)
  exact (hw.sound_deref? ho).elem w (mem_of_mem_extract hm)

theorem sound_arrayConcat : Native.Sound arrayConcat := by
  intro c h hw hc
  refine yields_thisArray fun o ho _ => .get (yields_newArray hw ?_)
  -- the elements so far are in the heap, and so is what an argument stands for
  have hfold (args : List Value) (f : Value → Array Value) (elems : Array Value) (he : ∀ w ∈ elems, w.In h)
      (hf : ∀ v ∈ args, ∀ w ∈ f v, w.In h) : ∀ w ∈ args.foldl (fun elems v => elems ++ f v) elems, w.In h := by
    induction args generalizing elems with
    | nil => exact he
    | cons v args ih =>
      obtain ⟨hv, hargs⟩ := List.forall_mem_cons.1 hf
      refine ih _ (fun w hm => ?_) hargs
      rcases Array.mem_append.1 hm with hm | hm
      · exact he w hm
      · exact hv w hm
  refine hfold _ _ _ (hw.sound_deref? ho).elem fun v hv w hm => ?_
  have hone (hm : w ∈ #[v]) : w.In h := by
    cases List.mem_singleton.1 (Array.mem_def.1 hm)
    exact hc.2 v hv
  split at hm
  · rename_i other ho'
    split at hm
    · exact (hw.sound_deref? ho').elem w hm
    · exact hone hm
  · exact hone hm

theorem yields_position (i : Option Nat) : (givePosition i).Yields Reply.In h := by
  cases i
  · exact .giveNumber _
  · exact .give trivial

theorem sound_arrayIndexOf : Native.Sound arrayIndexOf := fun _ _ _ _ =>
  yields_thisArray fun _ _ _ => .get (yields_position _)

theorem sound_arrayLastIndexOf : Native.Sound arrayLastIndexOf := fun _ _ _ _ =>
  yields_thisArray fun _ _ _ => .get (yields_position _)

theorem sound_arrayReverse : Native.Sound arrayReverse := by
  intro c h hw hc
  refine yields_thisArray fun o ho he => yields_setElements hw ho he (fun w hm => ?_) fun _ _ g => .give ?_
  · exact (hw.sound_deref? ho).elem w (Array.mem_reverse.1 hm)
  · exact hc.1.mono g

theorem sound_arrayJoin : Native.Sound arrayJoin := fun _ _ _ _ =>
  yields_thisArray fun _ _ _ => .get (.giveText _)

theorem sound_objectToString : Native.Sound objectToString := by
  intro c h hw hc
  unfold objectToString
  split
  · exact .giveText _
  · exact .giveText _
  · exact yields_toObject hw hc.1 fun _ _ _ _ _ => .giveText _

theorem sound_arrayToString : Native.Sound arrayToString := by
  intro c h hw hc
  unfold arrayToString
  refine .get ?_
  split
  · exact .giveText _
  · exact sound_objectToString c h hw hc

theorem sound_arrayMethods : ∀ m ∈ arrayMethods, m.run.Sound := by
  simp only [arrayMethods, List.forall_mem_cons]
  exact ⟨sound_arrayPush, sound_arrayPop, sound_arrayShift, sound_arrayUnshift, sound_arraySplice,
    sound_arraySlice, sound_arrayConcat, sound_arrayIndexOf, sound_arrayLastIndexOf, sound_arrayReverse,
    sound_arrayJoin, sound_arrayToString, List.forall_mem_nil _⟩

/-! ### Objects, functions and errors -/

theorem sound_objectConstructor : Native.Sound objectConstructor := by
  intro c h hw hc
  unfold objectConstructor
  dsimp only
  split
  · exact .giveNew (edits_newPlain hw) (in_add _ _)
  · split
    · exact .give (hc.arg 0)
    · exact yields_toObject hw (hc.arg 0) fun o h' _ _ ho => .give (by unfold Value.In; simp [ho])

theorem sound_hasOwnProperty : Native.Sound hasOwnProperty := fun _ _ hw hc =>
  yields_toObject hw hc.1 fun _ _ _ _ _ => .get (.giveBool _)

theorem sound_objectValueOf : Native.Sound objectValueOf := fun _ _ hw hc =>
  yields_toObject hw hc.1 fun o h' _ _ ho => .give (by unfold Value.In; simp [ho])

theorem sound_isPrototypeOf : Native.Sound isPrototypeOf := by
  intro c h hw hc
  unfold isPrototypeOf
  refine .get ?_
  split <;> exact .giveBool _

theorem sound_propertyIsEnumerable : Native.Sound propertyIsEnumerable := fun _ _ hw hc =>
  yields_toObject hw hc.1 fun _ _ _ _ _ => .get (.giveBool _)

theorem sound_objectKeys : Native.Sound objectKeys := fun _ _ hw hc =>
  yields_toObject hw (hc.arg 0) fun _ _ hw' _ _ => yields_newTexts hw'

theorem sound_objectCreate : Native.Sound objectCreate := by
  intro c h hw hc
  unfold objectCreate
  split
  · rename_i id he _
    have hid := hc.arg 0
    rw [he] at hid
    exact .giveNew (edits_alloc (.inr hid)) (in_add _ _)
  · exact .giveNew (edits_alloc (.inl rfl)) (in_add _ _)
  · exact .typeError _
  · exact .typeError _
  · exact .typeError _

theorem sound_getPrototypeOf : Native.Sound getPrototypeOf := by
  intro c h hw hc
  refine yields_toObject hw (hc.arg 0) fun o h' hw' _ ho => .give ?_
  split
  · trivial
  · rename_i hne
    exact (hw'.sound ho).proto.resolve_left hne

theorem sound_getOwnPropertyNames : Native.Sound getOwnPropertyNames := fun _ _ hw hc =>
  yields_toObject hw (hc.arg 0) fun _ _ hw' _ _ => yields_newTexts hw'

theorem sound_objectIs : Native.Sound objectIs := fun _ _ _ _ => .giveBool _

theorem sound_objectMethods : ∀ m ∈ objectMethods, m.run.Sound := by
  simp only [objectMethods, List.forall_mem_cons]
  exact ⟨sound_hasOwnProperty, sound_objectToString, sound_objectValueOf, sound_isPrototypeOf,
    sound_propertyIsEnumerable, List.forall_mem_nil _⟩

theorem sound_objectStatics : ∀ m ∈ objectStatics, m.run.Sound := by
  simp only [objectStatics, List.forall_mem_cons]
  exact ⟨sound_objectKeys, sound_objectCreate, sound_getPrototypeOf, sound_getOwnPropertyNames,
    sound_objectIs, List.forall_mem_nil _⟩

theorem sound_functionConstructor : Native.Sound functionConstructor := fun _ _ _ _ =>
  ⟨ErrorType.noConfusion, ErrorType.noConfusion⟩

theorem sound_functionCall : Native.Sound functionCall := by
  intro c h hw hc
  unfold functionCall
  refine .get ?_
  split
  · exact ⟨.refl, hc.1, hc.arg 0, fun v hv => hc.2 v (List.mem_of_mem_drop hv)⟩
  · exact .typeError _

theorem in_listElements (hw : h.WellFormed) (v : Value) : ∀ w ∈ listElements h v, w.In h := by
  intro w hm
  unfold listElements at hm
  split at hm
  · rename_i o ho
    obtain ⟨i, -, rfl⟩ := List.mem_map.1 hm
    exact in_getFrom hw (hw.sound_deref? ho) _
  · cases hm

theorem sound_functionApply : Native.Sound functionApply := by
  intro c h hw hc
  unfold functionApply
  refine .get ?_
  split
  · exact .typeError _
  · split
    · exact ⟨.refl, hc.1, hc.arg 0, by simp⟩
    · exact ⟨.refl, hc.1, hc.arg 0, by simp⟩
    · exact ⟨.refl, hc.1, hc.arg 0, in_listElements hw _⟩
    · exact .typeError _

theorem sound_functionToString : Native.Sound functionToString := by
  intro c h hw hc
  unfold functionToString
  refine .get ?_
  split
  · exact .giveText _
  · exact .typeError _

theorem sound_functionMethods : ∀ m ∈ functionMethods, m.run.Sound := by
  simp only [functionMethods, List.forall_mem_cons]
  exact ⟨sound_functionCall, sound_functionApply, sound_functionToString, List.forall_mem_nil _⟩

theorem sound_errorConstructor (type : ErrorType) : Native.Sound (errorConstructor type) := by
  intro c h hw hc
  unfold errorConstructor
  refine .get ?_
  dsimp only
  generalize (if (c.arg 0).isUndefined then "" else h.toText (c.arg 0)) = message
  have e : h.Edits False (h.newError type.name message).2 := edits_newError hw _ _
  have hin : (Value.object (h.newError type.name message).1).In (h.newError type.name message).2 := in_add _ _
  have hw' := (e.wellFormed hw).1
  cases c.trace with
  | none => exact ⟨e, hin⟩
  | some trace =>
    have e' : Edits False _ ((h.newError type.name message).2.modify (h.newError type.name message).1
        (·.putHidden "stack" (.string (trace ())))) := edits_putHidden hw' _ "stack" trivial
    exact ⟨e.trans e', hin.mono (e'.wellFormed hw').2⟩

theorem sound_errorMethods : ∀ m ∈ errorMethods, m.run.Sound := by
  simp only [errorMethods, List.forall_mem_cons]
  exact ⟨fun _ _ _ _ => yields_thisObject fun _ _ => .get (.giveText _), List.forall_mem_nil _⟩

/-! ### Numbers, truth values and strings -/

theorem sound_numberConstructor : Native.Sound numberConstructor := fun _ _ hw _ =>
  .get (.giveWrapped hw trivial)

theorem sound_numberToFixed : Native.Sound numberToFixed := by
  intro c h hw hc
  refine yields_thisNumber fun n => .get ?_
  dsimp only
  split
  · exact .rangeError _
  · split <;> exact .giveText _

theorem sound_numberToPrecision : Native.Sound numberToPrecision := by
  intro c h hw hc
  refine yields_thisNumber fun n => .get ?_
  dsimp only
  split
  · exact .giveText _
  · split
    · exact .rangeError _
    · exact .giveText _

theorem sound_numberToString : Native.Sound numberToString := by
  intro c h hw hc
  refine yields_thisNumber fun n => .get ?_
  dsimp only
  generalize (if (c.arg 0).isUndefined then 10 else c.integer h 0) = radix
  split
  · exact .rangeError _
  · split <;> exact .giveText _

theorem sound_numberMethods : ∀ m ∈ numberMethods, m.run.Sound := by
  simp only [numberMethods, List.forall_mem_cons]
  exact ⟨sound_numberToFixed, sound_numberToPrecision, sound_numberToString,
    fun _ _ _ _ => yields_thisNumber fun _ => .giveNumber _, List.forall_mem_nil _⟩

theorem sound_booleanConstructor : Native.Sound booleanConstructor := fun _ _ hw _ => .giveWrapped hw trivial

theorem sound_booleanMethods : ∀ m ∈ booleanMethods, m.run.Sound := by
  simp only [booleanMethods, List.forall_mem_cons]
  exact ⟨fun _ _ _ _ => yields_thisBool fun _ => .giveText _, fun _ _ _ _ => yields_thisBool fun _ => .giveBool _,
    List.forall_mem_nil _⟩

theorem sound_stringConstructor : Native.Sound stringConstructor := fun _ _ hw _ =>
  .get (.giveWrapped hw trivial)

theorem sound_stringCharCodeAt : Native.Sound stringCharCodeAt := by
  intro c h hw hc
  refine yields_thisChars fun cs => .get ?_
  split
  · exact .give trivial
  · exact .giveNumber _

theorem sound_stringIndexOf : Native.Sound stringIndexOf := fun _ _ _ _ =>
  yields_thisChars fun _ => .get (yields_position _)

theorem sound_stringLastIndexOf : Native.Sound stringLastIndexOf := fun _ _ _ _ =>
  yields_thisChars fun _ => .get (yields_position _)

theorem sound_stringSplit : Native.Sound stringSplit := fun _ _ hw _ =>
  yields_thisChars fun _ => .get (yields_newTexts hw)

theorem sound_stringReplace : Native.Sound stringReplace := by
  intro c h hw hc
  refine yields_thisChars fun cs => .get ?_
  split
  · exact .typeError _
  · dsimp only
    split <;> exact .giveText _

/-- What an object wraps is no object. -/
theorem in_of_wraps {cls : Class} (hc : cls.wraps (some v)) : v.In h := by
  cases v with
  | object => cases cls <;> cases hc
  | undefined | null | bool | number | string => trivial

theorem sound_stringValueOf : Native.Sound stringValueOf := by
  intro c h hw hc
  unfold stringValueOf
  refine .get ?_
  split
  · exact .giveText _
  · rename_i ho _
    exact .give (in_of_wraps (hw.sound_deref? ho).primitive)
  · exact .typeError _

theorem sound_stringMethods : ∀ m ∈ stringMethods, m.run.Sound := by
  have chars {f : Native} {name : String} {g : NativeCall → List Char → Heap → String}
      (hf : f = fun c => do let cs ← thisChars c name; Native.giveText (g c cs (← get))) : f.Sound := by
    rw [hf]
    exact fun _ _ _ _ => yields_thisChars fun _ => .get (.giveText _)
  simp only [stringMethods, List.forall_mem_cons]
  exact ⟨chars rfl, sound_stringCharCodeAt, sound_stringIndexOf, sound_stringLastIndexOf, chars rfl,
    chars rfl, chars rfl, chars rfl, chars rfl, chars rfl, sound_stringSplit, chars rfl,
    sound_stringReplace, sound_stringValueOf, sound_stringValueOf, List.forall_mem_nil _⟩

/-! ### Every function of the library -/

theorem sound_extreme (start : Float) (better : Float → Float → Bool) :
    Native.Sound (extreme start better) := by
  intro c h hw hc
  unfold extreme
  refine .get ?_
  dsimp only
  split <;> exact .giveNumber _

theorem sound_mathMethods : ∀ m ∈ mathMethods, m.run.Sound := by
  have unary (f : Float → Float) : Native.Sound (unaryMath f) := fun _ _ _ _ => .get (.giveNumber _)
  have binary (f : Float → Float → Float) : Native.Sound (binaryMath f) := fun _ _ _ _ => .get (.giveNumber _)
  simp only [mathMethods, List.forall_mem_cons]
  exact ⟨unary _, unary _, unary _, unary _, unary _, unary _, unary _, unary _, unary _, unary _, unary _,
    unary _, unary _, sound_extreme _ _, sound_extreme _ _, binary _, binary _,
    fun _ _ _ _ => .giveNumber _, List.forall_mem_nil _⟩

theorem sound_globalMethods : ∀ m ∈ globalMethods, m.run.Sound := by
  simp only [globalMethods, List.forall_mem_cons]
  exact ⟨fun _ _ _ _ => .get (.giveNumber _), fun _ _ _ _ => .get (.giveNumber _),
    fun _ _ _ _ => .get (.giveBool _), fun _ _ _ _ => .get (.giveBool _), List.forall_mem_nil _⟩

theorem sound_constructors : ∀ m ∈ constructors, m.run.Sound := by
  simp only [constructors, List.forall_mem_append, List.forall_mem_cons, List.forall_mem_map]
  exact ⟨⟨sound_objectConstructor, sound_functionConstructor, sound_arrayConstructor,
    sound_stringConstructor, sound_numberConstructor, sound_booleanConstructor, List.forall_mem_nil _⟩,
    fun type _ => sound_errorConstructor type⟩

theorem sound_families : ∀ family ∈ families, ∀ m ∈ family.2, m.run.Sound := by
  simp only [families, List.forall_mem_cons]
  exact ⟨sound_constructors, sound_globalMethods, sound_objectMethods, sound_objectStatics,
    sound_functionMethods, sound_arrayMethods, ⟨sound_isArray, List.forall_mem_nil _⟩, sound_stringMethods,
    ⟨fun _ _ _ _ => .get (.giveText _), List.forall_mem_nil _⟩, sound_numberMethods, sound_booleanMethods,
    sound_errorMethods, sound_mathMethods, List.forall_mem_nil _⟩

/-- Every function of the library answers with what is in the heap. -/
theorem sound_native? {name : String} {f : Native} (hf : native? name = some f) : f.Sound := by
  obtain ⟨p, hp, rfl⟩ := Option.map_eq_some_iff.1 hf
  obtain ⟨family, hfamily, hm⟩ := List.mem_flatMap.1 (List.mem_of_find?_eq_some hp)
  obtain ⟨m, hmem, rfl⟩ := List.mem_map.1 hm
  exact sound_families family hfamily m hmem

end Library

end Stepwise

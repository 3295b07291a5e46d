import Stepwise.Proofs.Heap.Native

/-!
# Natives that ask for another call

* `HeapM.Answers`: an operation that answers with a value if it does not fail.
* `Library.mayAsk_native?`: a function of the library that asks for another call instead leaves the heap as it is and
  has its receiver called. The arguments are its own but the first, none, or the list that one of them stands for.
-/

namespace Stepwise

open Heap

/-- An operation that answers with a value, if it answers. -/
def HeapM.Answers (x : HeapM Reply) : Prop := ∀ h, x.wp (fun r _ => ∃ v, r = .value v) h

namespace HeapM.Answers

variable {α : Type}

theorem bind {x : HeapM α} {f : α → HeapM Reply} (hf : ∀ a, (f a).Answers) : Answers (x >>= f) := by
  intro h
  rw [wp_bind]
  unfold wp
  split
  · exact hf _ _
  · trivial

theorem give (v : Value) : Answers (Native.give v) := fun _ => ⟨v, rfl⟩

theorem giveNumber (n : Float) : Answers (Native.giveNumber n) := give _

theorem giveText (s : String) : Answers (Native.giveText s) := give _

theorem giveBool (b : Bool) : Answers (Native.giveBool b) := give _

theorem giveNew (add : Heap → ObjectId × Heap) : Answers (Native.giveNew add) := bind fun _ => give _

theorem raise (type : ErrorType) (message : String) : Answers (Native.raise type message) := fun _ => trivial

theorem typeError (message : String) : Answers (Native.typeError message) := raise _ _

theorem rangeError (message : String) : Answers (Native.rangeError message) := raise _ _

theorem giveWrapped (c : NativeCall) (v : Value) : Answers (Native.giveWrapped c v) := by
  unfold Native.giveWrapped
  split
  · refine bind fun h => ?_
    split
    · exact bind fun _ => give _
    · exact give _
  · exact give _

end HeapM.Answers

/-- A native function that never asks for another call. -/
def Native.Answers (f : Native) : Prop := ∀ c, (f c).Answers

namespace Library

open HeapM (Answers)

/-! ### Functions that answer -/

private theorem answers_ofChars {name : String} {g : List Char → Heap → Value} {c : NativeCall} :
    Answers (do let cs ← thisChars c name; Native.give (g cs (← get))) :=
  .bind fun _ => .bind fun _ => .give _

theorem givePosition_answers (i : Option Nat) : Answers (givePosition i) := by
  cases i
  · exact .giveNumber _
  · exact .give _

theorem objectToString_answers : Native.Answers objectToString := by
  intro c
  unfold objectToString
  split
  · exact .giveText _
  · exact .giveText _
  · exact .bind fun _ => .giveText _

theorem objectConstructor_answers : Native.Answers objectConstructor := by
  intro c
  simp only [objectConstructor]
  split
  · exact .giveNew _
  · split
    · exact .give _
    · exact .bind fun _ => .give _

theorem isPrototypeOf_answers : Native.Answers isPrototypeOf := by
  refine fun c => .bind fun h => ?_
  split <;> exact .giveBool _

theorem objectCreate_answers : Native.Answers objectCreate := by
  intro c
  unfold objectCreate
  split
  · exact .giveNew _
  · exact .giveNew _
  · exact .typeError _
  · exact .typeError _
  · exact .typeError _

theorem objectMethods_answer : ∀ m ∈ objectMethods, m.run.Answers := by
  simp only [objectMethods, List.forall_mem_cons]
  exact ⟨fun _ => .bind fun _ => .bind fun _ => .giveBool _, objectToString_answers,
    fun _ => .bind fun _ => .give _, isPrototypeOf_answers,
    fun _ => .bind fun _ => .bind fun _ => .giveBool _, List.forall_mem_nil _⟩

theorem objectStatics_answer : ∀ m ∈ objectStatics, m.run.Answers := by
  simp only [objectStatics, List.forall_mem_cons]
  exact ⟨fun _ => .bind fun _ => .giveNew _, objectCreate_answers, fun _ => .bind fun _ => .give _,
    fun _ => .bind fun _ => .giveNew _, fun _ => .giveBool _, List.forall_mem_nil _⟩

theorem arrayConstructor_answers : Native.Answers arrayConstructor := by
  intro c
  unfold arrayConstructor
  split
  · split
    · exact .rangeError _
    · exact .giveNew _
  · exact .giveNew _

theorem arrayPop_answers : Native.Answers arrayPop := by
  refine fun c => .bind fun o => ?_
  split
  · exact .give _
  · exact .bind fun _ => .give _

theorem arrayShift_answers : Native.Answers arrayShift := by
  refine fun c => .bind fun o => ?_
  split
  · exact .give _
  · exact .bind fun _ => .give _

theorem arrayToString_answers : Native.Answers arrayToString := by
  refine fun c => .bind fun h => ?_
  split
  · exact .giveText _
  · exact objectToString_answers c

theorem arrayMethods_answer : ∀ m ∈ arrayMethods, m.run.Answers := by
  simp only [arrayMethods, List.forall_mem_cons]
  exact ⟨fun _ => .bind fun _ => .bind fun _ => .give _, arrayPop_answers, arrayShift_answers,
    fun _ => .bind fun _ => .bind fun _ => .give _, fun _ => .bind fun _ => .bind fun _ => .bind fun _ => .giveNew _,
    fun _ => .bind fun _ => .bind fun _ => .giveNew _, fun _ => .bind fun _ => .bind fun _ => .giveNew _,
    fun _ => .bind fun _ => .bind fun _ => givePosition_answers _,
    fun _ => .bind fun _ => .bind fun _ => givePosition_answers _, fun _ => .bind fun _ => .bind fun _ => .give _,
    fun _ => .bind fun _ => .bind fun _ => .giveText _, arrayToString_answers, List.forall_mem_nil _⟩

theorem stringCharCodeAt_answers : Native.Answers stringCharCodeAt := by
  refine fun c => .bind fun cs => .bind fun h => ?_
  split
  · exact .give _
  · exact .giveNumber _

theorem stringReplace_answers : Native.Answers stringReplace := by
  refine fun c => .bind fun cs => .bind fun h => ?_
  split
  · exact .typeError _
  · dsimp only
    split <;> exact .giveText _

theorem stringValueOf_answers : Native.Answers stringValueOf := by
  refine fun c => .bind fun h => ?_
  split
  · exact .giveText _
  · exact .give _
  · exact .typeError _

theorem stringMethods_answer : ∀ m ∈ stringMethods, m.run.Answers := by
  have chars {f : Native} {name : String} {g : NativeCall → List Char → Heap → Value}
      (hf : f = fun c => do let cs ← thisChars c name; Native.give (g c cs (← get))) : f.Answers := by
    rw [hf]
    exact fun _ => answers_ofChars
  simp only [stringMethods, List.forall_mem_cons]
  exact ⟨chars rfl, stringCharCodeAt_answers, fun _ => .bind fun _ => .bind fun _ => givePosition_answers _,
    fun _ => .bind fun _ => .bind fun _ => givePosition_answers _, chars rfl, chars rfl, chars rfl, chars rfl, chars rfl,
    chars rfl, fun _ => .bind fun _ => .bind fun _ => .giveNew _, chars rfl, stringReplace_answers,
    stringValueOf_answers, stringValueOf_answers, List.forall_mem_nil _⟩

theorem numberToFixed_answers : Native.Answers numberToFixed := by
  refine fun c => .bind fun n => .bind fun h => ?_
  dsimp only
  split
  · exact .rangeError _
  · split <;> exact .giveText _

theorem numberToPrecision_answers : Native.Answers numberToPrecision := by
  refine fun c => .bind fun n => .bind fun h => ?_
  dsimp only
  split
  · exact .giveText _
  · split
    · exact .rangeError _
    · exact .giveText _

theorem numberToString_answers : Native.Answers numberToString := by
  refine fun c => .bind fun n => .bind fun h => ?_
  extract_lets radix
  split
  · exact .rangeError _
  · split <;> exact .giveText _

theorem numberMethods_answer : ∀ m ∈ numberMethods, m.run.Answers := by
  simp only [numberMethods, List.forall_mem_cons]
  exact ⟨numberToFixed_answers, numberToPrecision_answers, numberToString_answers,
    fun _ => .bind fun _ => .giveNumber _, List.forall_mem_nil _⟩

theorem booleanMethods_answer : ∀ m ∈ booleanMethods, m.run.Answers := by
  simp only [booleanMethods, List.forall_mem_cons]
  exact ⟨fun _ => .bind fun _ => .giveText _, fun _ => .bind fun _ => .giveBool _, List.forall_mem_nil _⟩

theorem errorConstructor_answers (type : ErrorType) : Native.Answers (errorConstructor type) := fun _ =>
  .bind fun _ => .bind fun _ => .give _

theorem extreme_answers (start : Float) (better : Float → Float → Bool) : Native.Answers (extreme start better) := by
  refine fun c => .bind fun h => ?_
  dsimp only
  split <;> exact .giveNumber _

theorem mathMethods_answer : ∀ m ∈ mathMethods, m.run.Answers := by
  have unary (f : Float → Float) : Native.Answers (unaryMath f) := fun _ => .bind fun _ => .giveNumber _
  have binary (f : Float → Float → Float) : Native.Answers (binaryMath f) := fun _ => .bind fun _ => .giveNumber _
  simp only [mathMethods, List.forall_mem_cons]
  exact ⟨unary _, unary _, unary _, unary _, unary _, unary _, unary _, unary _, unary _, unary _, unary _,
    unary _, unary _, extreme_answers _ _, extreme_answers _ _, binary _, binary _, fun _ => .giveNumber _,
    List.forall_mem_nil _⟩

theorem globalMethods_answer : ∀ m ∈ globalMethods, m.run.Answers := by
  simp only [globalMethods, List.forall_mem_cons]
  exact ⟨fun _ => .bind fun _ => .giveNumber _, fun _ => .bind fun _ => .giveNumber _,
    fun _ => .bind fun _ => .giveBool _, fun _ => .bind fun _ => .giveBool _, List.forall_mem_nil _⟩

theorem constructors_answer : ∀ m ∈ constructors, m.run.Answers := by
  simp only [constructors, List.forall_mem_append, List.forall_mem_cons, List.forall_mem_map]
  exact ⟨⟨objectConstructor_answers, fun _ => .raise _ _, arrayConstructor_answers,
    fun _ => .bind fun _ => .giveWrapped _ _, fun _ => .bind fun _ => .giveWrapped _ _,
    fun _ => .giveWrapped _ _, List.forall_mem_nil _⟩, fun type _ => errorConstructor_answers type⟩

/-! ### Functions that ask for a call -/

/-- The arguments that a native function may ask for: its own but the first, none, or the list that one of them
stands for. -/
inductive Forwards (h : Heap) (args : List Value) : List Value → Prop where
  | rest : Forwards h args (args.drop 1)
  | none : Forwards h args []
  | list {v : Value} (hv : v ∈ args) : Forwards h args (listElements h v)

/-- What a native function answers: a value, or that its receiver, which is a function, be called. -/
def AnswersOrAsks (h : Heap) (c : NativeCall) (r : Reply) (h' : Heap) : Prop :=
  (∃ v, r = .value v) ∨
    h' = h ∧ h.isCallable c.this ∧ ∃ args, r = .tail c.this (c.arg 0) args ∧ Forwards h c.args args

end Library

/-- A native function that may ask for a call. -/
def Native.MayAsk (f : Native) : Prop := ∀ c h, (f c).wp (Library.AnswersOrAsks h c) h

namespace Library

theorem functionCall_mayAsk : Native.MayAsk functionCall := by
  intro c h
  simp only [functionCall, HeapM.wp_bind, HeapM.wp_get]
  split
  · exact .inr ⟨rfl, ‹_›, _, rfl, .rest⟩
  · trivial

theorem functionApply_mayAsk : Native.MayAsk functionApply := by
  intro c h
  simp only [functionApply, HeapM.wp_bind, HeapM.wp_get]
  split
  · trivial
  · rename_i hc
    have hc : h.isCallable c.this := by simpa using hc
    split
    · exact .inr ⟨rfl, hc, _, rfl, .none⟩
    · exact .inr ⟨rfl, hc, _, rfl, .none⟩
    · rename_i id ha
      refine .inr ⟨rfl, hc, _, rfl, .list ?_⟩
      unfold NativeCall.arg at ha
      cases hg : c.args[1]? with
      | none => rw [hg] at ha; cases ha
      | some v =>
        rw [hg] at ha
        cases ha
        exact List.mem_of_getElem? hg
    · trivial

theorem Answers.mayAsk {f : Native} (hf : f.Answers) : f.MayAsk := fun c h => (hf c h).mono fun _ _ => .inl

theorem families_mayAsk : ∀ family ∈ families, ∀ m ∈ family.2, m.run.MayAsk := by
  have all {methods : List Method} (h : ∀ m ∈ methods, m.run.Answers) : ∀ m ∈ methods, m.run.MayAsk :=
    fun m hm => Answers.mayAsk (h m hm)
  have functions : ∀ m ∈ functionMethods, m.run.MayAsk := by
    simp only [functionMethods, List.forall_mem_cons]
    refine ⟨functionCall_mayAsk, functionApply_mayAsk, Answers.mayAsk fun c => .bind fun h => ?_,
      List.forall_mem_nil _⟩
    split
    · exact .giveText _
    · exact .typeError _
  have errors : errorToString.Answers := fun _ => .bind fun _ => .bind fun _ => .giveText _
  simp only [families, List.forall_mem_cons]
  exact ⟨all constructors_answer, all globalMethods_answer, all objectMethods_answer, all objectStatics_answer,
    functions, all arrayMethods_answer, ⟨Answers.mayAsk fun _ => .bind fun _ => .giveBool _, List.forall_mem_nil _⟩,
    all stringMethods_answer, ⟨Answers.mayAsk fun _ => .bind fun _ => .giveText _, List.forall_mem_nil _⟩,
    all numberMethods_answer, all booleanMethods_answer, all (by simpa [errorMethods] using errors),
    all mathMethods_answer, List.forall_mem_nil _⟩

/-- A function of the library answers with a value, or asks for its receiver to be called. -/
theorem mayAsk_native? {name : String} {f : Native} (hf : native? name = some f) : f.MayAsk := by
  obtain ⟨p, hp, rfl⟩ := Option.map_eq_some_iff.1 hf
  obtain ⟨family, hfamily, hm⟩ := List.mem_flatMap.1 (List.mem_of_find?_eq_some hp)
  obtain ⟨m, hmem, rfl⟩ := List.mem_map.1 hm
  exact families_mayAsk family hfamily m hmem

end Library

end Stepwise

import Stepwise.Heap.Codec
import Stepwise.Proofs.Heap.Filed
import Stepwise.Proofs.Json.Decode

/-!
# Heaps read back from JSON

* `Value.Fits`, `Object.Fits`, `Heap.Fits`: every integer has 64 bits.
* `Heap.decodes_ofJson?`: a heap in order is decoded again if its integers fit, and is never taken for
  another one.
-/

namespace Stepwise

/-! ### Integers of 64 bits -/

/-- Whether the object that a value refers to has an identity of 64 bits. -/
def Value.Fits : Value → Prop
  | .object id => Word id
  | _ => True

instance (v : Value) : Decidable v.Fits := by
  unfold Value.Fits
  split <;> infer_instance

/-- Whether the integers of a function have 64 bits. -/
structure FunctionInfo.Fits (f : FunctionInfo) : Prop where
  length : Word f.length
  code : match f.code with
    | .native _ => True
    | .closure node scope => Word node ∧ Word scope

/-- Whether the integers of an object have 64 bits. -/
structure Object.Fits (o : Object) : Prop where
  id : Word o.id
  proto : Word o.proto
  props : ∀ e ∈ o.props.toList, e.2.Fits
  elems : ∀ v ∈ o.elems.toList, v.Fits
  func : ∀ f ∈ o.func, f.Fits
  primitive : ∀ v ∈ o.primitive, v.Fits

/-- Whether the integers of a scope have 64 bits. -/
structure Scope.Fits (s : Scope) : Prop where
  id : Word s.id
  parent : Word s.parent

/-- Whether the integers of a heap have 64 bits. -/
structure Heap.Fits (h : Heap) : Prop where
  next : Word h.next
  objects : ∀ e ∈ h.objects.toList, e.2.Fits
  scopes : ∀ e ∈ h.scopes.toList, e.2.Fits
  intrinsics : ∀ e ∈ h.intrinsics.toList, Word e.2

instance (f : FunctionInfo) : Decidable f.Fits :=
  have : Decidable (match f.code with
      | .native _ => True
      | .closure node scope => Word node ∧ Word scope) := by split <;> infer_instance
  decidable_of_iff (Word f.length ∧ _) ⟨fun ⟨a, b⟩ => ⟨a, b⟩, fun ⟨a, b⟩ => ⟨a, b⟩⟩

instance (o : Object) : Decidable o.Fits :=
  decidable_of_iff (Word o.id ∧ Word o.proto ∧ (∀ e ∈ o.props.toList, e.2.Fits) ∧ (∀ v ∈ o.elems.toList, v.Fits) ∧
      (∀ f ∈ o.func, f.Fits) ∧ ∀ v ∈ o.primitive, v.Fits)
    ⟨fun ⟨a, b, c, d, e, f⟩ => ⟨a, b, c, d, e, f⟩, fun ⟨a, b, c, d, e, f⟩ => ⟨a, b, c, d, e, f⟩⟩

instance (s : Scope) : Decidable s.Fits :=
  decidable_of_iff (Word s.id ∧ Word s.parent) ⟨fun ⟨a, b⟩ => ⟨a, b⟩, fun ⟨a, b⟩ => ⟨a, b⟩⟩

instance (h : Heap) : Decidable h.Fits :=
  decidable_of_iff (Word h.next ∧ (∀ e ∈ h.objects.toList, e.2.Fits) ∧ (∀ e ∈ h.scopes.toList, e.2.Fits) ∧
      ∀ e ∈ h.intrinsics.toList, Word e.2)
    ⟨fun ⟨a, b, c, d⟩ => ⟨a, b, c, d⟩, fun ⟨a, b, c, d⟩ => ⟨a, b, c, d⟩⟩

/-! ### Values and functions -/

namespace Value

theorem toJson_ne_null (v : Value) : v.toJson ≠ .null := by cases v <;> nofun

theorem decodes_ofJson? (v : Value) : Decodes v.Fits v (ofJson? v.toJson) := by
  cases v with
  | undefined => exact .some _
  | null => exact .some _
  | bool b => exact .some _
  | number n =>
    show Decodes _ _ ((readFloat? (NumberStyle.compact.render n)).map number)
    rw [readFloat?_render]
    exact .some _
  | string s => exact .some _
  | object id => exact (Json.decodes_int64? id).map object

theorem whole_toJson (v : Value) : v.toJson.Whole := by
  cases v <;> refine .arr (List.forall_mem_cons.2 ⟨.str _, ?_⟩) <;>
    simp only [List.forall_mem_cons, List.not_mem_nil, false_imp_iff, implies_true, and_true]
  · exact .bool _
  · exact .str _
  · exact .str _
  · exact .int _

end Value

namespace FunctionInfo

theorem toJson_ne_null (f : FunctionInfo) : f.toJson ≠ .null := nofun

theorem decodes_ofJson? {f : FunctionInfo} (hn : f.IsNamed) : Decodes f.Fits f (ofJson? f.toJson) := by
  obtain ⟨name, code, length⟩ := f
  have hd : Json.Distinct ["name", "node", "scope", "native", "length"] := by decide
  unfold ofJson? toJson
  cases code with
  | native native =>
    refine Json.decodes_record ["name", "node", "scope", "native", "length"] rfl hd fun field => ?_
    refine (field 0 rfl (Json.decodesField_text name)).bind ?_
    refine (field 1 rfl (Json.decodesField_nonzero 0 fun _ => by decide)).bind ?_
    refine (field 2 rfl (Json.decodesField_nonzero 0 fun _ => by decide)).bind ?_
    refine (field 3 rfl (Json.decodesField_text native)).bind ?_
    refine (field 4 rfl (Json.decodesField_nonzero length fun h => h.length)).bind ?_
    have hne : native ≠ "" := fun h => hn (h ▸ rfl)
    simp only [String.isEmpty_iff, hne, if_false]
    exact .some _
  | closure node scope =>
    refine Json.decodes_record ["name", "node", "scope", "native", "length"] rfl hd fun field => ?_
    refine (field 0 rfl (Json.decodesField_text name)).bind ?_
    refine (field 1 rfl (Json.decodesField_nonzero node fun h => h.code.1)).bind ?_
    refine (field 2 rfl (Json.decodesField_nonzero scope fun h => h.code.2)).bind ?_
    refine (field 3 rfl (Json.decodesField_text "")).bind ?_
    refine (field 4 rfl (Json.decodesField_nonzero length fun h => h.length)).bind ?_
    exact .some _

theorem whole_toJson (f : FunctionInfo) : f.toJson.Whole := by
  refine Json.whole_record ?_
  simp [Json.wholeField_optional, Json.Whole.str, Json.Whole.int]

end FunctionInfo

/-! ### Objects and scopes -/

theorem Class.ofCode?_code (c : Class) : ofCode? c.code = some c := by cases c <;> rfl

theorem Class.code_lt (c : Class) : c.code < 8 := by cases c <;> decide

namespace Object

theorem decodes_ofJson? {o : Object} (hn : ∀ f, o.func = some f → f.IsNamed) :
    Decodes o.Fits o (ofJson? o.toJson) := by
  have hv {v : Value} (h : o.Fits → v.Fits) : Decodes o.Fits v (Value.ofJson? v.toJson) := v.decodes_ofJson?.mono h
  unfold ofJson? toJson
  refine Json.decodes_record ["id", "class", "proto", "keys", "props", "elems", "func", "prim", "hidden"] rfl
    (by decide) fun field => ?_
  refine (field 1 rfl (Json.decodesField_positive o.cls.code fun _ => ?_)).bind ?_
  · exact Nat.lt_trans o.cls.code_lt (by decide)
  refine (field 0 rfl (Json.decodesField_int o.id fun h => h.id)).bind ?_
  rw [Class.ofCode?_code]
  refine (Decodes.some o.cls).bind ?_
  refine (field 2 rfl (Json.decodesField_nonzero o.proto fun h => h.proto)).bind ?_
  refine (field 3 rfl (Json.decodesField_texts o.keys)).bind ?_
  refine (field 4 rfl (Json.decodesField_optional (a := o.props) ?_ nofun fun _ => ?_)).bind ?_
  · simp
  · exact Json.decodes_entries o.props fun e he => hv fun h => h.props e he
  refine (field 5 rfl (Json.decodesField_optional (a := o.elems.toList) ?_ nofun fun _ => ?_)).bind ?_
  · simp
  · exact .mapM fun v hm => hv fun h => h.elems v hm
  refine (field 6 rfl (Json.decodesField_given FunctionInfo.toJson_ne_null fun f hf => ?_)).bind ?_
  · exact (FunctionInfo.decodes_ofJson? (hn f hf)).mono fun h => h.func f hf
  refine (field 7 rfl (Json.decodesField_given Value.toJson_ne_null fun v hm => ?_)).bind ?_
  · exact hv fun h => h.primitive v hm
  refine (field 8 rfl (Json.decodesField_texts o.hidden)).bind ?_
  exact .some _

theorem whole_toJson (o : Object) : o.toJson.Whole := by
  refine Json.whole_record ?_
  simp [Json.wholeField_optional, Json.wholeField_map, Json.Whole.int, Json.Whole.nat, Json.whole_strs,
    Json.whole_entries, Json.whole_arr, Value.whole_toJson, FunctionInfo.whole_toJson]

end Object

namespace Scope

theorem decodes_ofJson? (s : Scope) : Decodes s.Fits s (ofJson? s.toJson) := by
  unfold ofJson? toJson
  refine Json.decodes_record ["id", "parent", "strict"] rfl (by decide) fun field => ?_
  refine (field 0 rfl (Json.decodesField_int s.id fun h => h.id)).bind ?_
  refine (field 1 rfl (Json.decodesField_nonzero s.parent fun h => h.parent)).bind ?_
  refine (field 2 rfl (Json.decodesField_flag s.strict)).bind ?_
  exact .some _

theorem whole_toJson (s : Scope) : s.toJson.Whole := by
  refine Json.whole_record ?_
  simp [Json.wholeField_optional, Json.Whole.int, Json.Whole.bool]

end Scope

/-! ### Heaps -/

namespace Heap

variable {h : Heap}

/-- Objects in range are all added. -/
theorem foldlM_addRead? (h : Heap) (l : List (ObjectId × Object))
    (hl : ∀ e ∈ l, e.2.id = e.1 ∧ 0 < e.1 ∧ e.1 < h.next) :
    (l.map Prod.snd).foldlM addRead? h =
      some { h with objects := l.foldl (fun m e => m.insert e.1 e.2) h.objects } := by
  induction l generalizing h with
  | nil => rfl
  | cons e l ih =>
    obtain ⟨hid, hpos, hlt⟩ := hl e List.mem_cons_self
    have he : h.addRead? e.2 = some { h with objects := h.objects.insert e.1 e.2 } := by
      unfold addRead? store
      rw [hid, if_pos ⟨hpos, hlt⟩]
    rw [List.map_cons, List.foldlM_cons, he]
    exact ih _ fun e he => hl e (List.mem_cons_of_mem _ he)

/-- Scopes with bindings are all added. -/
theorem foldlM_addScopeRead? (h : Heap) (l : List (ObjectId × Scope))
    (hl : ∀ e ∈ l, e.2.id = e.1 ∧ (h.object? e.1).isSome) :
    (l.map Prod.snd).foldlM addScopeRead? h =
      some { h with scopes := l.foldl (fun m e => m.insert e.1 e.2) h.scopes } := by
  induction l generalizing h with
  | nil => rfl
  | cons e l ih =>
    obtain ⟨hid, hsome⟩ := hl e List.mem_cons_self
    have he : h.addScopeRead? e.2 = some { h with scopes := h.scopes.insert e.1 e.2 } := by
      unfold addScopeRead?
      rw [hid, if_pos hsome]
    rw [List.map_cons, List.foldlM_cons, he]
    exact ih _ fun e he => hl e (List.mem_cons_of_mem _ he)

theorem Filed.decodes_object (hf : h.Filed) (e : ObjectId × Object) (he : e ∈ h.objects.toList) :
    Decodes h.Fits e.2 (Object.ofJson? e.2.toJson) := by
  have ho : h.object? e.1 = some e.2 := Std.ExtTreeMap.mem_toList_iff_getElem?_eq_some.1 he
  exact (Object.decodes_ofJson? fun f => hf.func ho).mono fun hh => hh.objects e he

/-- A heap in order is decoded again. -/
theorem decodes_ofJson? (hf : h.Filed) : Decodes h.Fits h (ofJson? h.toJson) := by
  unfold ofJson? toJson
  refine Json.decodes_record ["next", "objects", "scopes", "intrinsics"] rfl (by decide) fun field => ?_
  refine (field 0 rfl (Json.decodesField_int h.next fun hh => hh.next)).bind ?_
  refine (field 1 rfl (Json.decodesField_items (List.forall_mem_map.2 hf.decodes_object))).bind ?_
  refine (field 2 rfl (Json.decodesField_items (List.forall_mem_map.2 fun e he => ?_))).bind ?_
  · exact e.2.decodes_ofJson?.mono fun hh => hh.scopes e he
  refine (field 3 rfl ⟨nofun, Json.decodes_entries h.intrinsics fun e he => ?_⟩).bind ?_
  · exact (Json.decodes_int64? e.2).mono fun hh => hh.intrinsics e he
  -- The objects come first, so the bindings of every scope are there when it is added.
  have hobjects : (h.objects.toList.map Prod.snd).foldlM addRead? { next := h.next, intrinsics := h.intrinsics } =
      some { h with scopes := ∅ } := by
    refine (foldlM_addRead? _ _ fun e he => ?_).trans ?_
    · exact hf.object (Std.ExtTreeMap.mem_toList_iff_getElem?_eq_some.1 he)
    · rw [foldl_insert_toList]
  have hscopes : (h.scopes.toList.map Prod.snd).foldlM addScopeRead? { h with scopes := ∅ } = some h := by
    refine (foldlM_addScopeRead? _ _ fun e he => ?_).trans ?_
    · exact hf.scope (Std.ExtTreeMap.mem_toList_iff_getElem?_eq_some.1 he)
    · rw [foldl_insert_toList]
  rw [hobjects]
  show Decodes _ _ ((h.scopes.toList.map Prod.snd).foldlM addScopeRead? { h with scopes := ∅ })
  rw [hscopes]
  exact .some h

theorem whole_toJson (h : Heap) : h.toJson.Whole := by
  refine Json.whole_record ?_
  simp only [List.forall_mem_cons, Json.wholeField_some]
  exact ⟨.int _, Json.whole_arr Object.whole_toJson _, Json.whole_arr Scope.whole_toJson _,
    Json.whole_entries .int _, List.forall_mem_nil _⟩

end Heap

end Stepwise

import Stepwise.Proofs.Heap.Builds
import Stepwise.Proofs.Heap.Install

/-!
# Heaps without loose ends

* `Object.Sound`: an object whose parts fit together and refer only to what is in the heap.
* `Heap.WellFormed`: all objects are sound, and prototypes and enclosing scopes are older than what they
  serve. Whether a heap is well-formed can be computed; the heap of the library is.
* `Heap.Edits`: what operations other than the making of functions and scopes can do to a heap. It is all that
  is known about the natives, and it keeps a heap well-formed.
-/

namespace Stepwise

/-! ### What is in a heap -/

/-- A primitive, or a reference to an object that is there. -/
def Value.In (v : Value) (h : Heap) : Prop :=
  match v with
  | .object id => (h.object? id).isSome
  | _ => True

instance (v : Value) (h : Heap) : Decidable (v.In h) :=
  match v with
  | .object id => inferInstanceAs (Decidable ((h.object? id).isSome = true))
  | .undefined | .null | .bool _ | .number _ | .string _ => inferInstanceAs (Decidable True)

/-- A function that closes over a scope that is there, or over none. -/
def FunctionInfo.In (f : FunctionInfo) (h : Heap) : Prop :=
  match f.code with
  | .native _ => True
  | .closure _ scope => (h.scope? scope).isSome

instance (f : FunctionInfo) (h : Heap) : Decidable (f.In h) :=
  match f with
  | ⟨_, .native _, _⟩ => inferInstanceAs (Decidable True)
  | ⟨_, .closure _ scope, _⟩ => inferInstanceAs (Decidable ((h.scope? scope).isSome = true))

/-- Whether objects of the class wrap such a primitive; most classes wrap none. -/
def Class.wraps : Class → Option Value → Bool
  | .string, some (.string _) | .number, some (.number _) | .boolean, some (.bool _) => true
  | .string, _ | .number, _ | .boolean, _ => false
  | _, p => p.isNone

/-- The parts of an object fit together, and what it refers to is in the heap. -/
structure Object.Sound (o : Object) (h : Heap) : Prop where
  proto : o.proto = 0 ∨ (h.object? o.proto).isSome
  nodup : o.keys.Nodup
  mem_keys : ∀ key, key ∈ o.keys ↔ (o.own? key).isSome
  prop : ∀ key v, o.own? key = some v → v.In h
  elem : ∀ v ∈ o.elems, v.In h
  func : o.func.isSome ↔ o.cls = .function
  closure : ∀ f ∈ o.func, f.In h
  primitive : o.cls.wraps o.primitive
  elems : o.elems ≠ #[] → o.cls.hasElements

/-- All objects are sound. Prototypes and enclosing scopes are older than what they serve, and the intrinsic
objects are there. -/
structure Heap.WellFormed (h : Heap) : Prop extends h.Filed where
  sound : ∀ {id o}, h.object? id = some o → o.Sound h
  proto_lt : ∀ {id o}, h.object? id = some o → o.proto < id
  parent : ∀ {id s}, h.scope? id = some s → s.parent = 0 ∨ s.parent < id ∧ (h.scope? s.parent).isSome
  intrinsic : ∀ {name : String} {id : ObjectId}, h.intrinsics[name]? = some id → (h.object? id).isSome

/-! ### Computing whether a heap is well-formed -/

namespace Object

/-- Soundness, with the properties listed. -/
theorem sound_iff {o : Object} {h : Heap} : o.Sound h ↔
    (o.proto = 0 ∨ (h.object? o.proto).isSome) ∧ o.keys.Nodup ∧ (∀ key ∈ o.keys, (o.own? key).isSome) ∧
      (∀ e ∈ o.props.toList, e.1 ∈ o.keys ∧ e.2.In h) ∧ (∀ v ∈ o.elems, v.In h) ∧
      (o.func.isSome ↔ o.cls = .function) ∧ (∀ f ∈ o.func, f.In h) ∧ o.cls.wraps o.primitive ∧
      (o.elems ≠ #[] → o.cls.hasElements) := by
  constructor
  · intro hs
    refine ⟨hs.proto, hs.nodup, fun key => (hs.mem_keys key).1, ?_, hs.elem, hs.func, hs.closure, hs.primitive,
      hs.elems⟩
    rintro ⟨key, v⟩ he
    have ho : o.own? key = some v := Std.ExtTreeMap.mem_toList_iff_getElem?_eq_some.1 he
    exact ⟨(hs.mem_keys key).2 (by simp [ho]), hs.prop key v ho⟩
  · rintro ⟨hproto, hnodup, hkeys, hprops, helem, hfunc, hclosure, hprimitive, helems⟩
    have hlisted {key : String} {v : Value} (ho : o.own? key = some v) : key ∈ o.keys ∧ v.In h :=
      hprops (key, v) (Std.ExtTreeMap.mem_toList_iff_getElem?_eq_some.2 ho)
    refine ⟨hproto, hnodup, fun key => ⟨hkeys key, fun hs => ?_⟩, fun key v ho => (hlisted ho).2, helem, hfunc,
      hclosure, hprimitive, helems⟩
    obtain ⟨v, ho⟩ := Option.isSome_iff_exists.1 hs
    exact (hlisted ho).1

instance (o : Object) (h : Heap) : Decidable (o.Sound h) := decidable_of_iff' _ sound_iff

end Object

namespace Heap

/-- A heap is well-formed if the objects, scopes and intrinsic objects that it lists are. -/
theorem wellFormed_iff {h : Heap} : h.WellFormed ↔
    0 < h.next ∧
      (∀ e ∈ h.objects.toList, e.2.id = e.1 ∧ 0 < e.1 ∧ e.1 < h.next ∧ e.2.Sound h ∧ e.2.proto < e.1 ∧
        ∀ f ∈ e.2.func, f.code ≠ .native "") ∧
      (∀ e ∈ h.scopes.toList, e.2.id = e.1 ∧ (h.object? e.1).isSome ∧
        (e.2.parent = 0 ∨ e.2.parent < e.1 ∧ (h.scope? e.2.parent).isSome)) ∧
      ∀ e ∈ h.intrinsics.toList, (h.object? e.2).isSome := by
  constructor
  · intro hw
    refine ⟨hw.next_pos, ?_, ?_, ?_⟩
    · rintro ⟨id, o⟩ he
      have ho : h.object? id = some o := Std.ExtTreeMap.mem_toList_iff_getElem?_eq_some.1 he
      obtain ⟨hid, hpos, hlt⟩ := hw.object ho
      exact ⟨hid, hpos, hlt, hw.sound ho, hw.proto_lt ho, fun f hf => hw.func ho hf⟩
    · rintro ⟨id, s⟩ he
      have hs : h.scope? id = some s := Std.ExtTreeMap.mem_toList_iff_getElem?_eq_some.1 he
      exact ⟨(hw.scope hs).1, (hw.scope hs).2, hw.parent hs⟩
    · rintro ⟨name, id⟩ he
      exact hw.intrinsic (Std.ExtTreeMap.mem_toList_iff_getElem?_eq_some.1 he)
  · rintro ⟨hnext, hobjects, hscopes, hintrinsics⟩
    have hobject {id : ObjectId} {o : Object} (ho : h.object? id = some o) :=
      hobjects (id, o) (Std.ExtTreeMap.mem_toList_iff_getElem?_eq_some.2 ho)
    have hscope {id : ObjectId} {s : Scope} (hs : h.scope? id = some s) :=
      hscopes (id, s) (Std.ExtTreeMap.mem_toList_iff_getElem?_eq_some.2 hs)
    refine ⟨⟨hnext, fun ho => ?_, fun hs => ?_, fun ho hf => ?_⟩, fun ho => ?_, fun ho => ?_, fun hs => ?_,
      fun hi => ?_⟩
    · obtain ⟨hid, hpos, hlt, -⟩ := hobject ho
      exact ⟨hid, hpos, hlt⟩
    · obtain ⟨hid, hb, -⟩ := hscope hs
      exact ⟨hid, hb⟩
    · exact (hobject ho).2.2.2.2.2 _ hf
    · exact (hobject ho).2.2.2.1
    · exact (hobject ho).2.2.2.2.1
    · exact (hscope hs).2.2
    · exact hintrinsics _ (Std.ExtTreeMap.mem_toList_iff_getElem?_eq_some.2 hi)

instance (h : Heap) : Decidable h.WellFormed := decidable_of_iff' _ wellFormed_iff

end Heap

/-- The heap of the library is well-formed. -/
theorem Library.wellFormed_install : Library.install.2.WellFormed := by decide +kernel

variable {h h' h'' : Heap} {o o' : Object} {v : Value}

/-! ### What is in a heap stays in it -/

theorem Value.In.mono (g : h.Grows h') (hv : v.In h) : v.In h' := by
  cases v with
  | object id => exact g.isSome_object? hv
  | undefined | null | bool | number | string => trivial

theorem FunctionInfo.In.mono {f : FunctionInfo} (g : h.Grows h') (hf : f.In h) : f.In h' := by
  obtain ⟨name, code, length⟩ := f
  cases code with
  | native => trivial
  | closure node scope => exact g.isSome_scope? hf

/-- What a value refers to is there, and is sound. -/
theorem Value.In.deref? (hw : h.WellFormed) (hv : v.In h) (ho : v.isObject) :
    ∃ o, h.deref? v = some o ∧ o.Sound h := by
  cases v with
  | object id =>
    obtain ⟨o, ho⟩ := Option.isSome_iff_exists.1 hv
    exact ⟨o, ho, hw.sound ho⟩
  | undefined | null | bool | number | string => cases ho

theorem Heap.WellFormed.sound_deref? (hw : h.WellFormed) (ho : h.deref? v = some o) : o.Sound h := by
  unfold Heap.deref? at ho
  split at ho
  · exact hw.sound ho
  · cases ho

/-- The properties that every string has are primitive. -/
theorem in_stringProperty? {cs : List Char} {key : String} (hp : stringProperty? cs key = some v) : v.In h := by
  unfold stringProperty? at hp
  split at hp
  · cases hp
    trivial
  · split at hp
    · obtain ⟨c, -, rfl⟩ := Option.map_eq_some_iff.1 hp
      trivial
    · cases hp

/-! ### The keys of an object -/

namespace Object

/-- The keys of an object are those of its properties, each once. -/
structure Listed (o : Object) : Prop where
  nodup : o.keys.Nodup
  mem_keys : ∀ key, key ∈ o.keys ↔ (o.own? key).isSome

theorem own?_delete (o : Object) (key k : String) : (o.delete key).own? k = if key = k then none else o.own? k := by
  unfold Object.delete own?
  split
  · rw [Std.ExtTreeMap.getElem?_erase]
    simp [Std.LawfulEqCmp.compare_eq_iff_eq]
  · rename_i hc
    split
    · next he => exact Std.ExtTreeMap.getElem?_eq_none (he ▸ hc)
    · rfl

namespace Listed

theorem contains_props (ho : o.Listed) (key : String) : o.props.contains key ↔ key ∈ o.keys := by
  rw [ho.mem_keys, Std.ExtTreeMap.contains_eq_isSome_getElem?]
  rfl

theorem keys_put (ho : o.Listed) (key : String) (v : Value) :
    (o.put key v).keys = if key ∈ o.keys then o.keys else o.keys ++ [key] := by
  unfold Object.put
  simp only [ho.contains_props]

theorem keys_delete (ho : o.Listed) (key : String) : (o.delete key).keys = o.keys.erase key := by
  unfold Object.delete
  split
  · rfl
  · rename_i hc
    exact (List.erase_of_not_mem fun hk => hc ((ho.contains_props key).2 hk)).symm

theorem put (ho : o.Listed) (key : String) (v : Value) : (o.put key v).Listed := by
  refine ⟨?_, fun k => ?_⟩
  · rw [ho.keys_put]
    split
    · exact ho.nodup
    · rename_i hk
      refine List.nodup_append.2 ⟨ho.nodup, List.pairwise_singleton _ _, ?_⟩
      rintro a ha b hb rfl
      exact hk (List.mem_singleton.1 hb ▸ ha)
  · rw [ho.keys_put, own?_put]
    by_cases hk : key = k
    · subst hk
      rw [if_pos rfl]
      split <;> simp_all
    · rw [if_neg hk, ← ho.mem_keys]
      split
      · rfl
      · simp [Ne.symm hk]

theorem delete (ho : o.Listed) (key : String) : (o.delete key).Listed := by
  refine ⟨?_, fun k => ?_⟩
  · rw [ho.keys_delete]
    exact ho.nodup.erase key
  · rw [ho.keys_delete, own?_delete, ho.nodup.mem_erase_iff, ho.mem_keys]
    by_cases hk : key = k
    · simp [hk]
    · simp [hk, Ne.symm hk]

end Listed

end Object

namespace Object.Sound

theorem listed (hs : o.Sound h) : o.Listed := ⟨hs.nodup, hs.mem_keys⟩

theorem mono (g : h.Grows h') (hs : o.Sound h) : o.Sound h' where
  proto := hs.proto.imp_right g.isSome_object?
  nodup := hs.nodup
  mem_keys := hs.mem_keys
  prop key v ho := (hs.prop key v ho).mono g
  elem v hv := (hs.elem v hv).mono g
  func := hs.func
  closure f hf := (hs.closure f hf).mono g
  primitive := hs.primitive
  elems := hs.elems

/-- Soundness does not depend on the identity. -/
theorem with_id (hs : o.Sound h) (id : ObjectId) : ({ o with id } : Object).Sound h := ⟨hs.proto, hs.nodup,
  hs.mem_keys, hs.prop, hs.elem, hs.func, hs.closure, hs.primitive, hs.elems⟩

/-! ### Changes of an object -/

theorem put (hs : o.Sound h) (key : String) (hv : v.In h) : (o.put key v).Sound h := by
  obtain ⟨hnodup, hkeys⟩ := hs.listed.put key v
  refine ⟨hs.proto, hnodup, hkeys, fun k w hw => ?_, hs.elem, hs.func, hs.closure, hs.primitive, hs.elems⟩
  rw [own?_put] at hw
  split at hw
  · cases hw
    exact hv
  · exact hs.prop k w hw

theorem with_hidden (hs : o.Sound h) (hidden : List String) : ({ o with hidden } : Object).Sound h :=
  ⟨hs.proto, hs.nodup, hs.mem_keys, hs.prop, hs.elem, hs.func, hs.closure, hs.primitive, hs.elems⟩

theorem putHidden (hs : o.Sound h) (key : String) (hv : v.In h) : (o.putHidden key v).Sound h := by
  simp only [Object.putHidden]
  split
  · exact hs.put key hv
  · exact (hs.put key hv).with_hidden _

theorem with_elems {elems : Array Value} (hs : o.Sound h) (hc : o.cls.hasElements)
    (he : ∀ v ∈ elems, v.In h) : ({ o with elems } : Object).Sound h :=
  ⟨hs.proto, hs.nodup, hs.mem_keys, hs.prop, he, hs.func, hs.closure, hs.primitive, fun _ => hc⟩

theorem delete (hs : o.Sound h) (key : String) : (o.delete key).Sound h := by
  obtain ⟨hnodup, hkeys⟩ := hs.listed.delete key
  have hprop (k : String) (w : Value) (hw : (o.delete key).own? k = some w) : w.In h := by
    rw [own?_delete] at hw
    split at hw
    · cases hw
    · exact hs.prop k w hw
  by_cases hc : o.props.contains key
  · have hd : o.delete key = { o with keys := o.keys.erase key, props := o.props.erase key } := if_pos hc
    rw [hd] at hnodup hkeys hprop ⊢
    exact ⟨hs.proto, hnodup, hkeys, hprop, hs.elem, hs.func, hs.closure, hs.primitive, hs.elems⟩
  · rwa [show o.delete key = o from if_neg hc]

/-- An object without properties. -/
theorem new {cls : Class} {proto : ObjectId} {primitive : Option Value} {elems : Array Value}
    (hp : proto = 0 ∨ (h.object? proto).isSome) (hc : cls ≠ .function) (hw : cls.wraps primitive)
    (he : ∀ v ∈ elems, v.In h) (hn : elems ≠ #[] → cls.hasElements) :
    Object.Sound { id := 0, cls, proto, primitive, elems } h where
  proto := hp
  nodup := List.nodup_nil
  mem_keys key := by simp [own?]
  prop key v ho := by simp [own?] at ho
  elem := he
  func := by simp [hc]
  closure f hf := by cases hf
  primitive := hw
  elems := hn

/-! ### Reading an object -/

theorem in_getOwn? {key : String} (hs : o.Sound h) (ho : o.getOwn? key = some v) : v.In h := by
  have helem {i : Nat} (he : o.elems[i]? = some v) : v.In h := hs.elem v (Array.mem_of_getElem? he)
  unfold getOwn? at ho
  split at ho
  · split at ho
    · cases ho
      trivial
    · split at ho
      · exact helem ho
      · exact hs.prop key v ho
  · split at ho
    · cases ho
      trivial
    · split at ho
      · exact helem ho
      · exact hs.prop key v ho
  · split at ho
    · rcases Option.or_eq_some_iff.1 ho with ho | ⟨-, ho⟩
      · exact in_stringProperty? ho
      · exact hs.prop key v ho
    · exact hs.prop key v ho
  · split at ho
    · cases ho
      exact hs.prop key v ‹_›
    · split at ho
      · cases ho
        trivial
      · split at ho <;> cases ho
        trivial
    · cases ho
  · exact hs.prop key v ho

end Object.Sound

namespace Heap

variable {loses : Prop} {id : ObjectId}

/-! ### Adding and storing objects -/

theorem WellFormed.intrinsic_in (hw : h.WellFormed) (name : String) :
    h.intrinsic name = 0 ∨ (h.object? (h.intrinsic name)).isSome := by
  unfold Heap.intrinsic
  cases hi : h.intrinsics[name]? with
  | none => exact .inl rfl
  | some id => exact .inr (hw.intrinsic hi)

theorem WellFormed.add (hw : h.WellFormed) (ho : o.Sound h) (hn : ∀ f, o.func = some f → f.IsNamed) :
    (h.add o).2.WellFormed := by
  obtain ⟨hf, g⟩ := keeps_add h o hn hw.toFiled
  refine ⟨hf, fun {id p} hp => ?_, fun {id p} hp => ?_, fun hs => hw.parent hs, fun hi => ?_⟩
  · rw [object?_add] at hp
    split at hp
    · cases hp
      exact (ho.mono g).with_id _
    · exact (hw.sound hp).mono g
  · rw [object?_add] at hp
    split at hp
    · rename_i he
      cases hp
      rw [← he]
      rcases ho.proto with hz | hs
      · rw [hz]
        exact hw.next_pos
      · obtain ⟨p, hp⟩ := Option.isSome_iff_exists.1 hs
        exact (hw.object hp).2.2
    · exact hw.proto_lt hp
  · exact g.isSome_object? (hw.intrinsic hi)

theorem WellFormed.store (hw : h.WellFormed) (ho : h.object? o.id = some o) (ha : o.Alike o')
    (hs : o'.Sound h) : (h.store o').WellFormed := by
  obtain ⟨hf, g⟩ := keeps_store ho ha hw.toFiled
  refine ⟨hf, fun {id p} hp => ?_, fun {id p} hp => ?_, fun hs => hw.parent hs, fun hi => ?_⟩
  · rw [object?_store] at hp
    split at hp
    · cases hp
      exact hs.mono g
    · exact (hw.sound hp).mono g
  · rw [object?_store] at hp
    split at hp
    · rename_i he
      cases hp
      rw [← he, ha.proto, ha.id]
      exact hw.proto_lt ho
    · exact hw.proto_lt hp
  · exact g.isSome_object? (hw.intrinsic hi)

/-- The second heap comes from the first by adding objects other than functions, and by storing new versions
of objects. Unless the change `loses` something, no property goes away. -/
inductive Edits (loses : Prop) (h : Heap) : Heap → Prop where
  | refl : Edits loses h h
  | add {h' : Heap} {o : Object} (e : Edits loses h h') (ho : o.Sound h') (hf : o.func = none) :
    Edits loses h (h'.add o).2
  | store {h' : Heap} {o o' : Object} (e : Edits loses h h') (ho : h'.object? o.id = some o) (ha : o.Alike o')
    (hs : o'.Sound h') (hk : loses ∨ ∀ key, (o.own? key).isSome → (o'.own? key).isSome) :
    Edits loses h (h'.store o')

namespace Edits

theorem trans (e : h.Edits loses h') (e' : h'.Edits loses h'') : h.Edits loses h'' := by
  induction e' with
  | refl => exact e
  | add _ ho hf ih => exact ih.add ho hf
  | store _ ho ha hs hk ih => exact ih.store ho ha hs hk

theorem wellFormed (e : h.Edits loses h') (hw : h.WellFormed) : h'.WellFormed ∧ h.Grows h' := by
  induction e with
  | refl => exact ⟨hw, .refl h⟩
  | @add h' o e ho hf ih =>
    have hn : ∀ f, o.func = some f → f.IsNamed := by simp [hf]
    exact ⟨ih.1.add ho hn, ih.2.trans (keeps_add h' o hn ih.1.toFiled).2⟩
  | store e ho ha hs hk ih =>
    exact ⟨ih.1.store ho ha hs, ih.2.trans (keeps_store ho ha ih.1.toFiled).2⟩

/-- Edits do not touch scopes. -/
theorem scopes_eq (e : h.Edits loses h') : h'.scopes = h.scopes := by
  induction e with
  | refl => rfl
  | add _ _ _ ih => exact ih
  | store _ _ _ _ _ ih => exact ih

/-- A function of the edited heap was there before. -/
theorem func_eq {f : FunctionInfo} (e : h.Edits loses h') (ho : h'.object? id = some o)
    (hf : o.func = some f) : ∃ p, h.object? id = some p ∧ p.func = some f := by
  induction e generalizing id o with
  | refl => exact ⟨o, ho, hf⟩
  | add e _ hn ih =>
    rw [object?_add] at ho
    split at ho
    · cases ho
      exact absurd (hn.symm.trans hf) (by simp)
    · exact ih ho hf
  | store e hp ha _ _ ih =>
    rw [object?_store] at ho
    split at ho
    · rename_i he
      cases ho
      rw [← he, ha.id]
      exact ih hp (ha.func ▸ hf)
    · exact ih ho hf

/-- What a scope binds stays bound. -/
theorem isSome_binding? {name : String} (e : h.Edits loses h') (hl : ¬loses) (hw : h.WellFormed)
    (hb : (h.binding? id name).isSome) : (h'.binding? id name).isSome := by
  induction e with
  | refl => exact hb
  | @add h' o e _ _ ih =>
    have hne : h'.next ≠ id := by
      intro he
      rw [binding?, ← he, (e.wellFormed hw).1.object?_next] at ih
      cases ih
    unfold binding? at ih ⊢
    rw [object?_add, if_neg hne]
    exact ih
  | store e ho ha _ hk ih =>
    unfold binding? at ih ⊢
    rw [object?_store]
    split
    · rename_i he
      rw [← he, ha.id, ho] at ih
      exact hk.resolve_left hl name ih
    · exact ih

end Edits

/-! ### Operations -/

theorem edits_store_deref (hw : h.WellFormed) (ho : h.deref? v = some o) (ha : o.Alike o') (hs : o'.Sound h)
    (hk : loses ∨ ∀ key, (o.own? key).isSome → (o'.own? key).isSome) : h.Edits loses (h.store o') :=
  Edits.refl.store (hw.object?_id ho) ha hs hk

/-- The object that was added is there. -/
theorem in_add (h : Heap) (o : Object) : (Value.object (h.add o).1).In (h.add o).2 := by
  unfold Value.In
  dsimp only
  rw [object?_add]
  exact (congrArg Option.isSome (if_pos rfl)).trans rfl

theorem edits_alloc {proto : ObjectId} (hp : proto = 0 ∨ (h.object? proto).isSome) :
    h.Edits loses (h.alloc .object proto).2 :=
  Edits.refl.add (.new hp (by decide) rfl (by simp) (by simp)) rfl

theorem edits_newPlain (hw : h.WellFormed) : h.Edits loses h.newPlain.2 := edits_alloc (hw.intrinsic_in _)

theorem edits_newArray (hw : h.WellFormed) {elems : Array Value} (he : ∀ v ∈ elems, v.In h) :
    h.Edits loses (h.newArray elems).2 :=
  Edits.refl.add (.new (hw.intrinsic_in _) (by decide) rfl he fun _ => rfl) rfl

theorem edits_newTexts (hw : h.WellFormed) (texts : List String) : h.Edits loses (h.newTexts texts).2 := by
  refine edits_newArray hw fun v hv => ?_
  obtain ⟨s, -, rfl⟩ := List.mem_map.1 (List.mem_toArray.1 hv)
  trivial

theorem edits_newError (hw : h.WellFormed) (type message : String) :
    h.Edits loses (h.newError type message).2 := by
  refine Edits.refl.add (Object.Sound.putHidden ?_ "message" trivial) (Object.alike_putHidden _ _ _).func
  refine .new ?_ (by decide) rfl (by simp) (by simp)
  split <;> exact hw.intrinsic_in _

theorem edits_box? (hw : h.WellFormed) {p : ObjectId × Heap} (hb : h.box? v = some p) :
    h.Edits loses p.2 ∧ (Value.object p.1).In p.2 := by
  unfold box? at hb
  split at hb <;> cases hb
  all_goals exact ⟨Edits.refl.add (.new (hw.intrinsic_in _) (by decide) rfl (by simp) (by simp)) rfl, in_add _ _⟩

/-- A change of one object. -/
theorem edits_modify {f : Object → Object} (hw : h.WellFormed) (ha : ∀ o : Object, o.Alike (f o))
    (hs : ∀ o : Object, o.Sound h → (f o).Sound h ∧ ∀ key, (o.own? key).isSome → ((f o).own? key).isSome)
    (id : ObjectId) : h.Edits loses (h.modify id f) := by
  unfold modify
  split
  · rename_i o ho
    obtain ⟨hs, hk⟩ := hs o (hw.sound ho)
    exact edits_store_deref (v := .object id) hw ho (ha o) hs (.inr hk)
  · exact .refl

theorem edits_putHidden (hw : h.WellFormed) (id : ObjectId) (key : String) (hv : v.In h) :
    h.Edits loses (h.modify id (·.putHidden key v)) :=
  edits_modify hw (·.alike_putHidden key v) (fun o hs => ⟨hs.putHidden key hv, isSome_own?_putHidden o key v⟩) id

theorem edits_declare (hw : h.WellFormed) (scope : ObjectId) (name : String) (hv : v.In h) :
    h.Edits loses (h.declare scope name v) :=
  edits_modify hw (·.alike_put name v) (fun o hs => ⟨hs.put name hv, isSome_own?_put o name v⟩) scope

theorem edits_assign (hw : h.WellFormed) {scope : ObjectId} {name : String} (hv : v.In h)
    (ha : h.assign scope name v = .ok h') : h.Edits loses h' := by
  simp only [assign] at ha
  split at ha
  · cases ha
    exact edits_declare hw _ _ hv
  · split at ha
    · split at ha <;> cases ha
      exact edits_declare hw _ _ hv
    · cases ha

theorem mem_of_mem_extract {elems : Array Value} {start stop : Nat} (hv : v ∈ elems.extract start stop) :
    v ∈ elems := by
  rw [Array.mem_def, Array.toList_extract, List.extract_eq_take_drop] at hv
  exact Array.mem_def.2 (List.mem_of_mem_drop (List.mem_of_mem_take hv))

/-- Cutting or filling elements brings in nothing but undefined. -/
theorem in_resize {elems : Array Value} {n : Nat} (he : ∀ v ∈ elems, v.In h) :
    ∀ v ∈ Object.resize elems n, v.In h := by
  intro v hv
  unfold Object.resize at hv
  split at hv
  · rw [Array.take_eq_extract] at hv
    exact he v (mem_of_mem_extract hv)
  · rcases Array.mem_append.1 hv with hv | hv
    · exact he v hv
    · rw [(Array.mem_replicate.1 hv).2]
      trivial

theorem in_setIfInBounds {elems : Array Value} {i : Nat} (he : ∀ v ∈ elems, v.In h) (hv : v.In h) :
    ∀ w ∈ elems.setIfInBounds i v, w.In h := by
  intro w hw
  rcases Array.mem_or_eq_of_mem_setIfInBounds hw with hw | rfl
  · exact he w hw
  · exact hv

theorem sound_putOn {key : String} (hs : o.Sound h) (hv : v.In h) (ho : h.putOn o key v = .ok o') :
    o'.Sound h ∧ ∀ k, (o.own? k).isSome → (o'.own? k).isSome := by
  have hput : (o.put key v).Sound h ∧ ∀ k, (o.own? k).isSome → ((o.put key v).own? k).isSome :=
    ⟨hs.put key hv, isSome_own?_put o key v⟩
  have helems {elems : Array Value} (hc : o.cls.hasElements) (he : ∀ v ∈ elems, v.In h) :
      ({ o with elems } : Object).Sound h ∧
        ∀ k, (o.own? k).isSome → (({ o with elems } : Object).own? k).isSome :=
    ⟨hs.with_elems hc he, fun _ hk => hk⟩
  have hset (hc : o.cls.hasElements) (i : Nat) : (o.setElement i v).Sound h ∧
      ∀ k, (o.own? k).isSome → ((o.setElement i v).own? k).isSome := by
    refine helems hc (in_setIfInBounds ?_ hv)
    split
    · exact hs.elem
    · exact in_resize hs.elem
  unfold putOn at ho
  split at ho
  case h_1 hc | h_2 hc =>
    have hc : o.cls.hasElements := by rw [hc]; rfl
    split at ho
    · split at ho <;> cases ho
      exact helems hc (in_resize hs.elem)
    · split at ho <;> cases ho
      · exact hset hc _
      · exact hput
  · split at ho <;> cases ho
    exact hput
  · cases ho
    exact hput

theorem edits_put {target : Value} {key : String} (hw : h.WellFormed) (hv : v.In h)
    (hp : h.put target key v = .ok h') : h.Edits loses h' := by
  unfold put at hp
  split at hp
  · rename_i o ho
    cases hq : h.putOn o key v with
    | error t => rw [hq] at hp; cases hp
    | ok o' =>
      rw [hq] at hp
      cases hp
      obtain ⟨hs, hk⟩ := sound_putOn (hw.sound_deref? ho) hv hq
      exact edits_store_deref hw ho (alike_putOn hq) hs (.inr hk)
  · split at hp <;> cases hp

theorem sound_remove (hs : o.Sound h) (key : String) : (remove o key).1.Sound h := by
  unfold remove
  split
  · rename_i hc
    split
    · exact hs
    · split
      · exact hs.with_elems hc (in_setIfInBounds hs.elem trivial)
      · exact hs.delete key
  · exact hs.delete key

/-! ### Reading -/

/-- An object and its prototypes are sound. -/
theorem sound_chain (hw : h.WellFormed) (limit : Nat) (hs : o.Sound h) : ∀ p ∈ h.chain limit o, p.Sound h := by
  induction limit generalizing o with
  | zero => simp [chain]
  | succ limit ih =>
    intro p hp
    unfold chain at hp
    rcases List.mem_cons.1 hp with rfl | hp
    · exact hs
    · split at hp
      · exact ih (hw.sound ‹_›) p hp
      · cases hp

theorem in_find? {key : String} (hw : h.WellFormed) (hs : o.Sound h) (hf : h.find? o key = some v) : v.In h := by
  obtain ⟨p, hp, ho⟩ := List.exists_of_findSome?_eq_some hf
  exact (sound_chain hw _ hs p hp).in_getOwn? ho

theorem in_getFrom (hw : h.WellFormed) (hs : o.Sound h) (key : String) : (h.getFrom o key).In h := by
  unfold getFrom
  cases hf : h.find? o key with
  | none => trivial
  | some v => exact in_find? hw hs hf

theorem in_getFromIntrinsic (hw : h.WellFormed) (name key : String) : (h.getFromIntrinsic name key).In h := by
  unfold getFromIntrinsic
  split
  · exact in_getFrom hw (hw.sound ‹_›) key
  · trivial

theorem in_get {target : Value} {key : String} (hw : h.WellFormed) (hg : h.get target key = .ok v) : v.In h := by
  unfold get at hg
  split at hg
  · cases hg
  · cases hg
  · cases hg
    rename_i s
    cases hp : stringProperty? s.toList key with
    | none => exact in_getFromIntrinsic hw _ _
    | some w => exact in_stringProperty? hp
  · cases hg
    exact in_getFromIntrinsic hw _ _
  · cases hg
    exact in_getFromIntrinsic hw _ _
  · split at hg <;> cases hg
    · exact in_getFrom hw (hw.sound ‹_›) key
    · trivial

theorem in_binding? {name : String} (hw : h.WellFormed) (hb : h.binding? id name = some v) : v.In h := by
  obtain ⟨o, ho, hv⟩ := Option.bind_eq_some_iff.1 hb
  exact (hw.sound ho).prop name v hv

theorem in_lookup? {scope : ObjectId} {name : String} (hw : h.WellFormed) (hl : h.lookup? scope name = some v) :
    v.In h := by
  obtain ⟨s, -, hb⟩ := List.exists_of_findSome?_eq_some hl
  exact in_binding? hw hb

end Heap

end Stepwise

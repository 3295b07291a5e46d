import Mathlib.Data.Finset.Card
import Mathlib.Data.List.Perm.Subperm
import Mathlib.Logic.Relation
import Stepwise.Proofs.Machine.WellFormed

/-!
# Conversions that end

An array becomes a primitive by way of its elements, and an error by way of its name and its message. An array inside
itself is noticed. An error inside itself is not.

* `Heap.Converts`: the values that the conversion of a value needs the conversion of.
* `Heap.Entangled`: a value whose conversion comes to an error that contains itself.
* `Heap.primitive?_of_not_entangled`: all other conversions end, and none of them is as deep as the bound.
* `Heap.primitive?_of_entangled`: this one ends for no bound.
* `Machine.conversion_ends`: so it is in every heap that a program reaches, and no conversion comes to an object.
-/

namespace Stepwise

variable {α β ω : Type}

theorem isSome_mapM {f : α → Option β} {l : List α} : (l.mapM f).isSome ↔ ∀ a ∈ l, (f a).isSome := by
  induction l with
  | nil => simp
  | cons a l ih =>
    rw [List.mapM_cons, List.forall_mem_cons, ← ih]
    cases f a <;> cases l.mapM f <;> simp

theorem mapM_eq_some_of_imp {f g : α → Option β} {l : List α} {bs : List β}
    (hfg : ∀ a b, f a = some b → g a = some b) (h : l.mapM f = some bs) : l.mapM g = some bs := by
  induction l generalizing bs with
  | nil => exact h
  | cons a l ih =>
    rw [List.mapM_cons] at h ⊢
    obtain ⟨b, hb, h⟩ := Option.bind_eq_some_iff.1 h
    obtain ⟨bs', hbs, h⟩ := Option.bind_eq_some_iff.1 h
    rw [hfg a b hb, ih hbs]
    exact h

namespace Heap

variable {h : Heap} {v w p e : Value} {o : Object} {depth depth' : Nat} {seen : List ObjectId} {id : ObjectId}

/-! ### What a conversion converts -/

/-- The values that are converted on the way to the primitive of an object. -/
def conversionParts (h : Heap) (o : Object) : List Value :=
  match o.primitive, o.cls with
  | none, .array => o.elems.toList.filter (!·.isNullish)
  | none, .error => [h.getFrom o "name", h.getFrom o "message"]
  | _, _ => []

/-- The conversion of the first value needs that of the second one. -/
def Converts (h : Heap) (v w : Value) : Prop := ∃ o, h.deref? v = some o ∧ w ∈ h.conversionParts o

/-- A reference to an error. -/
def IsError (h : Heap) (v : Value) : Prop := ∃ o, h.deref? v = some o ∧ o.primitive = none ∧ o.cls = .error

/-- The conversion of a value comes to an error whose own conversion comes back to it. -/
def Entangled (h : Heap) (v : Value) : Prop :=
  ∃ e, Relation.ReflTransGen h.Converts v e ∧ h.IsError e ∧ Relation.TransGen h.Converts e e

/-- The arrays that are noticed inside an object. -/
def noticed (o : Object) (seen : List ObjectId) : List ObjectId := if o.cls = .array then o.id :: seen else []

theorem exists_of_deref? (ho : h.deref? v = some o) : ∃ id, v = .object id ∧ h.object? id = some o := by
  cases v with
  | object id => exact ⟨id, rfl, ho⟩
  | undefined | null | bool | number | string => cases ho

/-- A conversion ends if those that it needs do. -/
theorem isSome_primitive?_succ : (h.primitive? (depth + 1) seen v).isSome ↔
    ∀ o, h.deref? v = some o → (o.cls = .array → o.id ∉ seen) →
      ∀ w ∈ h.conversionParts o, (h.primitive? depth (noticed o seen) w).isSome := by
  rw [primitive?]
  cases h.deref? v with
  | none => simp
  | some o =>
    unfold conversionParts noticed
    cases hp : o.primitive with
    | some p => simp [hp]
    | none =>
      cases hc : o.cls with
      | array =>
        by_cases hs : o.id ∈ seen
        · simp [hp, hc, hs]
        · have hpart (e : Value) : (if e.isNullish = true then some ""
              else (h.primitive? depth (o.id :: seen) e).map Value.text).isSome ↔
              (e.isNullish = false → (h.primitive? depth (o.id :: seen) e).isSome) := by
            cases e.isNullish <;> simp
          have hjoin (parts : Option (List String)) :
              (parts.bind fun parts => some (Value.string (String.intercalate "," parts))).isSome ↔ parts.isSome := by
            cases parts <;> simp
          simp [hp, hc, hs, hjoin, isSome_mapM, hpart]
      | error =>
        have hjoin (name message : Option Value) : (name.bind fun name => message.bind fun message =>
            some (Value.string (joinErrorText name.text message.text))).isSome ↔ name.isSome ∧ message.isSome := by
          cases name <;> cases message <;> simp
        simp [hp, hc, hjoin]
      | _ => simp [hp, hc]

/-- A deeper bound makes no difference to a conversion that ends. -/
theorem primitive?_mono (hle : depth ≤ depth') (hp : h.primitive? depth seen v = some p) :
    h.primitive? depth' seen v = some p := by
  induction depth generalizing depth' seen v p with
  | zero => cases hp
  | succ depth ih =>
    obtain ⟨depth', rfl⟩ := Nat.exists_eq_succ_of_ne_zero (show depth' ≠ 0 by omega)
    have ih {seen : List ObjectId} {v p : Value} (hp : h.primitive? depth seen v = some p) :
        h.primitive? depth' seen v = some p := ih (Nat.le_of_succ_le_succ hle) hp
    rw [primitive?] at hp ⊢
    cases hd : h.deref? v with
    | none =>
      rw [hd] at hp
      exact hp
    | some o =>
      rw [hd] at hp
      cases hb : o.primitive with
      | some q =>
        simp only [hb] at hp ⊢
        exact hp
      | none =>
        cases hc : o.cls with
        | array =>
          simp only [hb, hc] at hp ⊢
          by_cases hs : seen.contains o.id
          · rw [if_pos hs] at hp ⊢
            exact hp
          · rw [if_neg hs] at hp ⊢
            obtain ⟨parts, hparts, hp⟩ := Option.bind_eq_some_iff.1 hp
            refine Option.bind_eq_some_iff.2 ⟨parts, ?_, hp⟩
            refine mapM_eq_some_of_imp (fun e b he => ?_) hparts
            by_cases hn : e.isNullish
            · rw [if_pos hn] at he ⊢
              exact he
            · rw [if_neg hn] at he ⊢
              obtain ⟨q, hq, rfl⟩ := Option.map_eq_some_iff.1 he
              rw [ih hq]
              rfl
        | error =>
          simp only [hb, hc] at hp ⊢
          obtain ⟨name, hname, hp⟩ := Option.bind_eq_some_iff.1 hp
          obtain ⟨message, hmessage, hp⟩ := Option.bind_eq_some_iff.1 hp
          rw [ih hname, ih hmessage]
          exact hp
        | _ =>
          simp only [hb, hc] at hp ⊢
          exact hp

/-! ### Conversions that end -/

open Classical in
/-- The errors that the conversion of a value may come to. -/
noncomputable def errorsFrom (h : Heap) (v : Value) : Finset ObjectId :=
  h.objects.keys.toFinset.filter fun id => Relation.ReflTransGen h.Converts v (.object id) ∧ h.IsError (.object id)

theorem mem_keys (ho : (h.object? id).isSome) : id ∈ h.objects.keys :=
  Std.ExtTreeMap.mem_keys.2 (Std.ExtTreeMap.mem_iff_isSome_getElem?.2 ho)

open Classical in
theorem card_errorsFrom_le (h : Heap) (v : Value) : (h.errorsFrom v).card ≤ h.objects.size := by
  have hle : (h.errorsFrom v).card ≤ h.objects.keys.length :=
    (Finset.card_filter_le _ _).trans (List.toFinset_card_le _)
  rwa [Std.ExtTreeMap.length_keys] at hle

theorem mem_errorsFrom : id ∈ h.errorsFrom v ↔
    Relation.ReflTransGen h.Converts v (.object id) ∧ h.IsError (.object id) := by
  simp only [errorsFrom, Finset.mem_filter, List.mem_toFinset, and_iff_right_iff_imp]
  rintro ⟨-, o, ho, -⟩
  exact mem_keys (Option.isSome_of_eq_some ho)

theorem errorsFrom_subset (hc : h.Converts v w) : h.errorsFrom w ⊆ h.errorsFrom v := fun _ hid =>
  mem_errorsFrom.2 ⟨(mem_errorsFrom.1 hid).1.head hc, (mem_errorsFrom.1 hid).2⟩

/-- What an error needs comes to fewer errors, unless it comes back to this one. -/
theorem card_errorsFrom_lt (he : h.IsError v) (hv : ¬Relation.TransGen h.Converts v v) (hc : h.Converts v w) :
    (h.errorsFrom w).card < (h.errorsFrom v).card := by
  obtain ⟨o, ho, -⟩ := id he
  obtain ⟨id, rfl, -⟩ := exists_of_deref? ho
  refine Finset.card_lt_card (Finset.ssubset_iff_subset_ne.2 ⟨errorsFrom_subset hc, fun heq => hv ?_⟩)
  have hid : id ∈ h.errorsFrom w := heq ▸ mem_errorsFrom.2 ⟨.refl, he⟩
  exact .head' hc (mem_errorsFrom.1 hid).1

theorem Entangled.of_converts (hc : h.Converts v w) (hw : h.Entangled w) : h.Entangled v := by
  obtain ⟨e, hr, he⟩ := hw
  exact ⟨e, hr.head hc, he⟩

theorem length_le_size (hnodup : seen.Nodup) (hseen : ∀ id ∈ seen, (h.object? id).isSome) :
    seen.length ≤ h.objects.size := by
  rw [← Std.ExtTreeMap.length_keys]
  exact (List.subperm_of_subset hnodup fun id hid => mem_keys (hseen id hid)).length_le

/-- An error on the way is one less to come to, and an array on the way is one more to notice. -/
theorem isSome_primitive? (hf : h.Filed) (hv : ¬h.Entangled v) (hnodup : seen.Nodup)
    (hseen : ∀ id ∈ seen, (h.object? id).isSome)
    (hd : (h.errorsFrom v).card * (h.objects.size + 1) + (h.objects.size - seen.length) < depth) :
    (h.primitive? depth seen v).isSome := by
  induction depth generalizing seen v with
  | zero => omega
  | succ depth ih =>
    rw [isSome_primitive?_succ]
    intro o ho hnew w hw
    have hc : h.Converts v w := ⟨o, ho, hw⟩
    have hw' : ¬h.Entangled w := fun he => hv (he.of_converts hc)
    unfold noticed
    by_cases harray : o.cls = .array
    · rw [if_pos harray]
      obtain ⟨id, rfl, hid⟩ := exists_of_deref? ho
      have hnodup' : (o.id :: seen).Nodup := List.nodup_cons.2 ⟨hnew harray, hnodup⟩
      have hseen' : ∀ id ∈ o.id :: seen, (h.object? id).isSome := by
        refine List.forall_mem_cons.2 ⟨?_, hseen⟩
        rw [(hf.object hid).1, hid]
        rfl
      refine ih hw' hnodup' hseen' ?_
      have hle := Nat.mul_le_mul_right (h.objects.size + 1) (Finset.card_le_card (errorsFrom_subset hc))
      have hlength := length_le_size hnodup' hseen'
      rw [List.length_cons] at hlength ⊢
      omega
    · rw [if_neg harray]
      -- of all others, only errors have parts
      have herror : h.IsError v := by
        refine ⟨o, ho, ?_⟩
        unfold conversionParts at hw
        split at hw
        · exact absurd ‹_› harray
        · exact ⟨‹_›, ‹_›⟩
        · cases hw
      refine ih hw' .nil (by simp) ?_
      have hlt := card_errorsFrom_lt herror (fun hself => hv ⟨v, .refl, herror, hself⟩) hc
      have hle := Nat.mul_le_mul_right (h.objects.size + 1) (Nat.succ_le_of_lt hlt)
      rw [Nat.succ_mul] at hle
      simp only [List.length_nil]
      omega

/-- A conversion that does not come to an error inside itself ends, and no deeper than the bound. -/
theorem primitive?_of_not_entangled (hf : h.Filed) (hv : ¬h.Entangled v) (hd : h.conversionDepth ≤ depth) :
    h.primitive? depth [] v = some (h.toPrimitive v) := by
  have hsome : (h.primitive? h.conversionDepth [] v).isSome := by
    refine isSome_primitive? hf hv .nil (by simp) ?_
    have hle := Nat.mul_le_mul_right (h.objects.size + 1) (card_errorsFrom_le h v)
    unfold conversionDepth
    simp only [List.length_nil, Nat.mul_add, Nat.add_mul] at hle ⊢
    omega
  obtain ⟨p, hp⟩ := Option.isSome_iff_exists.1 hsome
  unfold toPrimitive
  rw [hp, primitive?_mono hd hp]
  rfl

/-! ### Conversions that do not end -/

/-- The conversion of the first value comes to the second one past some arrays. -/
def Reaches (h : Heap) (seen : List ObjectId) : Value → Value → Prop :=
  Relation.ReflTransGen fun v w => h.Converts v w ∧ ∀ id ∈ seen, w ≠ .object id

theorem reaches_nil : h.Reaches [] v w ↔ Relation.ReflTransGen h.Converts v w := by
  simp [Reaches]

theorem Reaches.of_subset {seen' : List ObjectId} (hr : h.Reaches seen v w) (hs : seen' ⊆ seen) : h.Reaches seen' v w := by
  induction hr with
  | refl => exact .refl
  | tail _ hc ih => exact ih.tail ⟨hc.1, fun id hid => hc.2 id (hs hid)⟩

/-- The last time that it leaves an object, the way does not come back to it. -/
theorem Reaches.exists_next (hr : h.Reaches seen (.object id) w) (hne : w ≠ .object id) :
    ∃ x, h.Converts (.object id) x ∧ (∀ id' ∈ id :: seen, x ≠ .object id') ∧ h.Reaches (id :: seen) x w := by
  induction hr with
  | refl => exact absurd rfl hne
  | @tail b w _ hc ih =>
    have hw : ∀ id' ∈ id :: seen, w ≠ .object id' := List.forall_mem_cons.2 ⟨hne, hc.2⟩
    by_cases hb : b = .object id
    · exact ⟨w, hb ▸ hc.1, hw, .refl⟩
    · obtain ⟨x, hx, hxs, hr⟩ := ih hb
      exact ⟨x, hx, hxs, hr.tail ⟨hc.1, hw⟩⟩

/-- If a conversion ends, so does that of every error that it comes to, and is not deeper. -/
theorem exists_isSome_of_reaches (hf : h.Filed) (he : h.IsError e) (hr : h.Reaches seen v e)
    (hv : ∀ id ∈ seen, v ≠ .object id) (hs : (h.primitive? depth seen v).isSome) :
    ∃ d ≤ depth, (h.primitive? d [] e).isSome := by
  induction depth generalizing seen v with
  | zero => cases hs
  | succ depth ih =>
    rw [isSome_primitive?_succ] at hs
    by_cases heq : e = v
    · -- an error does not look at the arrays around it
      subst heq
      refine ⟨depth + 1, le_rfl, isSome_primitive?_succ.2 fun o ho _ w hw => ?_⟩
      obtain ⟨o', ho', -, hc⟩ := he
      cases ho.symm.trans ho'
      have hnot : o.cls ≠ .array := by simp [hc]
      have hpart := hs o ho (fun hc => absurd hc hnot) w hw
      unfold noticed at hpart ⊢
      rwa [if_neg hnot] at hpart ⊢
    · obtain ⟨id, rfl⟩ : ∃ id, v = .object id := by
        rcases Relation.ReflTransGen.cases_head hr with rfl | ⟨x, ⟨⟨o, ho, -⟩, -⟩, -⟩
        · exact absurd rfl heq
        · exact (exists_of_deref? ho).imp fun _ h => h.1
      obtain ⟨x, ⟨o, ho, hx⟩, hxs, hr⟩ := hr.exists_next heq
      have hid : o.id = id := (hf.object ho).1
      have hpart := hs o ho (fun _ hmem => hv _ hmem (by rw [hid])) x hx
      unfold noticed at hpart
      have hrest : ∃ d ≤ depth, (h.primitive? d [] e).isSome := by
        split at hpart
        · exact ih hr hxs (hid ▸ hpart)
        · exact ih (hr.of_subset (List.nil_subset _)) (by simp) hpart
      exact hrest.imp fun d hd => ⟨Nat.le_succ_of_le hd.1, hd.2⟩

/-- The conversion of an error inside itself would contain one like it, and so on. -/
theorem not_isSome_primitive? (hf : h.Filed) (he : h.IsError e) (hself : Relation.TransGen h.Converts e e) :
    ¬(h.primitive? depth [] e).isSome := by
  induction depth using Nat.strong_induction_on with
  | _ depth ih =>
    cases depth with
    | zero => exact Bool.noConfusion
    | succ depth =>
      intro hs
      obtain ⟨x, ⟨o, ho, hx⟩, hr⟩ := Relation.TransGen.head'_iff.1 hself
      obtain ⟨o', ho', -, hc⟩ := id he
      cases ho.symm.trans ho'
      have hpart := isSome_primitive?_succ.1 hs o ho (by simp [hc]) x hx
      unfold noticed at hpart
      rw [if_neg (by simp [hc])] at hpart
      obtain ⟨d, hd, hs⟩ := exists_isSome_of_reaches hf he (reaches_nil.2 hr) (by simp) hpart
      exact ih d (Nat.lt_succ_of_le hd) hs

/-- A conversion that comes to an error inside itself does not end. -/
theorem primitive?_of_entangled (hf : h.Filed) (hv : h.Entangled v) (depth : Nat) : h.primitive? depth [] v = none := by
  obtain ⟨e, hr, he, hself⟩ := hv
  rw [← Option.not_isSome_iff_eq_none]
  intro hs
  obtain ⟨d, -, hs⟩ := exists_isSome_of_reaches hf he (reaches_nil.2 hr) (by simp) hs
  exact not_isSome_primitive? hf he hself hs

/-- The conversion of a value ends with this primitive, if it may be deep enough. -/
def ConvertsTo (h : Heap) (v p : Value) : Prop := ∃ depth, h.primitive? depth [] v = some p

theorem ConvertsTo.not_entangled (hf : h.Filed) (hp : h.ConvertsTo v p) : ¬h.Entangled v := fun he => by
  obtain ⟨depth, hp⟩ := hp
  rw [primitive?_of_entangled hf he] at hp
  cases hp

theorem convertsTo_toPrimitive (hf : h.Filed) (hv : ¬h.Entangled v) : h.ConvertsTo v (h.toPrimitive v) :=
  ⟨h.conversionDepth, primitive?_of_not_entangled hf hv le_rfl⟩

/-- No error has an object as its name or its message. -/
def IsFlat (h : Heap) : Prop :=
  ∀ id ∈ h.objects.keys, (h.object? id).all fun o => o.cls = .error → ∀ w ∈ h.conversionParts o, w.isObject = false

instance (h : Heap) : Decidable h.IsFlat := inferInstanceAs (Decidable (∀ _ ∈ h.objects.keys, _))

theorem IsFlat.not_entangled (hflat : h.IsFlat) : ¬h.Entangled v := by
  rintro ⟨e, -, ⟨o, ho, -, hc⟩, hself⟩
  obtain ⟨id, rfl, hobject⟩ := exists_of_deref? ho
  obtain ⟨w, ⟨o', ho', hw⟩, hr⟩ := Relation.TransGen.head'_iff.1 hself
  cases ho.symm.trans ho'
  have hid : id ∈ h.objects.keys :=
    Std.ExtTreeMap.mem_keys.2 (Std.ExtTreeMap.mem_iff_isSome_getElem?.2 (Option.isSome_of_eq_some hobject))
  have hparts := hflat id hid
  rw [hobject] at hparts
  have hplain := of_decide_eq_true hparts hc w hw
  -- what is no object neither is the error nor has parts
  rcases Relation.ReflTransGen.cases_head hr with rfl | ⟨x, ⟨p, hp, -⟩, -⟩
  · cases hplain
  · obtain ⟨id', rfl, -⟩ := exists_of_deref? hp
    cases hplain

/-- A conversion that ends gives what the bound gives. -/
theorem ConvertsTo.toPrimitive_eq (hf : h.Filed) (hp : h.ConvertsTo v p) : h.toPrimitive v = p := by
  have hv := hp.not_entangled hf
  obtain ⟨depth, hp⟩ := hp
  have hdeep := primitive?_of_not_entangled hf hv (le_max_left h.conversionDepth depth)
  rw [primitive?_mono (le_max_right _ _) hp] at hdeep
  exact (Option.some.inj hdeep).symm

theorem convertsTo_self (hv : h.deref? v = none) : h.ConvertsTo v v := ⟨1, by rw [primitive?, hv]⟩

/-- What is no object becomes itself, whatever else the heap holds. -/
theorem toPrimitive_of_deref? (hv : h.deref? v = none) : h.toPrimitive v = v := by
  obtain ⟨depth, hd⟩ := Nat.exists_eq_succ_of_ne_zero (n := h.conversionDepth) (by simp [conversionDepth])
  rw [toPrimitive, hd, primitive?, hv]
  rfl

/-- A conversion does not come to an object. -/
theorem isObject_primitive? (hw : h.WellFormed) (hv : v.In h) (hp : h.primitive? depth seen v = some p) :
    p.isObject = false := by
  cases depth with
  | zero => cases hp
  | succ depth =>
    rw [primitive?] at hp
    cases hd : h.deref? v with
    | none =>
      rw [hd] at hp
      cases hp
      cases v with
      | object id =>
        have hnone : h.object? id = none := hd
        simp [Value.In, hnone] at hv
      | undefined | null | bool | number | string => rfl
    | some o =>
      rw [hd] at hp
      obtain ⟨id, rfl, ho⟩ := exists_of_deref? hd
      have hwraps := (hw.sound ho).primitive
      cases hb : o.primitive with
      | some q =>
        simp only [hb] at hp hwraps
        cases hp
        unfold Class.wraps at hwraps
        split at hwraps <;> simp_all [Value.isObject]
      | none =>
        cases hc : o.cls with
        | array =>
          simp only [hb, hc] at hp
          split at hp
          · cases hp
            rfl
          · obtain ⟨parts, -, hp⟩ := Option.bind_eq_some_iff.1 hp
            cases hp
            rfl
        | error =>
          simp only [hb, hc] at hp
          obtain ⟨name, -, hp⟩ := Option.bind_eq_some_iff.1 hp
          obtain ⟨message, -, hp⟩ := Option.bind_eq_some_iff.1 hp
          cases hp
          rfl
        | _ =>
          simp only [hb, hc] at hp
          cases hp
          rfl

end Heap

namespace Machine

variable {c : Setting ω} {m : Machine} {v : Value}

/-- In the heap of every machine that a program reaches, a conversion ends with a primitive value, within the bound and
the same for every deeper one, unless it comes to an error that contains itself. Then it does not end. -/
theorem conversion_ends {world : ω} (hh : ∀ f ∈ c.host, f.Sound) (hr : m.Reachable c world) (hv : v.In m.heap) :
    (¬m.heap.Entangled v → (m.heap.toPrimitive v).isObject = false ∧
      ∀ depth, m.heap.conversionDepth ≤ depth → m.heap.primitive? depth [] v = some (m.heap.toPrimitive v)) ∧
    (m.heap.Entangled v → ∀ depth, m.heap.primitive? depth [] v = none) := by
  have hw := (hr.wellFormed hh).heap
  have hf := hw.toFiled
  refine ⟨fun hfree => ?_, fun he => Heap.primitive?_of_entangled hf he⟩
  have hends (depth : Nat) (hd : m.heap.conversionDepth ≤ depth) :
      m.heap.primitive? depth [] v = some (m.heap.toPrimitive v) := Heap.primitive?_of_not_entangled hf hfree hd
  exact ⟨Heap.isObject_primitive? hw hv (hends _ le_rfl), hends⟩

/-- An error whose message is an array inside itself. -/
theorem conversion_ends_array :
    ∃ (program : Program) (m : Machine) (v : Value),
      let c : Setting Unit := Setting.ofPrograms (Library.read "") program [] Setting.defaultDepth Setting.zeros
      Program.ofSource "var a = ['x']; a[1] = a; var e = new Error('y'); e.message = a;" = .ok program ∧
        m.Reachable c () ∧ m.heap.binding? m.global "e" = some v ∧ v.In m.heap ∧ ¬m.heap.Entangled v ∧
        m.heap.toText v = "Error: x," ∧ (m.heap.toPrimitive v).isObject = false := by
  have hrun : (after? (ω := Unit) "var a = ['x']; a[1] = a; var e = new Error('y'); e.message = a;" [] 35 ()).any fun x =>
      (x.2.1.heap.binding? x.2.1.global "e").any fun v =>
        v.In x.2.1.heap ∧ (x.2.1.heap.primitive? 5 [] v).any fun p => p.text = "Error: x," := by
    decide +kernel
  obtain ⟨⟨program, m, world⟩, hx, hbound⟩ := (Option.any_eq_true _ _).1 hrun
  obtain ⟨hp, hr⟩ := of_after? hx
  obtain ⟨v, hv, hbound⟩ := (Option.any_eq_true _ _).1 hbound
  obtain ⟨hin, hends⟩ := of_decide_eq_true hbound
  obtain ⟨p, hprimitive, htext⟩ := (Option.any_eq_true _ _).1 hends
  obtain ⟨hends, hendless⟩ := conversion_ends (fun f hf => absurd hf List.not_mem_nil) hr hin
  have hfree : ¬m.heap.Entangled v := fun he => by
    rw [hendless he 5] at hprimitive
    cases hprimitive
  obtain ⟨hobject, hdepth⟩ := hends hfree
  have heq : m.heap.toPrimitive v = p := by
    refine Option.some.inj ?_
    rw [← hdepth _ (le_max_left m.heap.conversionDepth 5)]
    exact Heap.primitive?_mono (le_max_right _ 5) hprimitive
  refine ⟨program, m, v, hp, hr, hv, hin, hfree, ?_, hobject⟩
  rw [Heap.toText, heq]
  exact of_decide_eq_true htext

/-- An error whose message is the error itself. -/
theorem conversion_endless :
    ∃ (program : Program) (m : Machine) (v : Value),
      let c : Setting Unit := Setting.ofPrograms (Library.read "") program [] Setting.defaultDepth Setting.zeros
      Program.ofSource "var e = new Error('x'); e.message = e;" = .ok program ∧ m.Reachable c () ∧
        m.heap.binding? m.global "e" = some v ∧ v.In m.heap ∧ ∀ depth, m.heap.primitive? depth [] v = none := by
  have hrun : (after? (ω := Unit) "var e = new Error('x'); e.message = e;" [] 17 ()).any fun x =>
      (x.2.1.heap.binding? x.2.1.global "e").any fun v => v.In x.2.1.heap ∧ (x.2.1.heap.deref? v).any fun o =>
        o.primitive.isNone ∧ o.cls = .error ∧ x.2.1.heap.getFrom o "message" = v := by
    decide +kernel
  obtain ⟨⟨program, m, world⟩, hx, hbound⟩ := (Option.any_eq_true _ _).1 hrun
  obtain ⟨hp, hr⟩ := of_after? hx
  obtain ⟨v, hv, hbound⟩ := (Option.any_eq_true _ _).1 hbound
  obtain ⟨hin, herror⟩ := of_decide_eq_true hbound
  obtain ⟨o, ho, herror⟩ := (Option.any_eq_true _ _).1 herror
  obtain ⟨hprimitive, hcls, hmessage⟩ := of_decide_eq_true herror
  have hnone := Option.isNone_iff_eq_none.1 hprimitive
  have hconverts : m.heap.Converts v v := by
    refine ⟨o, ho, ?_⟩
    simp [Heap.conversionParts, hnone, hcls, hmessage]
  have hentangled : m.heap.Entangled v := ⟨v, .refl, ⟨o, ho, hnone, hcls⟩, .single hconverts⟩
  have hw := (hr.wellFormed (fun f hf => absurd hf List.not_mem_nil)).heap
  exact ⟨program, m, v, hp, hr, hv, hin, fun depth => Heap.primitive?_of_entangled hw.toFiled hentangled depth⟩

end Machine

end Stepwise

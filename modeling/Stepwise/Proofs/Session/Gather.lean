import Mathlib.Data.List.Basic
import Stepwise.Proofs.Heap.WellFormed
import Stepwise.Session.Collect
import Std.Data.String.ToInt

/-!
# Gathering what can be reached

`reach` enters an object before it looks at its parts, and completes the entry afterwards.

* `Heap.Reached`: the least set of objects that holds those that some values lead to and is closed under the parts
  that are shown or followed.
* `Gathers`: what a search for values adds: complete elements of objects that the values reach, with everything
  that their parts lead to.
* `reach_gathers`: with a turn for each object that is still missing, and two more, `reach` does that.
* `reach_add`: more turns change nothing.
-/

namespace Stepwise

variable {ω α : Type}

/-! ### What is shown -/

/-- How a primitive is shown. -/
def Value.shownPlain : Value → TraceValue
  | .undefined | .object _ => .undefined
  | .null => .null
  | .bool b => .boolean b
  | .number n => .ofNumber n
  | .string s => .string s

namespace Object

/-- The primitive that stands for the object. -/
def unboxed? (o : Object) : Option Value := if o.cls = .object then none else o.primitive

/-- The properties that loops show. -/
def visible (o : Object) : List (String × Value) := o.visibleKeys.map fun k => (k, (o.own? k).getD .undefined)

/-- The values that a search goes on with. -/
def shownParts (o : Object) : List Value :=
  if o.func.isSome then o.visible.map Prod.snd
  else if o.cls = .error || o.primitive.isSome then []
  else if o.cls.hasElements then o.elems.toList
  else o.visible.map Prod.snd

/-- The key of an object. -/
def key (o : Object) : String := toString o.id

end Object

namespace Heap

/-- The object that a value leads to, unless a primitive stands for it. -/
def target? (h : Heap) (v : Value) : Option Object := (h.deref? v).filter fun o => o.unboxed?.isNone

/-- How a value is shown. -/
def shown (h : Heap) (v : Value) : TraceValue :=
  match h.deref? v with
  | some o => (o.unboxed?.map Value.shownPlain).getD (.pointer o.key)
  | none => v.shownPlain

/-- The least set of objects that holds what some values lead to, and with an object what its parts lead to. -/
inductive Reached (h : Heap) (roots : Value → Prop) : Object → Prop where
  | root {v : Value} {o : Object} (hv : roots v) (ho : h.target? v = some o) : Reached h roots o
  | part {p o : Object} {v : Value} (hp : Reached h roots p) (hv : v ∈ p.shownParts) (ho : h.target? v = some o) :
    Reached h roots o

end Heap

/-- The element of an object, with its complete contents. -/
def Object.element (o : Object) (c : Setting ω) (h : Heap) : HeapElement :=
  match o.func with
  | some f => .function o.key f.name (((c.functionNode? o).map fun (n, _) => c.text n).getD nativeCode)
  | none =>
    if o.cls = .error || o.primitive.isSome then .object o.key []
    else if o.cls.hasElements then .array o.key (o.elems.toList.map h.shown)
    else .object o.key (o.visible.map fun (k, v) => (k, h.shown v))

variable {c : Setting ω} {h : Heap} {v : Value} {o : Object} {roots roots' : Value → Prop}

/-- The elements that have been gathered. -/
abbrev Elements := Std.TreeMap String HeapElement

variable {E E' E'' : Elements}

namespace Heap

theorem object?_of_target? (hf : h.Filed) (ho : h.target? v = some o) :
    h.object? o.id = some o ∧ o.unboxed? = none := by
  obtain ⟨hd, hu⟩ := Option.filter_eq_some_iff.1 ho
  refine ⟨?_, by simpa using hu⟩
  cases v with
  | object id =>
    have hid : o.id = id := (hf.object hd).1
    rw [hid]
    exact hd
  | undefined | null | bool | number | string => cases hd

/-- Objects of a heap with the same key are the same. -/
theorem eq_of_key {p : Object} (ho : h.object? o.id = some o) (hp : h.object? p.id = some p) (hk : o.key = p.key) :
    o = p := by
  have hid : o.id = p.id := Int.repr_injective hk
  rw [hid] at ho
  exact Option.some.inj (ho.symm.trans hp)

namespace Reached

theorem mono (hr : ∀ v, roots v → roots' v) (ho : h.Reached roots o) : h.Reached roots' o := by
  induction ho with
  | root hv ho => exact .root (hr _ hv) ho
  | part _ hv ho ih => exact .part ih hv ho

theorem object? (hf : h.Filed) (ho : h.Reached roots o) : h.object? o.id = some o := by
  cases ho with
  | root _ ho => exact (object?_of_target? hf ho).1
  | part _ _ ho => exact (object?_of_target? hf ho).1

/-- What the parts of an object reach is reached from where the object is. -/
theorem trans (hp : h.Reached roots o) {p : Object} (ho : h.Reached (· ∈ o.shownParts) p) : h.Reached roots p := by
  induction ho with
  | root hv ho => exact .part hp hv ho
  | part _ hv ho ih => exact .part ih hv ho

end Reached

end Heap

/-! ### What a search adds -/

/-- What a search for values adds to the elements: those that were there are kept, those that are new belong to
objects that the values reach and are complete, and what the values lead to is there. -/
structure Gathers (c : Setting ω) (h : Heap) (roots : Value → Prop) (E E' : Elements) : Prop where
  kept : ∀ key ∈ E, E'[key]? = E[key]?
  new : ∀ key e, key ∉ E → E'[key]? = some e → ∃ o, h.Reached roots o ∧ key = o.key ∧ e = o.element c h ∧
    ∀ v ∈ o.shownParts, ∀ p, h.target? v = some p → p.key ∈ E'
  roots : ∀ v, roots v → ∀ o, h.target? v = some o → o.key ∈ E'

namespace Gathers

theorem subset (hg : Gathers c h roots E E') {key : String} (hk : key ∈ E) : key ∈ E' := by
  rw [Std.TreeMap.mem_iff_isSome_getElem?, hg.kept key hk, ← Std.TreeMap.mem_iff_isSome_getElem?]
  exact hk

theorem refl (hr : ∀ v, roots v → ∀ o, h.target? v = some o → o.key ∈ E) : Gathers c h roots E E where
  kept _ _ := rfl
  new key e hk he := absurd (Std.TreeMap.mem_iff_isSome_getElem?.2 (by rw [he]; rfl)) hk
  roots := hr

theorem trans (hg : Gathers c h roots E E') (hg' : Gathers c h roots' E' E'') :
    Gathers c h (fun v => roots v ∨ roots' v) E E'' where
  kept key hk := (hg'.kept key (hg.subset hk)).trans (hg.kept key hk)
  new key e hk he := by
    by_cases hk' : key ∈ E'
    · rw [hg'.kept key hk'] at he
      obtain ⟨o, ho, hkey, helem, hparts⟩ := hg.new key e hk he
      exact ⟨o, ho.mono fun _ => .inl, hkey, helem, fun v hv p hp => hg'.subset (hparts v hv p hp)⟩
    · obtain ⟨o, ho, rest⟩ := hg'.new key e hk' he
      exact ⟨o, ho.mono fun _ => .inr, rest⟩
  roots v hv o ho := by
    rcases hv with hv | hv
    · exact hg'.subset (hg.roots v hv o ho)
    · exact hg'.roots v hv o ho

theorem congr (hr : ∀ v, roots v ↔ roots' v) (hg : Gathers c h roots E E') : Gathers c h roots' E E' :=
  (funext fun v => propext (hr v) : roots = roots') ▸ hg

/-- An object that is entered, and completed after a search for its parts. -/
theorem complete (ho : h.target? v = some o) {placeholder : HeapElement} (hk : o.key ∉ E)
    (hg : Gathers c h (· ∈ o.shownParts) (E.insert o.key placeholder) E') :
    Gathers c h (· = v) E (E'.insert o.key (o.element c h)) where
  kept key hkey := by
    have hne : o.key ≠ key := fun he => hk (he ▸ hkey)
    have hins : (E.insert o.key placeholder)[key]? = E[key]? := by simp [Std.TreeMap.getElem?_insert, hne]
    rw [Std.TreeMap.getElem?_insert, if_neg (by simpa using hne), hg.kept key (by simp [hkey]), hins]
  new key e hkey he := by
    have hr : h.Reached (· = v) o := .root rfl ho
    rw [Std.TreeMap.getElem?_insert] at he
    split at he
    · rename_i heq
      cases he
      exact ⟨o, hr, (by simpa using heq : o.key = key).symm, rfl, fun w hw p hp => by simp [hg.roots w hw p hp]⟩
    · rename_i hne
      have hne : o.key ≠ key := by simpa using hne
      obtain ⟨p, hp, hkey', helem, hparts⟩ := hg.new key e (by simp [hkey, hne]) he
      exact ⟨p, hr.trans hp, hkey', helem, fun w hw q hq => by simp [hparts w hw q hq]⟩
  roots := by
    rintro w rfl p hp
    cases ho.symm.trans hp
    simp

end Gathers

/-- Starting from nothing, a search gathers the objects that are reached and nothing else. -/
theorem Gathers.getElem?_iff (hf : h.Filed) (hg : Gathers c h roots {} E) (key : String) (e : HeapElement) :
    E[key]? = some e ↔ ∃ o, h.Reached roots o ∧ key = o.key ∧ e = o.element c h := by
  have hnew (key : String) (e : HeapElement) := hg.new key e (by simp)
  -- the parts of what is there are there
  have hmem (o : Object) (ho : h.Reached roots o) : o.key ∈ E := by
    induction ho with
    | root hv ho => exact hg.roots _ hv _ ho
    | @part p o v hp hv ho ih =>
      obtain ⟨e, he⟩ := Option.isSome_iff_exists.1 (Std.TreeMap.mem_iff_isSome_getElem?.1 ih)
      obtain ⟨q, hq, hkey, -, hparts⟩ := hnew _ _ he
      obtain rfl := Heap.eq_of_key (hp.object? hf) (hq.object? hf) hkey
      exact hparts v hv o ho
  constructor
  · intro he
    obtain ⟨o, ho, hkey, helem, -⟩ := hnew key e he
    exact ⟨o, ho, hkey, helem⟩
  · rintro ⟨o, ho, rfl, rfl⟩
    obtain ⟨e, he⟩ := Option.isSome_iff_exists.1 (Std.TreeMap.mem_iff_isSome_getElem?.1 (hmem o ho))
    obtain ⟨p, hp, hkey, helem, -⟩ := hnew _ _ he
    obtain rfl := Heap.eq_of_key (ho.object? hf) (hp.object? hf) hkey
    rw [he, helem]

/-! ### Turns -/

/-- How many objects of the heap have not been entered. -/
def Heap.missing (h : Heap) (E : Elements) : Nat := (h.objects.keys.filter fun id => !E.contains (toString id)).length

theorem Heap.missing_le (hs : ∀ key ∈ E, key ∈ E') : h.missing E' ≤ h.missing E := by
  refine (List.monotone_filter_right _ fun id hid => ?_).length_le
  simp only [Bool.not_eq_true', ← Bool.not_eq_true, ← Std.TreeMap.mem_iff_contains] at hid ⊢
  exact fun hk => hid (hs _ hk)

theorem Heap.missing_le_size (E : Elements) : h.missing E ≤ h.objects.size := by
  rw [← Std.ExtTreeMap.length_keys]
  exact List.length_filter_le _ _

/-- Entering an object leaves one less. -/
theorem Heap.missing_insert (ho : h.object? o.id = some o) (hk : o.key ∉ E) (e : HeapElement) :
    h.missing (E.insert o.key e) < h.missing E := by
  have hmem : o.id ∈ h.objects.keys := by
    rw [Std.ExtTreeMap.mem_keys, Std.ExtTreeMap.mem_iff_isSome_getElem?, show h.objects[o.id]? = some o from ho]
    rfl
  have hfilter : (h.objects.keys.filter fun id => !(E.insert o.key e).contains (toString id)) =
      (h.objects.keys.filter fun id => !E.contains (toString id)).filter (· ≠ o.id) := by
    rw [List.filter_filter]
    refine List.filter_congr fun id _ => ?_
    have hkey : (compare o.key (toString id) == .eq) = (id = o.id : Bool) := by
      rw [Bool.eq_iff_iff]
      simp only [beq_iff_eq, Std.LawfulEqCmp.compare_eq_iff_eq, decide_eq_true_eq]
      exact ⟨fun he => (Int.repr_injective he).symm, fun he => he ▸ rfl⟩
    rw [Std.TreeMap.contains_insert, hkey]
    cases E.contains (toString id) <;> simp
  unfold missing
  rw [hfilter, List.length_filter_lt_length_iff_exists]
  refine ⟨o.id, List.mem_filter.2 ⟨hmem, ?_⟩, by simp⟩
  rw [Std.TreeMap.mem_iff_contains] at hk
  rwa [Bool.not_eq_true, ← Bool.not_eq_true'] at hk

/-! ### The search -/

theorem Reach.bind_run {β : Type} (x : Reach α) (f : α → Reach β) (E : Elements) : (x >>= f) E = f (x E).1 (x E).2 := rfl

/-- How `reach` completes the element of an object that it has entered. -/
def reachElement (c : Setting ω) (h : Heap) (depth : Nat) (o : Object) : Reach HeapElement :=
  match o.func with
  | some f => do
    o.visible.forM fun (_, v) => discard (reach c h depth v)
    pure (.function o.key f.name (((c.functionNode? o).map fun (n, _) => c.text n).getD nativeCode))
  | none =>
    if o.cls = .error || o.primitive.isSome then pure (.object o.key [])
    else if o.cls.hasElements then do
      pure (.array o.key (← o.elems.toList.mapM (reach c h depth)))
    else do
      pure (.object o.key (← o.visible.mapM fun (k, v) => return (k, ← reach c h depth v)))

theorem reach_plain (hv : v.isObject = false) (depth : Nat) : reach c h (depth + 1) v E = (v.shownPlain, E) := by
  cases v with
  | object id => cases hv
  | undefined | null | bool | number | string => rfl

theorem reach_object (id : ObjectId) (depth : Nat) : reach c h (depth + 1) (.object id) E =
    match h.object? id with
    | none => (.undefined, E)
    | some o =>
      match o.unboxed? with
      | some p => reach c h depth p E
      | none =>
        if E.contains o.key then (.pointer o.key, E)
        else
          let r := reachElement c h depth o (E.insert o.key (.object o.key []))
          (.pointer o.key, r.2.insert o.key r.1) := by
  rw [reach]
  cases h.object? id with
  | none => rfl
  | some o =>
    dsimp only
    rw [show o.unboxed? = if o.cls = .object then none else o.primitive from rfl]
    cases (if o.cls = .object then none else o.primitive) with
    | some p => rfl
    | none =>
      dsimp only
      rw [Reach.bind_run]
      show (if E.contains o.key then _ else _ : Reach TraceValue) E = _
      split
      · rfl
      · unfold reachElement
        cases o.func with
        | some f => rfl
        | none =>
          dsimp only
          split
          · rfl
          · split <;> rfl

/-- A search does what it should for a value: the value is shown, and what it reaches is gathered. -/
def ReachFor (c : Setting ω) (h : Heap) (depth : Nat) (v : Value) (E : Elements) : Prop :=
  (reach c h depth v E).1 = h.shown v ∧ Gathers c h (· = v) E (reach c h depth v E).2

/-- What is shown of values one after the other. -/
theorem mapM_reach {β : Type} {depth : Nat} (hreach : ∀ v E, h.missing E + 2 ≤ depth → ReachFor c h depth v E)
    (val : α → Value) (g : α → TraceValue → β) (l : List α) (E : Elements) (hd : h.missing E + 2 ≤ depth) :
    ((l.mapM fun a => return g a (← reach c h depth (val a)) : Reach (List β)) E).1 =
        l.map (fun a => g a (h.shown (val a))) ∧
      Gathers c h (· ∈ l.map val) E ((l.mapM fun a => return g a (← reach c h depth (val a)) : Reach (List β)) E).2 := by
  induction l generalizing E with
  | nil => exact ⟨rfl, .refl (by simp)⟩
  | cons a l ih =>
    obtain ⟨hshown, hg⟩ := hreach (val a) E hd
    have hle := Heap.missing_le (h := h) fun _ hk => hg.subset hk
    obtain ⟨hrest, hg'⟩ := ih (reach c h depth (val a) E).2 (by omega)
    rw [List.mapM_cons]
    refine ⟨?_, (hg.trans hg').congr fun v => by simp⟩
    rw [List.map_cons, ← hshown, ← hrest]
    rfl

/-- Looking at values without showing them gathers the same. -/
theorem forM_reach {depth : Nat} (hreach : ∀ v E, h.missing E + 2 ≤ depth → ReachFor c h depth v E)
    (l : List (String × Value)) (E : Elements) (hd : h.missing E + 2 ≤ depth) :
    Gathers c h (· ∈ l.map Prod.snd) E ((l.forM fun (_, v) => discard (reach c h depth v) : Reach PUnit) E).2 := by
  induction l generalizing E with
  | nil => exact .refl (by simp)
  | cons a l ih =>
    obtain ⟨-, hg⟩ := hreach a.2 E hd
    have hle := Heap.missing_le (h := h) fun _ hk => hg.subset hk
    exact (hg.trans (ih _ (by omega))).congr fun v => by simp

theorem reachElement_gathers {depth : Nat} (hreach : ∀ v E, h.missing E + 2 ≤ depth → ReachFor c h depth v E)
    (o : Object) (E : Elements) (hd : h.missing E + 2 ≤ depth) :
    (reachElement c h depth o E).1 = o.element c h ∧
      Gathers c h (· ∈ o.shownParts) E (reachElement c h depth o E).2 := by
  unfold reachElement Object.element Object.shownParts
  cases o.func with
  | some f => exact ⟨rfl, forM_reach hreach o.visible E hd⟩
  | none =>
    dsimp only [Option.isSome_none]
    rw [if_neg Bool.false_ne_true]
    split
    · exact ⟨rfl, .refl (by simp)⟩
    · split
      · obtain ⟨hshown, hg⟩ := mapM_reach hreach id (fun _ t => t) o.elems.toList E hd
        refine ⟨congrArg (HeapElement.array o.key) ?_, hg.congr fun v => by simp⟩
        exact hshown
      · obtain ⟨hshown, hg⟩ := mapM_reach hreach Prod.snd (fun p t => (p.1, t)) o.visible E hd
        exact ⟨congrArg (HeapElement.object o.key) hshown, hg⟩

theorem Object.Sound.isObject_unboxed? {p : Value} (hs : o.Sound h) (hp : o.unboxed? = some p) :
    p.isObject = false := by
  have hw := hs.primitive
  unfold Object.unboxed? at hp
  split at hp
  · cases hp
  · rw [hp] at hw
    cases p with
    | object id => cases hc : o.cls <;> rw [hc] at hw <;> cases hw
    | undefined | null | bool | number | string => rfl

/-- With a turn for every object that has not been entered, and two more, a search does what it should. -/
theorem reach_gathers (hw : h.WellFormed) (c : Setting ω) (depth : Nat) (v : Value) (E : Elements)
    (hd : h.missing E + 2 ≤ depth) : ReachFor c h depth v E := by
  induction depth generalizing v E with
  | zero => omega
  | succ depth ih =>
    -- a value that leads to no object adds nothing
    have plain (v : Value) {t : TraceValue} (ht : h.target? v = none) (hr : reach c h (depth + 1) v E = (t, E))
        (hshown : t = h.shown v) : ReachFor c h (depth + 1) v E := by
      unfold ReachFor
      rw [hr]
      exact ⟨hshown, .refl (by rintro w rfl o ho; rw [ht] at ho; cases ho)⟩
    cases v with
    | undefined | null | bool | number | string => exact plain _ rfl rfl rfl
    | object id =>
      have hr := reach_object (c := c) (h := h) (E := E) id depth
      cases ho : h.object? id with
      | none =>
        rw [ho] at hr
        refine plain _ ?_ hr ?_ <;> simp [Heap.target?, Heap.shown, Heap.deref?, ho, Value.shownPlain]
      | some o =>
        rw [ho] at hr
        dsimp only at hr
        cases hu : o.unboxed? with
        | some p =>
          have hp := (hw.sound ho).isObject_unboxed? hu
          obtain ⟨d, rfl⟩ : ∃ d, depth = d + 1 := ⟨depth - 1, by omega⟩
          rw [hu] at hr
          dsimp only at hr
          rw [reach_plain hp] at hr
          refine plain _ ?_ hr ?_ <;> simp [Heap.target?, Heap.shown, Heap.deref?, ho, hu]
        | none =>
          have htarget : h.target? (.object id) = some o := by simp [Heap.target?, Heap.deref?, ho, hu]
          have hshown : .pointer o.key = h.shown (.object id) := by simp [Heap.shown, Heap.deref?, ho, hu]
          rw [hu] at hr
          dsimp only at hr
          unfold ReachFor
          rw [hr]
          split
          · rename_i hk
            refine ⟨hshown, .refl ?_⟩
            rintro w rfl p hp
            cases htarget.symm.trans hp
            exact Std.TreeMap.mem_iff_contains.2 hk
          · rename_i hk
            rw [← Std.TreeMap.mem_iff_contains] at hk
            have hless := Heap.missing_insert (Heap.object?_of_target? hw.toFiled htarget).1 hk (.object o.key [])
            obtain ⟨helem, hg⟩ := reachElement_gathers ih o (E.insert o.key (.object o.key [])) (by omega)
            refine ⟨hshown, ?_⟩
            dsimp only
            rw [helem]
            exact .complete htarget hk hg

/-! ### More turns -/

theorem mapM_reach_succ {β : Type} (hw : h.WellFormed) {depth : Nat}
    (hsame : ∀ v E, h.missing E + 2 ≤ depth → reach c h (depth + 1) v E = reach c h depth v E)
    (val : α → Value) (g : α → TraceValue → β) (l : List α) (E : Elements) (hd : h.missing E + 2 ≤ depth) :
    (l.mapM fun a => return g a (← reach c h (depth + 1) (val a)) : Reach (List β)) E =
      (l.mapM fun a => return g a (← reach c h depth (val a)) : Reach (List β)) E := by
  induction l generalizing E with
  | nil => rfl
  | cons a l ih =>
    obtain ⟨-, hg⟩ := reach_gathers hw c depth (val a) E hd
    have hle := Heap.missing_le (h := h) fun _ hk => hg.subset hk
    simp only [List.mapM_cons, Reach.bind_run, hsame (val a) E hd]
    exact congrArg (fun r : List β × Elements => (g a (reach c h depth (val a) E).1 :: r.1, r.2))
      (ih (reach c h depth (val a) E).2 (by omega))

theorem forM_reach_succ (hw : h.WellFormed) {depth : Nat}
    (hsame : ∀ v E, h.missing E + 2 ≤ depth → reach c h (depth + 1) v E = reach c h depth v E)
    (l : List (String × Value)) (E : Elements) (hd : h.missing E + 2 ≤ depth) :
    (l.forM fun (_, v) => discard (reach c h (depth + 1) v) : Reach PUnit) E =
      (l.forM fun (_, v) => discard (reach c h depth v) : Reach PUnit) E := by
  induction l generalizing E with
  | nil => rfl
  | cons a l ih =>
    obtain ⟨-, hg⟩ := reach_gathers hw c depth a.2 E hd
    have hle := Heap.missing_le (h := h) fun _ hk => hg.subset hk
    show (l.forM _ : Reach PUnit) (reach c h (depth + 1) a.2 E).2 = (l.forM _ : Reach PUnit) (reach c h depth a.2 E).2
    rw [hsame a.2 E hd]
    exact ih _ (by omega)

theorem reachElement_succ (hw : h.WellFormed) {depth : Nat}
    (hsame : ∀ v E, h.missing E + 2 ≤ depth → reach c h (depth + 1) v E = reach c h depth v E)
    (o : Object) (E : Elements) (hd : h.missing E + 2 ≤ depth) :
    reachElement c h (depth + 1) o E = reachElement c h depth o E := by
  unfold reachElement
  cases o.func with
  | some f =>
    dsimp only
    rw [Reach.bind_run, Reach.bind_run, forM_reach_succ hw hsame o.visible E hd]
  | none =>
    dsimp only
    split
    · rfl
    · split
      · have hm := mapM_reach_succ hw hsame id (fun _ t => t) o.elems.toList E hd
        simp only [id, bind_pure] at hm
        rw [Reach.bind_run, Reach.bind_run, hm]
      · rw [Reach.bind_run, Reach.bind_run, mapM_reach_succ hw hsame Prod.snd (fun p t => (p.1, t)) o.visible E hd]

/-- More turns than a search needs change nothing. -/
theorem reach_add (hw : h.WellFormed) (c : Setting ω) {depth : Nat} (more : Nat) (v : Value) (E : Elements)
    (hd : h.missing E + 2 ≤ depth) : reach c h (depth + more) v E = reach c h depth v E := by
  have hsame (depth : Nat) : ∀ v E, h.missing E + 2 ≤ depth → reach c h (depth + 1) v E = reach c h depth v E := by
    induction depth with
    | zero => intro v E hd; omega
    | succ depth ih =>
      intro v E hd
      cases v with
      | undefined | null | bool | number | string => rfl
      | object id =>
        rw [reach_object, reach_object]
        cases ho : h.object? id with
        | none => rfl
        | some o =>
          dsimp only
          cases hu : o.unboxed? with
          | some p =>
            have hp := (hw.sound ho).isObject_unboxed? hu
            obtain ⟨d, rfl⟩ : ∃ d, depth = d + 1 := ⟨depth - 1, by omega⟩
            dsimp only
            rw [reach_plain hp, reach_plain hp]
          | none =>
            dsimp only
            split
            · rfl
            · rename_i hk
              rw [← Std.TreeMap.mem_iff_contains] at hk
              have hid : h.object? o.id = some o := by rw [(hw.object ho).1]; exact ho
              have hless := Heap.missing_insert hid hk (.object o.key [])
              rw [reachElement_succ hw ih o _ (by omega)]
  induction more with
  | zero => rfl
  | succ more ih => exact (hsame (depth + more) v E (by omega)).trans ih

end Stepwise

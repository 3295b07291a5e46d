import Stepwise.Proofs.Heap.Chain
import Stepwise.Proofs.Machine.Rule

/-!
# Assigning to names

A name is resolved in the innermost scope that binds it. Looking it up and assigning to it both go there.

* `Heap.Resolves`: the scope in which a name is resolved, seen from another scope.
* `Heap.lookup?_eq_some_iff` and `Heap.assign_of_resolves`: looking up reads what this scope binds, and assigning
  changes it.
* `Heap.assign_agrees`: so a name that is found can be assigned, and has its new value wherever it is resolved in the same
  scope.
-/

namespace Stepwise.Heap

variable {h h' : Heap} {scope scope' home : ObjectId} {name name' : String} {v : Value}

/-! ### Where a name is resolved -/

/-- A name is resolved in the innermost of the scopes around a scope that binds it. -/
inductive Resolves (h : Heap) : ObjectId → String → ObjectId → Prop where
  | here {scope : ObjectId} {name : String} (hs : (h.scope? scope).isSome) (hb : (h.binding? scope name).isSome) :
    Resolves h scope name scope
  | outer {scope home : ObjectId} {name : String} {s : Scope} (hs : h.scope? scope = some s)
    (hfree : h.binding? scope name = none) (hp : s.parent ≠ 0) (hr : Resolves h s.parent name home) :
    Resolves h scope name home

theorem Resolves.isSome_binding? (hr : h.Resolves scope name home) : (h.binding? home name).isSome := by
  induction hr with
  | here _ hb => exact hb
  | outer _ _ _ _ ih => exact ih

/-- Searching the scopes around a scope leads to where the name is resolved. -/
theorem Resolves.find? (hf : h.Filed) (hn : h.Nested) (hr : h.Resolves scope name home) :
    ∃ t, (h.scopeChain scope).find? (fun s => (h.binding? s.id name).isSome) = some t ∧ t.id = home := by
  induction hr with
  | @here scope name hs hb =>
    obtain ⟨s, hs⟩ := Option.isSome_iff_exists.1 hs
    have hid := (hf.scope hs).1
    rw [hn.scopeChain_eq, hs]
    refine ⟨s, List.find?_cons_of_pos ?_, hid⟩
    rwa [hid]
  | @outer scope home name s hs hfree hp _ ih =>
    rw [hn.scopeChain_eq, hs]
    dsimp only
    rw [if_neg hp, List.find?_cons_of_neg]
    · exact ih
    · rw [(hf.scope hs).1, hfree]
      exact Bool.false_ne_true

/-- Whatever a search of scopes finds, the name is resolved there. -/
theorem resolves_of_find? (hf : h.Filed) {limit : Nat} {t : Scope}
    (ht : (h.enclosing limit scope).find? (fun s => (h.binding? s.id name).isSome) = some t) :
    h.Resolves scope name t.id := by
  induction limit generalizing scope with
  | zero => cases ht
  | succ limit ih =>
    unfold enclosing at ht
    cases hs : h.scope? scope with
    | none => rw [hs] at ht; cases ht
    | some s =>
      rw [hs] at ht
      have hid := (hf.scope hs).1
      cases hb : (h.binding? scope name).isSome with
      | true =>
        rw [List.find?_cons_of_pos (by rwa [hid])] at ht
        cases ht
        rw [hid]
        exact .here (by rw [hs]; rfl) hb
      | false =>
        rw [List.find?_cons_of_neg (by rw [hid, hb]; exact Bool.false_ne_true)] at ht
        split at ht
        · cases ht
        · exact .outer hs (by simpa using hb) ‹_› (ih ht)

/-- A name has the value that it is bound to where it is resolved. -/
theorem lookup?_eq_some_iff (hf : h.Filed) (hn : h.Nested) :
    h.lookup? scope name = some v ↔ ∃ home, h.Resolves scope name home ∧ h.binding? home name = some v := by
  have hfind : h.lookup? scope name =
      ((h.scopeChain scope).find? fun s => (h.binding? s.id name).isSome).bind fun s => h.binding? s.id name := by
    unfold lookup?
    induction h.scopeChain scope with
    | nil => rfl
    | cons s rest ih =>
      rw [List.findSome?_cons, List.find?_cons]
      cases hb : h.binding? s.id name with
      | none => exact ih
      | some v => exact hb.symm
  rw [hfind]
  constructor
  · intro hv
    obtain ⟨t, ht, hv⟩ := Option.bind_eq_some_iff.1 hv
    exact ⟨t.id, resolves_of_find? hf ht, hv⟩
  · rintro ⟨home, hr, hv⟩
    obtain ⟨t, ht, rfl⟩ := hr.find? hf hn
    rw [ht]
    exact hv

/-! ### Assigning -/

theorem scope?_modify (h : Heap) (id : ObjectId) (f : Object → Object) (other : ObjectId) :
    (h.modify id f).scope? other = h.scope? other := by
  unfold modify
  split
  · exact scope?_store h _ other
  · rfl

/-- Declaring a name changes what this scope binds it to, and nothing else. -/
theorem binding?_declare (hf : h.Filed) (hs : (h.object? scope).isSome) (name : String) (v : Value) (id : ObjectId)
    (x : String) :
    (h.declare scope name v).binding? id x = if id = scope ∧ x = name then some v else h.binding? id x := by
  obtain ⟨o, ho⟩ := Option.isSome_iff_exists.1 hs
  have hid : (o.put name v).id = scope := (hf.object ho).1
  unfold declare modify binding?
  rw [ho]
  dsimp only
  rw [object?_store, hid]
  by_cases he : scope = id
  · subst he
    rw [if_pos rfl, Option.bind_some, Object.own?_put, ho, Option.bind_some]
    simp only [true_and, eq_comm]
  · rw [if_neg he, if_neg fun h => he h.1.symm]

/-- Where a name is resolved depends on which names the scopes bind. -/
theorem Resolves.congr (hscope : ∀ id, h'.scope? id = h.scope? id)
    (hbound : ∀ id x, (h'.binding? id x).isSome = (h.binding? id x).isSome) (hr : h.Resolves scope name home) :
    h'.Resolves scope name home := by
  induction hr with
  | here hs hb => exact .here (hscope _ ▸ hs) (hbound _ _ ▸ hb)
  | @outer scope home name s hs hfree hp _ ih =>
    refine .outer ((hscope scope).trans hs) ?_ hp ih
    rw [← Option.not_isSome_iff_eq_none, hbound, hfree]
    exact Bool.false_ne_true

theorem Resolves.unique {home' : ObjectId} (hr : h.Resolves scope name home) (hr' : h.Resolves scope name home') :
    home = home' := by
  induction hr with
  | here hs hb =>
    cases hr' with
    | here => rfl
    | outer _ hfree => rw [hfree] at hb; cases hb
  | outer hs hfree _ _ ih =>
    cases hr' with
    | here _ hb => rw [hfree] at hb; cases hb
    | outer hs' _ _ hr' =>
      rw [hs] at hs'
      cases hs'
      exact ih hr'

/-- Assigning to a name changes what it is bound to where it is resolved. -/
theorem assign_of_resolves (hf : h.Filed) (hn : h.Nested) (hr : h.Resolves scope name home) (v : Value) :
    h.assign scope name v = .ok (h.declare home name v) := by
  obtain ⟨t, ht, rfl⟩ := hr.find? hf hn
  unfold assign
  dsimp only
  rw [ht]

/-- A strict scope has no place for a name that is bound nowhere. -/
theorem assign_of_unbound (hf : h.Filed) (hn : h.Nested) {s : Scope} (hs : h.scope? scope = some s) (hstrict : s.strict)
    (hunbound : h.lookup? scope name = none) (v : Value) : h.assign scope name v = .error (.notDefined name) := by
  have hnone : (h.scopeChain scope).find? (fun s => (h.binding? s.id name).isSome) = none := by
    refine Option.eq_none_iff_forall_ne_some.2 fun t ht => ?_
    have hr := resolves_of_find? hf ht
    obtain ⟨u, hu⟩ := Option.isSome_iff_exists.1 hr.isSome_binding?
    rw [(lookup?_eq_some_iff hf hn).2 ⟨t.id, hr, hu⟩] at hunbound
    cases hunbound
  have hhead : (h.scopeChain scope).head? = some s := by
    rw [hn.scopeChain_eq, hs]
    rfl
  unfold assign
  dsimp only
  rw [hnone]
  dsimp only
  rw [hhead]
  split
  · rename_i first last hfirst _
    cases hfirst
    rw [if_pos hstrict]
  · rfl

/-- After an assignment the name has the new value wherever it was resolved to the same scope, and every other name
and scope is as before. -/
theorem lookup?_declare (hf : h.Filed) (hn : h.Nested) (hr : h.Resolves scope name home) (v : Value) (scope' : ObjectId)
    (name' : String) :
    (name' = name ∧ h.Resolves scope' name' home → (h.declare home name v).lookup? scope' name' = some v) ∧
      (¬(name' = name ∧ h.Resolves scope' name' home) →
        (h.declare home name v).lookup? scope' name' = h.lookup? scope' name') := by
  have hobject : (h.object? home).isSome := by
    have hb := hr.isSome_binding?
    unfold binding? at hb
    cases ho : h.object? home with
    | none => rw [ho] at hb; cases hb
    | some o => rfl
  have hbinding := binding?_declare hf hobject name v
  have hscope (id : ObjectId) : (h.declare home name v).scope? id = h.scope? id := scope?_modify h home _ id
  have hbound (id : ObjectId) (x : String) : ((h.declare home name v).binding? id x).isSome = (h.binding? id x).isSome := by
    rw [hbinding]
    split
    · rename_i he
      rw [he.1, he.2, hr.isSome_binding?]
      rfl
    · rfl
  have hf' := (keeps_declare h home name v hf).1
  have hn' : (h.declare home name v).Nested := fun hs => hn ((hscope _).symm.trans hs)
  refine ⟨fun ⟨hname, hr'⟩ => ?_, fun hother => ?_⟩
  · rw [lookup?_eq_some_iff hf' hn']
    exact ⟨home, hr'.congr hscope hbound, by rw [hbinding, if_pos ⟨rfl, hname⟩]⟩
  · refine Option.ext fun w => ?_
    rw [lookup?_eq_some_iff hf' hn', lookup?_eq_some_iff hf hn]
    refine exists_congr fun other => ?_
    have hresolves : (h.declare home name v).Resolves scope' name' other ↔ h.Resolves scope' name' other :=
      ⟨.congr (fun id => (hscope id).symm) fun id x => (hbound id x).symm, .congr hscope hbound⟩
    rw [hresolves]
    refine and_congr_right fun hr' => ?_
    rw [hbinding, if_neg]
    rintro ⟨rfl, hname⟩
    exact hother ⟨hname, hr'⟩

/-- Assigning and looking up agree. In a strict scope, a name that is found is assigned where it is resolved, and then
has the new value for every scope from which it is resolved there; nothing else changes. A name that is not found
cannot be assigned, which is an error and leaves the heap as it is. -/
theorem assign_agrees (hf : h.Filed) (hn : h.Nested) {s : Scope} (hs : h.scope? scope = some s) (hstrict : s.strict)
    (name : String) (v : Value) :
    (∀ u, h.lookup? scope name = some u → ∃ home h', h.Resolves scope name home ∧ h.assign scope name v = .ok h' ∧
      ∀ scope' name', (name' = name ∧ h.Resolves scope' name' home → h'.lookup? scope' name' = some v) ∧
        (¬(name' = name ∧ h.Resolves scope' name' home) → h'.lookup? scope' name' = h.lookup? scope' name')) ∧
      (h.lookup? scope name = none → h.assign scope name v = .error (.notDefined name) ∧
        (Throw.notDefined name).type = .referenceError ∧
        ∀ top, RuleM.putRef (.variable scope name) v ⟨top, h⟩ = .error (.raised (.notDefined name)) ⟨top, h⟩) := by
  refine ⟨fun u hu => ?_, fun hunbound => ?_⟩
  · obtain ⟨home, hr, -⟩ := (lookup?_eq_some_iff hf hn).1 hu
    exact ⟨home, _, hr, assign_of_resolves hf hn hr v, lookup?_declare hf hn hr v⟩
  · have herror := assign_of_unbound hf hn hs hstrict hunbound v
    refine ⟨herror, rfl, fun top => ?_⟩
    simp only [RuleM.putRef_run, RuleM.writeRef, herror]

/-- A name that a middle one of three scopes binds again is assigned there, and keeps its value further out. -/
theorem assign_agrees_shadowed :
    ∃ (h : Heap) (s : Scope), h.Filed ∧ h.Nested ∧ h.scope? 3 = some s ∧ s.strict ∧
      (h.lookup? 1 "x").map Value.text = some "outer" ∧ (h.lookup? 3 "x").map Value.text = some "inner" ∧
      (∃ home h', h.Resolves 3 "x" home ∧ h.assign 3 "x" .null = .ok h' ∧ h'.lookup? 3 "x" = some .null ∧
        h'.lookup? 1 "x" = h.lookup? 1 "x") ∧
      h.lookup? 3 "y" = none ∧ h.assign 3 "y" .null = .error (.notDefined "y") := by
  let one := (empty.newScope 0 true).2.declare 1 "x" (.string "outer")
  let two := (one.newScope 1 true).2.declare 2 "x" (.string "inner")
  let h := (two.newScope 2 true).2
  have hw : h.WellFormed := by decide +kernel
  have hlooked : (h.lookup? 1 "x").map Value.text = some "outer" ∧
      (h.lookup? 3 "x").map Value.text = some "inner" ∧ (h.lookup? 3 "y").isNone := by
    decide +kernel
  obtain ⟨houter, hinner, hfree⟩ := hlooked
  have hscopes : h.scope? 3 = some ⟨3, 2, true⟩ ∧ (h.scope? 2).isSome ∧ (h.scope? 1).isSome := by decide +kernel
  have hbound : (h.binding? 3 "x").isNone ∧ (h.binding? 2 "x").isSome ∧ (h.binding? 1 "x").isSome := by decide +kernel
  have hthree : h.Resolves 3 "x" 2 :=
    .outer hscopes.1 (Option.isNone_iff_eq_none.1 hbound.1) (by decide) (.here hscopes.2.1 hbound.2.1)
  have hone : h.Resolves 1 "x" 1 := .here hscopes.2.2 hbound.2.2
  obtain ⟨u, hu, -⟩ := Option.map_eq_some_iff.1 hinner
  obtain ⟨home, h', hr, hassign, hagrees⟩ := (assign_agrees hw.toFiled hw.nested hscopes.1 rfl "x" .null).1 u hu
  have hnone := Option.isNone_iff_eq_none.1 hfree
  refine ⟨h, _, hw.toFiled, hw.nested, hscopes.1, rfl, houter, hinner,
    ⟨home, h', hr, hassign, (hagrees 3 "x").1 ⟨rfl, hr⟩, (hagrees 1 "x").2 fun ⟨_, hr'⟩ => ?_⟩, hnone,
    ((assign_agrees hw.toFiled hw.nested hscopes.1 rfl "y" .null).2 hnone).1⟩
  cases hr.unique hthree
  exact absurd (hr'.unique hone) (by decide)

end Stepwise.Heap

import Stepwise.Proofs.Heap.WellFormed

/-!
# Chains end

A prototype is older than the objects it serves, and a scope is older than the scopes inside it. So following
either comes to an end within as many steps as there are objects or scopes, without running out of turns:

* `Heap.IsChain`: an object and its prototypes, up to one that has none. `Heap.IsChain.chain_eq`: a search looks at as
  many of them as it may.
* `Heap.WellFormed.isChain`, `Heap.WellFormed.chain_ends`: with as many turns as there are objects it looks at all of
  them, and the last one has no prototype.
* `Heap.WellFormed.scopeChain_ends`: the last of the scopes around a scope lies in no other.
* `Heap.Nested.scopeChain_eq`: they are the scope and those around the scope that it lies in.
-/

namespace Stepwise.Heap

variable {h : Heap} {β : Type}

/-- How many identities of a table are not above `id`. -/
private def rank (m : Std.ExtTreeMap ObjectId β) (id : ObjectId) : Nat := m.keys.countP (· ≤ id)

private theorem rank_le_size (m : Std.ExtTreeMap ObjectId β) (id : ObjectId) : rank m id ≤ m.size := by
  rw [← Std.ExtTreeMap.length_keys]
  exact List.countP_le_length

private theorem rank_pos {m : Std.ExtTreeMap ObjectId β} {id : ObjectId} {b : β} (hb : m[id]? = some b) :
    0 < rank m id := by
  refine List.countP_pos_iff.2 ⟨id, ?_, by simp⟩
  rw [Std.ExtTreeMap.mem_keys, Std.ExtTreeMap.mem_iff_isSome_getElem?, hb]
  rfl

/-- An older identity has a smaller rank. -/
private theorem rank_lt {m : Std.ExtTreeMap ObjectId β} {id older : ObjectId} {b : β} (hb : m[id]? = some b)
    (hlt : older < id) : rank m older < rank m id := by
  have hmem : id ∈ m.keys := by
    rw [Std.ExtTreeMap.mem_keys, Std.ExtTreeMap.mem_iff_isSome_getElem?, hb]
    rfl
  have hcount (l : List ObjectId) : l.countP (· ≤ older) ≤ l.countP (· ≤ id) ∧
      (id ∈ l → l.countP (· ≤ older) < l.countP (· ≤ id)) := by
    induction l with
    | nil => simp
    | cons a l ih =>
      simp only [List.countP_cons, List.mem_cons, decide_eq_true_eq]
      grind
  exact (hcount _).2 hmem

/-! ### Prototypes -/

/-- An object, its prototype, the prototype of this one, and so on up to an object without a prototype. -/
inductive IsChain (h : Heap) : Object → List Object → Prop where
  | last {o : Object} (hp : h.object? o.proto = none) : IsChain h o [o]
  | next {o p : Object} {l : List Object} (hp : h.object? o.proto = some p) (hl : IsChain h p l) : IsChain h o (o :: l)

namespace IsChain

variable {o : Object} {l l' : List Object}

/-- A search looks at the chain of an object until it runs out of turns. -/
theorem chain_eq (hl : h.IsChain o l) (limit : Nat) : h.chain limit o = l.take limit := by
  induction hl generalizing limit with
  | last hp =>
    cases limit with
    | zero => rfl
    | succ limit =>
      unfold chain
      rw [hp]
      simp
  | next hp hl ih =>
    cases limit with
    | zero => rfl
    | succ limit =>
      unfold chain
      rw [hp, List.take_succ_cons, ← ih]

theorem unique (hl : h.IsChain o l) (hl' : h.IsChain o l') : l = l' := by
  have ht := (hl.chain_eq (l.length + l'.length)).symm.trans (hl'.chain_eq (l.length + l'.length))
  rwa [List.take_of_length_le (by omega), List.take_of_length_le (by omega)] at ht

/-- A new object is in no chain that was there before. -/
theorem add (hl : h.IsChain o l) (hn : ∀ p ∈ l, p.proto ≠ h.next) (q : Object) : (h.add q).2.IsChain o l := by
  induction hl with
  | last hp =>
    refine .last ?_
    rw [object?_add, if_neg (hn _ List.mem_cons_self).symm, hp]
  | next hp hl ih =>
    refine .next ?_ (ih fun p hp => hn p (List.mem_cons_of_mem _ hp))
    rw [object?_add, if_neg (hn _ List.mem_cons_self).symm, hp]

end IsChain

/-- The prototypes of an object come to an end. -/
theorem WellFormed.isChain (hw : h.WellFormed) {id : ObjectId} {o : Object} (ho : h.object? id = some o) :
    h.IsChain o (h.chain h.objects.size o) := by
  have hchain (limit : Nat) {id : ObjectId} {o : Object} (ho : h.object? id = some o)
      (hl : rank h.objects id ≤ limit) : h.IsChain o (h.chain limit o) := by
    induction limit generalizing id o with
    | zero =>
      have := rank_pos ho
      lia
    | succ limit ih =>
      unfold chain
      cases hp : h.object? o.proto with
      | none => exact .last hp
      | some p =>
        have hlt := rank_lt ho (hw.proto_lt ho)
        exact .next hp (ih hp (by lia))
  exact hchain _ ho (rank_le_size _ _)

/-- The last of the prototypes of an object has none. -/
theorem WellFormed.chain_ends (hw : h.WellFormed) {id : ObjectId} {o : Object} (ho : h.object? id = some o) :
    ∃ p, (h.chain h.objects.size o).getLast? = some p ∧ p.proto = 0 := by
  have hlast {l : List Object} (hl : h.IsChain o l) : ∃ p, l.getLast? = some p ∧ p.proto = 0 := by
    induction hl generalizing id with
    | last hp =>
      refine ⟨_, rfl, (hw.sound ho).proto.resolve_right ?_⟩
      rw [hp]
      exact Bool.false_ne_true
    | next hp hl ih =>
      obtain ⟨p, hp, hz⟩ := ih hp
      exact ⟨p, by rw [List.getLast?_cons, hp]; rfl, hz⟩
  exact hlast (hw.isChain ho)

/-- An object and its prototypes are its chain. -/
theorem WellFormed.cons_prototypes (hw : h.WellFormed) (o : Object) : h.IsChain o (o :: h.prototypes o) := by
  unfold prototypes
  cases hp : h.object? o.proto with
  | none => exact .last hp
  | some p => exact .next hp (hw.isChain hp)

/-! ### Scopes -/

/-- The scopes around a scope come to an end. -/
theorem WellFormed.scopeChain_ends (hw : h.WellFormed) {id : ObjectId} {s : Scope} (hs : h.scope? id = some s) :
    ∃ t, (h.scopeChain id).getLast? = some t ∧ t.parent = 0 := by
  have hends (limit : Nat) {id : ObjectId} {s : Scope} (hs : h.scope? id = some s)
      (hl : rank h.scopes id ≤ limit) : ∃ t, (h.enclosing limit id).getLast? = some t ∧ t.parent = 0 := by
    induction limit generalizing id s with
    | zero =>
      have := rank_pos hs
      lia
    | succ limit ih =>
      unfold enclosing
      rw [hs]
      dsimp only
      by_cases hz : s.parent = 0
      · exact ⟨s, by simp [hz], hz⟩
      · obtain ⟨hlt, hp⟩ := (hw.parent hs).resolve_left hz
        obtain ⟨p, hp⟩ := Option.isSome_iff_exists.1 hp
        have hrank := rank_lt hs hlt
        obtain ⟨t, ht, hzero⟩ := ih hp (by lia)
        refine ⟨t, ?_, hzero⟩
        rw [if_neg hz, List.getLast?_cons, ht]
        rfl
  exact hends _ hs (rank_le_size _ _)

/-- Every scope is older than the scopes inside it. -/
def Nested (h : Heap) : Prop := ∀ {id : ObjectId} {s : Scope}, h.scope? id = some s → s.parent < id

theorem WellFormed.nested (hw : h.WellFormed) : h.Nested := fun {id s} hs => by
  obtain ⟨o, ho⟩ := Option.isSome_iff_exists.1 (hw.scope hs).2
  have hpos := (hw.object ho).2.1
  rcases hw.parent hs with hz | ⟨hlt, -⟩
  · rwa [hz]
  · exact hlt

/-- The scopes around a scope are found without running out of turns. -/
theorem Nested.scopeChain_eq (hn : h.Nested) (id : ObjectId) :
    h.scopeChain id = match h.scope? id with
      | none => []
      | some s => s :: if s.parent = 0 then [] else h.scopeChain s.parent := by
  have hsucc (limit : Nat) {id : ObjectId} (hl : rank h.scopes id ≤ limit) :
      h.enclosing (limit + 1) id = h.enclosing limit id := by
    induction limit generalizing id with
    | zero =>
      cases hs : h.scope? id with
      | none => simp only [enclosing, hs]
      | some s => exact absurd (rank_pos hs) (by lia)
    | succ limit ih =>
      rw [enclosing, enclosing]
      cases hs : h.scope? id with
      | none => rfl
      | some s =>
        have hlt := rank_lt hs (hn hs)
        dsimp only
        rw [ih (by lia)]
  exact (hsucc h.scopes.size (rank_le_size _ _)).symm

end Stepwise.Heap

import Stepwise.Proofs.Heap.Keys
import Stepwise.Proofs.Machine.Course
import Stepwise.Proofs.Machine.Tidy

/-!
# Properties in the course of a program

* `Machine.lookup_follows_chain`: a lookup goes along the prototypes of an object, up to its limit.
* `Machine.ownKeys_match_lookup`: what an object lists is what its own lookup finds, up to a few keys.
* `Machine.loopKeys_match_enumerableKeys`: a loop over the keys of an object visits what the object lists.
-/

namespace Stepwise

variable {ω : Type} {c : Setting ω} {m : Machine} {world : ω} {id : ObjectId} {o : Object}

namespace Machine

/-- A program whose heap has the arguments of a call, an array and a text. The last two have a property of their own. -/
def sample : String := "(function () {})(); var a = ['x']; a.y = true; var s = new String('ab'); s.z = true;"

/-- The program runs with `output`. -/
def sampleSetting (program : Program) : Setting (World Unit) :=
  Setting.ofPrograms (Library.read "") program [SessionFunction.output.toHost] Setting.defaultDepth Setting.zeros

theorem sound_sampleSetting {program : Program} : ∀ f ∈ (sampleSetting program).host, f.Sound :=
  List.forall_mem_singleton.2 (SessionFunction.sound_toHost _)

theorem tidies_sampleSetting {program : Program} : ∀ f ∈ (sampleSetting program).host, f.Tidies :=
  List.forall_mem_singleton.2 (SessionFunction.tidies_toHost _)

/-- The three objects, and what their lists and lookups give. -/
theorem exists_sample :
    ∃ (program : Program) (m : Machine) (world : World Unit) (args a s : Object),
      Program.ofSource sample = .ok program ∧ m.Reachable (sampleSetting program) world ∧
        m.heap.object? 104 = some args ∧ m.heap.object? 105 = some a ∧ m.heap.object? 106 = some s ∧
        ("length" ∉ args.ownKeys ∧ (args.getOwn? "length").isSome) ∧
        (a.cls = .array ∧ a.elems.size = 1 ∧ (a.own? "y").isSome ∧ ¬(a.own? "+0").isSome ∧
          ¬(a.getOwn? "toString").isSome ∧ m.heap.has a "toString" ∧
          ∀ p ∈ m.heap.prototypes a, Object.ownLoopKeys p = []) ∧
        m.heap.loopKeys s = ["0", "1"] ∧ s.enumerableKeys = ["0", "1", "z"] ∧
        ∀ p ∈ m.heap.prototypes s, Object.enumerableKeys p = [] := by
  have hrun : (after? sample [SessionFunction.output.toHost (σ := Unit)] 41 ⟨⟨[[]]⟩, ()⟩).any fun x =>
      (x.2.1.heap.object? 104).any fun args => (x.2.1.heap.object? 105).any fun a =>
        (x.2.1.heap.object? 106).any fun s =>
          ("length" ∉ args.ownKeys ∧ (args.getOwn? "length").isSome) ∧
          (a.cls = .array ∧ a.elems.size = 1 ∧ (a.own? "y").isSome ∧ ¬(a.own? "+0").isSome ∧
            ¬(a.getOwn? "toString").isSome ∧ x.2.1.heap.has a "toString" ∧
            ∀ p ∈ x.2.1.heap.prototypes a, Object.ownLoopKeys p = []) ∧
          x.2.1.heap.loopKeys s = ["0", "1"] ∧ s.enumerableKeys = ["0", "1", "z"] ∧
          ∀ p ∈ x.2.1.heap.prototypes s, Object.enumerableKeys p = [] := by
    decide +kernel
  obtain ⟨⟨program, m, world⟩, hx, hrun⟩ := (Option.any_eq_true _ _).1 hrun
  obtain ⟨hp, hr⟩ := of_after? hx
  obtain ⟨args, hargs, hrun⟩ := (Option.any_eq_true _ _).1 hrun
  obtain ⟨a, ha, hrun⟩ := (Option.any_eq_true _ _).1 hrun
  obtain ⟨s, hs, hrun⟩ := (Option.any_eq_true _ _).1 hrun
  exact ⟨program, m, world, args, a, s, hp, hr, hargs, ha, hs, of_decide_eq_true hrun⟩

/-! ### Lookup -/

/-- In every heap that a program reaches, each object has a chain of prototypes. A lookup gives what it finds in the
first object of the chain that has the property, and the property is there if some object of the chain has it. Objects
beyond the limit of a lookup do not count. -/
theorem lookup_follows_chain (hh : ∀ f ∈ c.host, f.Sound) (hr : m.Reachable c world)
    (ho : m.heap.object? id = some o) :
    (∃ l, m.heap.IsChain o l) ∧ ∀ l, m.heap.IsChain o l → ∀ key,
      m.heap.getFrom o key = ((l.take Heap.chainLimit).findSome? fun p : Object => p.getOwn? key).getD .undefined ∧
        (m.heap.has o key ↔ ∃ p ∈ l.take Heap.chainLimit, (Object.getOwn? p key).isSome) := by
  have hw := (hr.wellFormed hh).heap
  refine ⟨⟨_, hw.isChain ho⟩, fun l hl key => ?_⟩
  have hfind : m.heap.find? o key = (l.take Heap.chainLimit).findSome? fun p : Object => p.getOwn? key := by
    unfold Heap.find?
    rw [hl.chain_eq]
  refine ⟨congrArg (Option.getD · Value.undefined) hfind, ?_⟩
  unfold Heap.has
  rw [hfind, List.findSome?_isSome_iff]

/-- An array finds what it lacks in one of its prototypes. -/
theorem lookup_follows_chain_array :
    ∃ (program : Program) (m : Machine) (world : World Unit) (a : Object) (l : List Object),
      Program.ofSource sample = .ok program ∧ m.Reachable (sampleSetting program) world ∧ m.heap.object? 105 = some a ∧
        m.heap.IsChain a l ∧ ¬(a.getOwn? "toString").isSome ∧
        ∃ p ∈ l.take Heap.chainLimit, (Object.getOwn? p "toString").isSome := by
  obtain ⟨program, m, world, _, a, _, hp, hr, -, ha, -, -, ⟨-, -, -, -, hlacks, hhas, -⟩, -⟩ := exists_sample
  obtain ⟨⟨l, hl⟩, hlookup⟩ := lookup_follows_chain sound_sampleSetting hr ha
  exact ⟨program, m, world, a, l, hp, hr, ha, hl, hlacks, (hlookup l hl "toString").2.1 hhas⟩

/-! ### A chain that is too long -/

end Machine

namespace Heap

variable {h : Heap}

/-- An object with a property, and `n` objects without properties below it. -/
def nest (h : Heap) : (n : Nat) → ObjectId × Heap
  | 0 => h.add (({ id := 0 } : Object).put "a" (.bool true))
  | n + 1 => (h.nest n).2.alloc .object (h.nest n).1

theorem edits_nest (h : Heap) (n : Nat) :
    h.Edits False (h.nest n).2 ∧ (Value.object (h.nest n).1).In (h.nest n).2 := by
  induction n with
  | zero =>
    have hs : Object.Sound { id := 0 } h := .new (.inl rfl) (by decide) rfl (by simp) (by simp)
    exact ⟨Edits.refl.add (hs.put "a" trivial) rfl, in_add _ _⟩
  | succ n ih => exact ⟨ih.1.trans (edits_alloc (.inr ih.2)), in_add _ _⟩

/-- An object that finds a property only in the last of its prototypes, after `n` objects that lack it. -/
structure Deep (h : Heap) (n : Nat) (o : Object) (l : List Object) : Prop extends h.Filed where
  chain : h.IsChain o l
  length : l.length = n + 1
  proto : ∀ p ∈ l, p.proto < h.next
  lacks : ∀ p ∈ l.take n, Object.getOwn? p "a" = none
  finds : (l.findSome? fun p : Object => p.getOwn? "a") = some (.bool true)

theorem deep_nest (hf : h.Filed) (n : Nat) :
    ∃ o l, (h.nest n).2.object? (h.nest n).1 = some o ∧ (h.nest n).2.Deep n o l := by
  induction n with
  | zero =>
    let root : Object := ({ id := 0 } : Object).put "a" (.bool true)
    have hfiled := (keeps_add h root (by simp [root, Object.put]) hf).1
    have hnone : (h.add root).2.object? 0 = none := by
      cases ho : (h.add root).2.object? 0 with
      | none => rfl
      | some p => exact absurd (hfiled.object ho).2.1 (lt_irrefl _)
    have hown : root.getOwn? "a" = some (.bool true) := by
      have hput := Object.own?_put { id := 0 } "a" (.bool true) "a"
      rwa [if_pos rfl] at hput
    refine ⟨{ root with id := h.next }, _, (object?_add h root _).trans (if_pos rfl), hfiled, .last hnone, rfl, ?_,
      by simp, ?_⟩
    · exact fun p hp => List.mem_singleton.1 hp ▸ hfiled.next_pos
    · rw [List.findSome?_singleton]
      exact hown
  | succ n ih =>
    obtain ⟨p, l, hp, hl⟩ := ih
    have hnest : h.nest (n + 1) = (h.nest n).2.alloc .object (h.nest n).1 := rfl
    rw [hnest]
    generalize h.nest n = r at hp hl
    let o : Object := { id := r.2.next, cls := .object, proto := r.1 }
    have hid := (hl.object hp).2.2
    have hown : o.getOwn? "a" = none := by simp [o, Object.getOwn?, Object.own?]
    refine ⟨o, o :: l, (object?_add _ _ _).trans (if_pos rfl), (keeps_add r.2 _ (by simp) hl.toFiled).1,
      .next ((object?_add _ _ _).trans ((if_neg hid.ne').trans hp)) (hl.chain.add (fun q hq => (hl.proto q hq).ne) _),
      by simp [hl.length], ?_, ?_, ?_⟩
    · intro q hq
      have hlt : q.proto < r.2.next := by
        rcases List.mem_cons.1 hq with rfl | hq
        · exact hid
        · exact hl.proto q hq
      exact hlt.trans (lt_add_one _)
    · rw [List.take_succ_cons]
      exact List.forall_mem_cons.2 ⟨hown, hl.lacks⟩
    · rw [List.findSome?_cons, hown]
      exact hl.finds

end Heap

namespace Machine

/-- A function of the host that answers an object below `n` others. It takes a note of its call. -/
def descend (n : Nat) : HostFunction Bool where
  name := "descend"
  run _ h _ := (.ok (.value (.object (h.nest n).1)), (h.nest n).2, true)

theorem sound_descend (n : Nat) : (descend n).Sound := fun _ h _ _ _ => h.edits_nest n

/-- A step that calls this function leaves its heap. -/
theorem heap_step_descend {c : Setting Bool} {m : Machine} {n : Nat} (hc : c.host = [descend n]) (hf : m.heap.Filed)
    (hcall : (m.step c false).2.2) : ∃ h : Heap, h.Filed ∧ (m.step c false).2.1.heap = (h.nest n).2 := by
  -- the function has not been called, or it has answered
  have hasked {s : State} {below : List State} {r : EStateM.Result Failure Frame Move} {world : Bool}
      (ha : m.Asks c s below false r world) : world = false ∨ ∃ (h : Heap) (top : State), h.Filed ∧
        r = .ok (.give (.object (h.nest n).1)) ⟨top, (h.nest n).2⟩ := by
    refine (ha.induct (P := fun r w => w = false ∧ (∀ name call f, r = .ok (.host name call) f → f.heap.Filed) ∨
      ∃ (h : Heap) (top : State), h.Filed ∧ r = .ok (.give (.object (h.nest n).1)) ⟨top, (h.nest n).2⟩)
      (.inl ⟨rfl, fun name call f hrule => ?_⟩) ?_ ?_).imp_left And.left
    · exact (((stepNode_calls c below s.node ⟨s, m.heap⟩ hf).of_ok hrule).1.heap.keeps hf).1
    · rintro name call f e w (⟨hw, -⟩ | ⟨_, _, -, h⟩) -
      · exact .inl ⟨hw, fun _ _ _ => nofun⟩
      · cases h
    · rintro name call f g answer h w w' (⟨-, hfiled⟩ | ⟨_, _, -, h⟩) hg hrun
      · obtain rfl : g = descend n := List.mem_singleton.1 (hc ▸ hg)
        cases hrun
        exact .inr ⟨f.heap, f.top, hfiled _ _ _ rfl, rfl⟩
      · cases h
  rcases hs : m.step c false with ⟨outcome, m', world'⟩
  obtain rfl : world' = true := (congrArg (·.2.2) hs).symm.trans hcall
  cases takes_of_step hs with
  | moved ha he =>
    obtain rfl : _ = m' := congrArg Prod.snd he
    obtain ⟨h, top, hfiled, he⟩ := (hasked ha).resolve_left nofun
    cases he
    refine ⟨h, hfiled, ?_⟩
    rw [snd_move, (heap_apply _ _ _ _).1]
  | failed ha =>
    obtain ⟨h, top, -, he⟩ := (hasked ha).resolve_left nofun
    cases he

/-- The property is there, behind a thousand objects that lack it, and a lookup does not find it. -/
theorem lookup_stops :
    ∃ (program : Program) (m : Machine) (id : ObjectId) (o : Object) (l : List Object),
      let c : Setting Bool := Setting.ofPrograms (Library.read "") program [descend Heap.chainLimit]
        Setting.defaultDepth Setting.zeros
      Program.ofSource "descend();" = .ok program ∧ (∀ f ∈ c.host, f.Sound) ∧ m.Reachable c true ∧
        m.heap.object? id = some o ∧ m.heap.IsChain o l ∧
        (l.findSome? fun p : Object => p.getOwn? "a") = some (.bool true) ∧
        m.heap.getFrom o "a" = .undefined ∧ m.heap.has o "a" = false := by
  have hrun : (after? "descend();" [descend Heap.chainLimit] 4 false).any fun x =>
      let c := Setting.ofPrograms (Library.read "") x.1 [descend Heap.chainLimit] Setting.defaultDepth Setting.zeros
      x.2.2 = false ∧ (x.2.1.step c x.2.2).1.isAdvanced ∧ (x.2.1.step c x.2.2).2.2 = true := by
    decide +kernel
  obtain ⟨⟨program, m, world⟩, hx, hrun⟩ := (Option.any_eq_true _ _).1 hrun
  obtain ⟨hp, hr⟩ := of_after? hx
  obtain ⟨hworld, hadvanced, hcall⟩ := of_decide_eq_true hrun
  dsimp only at hr hworld hadvanced hcall
  subst hworld
  have hh : ∀ f ∈ [descend Heap.chainLimit], f.Sound := List.forall_mem_singleton.2 (sound_descend _)
  obtain ⟨h, hf, hheap⟩ := heap_step_descend rfl (hr.wellFormed hh).heap.toFiled hcall
  have hs := step_of_isAdvanced hadvanced
  rw [hcall] at hs
  generalize (m.step _ false).2.1 = m' at hs hheap
  obtain ⟨o, l, ho, hl⟩ := Heap.deep_nest hf Heap.chainLimit
  rw [← hheap] at ho hl
  have hfind : m'.heap.find? o "a" = none := by
    unfold Heap.find?
    rw [hl.chain.chain_eq]
    exact List.findSome?_eq_none_iff.2 hl.lacks
  refine ⟨program, m', _, o, l, hp, hh, hr.step hs, ho, hl.chain, hl.finds, ?_, ?_⟩
  · unfold Heap.getFrom
    rw [hfind]
    rfl
  · unfold Heap.has
    rw [hfind]
    rfl

/-! ### Lists of keys -/

/-- In every heap that a program reaches, an object lists a key if its own lookup finds it. There are exceptions: it
lists indices that are too large to be found, and it does not list the length of an `arguments` object, what a function
says of itself, and indices with a sign. -/
theorem ownKeys_match_lookup (hh : ∀ f ∈ c.host, f.Sound) (hk : ∀ f ∈ c.host, f.Tidies)
    (hr : m.Reachable c world) (ho : m.heap.object? id = some o) (key : String) :
    (¬o.Unfound key → ¬o.Unlisted key → (key ∈ o.ownKeys ↔ (o.getOwn? key).isSome)) ∧
      (o.Unfound key → key ∈ o.ownKeys ∧ ¬(o.getOwn? key).isSome) ∧
      (o.Unlisted key → key ∉ o.ownKeys ∧ (o.getOwn? key).isSome) := by
  have hs := (hr.wellFormed hh).heap.sound ho
  have ht := (hr.tidy hk).tidy ho
  rw [Object.unfound_iff hs ht, Object.unlisted_iff hs ht]
  refine ⟨fun hunfound hunlisted => ⟨fun hlisted => ?_, fun hfound => ?_⟩, fun h => h, fun h => h⟩
  · exact Decidable.byContradiction fun hfound => hunfound ⟨hlisted, hfound⟩
  · exact Decidable.byContradiction fun hlisted => hunlisted ⟨hlisted, hfound⟩

/-- An array lists a property, and not the index `+0`. -/
theorem ownKeys_match_lookup_array :
    ∃ (program : Program) (m : Machine) (world : World Unit) (a : Object),
      Program.ofSource sample = .ok program ∧ m.Reachable (sampleSetting program) world ∧ m.heap.object? 105 = some a ∧
        ("y" ∈ a.ownKeys ↔ (a.getOwn? "y").isSome) ∧ "+0" ∉ a.ownKeys ∧ (a.getOwn? "+0").isSome := by
  obtain ⟨program, m, world, _, a, _, hp, hr, -, ha, -, -, ⟨hcls, hsize, hy, hplus, -⟩, -⟩ := exists_sample
  have hmatch := ownKeys_match_lookup sound_sampleSetting tidies_sampleSetting hr ha
  have hindexed : a.indexed = 1 := by simp [Object.indexed, hcls, hsize, Class.hasElements]
  have hunlisted : a.Unlisted "+0" := ⟨hplus, .inr (.inr ⟨0, by rw [hindexed]; decide, rfl, rfl⟩)⟩
  exact ⟨program, m, world, a, hp, hr, ha, (hmatch "y").1 (fun h => h.1 hy) (fun h => h.1 hy), (hmatch "+0").2.2 hunlisted⟩

/-- The `arguments` of a call find their length and do not list it. -/
theorem arguments_length_unlisted :
    ∃ (program : Program) (m : Machine) (world : World Unit) (args : Object),
      Program.ofSource sample = .ok program ∧ m.Reachable (sampleSetting program) world ∧
        m.heap.object? 104 = some args ∧
        "length" ∉ args.ownKeys ∧ (args.getOwn? "length").isSome := by
  obtain ⟨program, m, world, args, _, _, hp, hr, hargs, -, -, hlength, -⟩ := exists_sample
  exact ⟨program, m, world, args, hp, hr, hargs, hlength⟩

/-! ### Loops over keys -/

/-- In every heap that a program reaches, a loop over the keys of an object whose prototypes add none visits each of its
keys once. These are the keys that `Object.enumerableKeys` lists, in their order, unless the object wraps a text and has
properties of its own, or an array has a name that is also an index too large to be read. -/
theorem loopKeys_match_enumerableKeys (hh : ∀ f ∈ c.host, f.Sound) (hk : ∀ f ∈ c.host, f.Tidies)
    (hr : m.Reachable c world) (ho : m.heap.object? id = some o)
    (hp : ∀ p ∈ m.heap.prototypes o, ∀ key ∈ Object.ownLoopKeys p, key ∈ o.ownLoopKeys) :
    (m.heap.loopKeys o).Nodup ∧ m.heap.loopKeys o = o.ownLoopKeys.eraseDups ∧
      (m.heap.loopKeys o = o.enumerableKeys ↔
        (o.cls = .string → o.visibleKeys = []) ∧ ∀ i < o.elems.size, 2 ^ 31 ≤ i → toString i ∉ o.visibleKeys) := by
  have hw := (hr.wellFormed hh).heap
  exact ⟨Heap.nodup_eraseDups _, Heap.loopKeys_eq hw hp, Heap.loopKeys_iff hw (hr.tidy hk) ho hp⟩

/-- A loop over an array with a property of its own. -/
theorem loopKeys_match_enumerableKeys_array :
    ∃ (program : Program) (m : Machine) (world : World Unit) (a : Object),
      Program.ofSource sample = .ok program ∧ m.Reachable (sampleSetting program) world ∧ m.heap.object? 105 = some a ∧
        (∀ p ∈ m.heap.prototypes a, Object.ownLoopKeys p = []) ∧ m.heap.loopKeys a = a.enumerableKeys := by
  obtain ⟨program, m, world, _, a, _, hp, hr, -, ha, -, -, ⟨hcls, hsize, -, -, -, -, hnone⟩, -⟩ := exists_sample
  have hadds : ∀ p ∈ m.heap.prototypes a, ∀ key ∈ Object.ownLoopKeys p, key ∈ a.ownLoopKeys := by
    intro p hmem key hkey
    rw [hnone p hmem] at hkey
    cases hkey
  obtain ⟨-, -, hloop⟩ :=
    loopKeys_match_enumerableKeys sound_sampleSetting tidies_sampleSetting hr ha hadds
  refine ⟨program, m, world, a, hp, hr, ha, hnone, hloop.2 ⟨fun h => ?_, fun i hi hle => absurd hle ?_⟩⟩
  · rw [hcls] at h
    cases h
  · rw [hsize] at hi
    omega

/-- A loop over a text with a property of its own does not visit this. -/
theorem loopKeys_text :
    ∃ (program : Program) (m : Machine) (world : World Unit) (s : Object),
      Program.ofSource sample = .ok program ∧ m.Reachable (sampleSetting program) world ∧ m.heap.object? 106 = some s ∧
        (∀ p ∈ m.heap.prototypes s, Object.enumerableKeys p = []) ∧
        m.heap.loopKeys s = ["0", "1"] ∧ s.enumerableKeys = ["0", "1", "z"] := by
  obtain ⟨program, m, world, _, _, s, hp, hr, -, -, hs, -, -, hloop, hkeys, hnone⟩ := exists_sample
  exact ⟨program, m, world, s, hp, hr, hs, hnone, hloop, hkeys⟩

end Machine

end Stepwise

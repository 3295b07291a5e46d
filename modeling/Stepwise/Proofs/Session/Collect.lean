import Stepwise.Proofs.Machine.WellFormed
import Stepwise.Proofs.Session.Gather
import Stepwise.Proofs.Session.Lasting

/-!
# What a stop shows

* `Machine.frame_describes`: a frame holds the variables of its scope, and what they lead to is gathered.
* `Session.collect_reached`: the elements that a stop shows are those of the objects that its frames reach, with
  their complete contents, and more turns for the search change nothing.
-/

namespace Stepwise

variable {ω σ δ α β : Type}

/-! ### Collecting with any number of turns -/

/-- A search in a computation that may fail. -/
def showWithin (c : Setting ω) (h : Heap) (depth : Nat) (v : Value) : StateT Elements (Except Fault) TraceValue :=
  fun elements => .ok ((reach c h depth v).run elements)

/-- `Machine.frame` with a given number of turns for each search. -/
def Machine.frameWithin (m : Machine) (depth : Nat) (c : Setting ω) (states : List State) (s : State) :
    StateT Elements (Except Fault) StackFrame := do
  let (name, names, n) ← m.scopeOwner c states s.scope
  if (m.heap.object? s.scope).isNone then throw (.noBindings s.scope)
  let locals ← (← m.localValues s.scope names).foldlM
    (fun locals p => return locals.insert p.1 (← showWithin c m.heap depth p.2)) {}
  let returning : Option Value := if s.isReturning && s.hasValue then some s.value else none
  let returnValue ← returning.mapM (showWithin c m.heap depth)
  return {
    frameId := s.scope
    functionName := name
    functionCode := c.text n
    code := .ofLoc n.loc
    state := .ofLoc s.node.loc
    locals := some locals
    orderedLocals := if names.isEmpty then none else some names
    returnValue }

/-- `Machine.collect` with a given number of turns for each search. -/
def Machine.collectWithin (m : Machine) (depth : Nat) (c : Setting ω) (console : Console) (exception : Option Value) :
    Except Fault TraceStep := do
  match m.stack with
  | [] => throw .emptyStack
  | top :: _ =>
    let states := m.stack.reverse
    let thrown := top.thrown? exception
    let (frames, heap) ← ((frameStates states).mapM (m.frameWithin depth c states)).run {}
    return {
      stdout := some console.all
      range := .ofLoc top.node.loc
      functionName := (frames.getLast?.map StackFrame.functionName).getD ""
      event := if thrown.isSome then .exception else if top.isReturning then .return_ else .stepLine
      frames := if frames.isEmpty then none else some frames
      heap := some heap
      exceptionMessage := thrown.map m.heap.describeThrown }

theorem Machine.collect_eq (m : Machine) (c : Setting ω) (console : Console) (exception : Option Value) :
    m.collect c console exception = m.collectWithin (m.heap.objects.size + 2) c console exception := rfl

/-- What a stop is made of: the state on top, and the frames and elements that were gathered. -/
structure Machine.Collects (m : Machine) (c : Setting ω) (console : Console) (step : TraceStep) (top : State)
    (below : List State) (frames : List StackFrame) (elements : Elements) : Prop where
  stack : m.stack = top :: below
  run : ((frameStates m.stack.reverse).mapM (m.frameWithin (m.heap.objects.size + 2) c m.stack.reverse)).run {} =
    .ok (frames, elements)
  stdout : step.stdout = some console.all
  range : step.range = .ofLoc top.node.loc
  functionName : step.functionName = (frames.getLast?.map StackFrame.functionName).getD ""
  frames : step.frames = if frames.isEmpty then none else some frames
  heap : step.heap = some elements

theorem Machine.exists_collects {m : Machine} {c : Setting ω} {console : Console} {exception : Option Value} {step : TraceStep}
    (h : m.collect c console exception = .ok step) :
    ∃ top below frames elements, m.Collects c console step top below frames elements := by
  rw [collect_eq] at h
  unfold collectWithin at h
  split at h
  · cases h
  · rename_i top below hstack
    dsimp only at h
    rcases hf : ((frameStates m.stack.reverse).mapM
        (m.frameWithin (m.heap.objects.size + 2) c m.stack.reverse)).run {} with e | ⟨frames, elements⟩
    · rw [hf] at h
      cases h
    · rw [hf] at h
      cases h
      exact ⟨top, below, frames, elements, hstack, hf, rfl, rfl, rfl, rfl, rfl⟩

theorem Machine.Collects.getD_frames {m : Machine} {c : Setting ω} {console : Console} {step : TraceStep} {top : State}
    {below : List State} {frames : List StackFrame} {elements : Elements}
    (h : m.Collects c console step top below frames elements) : step.frames.getD [] = frames := by
  rw [h.frames]
  cases frames <;> rfl

/-! ### Variables -/

/-- The states of a search that may fail. -/
theorem bind_run (x : StateT Elements (Except Fault) α) (f : α → StateT Elements (Except Fault) β) (E : Elements) :
    (x >>= f) E = match x E with
      | .ok (a, E') => f a E'
      | .error e => .error e := by
  show Except.bind _ _ = _
  unfold Except.bind
  cases x E <;> rfl

theorem liftM_run (x : Except Fault α) (E : Elements) :
    (liftM x : StateT Elements (Except Fault) α) E = match x with
      | .ok a => .ok (a, E)
      | .error e => .error e := by
  cases x <;> rfl

variable {m : Machine} {c : Setting ω} {scope : ObjectId} {names : List String} {E E' : Elements}

theorem forall₂_of_mapM {ε : Type} {f : α → Except ε β} {l : List α} {l' : List β} (h : l.mapM f = .ok l') :
    List.Forall₂ (fun a b => f a = .ok b) l l' := by
  induction l generalizing l' with
  | nil =>
    cases h
    exact .nil
  | cons a l ih =>
    rw [List.mapM_cons] at h
    change Except.bind _ _ = _ at h
    unfold Except.bind at h
    cases ha : f a with
    | error e =>
      rw [ha] at h
      cases h
    | ok b =>
      rw [ha] at h
      change Except.bind _ _ = _ at h
      unfold Except.bind at h
      cases hl : l.mapM f with
      | error e =>
        rw [hl] at h
        cases h
      | ok bs =>
        rw [hl] at h
        cases h
        exact .cons ha (ih hl)

/-- The variables of a scope with their values. -/
theorem Machine.localValues_eq_ok {l : List (String × Value)} (h : m.localValues scope names = .ok l) (name : String)
    (v : Value) : (name, v) ∈ l ↔ name ∈ names ∧ m.heap.binding? scope name = some v := by
  have hf := forall₂_of_mapM h
  clear h
  induction hf with
  | nil => simp
  | @cons name' p names l hp _ ih =>
    cases hv : m.heap.binding? scope name' with
    | none =>
      rw [hv] at hp
      cases hp
    | some v' =>
      rw [hv] at hp
      cases hp
      rw [List.mem_cons, List.mem_cons, show (name, v) ∈ l ↔ _ from ih]
      constructor
      · rintro (he | ⟨hn, hb⟩)
        · cases he
          exact ⟨.inl rfl, hv⟩
        · exact ⟨.inr hn, hb⟩
      · rintro ⟨rfl | hn, hb⟩
        · rw [hv] at hb
          cases hb
          exact .inl rfl
        · exact .inr ⟨hn, hb⟩

/-- The table of some variables, each with its value as it is shown. -/
def tableOf (h : Heap) (l : List (String × Value)) : Std.TreeMap String TraceValue :=
  l.foldl (fun table p => table.insert p.1 (h.shown p.2)) {}

/-- If each name has one value, the table holds exactly the names with their values. -/
theorem getElem?_tableOf {h : Heap} {l : List (String × Value)}
    (hl : ∀ name v v', (name, v) ∈ l → (name, v') ∈ l → v = v') (name : String) (t : TraceValue) :
    (tableOf h l)[name]? = some t ↔ ∃ v, (name, v) ∈ l ∧ t = h.shown v := by
  let fill (l : List (String × Value)) (table : Std.TreeMap String TraceValue) :=
    l.foldl (fun table p => table.insert p.1 (h.shown p.2)) table
  have from_list (l : List (String × Value)) (table : Std.TreeMap String TraceValue) (t : TraceValue)
      (ht : (fill l table)[name]? = some t) : (∃ v, (name, v) ∈ l ∧ t = h.shown v) ∨ table[name]? = some t := by
    induction l generalizing table with
    | nil => exact .inr ht
    | cons p l ih =>
      rcases ih (table.insert p.1 (h.shown p.2)) ht with ⟨v, hv, he⟩ | ht
      · exact .inl ⟨v, List.mem_cons_of_mem p hv, he⟩
      · rw [Std.TreeMap.getElem?_insert] at ht
        split at ht
        · rename_i hname
          have hname : p.1 = name := by simpa using hname
          cases ht
          exact .inl ⟨p.2, by simp [← hname], rfl⟩
        · exact .inr ht
  have mem_fill (l : List (String × Value)) (table : Std.TreeMap String TraceValue)
      (hn : name ∈ table ∨ ∃ v, (name, v) ∈ l) : name ∈ fill l table := by
    induction l generalizing table with
    | nil => exact hn.resolve_right (by simp)
    | cons p l ih =>
      refine ih _ ?_
      rcases hn with hn | ⟨v, hv⟩
      · exact .inl (by simp [hn])
      · rcases List.mem_cons.1 hv with rfl | hv
        · exact .inl (by simp)
        · exact .inr ⟨v, hv⟩
  constructor
  · intro ht
    rcases from_list l {} t ht with h | h
    · exact h
    · simp at h
  · rintro ⟨v, hv, rfl⟩
    obtain ⟨t, ht⟩ := Option.isSome_iff_exists.1
      (Std.TreeMap.mem_iff_isSome_getElem?.1 (mem_fill l {} (.inr ⟨v, hv⟩)))
    rcases from_list l {} t ht with ⟨v', hv', rfl⟩ | h
    · rw [hl name v v' hv hv']
      exact ht
    · simp at h

/-! ### Frames -/

variable {h : Heap} {depth : Nat} {states : List State} {s : State} {frame : StackFrame}

theorem showWithin_eq (hw : h.WellFormed) (hd : h.objects.size + 2 ≤ depth) (v : Value) (E : Elements) :
    ∃ E', showWithin c h depth v E = .ok (h.shown v, E') ∧ Gathers c h (· = v) E E' := by
  have hle := Heap.missing_le_size (h := h) E
  obtain ⟨hshown, hg⟩ := reach_gathers hw c depth v E (by omega)
  refine ⟨(reach c h depth v E).2, ?_, hg⟩
  rw [← hshown]
  rfl

/-- More turns than there are objects, and two, change nothing. -/
theorem showWithin_size (hw : h.WellFormed) (hd : h.objects.size + 2 ≤ depth) :
    showWithin c h depth = showWithin c h (h.objects.size + 2) := by
  funext v E
  obtain ⟨more, rfl⟩ := Nat.exists_eq_add_of_le hd
  have hle := Heap.missing_le_size (h := h) E
  unfold showWithin
  rw [show (reach c h (h.objects.size + 2 + more) v).run E = _ from reach_add hw c more v E (by omega)]
  rfl

theorem foldlM_showWithin (hw : h.WellFormed) (hd : h.objects.size + 2 ≤ depth) (l : List (String × Value))
    (E : Elements) :
    ∃ E', (l.foldlM (fun locals p => return locals.insert p.1 (← showWithin c h depth p.2)) {} :
        StateT Elements (Except Fault) (Std.TreeMap String TraceValue)) E = .ok (tableOf h l, E') ∧
      Gathers c h (fun v => ∃ name, (name, v) ∈ l) E E' := by
  unfold tableOf
  generalize ({} : Std.TreeMap String TraceValue) = table
  induction l generalizing table E with
  | nil => exact ⟨E, rfl, .refl (by simp)⟩
  | cons p l ih =>
    obtain ⟨name, v⟩ := p
    obtain ⟨E₁, hshow, hg⟩ := showWithin_eq (c := c) hw hd v E
    obtain ⟨E₂, hrest, hg'⟩ := ih E₁ (table.insert name (h.shown v))
    refine ⟨E₂, ?_, (hg.trans hg').congr fun w => by simp [exists_or]⟩
    rw [List.foldlM_cons, bind_run]
    dsimp only
    rw [bind_run, hshow]
    exact hrest

/-- The values that the frame of a state shows: those of the variables of its scope, and the value that it is about
to return. -/
def Machine.Shows (m : Machine) (c : Setting ω) (states : List State) (s : State) (v : Value) : Prop :=
  (∃ name names n x, m.scopeOwner c states s.scope = .ok (name, names, n) ∧ x ∈ names ∧
    m.heap.binding? s.scope x = some v) ∨ (s.isReturning && s.hasValue) = true ∧ v = s.value

/-- A frame that describes the scope of a state. -/
structure Machine.Describes (m : Machine) (c : Setting ω) (states : List State) (s : State) (frame : StackFrame) :
    Prop where
  frameId : frame.frameId = s.scope
  owner : ∃ name names n locals, m.scopeOwner c states s.scope = .ok (name, names, n) ∧ frame.functionName = name ∧
    frame.functionCode = c.text n ∧ frame.locals = some locals ∧
    ∀ x t, locals[x]? = some t ↔ ∃ v, (x ∈ names ∧ m.heap.binding? s.scope x = some v) ∧ t = m.heap.shown v
  returnValue : frame.returnValue =
    if s.isReturning && s.hasValue then some (m.heap.shown s.value) else none

/-- A frame describes its scope, and what it shows is gathered. -/
theorem Machine.frame_describes (hw : m.heap.WellFormed) (hd : m.heap.objects.size + 2 ≤ depth)
    (hf : m.frameWithin depth c states s E = .ok (frame, E')) :
    m.Describes c states s frame ∧ Gathers c m.heap (m.Shows c states s) E E' := by
  unfold frameWithin at hf
  rw [bind_run, liftM_run] at hf
  cases ho : m.scopeOwner c states s.scope with
  | error e =>
    rw [ho] at hf
    cases hf
  | ok owner =>
    obtain ⟨name, names, n⟩ := owner
    rw [ho] at hf
    dsimp only at hf
    split at hf
    · cases hf
    · rw [bind_run, liftM_run] at hf
      cases hl : m.localValues s.scope names with
      | error e =>
        rw [hl] at hf
        cases hf
      | ok l =>
        have hvalues := Machine.localValues_eq_ok hl
        have hone (name : String) (v v' : Value) (hv : (name, v) ∈ l) (hv' : (name, v') ∈ l) : v = v' :=
          Option.some.inj (((hvalues name v).1 hv).2.symm.trans ((hvalues name v').1 hv').2)
        obtain ⟨E₁, hlocals, hg⟩ := foldlM_showWithin (c := c) hw hd l E
        rw [hl] at hf
        dsimp only at hf
        rw [bind_run, hlocals] at hf
        dsimp only at hf
        rw [bind_run] at hf
        -- the variables are the first part of what is shown
        have howner : ∃ name' names' n' locals, m.scopeOwner c states s.scope = .ok (name', names', n') ∧
            name = name' ∧ c.text n = c.text n' ∧ some (tableOf m.heap l) = some locals ∧ ∀ x t, locals[x]? = some t ↔
              ∃ v, (x ∈ names' ∧ m.heap.binding? s.scope x = some v) ∧ t = m.heap.shown v := by
          refine ⟨name, names, n, _, ho, rfl, rfl, rfl, fun x t => ?_⟩
          simp only [getElem?_tableOf hone, hvalues]
        have hvariables (v : Value) : (∃ name, (name, v) ∈ l) ↔ ∃ name' names' n' x,
            m.scopeOwner c states s.scope = .ok (name', names', n') ∧ x ∈ names' ∧
              m.heap.binding? s.scope x = some v := by
          simp [hvalues, ho]
        cases hr : s.isReturning && s.hasValue with
        | false =>
          rw [hr] at hf
          cases hf
          refine ⟨⟨rfl, howner, by rw [hr]; rfl⟩, hg.congr fun v => ?_⟩
          rw [hvariables]
          simp [Machine.Shows, hr]
        | true =>
          obtain ⟨E₂, hshow, hg'⟩ := showWithin_eq (c := c) hw hd s.value E₁
          have hmap : Option.mapM (showWithin c m.heap depth) (some s.value) E₁ = .ok (some (m.heap.shown s.value), E₂) := by
            show (some <$> showWithin c m.heap depth s.value) E₁ = _
            rw [map_eq_pure_bind, bind_run, hshow]
            rfl
          rw [hr, if_pos rfl, hmap] at hf
          cases hf
          refine ⟨⟨rfl, howner, by rw [hr]; rfl⟩, (hg.trans hg').congr fun v => ?_⟩
          rw [hvariables]
          simp [Machine.Shows, hr]

theorem Machine.mapM_frame (hw : m.heap.WellFormed) (hd : m.heap.objects.size + 2 ≤ depth) {l : List State}
    {frames : List StackFrame} (hf : l.mapM (m.frameWithin depth c states) E = .ok (frames, E')) :
    List.Forall₂ (m.Describes c states) l frames ∧
      Gathers c m.heap (fun v => ∃ s ∈ l, m.Shows c states s v) E E' := by
  induction l generalizing E frames with
  | nil =>
    cases hf
    exact ⟨.nil, .refl (by simp)⟩
  | cons s l ih =>
    rw [List.mapM_cons, bind_run] at hf
    rcases hs : m.frameWithin depth c states s E with e | ⟨frame, E₁⟩
    · rw [hs] at hf
      cases hf
    · rw [hs] at hf
      dsimp only at hf
      rw [bind_run] at hf
      rcases hl : l.mapM (m.frameWithin depth c states) E₁ with e | ⟨frames', E₂⟩
      · rw [hl] at hf
        cases hf
      · rw [hl] at hf
        cases hf
        obtain ⟨hframe, hg⟩ := Machine.frame_describes hw hd hs
        obtain ⟨hframes, hg'⟩ := ih hl
        exact ⟨.cons hframe hframes, (hg.trans hg').congr fun v => by simp⟩

/-! ### Stops -/

/-- The values that the frames of a stop show. -/
def Machine.ShowsAny (m : Machine) (c : Setting ω) (v : Value) : Prop :=
  ∃ s ∈ frameStates m.stack.reverse, m.Shows c m.stack.reverse s v

variable {console : Console} {exception : Option Value} {step : TraceStep}

theorem Machine.collectWithin_size (hw : m.heap.WellFormed) (hd : m.heap.objects.size + 2 ≤ depth) :
    m.collectWithin depth c console exception = m.collect c console exception := by
  have hframe : m.frameWithin depth c = m.frameWithin (m.heap.objects.size + 2) c := by
    funext states s
    unfold frameWithin
    rw [showWithin_size hw hd]
  rw [collect_eq]
  unfold collectWithin
  rw [hframe]

/-- A stop has a frame for each state that stands for one, and gathers what they show. -/
theorem Machine.collect_describes (hw : m.heap.WellFormed) (h : m.collect c console exception = .ok step) :
    ∃ elements, step.heap = some elements ∧
      List.Forall₂ (m.Describes c m.stack.reverse) (frameStates m.stack.reverse) (step.frames.getD []) ∧
      Gathers c m.heap (m.ShowsAny c) {} elements := by
  obtain ⟨top, below, frames, elements, hc⟩ := exists_collects h
  obtain ⟨hframes, hg⟩ := Machine.mapM_frame hw (Nat.le_refl _) hc.run
  exact ⟨elements, hc.heap, hc.getD_frames.symm ▸ hframes, hg⟩

/-- The elements that a frame points to. -/
def StackFrame.Points (frame : StackFrame) (key : String) : Prop :=
  (∃ (locals : Std.TreeMap String TraceValue) (x : String),
    frame.locals = some locals ∧ locals[x]? = some (.pointer key)) ∨
    frame.returnValue = some (.pointer key)

namespace HeapElement

/-- The elements that an element points to. -/
def Points (key : String) : HeapElement → Prop
  | array _ values => TraceValue.pointer key ∈ values
  | object _ entries => ∃ name, (name, TraceValue.pointer key) ∈ entries
  | function .. => False

/-- The key that an element carries. -/
def id : HeapElement → String
  | array id _ | object id _ | function id .. => id

end HeapElement

/-- Only what leads to an object is shown as a pointer, and it points to this object. -/
theorem Heap.exists_target_of_shown {v : Value} {key : String} (hs : h.shown v = .pointer key) :
    ∃ o, h.target? v = some o ∧ key = o.key := by
  have plain (v : Value) : v.shownPlain ≠ .pointer key := by
    cases v with
    | number n =>
      unfold Value.shownPlain TraceValue.ofNumber
      repeat' split
      all_goals nofun
    | undefined | null | bool | string | object => nofun
  unfold shown at hs
  split at hs
  · rename_i o ho
    cases hu : o.unboxed? with
    | none =>
      rw [hu] at hs
      cases hs
      exact ⟨o, by simp [target?, ho, hu], rfl⟩
    | some p =>
      rw [hu] at hs
      exact absurd hs (plain p)
  · exact absurd hs (plain v)

theorem Object.id_element (o : Object) (c : Setting ω) (h : Heap) : (o.element c h).id = o.key := by
  unfold element
  split
  · rfl
  · repeat' split
    all_goals rfl

/-- An element points only to what the parts of its object lead to. -/
theorem Object.exists_part_of_points {o : Object} {key : String} (hp : (o.element c h).Points key) :
    ∃ v ∈ o.shownParts, ∃ p, h.target? v = some p ∧ key = p.key := by
  unfold element at hp
  unfold shownParts
  cases hf : o.func with
  | some f =>
    rw [hf] at hp
    cases hp
  | none =>
    rw [hf] at hp
    rw [Option.isSome_none, if_neg Bool.false_ne_true]
    dsimp only at hp
    split at hp
    · obtain ⟨name, hp⟩ := hp
      cases hp
    · rename_i hne
      rw [if_neg hne]
      split at hp
      · rename_i he
        rw [if_pos he]
        obtain ⟨v, hv, hshown⟩ := List.mem_map.1 hp
        exact ⟨v, hv, Heap.exists_target_of_shown hshown⟩
      · rename_i he
        rw [if_neg he]
        obtain ⟨name, hp⟩ := hp
        obtain ⟨⟨k, v⟩, hv, hshown⟩ := List.mem_map.1 hp
        exact ⟨v, List.mem_map_of_mem hv, Heap.exists_target_of_shown (congrArg Prod.snd hshown)⟩

theorem exists_left_of_forall₂ {R : α → β → Prop} {l : List α} {l' : List β} (h : List.Forall₂ R l l') {b : β}
    (hb : b ∈ l') : ∃ a ∈ l, R a b := by
  induction h with
  | nil => cases hb
  | @cons a b' l l' hab _ ih =>
    rcases List.mem_cons.1 hb with rfl | hb
    · exact ⟨a, List.mem_cons_self, hab⟩
    · obtain ⟨a', ha', hr⟩ := ih hb
      exact ⟨a', List.mem_cons_of_mem a ha', hr⟩

/-- The elements of a stop are complete, and everything that is pointed to is among them. -/
theorem Machine.points_to_elements {elements : Elements} (hw : m.heap.WellFormed)
    (hg : Gathers c m.heap (m.ShowsAny c) {} elements) :
    (∀ s ∈ frameStates m.stack.reverse, ∀ frame, m.Describes c m.stack.reverse s frame → ∀ key, frame.Points key →
        key ∈ elements) ∧
      ∀ (key : String) (e : HeapElement), elements[key]? = some e → ∀ target, e.Points target → target ∈ elements := by
  have hmem {key : String} : (∃ o, m.heap.Reached (m.ShowsAny c) o ∧ key = o.key) → key ∈ elements := by
    rintro ⟨o, ho, rfl⟩
    rw [Std.TreeMap.mem_iff_isSome_getElem?, (hg.getElem?_iff hw.toFiled o.key (o.element c m.heap)).2 ⟨o, ho, rfl, rfl⟩]
    rfl
  constructor
  · rintro s hs frame ⟨-, ⟨name, names, n, locals, howner, -, -, hlocals, htable⟩, hreturn⟩ key hp
    -- a pointer stands for the value of a variable or for what is returned
    obtain ⟨v, hv, hshown⟩ : ∃ v, m.Shows c m.stack.reverse s v ∧ m.heap.shown v = .pointer key := by
      rcases hp with ⟨locals', x, hl, hx⟩ | hr
      · cases hlocals.symm.trans hl
        obtain ⟨v, ⟨hx, hb⟩, ht⟩ := (htable x _).1 hx
        exact ⟨v, .inl ⟨name, names, n, x, howner, hx, hb⟩, ht.symm⟩
      · rw [hr] at hreturn
        split at hreturn
        · rename_i hret
          exact ⟨s.value, .inr ⟨hret, rfl⟩, (Option.some.inj hreturn).symm⟩
        · cases hreturn
    obtain ⟨o, ho, hkey⟩ := Heap.exists_target_of_shown hshown
    exact hmem ⟨o, .root ⟨s, hs, hv⟩ ho, hkey⟩
  · intro key e he target hp
    obtain ⟨o, ho, -, rfl⟩ := (hg.getElem?_iff hw.toFiled key e).1 he
    obtain ⟨v, hv, p, hp, htarget⟩ := Object.exists_part_of_points hp
    exact hmem ⟨p, .part ho hv hp, htarget⟩

/-- Sound and well-formed machines stay so. -/
theorem Machine.lasts_wellFormed (hc : c.IsRead) (hk : ∀ f ∈ c.host, f.Keeps) (hh : ∀ f ∈ c.host, f.Sound) :
    Machine.Lasts c fun m => m.Sound c ∧ m.WellFormed where
  start _ hm := ⟨sound_start hc hm, wellFormed_start hm⟩
  step _ world hm _ := ⟨sound_step hc hk hm.1 world, (lands_step hh hm.2 world).machine⟩
  sound _ hm := hm.1

/-- The functions of a session keep the heap well-formed. -/
theorem SessionFunction.host_table (functions : List (SessionFunction σ)) :
    (∀ f ∈ (SessionFunction.table functions).map SessionFunction.toHost, f.Keeps) ∧
      ∀ f ∈ (SessionFunction.table functions).map SessionFunction.toHost, f.Sound := by
  refine ⟨fun f hf => ?_, fun f hf => ?_⟩ <;> obtain ⟨g, -, rfl⟩ := List.mem_map.1 hf
  · exact g.keeps_toHost
  · exact g.sound_toHost

namespace Session

variable {first t : Session σ δ}

/-- At every stop of a session, the elements that are shown are those of the objects that the frames reach, each
with its complete contents, and every pointer that is shown is the key of one. However long the search is given, it
ends with this. -/
theorem collect_reached {source text : String} {scheme : DeltaScheme String δ} {functions : List (SessionFunction σ)}
    {host : σ} {draws : Nat → Float} (hd : scheme.Exact)
    (h : startOver (Library.read text) scheme source functions host draws = .ok first)
    (ht : Reached first t) (hstep : t.collect = .ok step) :
    ∃ elements, step.heap = some elements ∧
      (∀ depth, t.stepper.machine.heap.objects.size + 2 ≤ depth →
        t.stepper.machine.collectWithin depth t.setting t.world.console t.exception = .ok step) ∧
      List.Forall₂ (t.stepper.machine.Describes t.setting t.stepper.machine.stack.reverse)
        (frameStates t.stepper.machine.stack.reverse) (step.frames.getD []) ∧
      (∀ frame ∈ step.frames.getD [], ∀ key, frame.Points key → key ∈ elements) ∧
      (∀ (key : String) (e : HeapElement), elements[key]? = some e → ∀ target, e.Points target → target ∈ elements) ∧
      (∀ (key : String) (e : HeapElement), elements[key]? = some e → e.id = key ∧
        ∃ o, t.stepper.machine.heap.object? o.id = some o ∧
        key = toString o.id ∧ e = o.element t.setting t.stepper.machine.heap) ∧
      ∀ key, key ∈ elements ↔ ∃ o, t.stepper.machine.heap.Reached (t.stepper.machine.ShowsAny t.setting) o ∧
        key = toString o.id := by
  obtain ⟨program, hp, hmachine⟩ := ht.machine hd h
  obtain ⟨hkeeps, hsound⟩ := SessionFunction.host_table functions
  have hc := Setting.isRead_ofPrograms hp text ((SessionFunction.table functions).map SessionFunction.toHost)
    Setting.defaultDepth draws
  obtain ⟨-, -, hm⟩ := hmachine _ (Machine.lasts_wellFormed hc hkeeps hsound)
  have hf := hm.heap.toFiled
  obtain ⟨elements, hheap, hframes, hg⟩ := Machine.collect_describes hm.heap hstep
  obtain ⟨hpoints, hparts⟩ := Machine.points_to_elements hm.heap hg
  refine ⟨elements, hheap, fun depth hdepth => (Machine.collectWithin_size hm.heap hdepth).trans hstep, hframes, ?_,
    hparts, fun key e he => ?_, fun key => ?_⟩
  · intro frame hframe key hp
    obtain ⟨s, hs, hdesc⟩ := exists_left_of_forall₂ hframes hframe
    exact hpoints s hs frame hdesc key hp
  · obtain ⟨o, ho, hkey, rfl⟩ := (hg.getElem?_iff hf key e).1 he
    exact ⟨(o.id_element _ _).trans hkey.symm, o, ho.object? hf, hkey, rfl⟩
  · rw [Std.TreeMap.mem_iff_isSome_getElem?, Option.isSome_iff_exists]
    constructor
    · rintro ⟨e, he⟩
      obtain ⟨o, ho, hkey, -⟩ := (hg.getElem?_iff hf key e).1 he
      exact ⟨o, ho, hkey⟩
    · rintro ⟨o, ho, hkey⟩
      exact ⟨_, (hg.getElem?_iff hf key _).2 ⟨o, ho, hkey, rfl⟩⟩

/-- An array that holds itself is shown as one element that points to itself. -/
theorem collect_reached_cycle :
    ∃ (first t : Session Unit String) (step : TraceStep) (elements : Elements),
      startOver (Library.read "") (.whole String) "var a = []; a[0] = a;" [] () Setting.zeros = .ok first ∧ Reached first t ∧
        t.collect = .ok step ∧ step.heap = some elements ∧ elements.keys = ["100"] ∧
        (elements["100"]?.any fun | .array _ [.pointer key] => key == "100" | _ => false) ∧
        ∀ key, key ∈ elements ↔ ∃ o, t.stepper.machine.heap.Reached (t.stepper.machine.ShowsAny t.setting) o ∧
          key = toString o.id := by
  have hrun : (startOver (Library.read "") (.whole String) "var a = []; a[0] = a;"
      ([] : List (SessionFunction Unit)) () Setting.zeros).toOption.any fun first =>
        (first.walk? 7).any fun t => t.collect.toOption.any fun step => step.heap.any fun elements =>
          elements.keys = ["100"] ∧
            elements["100"]?.any fun | .array _ [.pointer key] => key == "100" | _ => false := by
    decide +kernel
  obtain ⟨first, hfirst, hrun⟩ := (Option.any_eq_true _ _).1 hrun
  obtain ⟨t, hw, hrun⟩ := (Option.any_eq_true _ _).1 hrun
  obtain ⟨step, hstep, hrun⟩ := (Option.any_eq_true _ _).1 hrun
  obtain ⟨elements, helements, hrun⟩ := (Option.any_eq_true _ _).1 hrun
  obtain ⟨hkeys, helement⟩ := of_decide_eq_true hrun
  have hstart : startOver (Library.read "") (.whole String) "var a = []; a[0] = a;" [] () Setting.zeros = .ok first :=
    eq_ok_of_toOption hfirst
  have hcollect : t.collect = .ok step := eq_ok_of_toOption hstep
  obtain ⟨elements', helements', -, -, -, -, -, hreached⟩ :=
    collect_reached (fun _ _ => rfl) hstart (reached_walk? hw) hcollect
  cases helements.symm.trans helements'
  exact ⟨first, t, step, elements, hstart, reached_walk? hw, hcollect, helements, hkeys, helement, hreached⟩

end Session

end Stepwise

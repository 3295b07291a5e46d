import Stepwise.Proofs.Json.Decode
import Stepwise.Trace.Reader

/-!
# Traces read back from their texts

A decoder of a trace gives a value, and may note an error for later. What the program writes is decoded without one, so
each decoder is equal there to the one that gives the value at once.

* `TraceValue.Made`, `HeapElement.Made`, `TraceStep.Made`: the values that a program makes, and what is built of them.
* `TraceStep.Same`: two steps that differ at most in the shape of their maps.
* `TraceReader.record_members`: the members of a record set one field after the other.
* `TraceReader.value_toJson`, `element_toJson`, `step_toJson`: what is written is decoded.
* `TraceReader.ofText_compact`: so values, elements and steps are read back from their texts.
-/

namespace Stepwise

/-! ### What is written -/

/-- The values that are made of numbers, of texts and of truth values, the two values without content, and pointers. -/
inductive TraceValue.Made : TraceValue → Prop where
  | number (n : Float) : Made (.ofNumber n)
  | string (s : String) : Made (.string s)
  | boolean (b : Bool) : Made (.boolean b)
  | null : Made .null
  | undefined : Made .undefined
  | pointer (ref : String) : Made (.pointer ref)

/-- An element that is built of such values. -/
def HeapElement.Made : HeapElement → Prop
  | array _ values => ∀ v ∈ values, v.Made
  | object _ entries => ∀ e ∈ entries, e.2.Made
  | function .. => True

/-- A span whose lines and columns are integers of 64 bits. -/
structure LineRange.Fits (r : LineRange) : Prop where
  lineStart : Word r.lineStart
  colStart : Word r.colStart
  lineEnd : Word r.lineEnd
  colEnd : Word r.colEnd

/-- A call with such values. -/
structure StackFrame.Made (f : StackFrame) : Prop where
  frameId : Word f.frameId
  code : f.code.Fits
  state : f.state.Fits
  locals : ∀ m ∈ f.locals, ∀ e ∈ m.toList, e.2.Made
  returnValue : ∀ v ∈ f.returnValue, v.Made

/-- A step with such calls and elements. -/
structure TraceStep.Made (s : TraceStep) : Prop where
  stdout : ∀ ls ∈ s.stdout, ∀ l ∈ ls, Word l.line
  range : s.range.Fits
  frames : ∀ fs ∈ s.frames, ∀ f ∈ fs, f.Made
  heap : ∀ m ∈ s.heap, ∀ e ∈ m.toList, e.2.Made

/-- An entry of an object as a record. -/
def entryJson (e : String × TraceValue) : Json := .obj [("key", .str e.1), ("value", e.2.toJson)]

theorem HeapElement.toJson_object (id : String) (entries : List (String × TraceValue)) :
    (object id entries).toJson =
      .obj [("kind", .str "object"), ("id", .str id), ("entries", .arr (entries.map entryJson))] := rfl

/-- Only a finite number is kept as a number. -/
theorem TraceValue.exists_finite {n x : Float} (h : ofNumber n = .number x) :
    ∃ negative m e, Magnitude.decode x = .finite negative m e := by
  cases hn : Magnitude.decode n with
  | nan =>
    rw [Magnitude.decode_nan hn] at h
    cases h
  | infinite negative =>
    rw [Magnitude.decode_infinite hn] at h
    cases negative <;> cases h
  | finite negative m e =>
    unfold ofNumber at h
    split at h
    · cases h
    · split at h
      · split at h <;> cases h
      · cases h
        exact ⟨negative, m, e, hn⟩

theorem TraceValue.Made.exists_finite {x : Float} (h : Made (.number x)) :
    ∃ negative m e, Magnitude.decode x = .finite negative m e := by
  generalize hv : TraceValue.number x = v at h
  cases h with
  | number n => exact TraceValue.exists_finite hv.symm
  | _ => cases hv

/-! ### The same step -/

section

variable {α : Type}

/-- A map put together from its entries. -/
def rebuiltMap (m : Std.TreeMap String α) : Std.TreeMap String α := m.toList.foldl (fun m e => m.insert e.1 e.2) {}

theorem rebuiltMap_equiv (m : Std.TreeMap String α) : (rebuiltMap m).Equiv m := by
  have hinsert (l : List (String × α)) (acc : Std.TreeMap String α) :
      l.foldl (fun m e => m.insert e.1 e.2) acc = acc.insertMany l := by
    induction l generalizing acc with
    | nil => rw [Std.TreeMap.insertMany_nil]; rfl
    | cons e l ih => rw [List.foldl_cons, ih, Std.TreeMap.insertMany_cons]
  refine Std.TreeMap.Equiv.of_forall_constGet?_eq fun k => ?_
  rw [rebuiltMap, hinsert, ← Std.TreeMap.ofList_eq_insertMany_empty]
  cases hk : m[k]? with
  | some v =>
    exact Std.TreeMap.getElem?_ofList_of_mem Std.ReflCmp.compare_self Std.TreeMap.distinct_keys_toList
      (Std.TreeMap.mem_toList_iff_getElem?_eq_some.2 hk)
  | none =>
    refine Std.TreeMap.getElem?_ofList_of_contains_eq_false ?_
    rw [Std.TreeMap.map_fst_toList_eq_keys]
    simpa using hk

/-- Both maps are missing, or they have the same entries. -/
def SameMaps : Option (Std.TreeMap String α) → Option (Std.TreeMap String α) → Prop := Option.Rel Std.TreeMap.Equiv

theorem sameMaps_rebuilt (o : Option (Std.TreeMap String α)) : SameMaps (o.map rebuiltMap) o := by
  cases o with
  | none => exact .none
  | some m => exact .some (rebuiltMap_equiv m)

end

/-- Two calls that agree up to the shape of their maps. -/
structure StackFrame.Same (f g : StackFrame) : Prop where
  rest : { f with locals := none } = { g with locals := none }
  locals : SameMaps f.locals g.locals

/-- Two steps that agree up to the shape of their maps; an event is its name. -/
structure TraceStep.Same (s t : TraceStep) : Prop where
  rest : { s with event := .stepLine, frames := none, heap := none } =
    { t with event := .stepLine, frames := none, heap := none }
  event : s.event.name = t.event.name
  frames : Option.Rel (List.Forall₂ StackFrame.Same) s.frames t.frames
  heap : SameMaps s.heap t.heap

/-- A call with its map put together from the entries. -/
def StackFrame.rebuilt (f : StackFrame) : StackFrame := { f with locals := f.locals.map rebuiltMap }

/-- A step with its maps put together from their entries, and the event of its name. -/
def TraceStep.rebuilt (s : TraceStep) : TraceStep :=
  { s with
    event := .ofName s.event.name
    frames := s.frames.map (List.map StackFrame.rebuilt)
    heap := s.heap.map rebuiltMap }

theorem StackFrame.same_rebuilt (f : StackFrame) : f.rebuilt.Same f := ⟨rfl, sameMaps_rebuilt f.locals⟩

theorem TraceEvent.name_ofName (s : String) : (ofName s).name = s := by
  unfold ofName
  split <;> rfl

theorem TraceStep.same_rebuilt (s : TraceStep) : s.rebuilt.Same s := by
  refine ⟨rfl, TraceEvent.name_ofName _, ?_, sameMaps_rebuilt s.heap⟩
  unfold rebuilt
  cases s.frames with
  | none => exact .none
  | some fs =>
    refine .some (List.forall₂_map_left_iff.2 ?_)
    exact List.forall₂_same.2 fun f _ => f.same_rebuilt

/-! ### Decoders -/

namespace TraceReader

theorem int_int {n : Int} (h : Word n) (old : Int) : int old (.int n) = pure n := by
  have hn : (Json.int n).int64? = some n := (Json.decodes_int64? n).complete h
  unfold int
  rw [hn]
  rfl

theorem text_str (old s : String) : text old (.str s) = pure s := rfl

/-- A part that is decoded without an error passes its check. -/
theorem checked_pure {α : Type} (a : α) : checked (pure a) = pure a := rfl

section

variable {α β : Type} {item : Json → Decoder β} {encode : α → Json} {f : α → β}

/-- A list is decoded if its items are. -/
theorem items_arr {l : List α} (h : ∀ a ∈ l, item (encode a) = pure (f a)) (old : Option (List β)) :
    items item old (.arr (l.map encode)) = pure (some (l.map f)) := by
  have hl : (l.map encode).mapM item = pure (l.map f) := by
    induction l with
    | nil => rfl
    | cons a l ih =>
      rw [List.map_cons, List.mapM_cons, h a List.mem_cons_self, ih fun a ha => h a (List.mem_cons_of_mem _ ha)]
      rfl
  show (do return some (← (l.map encode).mapM item)) = _
  rw [hl]
  rfl

theorem items_orNull {o : Option (List α)} (h : ∀ l ∈ o, ∀ a ∈ l, item (encode a) = pure (f a))
    (old : Option (List β)) :
    items item old (Json.orNull (fun l => .arr (l.map encode)) o) = pure (o.map (List.map f)) := by
  cases o with
  | none => rfl
  | some l => exact items_arr (h l rfl) old

end

section

variable {α : Type} {item : Json → Decoder α} {encode : α → Json}

/-- A map is decoded if its values are. -/
theorem entries_orNull {o : Option (Std.TreeMap String α)}
    (h : ∀ m ∈ o, ∀ e ∈ m.toList, item (encode e.2) = pure e.2) :
    entries item none (Json.orNull (Json.map encode) o) = pure (o.map rebuiltMap) := by
  cases o with
  | none => rfl
  | some m =>
    have hfold (acc : Std.TreeMap String α) {l : List (String × α)} (hl : ∀ e ∈ l, item (encode e.2) = pure e.2) :
        (l.map fun (e : String × α) => (e.1, encode e.2)).foldlM
          (fun (m : Std.TreeMap String α) (e : String × Json) => do return m.insert e.1 (← item e.2)) acc =
        pure (l.foldl (fun (m : Std.TreeMap String α) e => m.insert e.1 e.2) acc) := by
      induction l generalizing acc with
      | nil => rfl
      | cons e l ih =>
        rw [List.map_cons, List.foldlM_cons, hl e List.mem_cons_self, pure_bind, pure_bind,
          ih _ fun e he => hl e (List.mem_cons_of_mem _ he)]
        rfl
    show (do return some (← (m.toList.map fun (e : String × α) => (e.1, encode e.2)).foldlM
      (fun (m : Std.TreeMap String α) (e : String × Json) => do return m.insert e.1 (← item e.2)) {})) = _
    rw [hfold {} (h m rfl)]
    rfl

/-- The members of a record set one field after the other. -/
theorem record_members {names : List String} {set : α → String → Json → Decoder α} {members : List (String × Json)}
    (h : ∀ m ∈ members, m.1 ∈ names) (old : α) :
    record names set old (.obj members) = members.foldlM (fun a m => set a m.1 m.2) old := by
  have hname (m : String × Json) (hm : m ∈ members) : names.find? (· == m.1) = some m.1 := by
    have hsome : (names.find? (· == m.1)).isSome := List.find?_isSome.2 ⟨m.1, h m hm, beq_self_eq_true m.1⟩
    obtain ⟨name, hfind⟩ := Option.isSome_iff_exists.1 hsome
    have heq : (name == m.1) = true := List.find?_some (p := (· == m.1)) hfind
    rw [hfind, beq_iff_eq.1 heq]
  unfold record
  dsimp only
  clear h
  induction members generalizing old with
  | nil => rfl
  | cons m members ih =>
    rw [List.foldlM_cons, List.foldlM_cons, hname m List.mem_cons_self]
    exact bind_congr fun a => ih a fun m hm => hname m (List.mem_cons_of_mem _ hm)

end

/-! ### Values and elements -/

theorem value_toJson {v : TraceValue} (h : v.Made) : value v.toJson = pure v := by
  unfold value
  cases v with
  | number x =>
    obtain ⟨negative, m, e, hfinite⟩ := h.exists_finite
    have hread : readFloat? (NumberStyle.json.render x) = some x := readFloat?_render_of_finite rfl hfinite
    rw [TraceValue.toJson, record_members (by simp)]
    simp only [List.foldlM_cons, List.foldlM_nil, text_str, pure_bind, checked_pure, hread]
  | _ =>
    rw [TraceValue.toJson, record_members (by simp)]
    rfl

theorem entry_entryJson {e : String × TraceValue} (h : e.2.Made) : entry (entryJson e) = pure (e.1, some e.2) := by
  unfold entry
  rw [entryJson, record_members (by simp)]
  simp [text_str, value_toJson h]

theorem element_toJson {e : HeapElement} (h : e.Made) : element e.toJson = pure e := by
  unfold element
  cases e with
  | array id values =>
    have hvalues (old : Option (List TraceValue)) :
        items value old (.arr (values.map TraceValue.toJson)) = pure (some values) :=
      (items_arr (fun v hv => value_toJson (h v hv)) old).trans (by rw [List.map_id'])
    rw [HeapElement.toJson, record_members (by simp)]
    simp [text_str, hvalues, checked_pure]
  | object id entries =>
    have hentries (old : Option (List (String × Option TraceValue))) :
        items entry old (.arr (entries.map entryJson)) = pure (some (entries.map fun e => (e.1, some e.2))) :=
      items_arr (fun e he => entry_entryJson (h e he)) old
    rw [HeapElement.toJson_object, record_members (by simp)]
    simp [text_str, hentries, checked_pure, Function.comp_def]
  | function id name code =>
    rw [HeapElement.toJson, record_members (by simp)]
    simp [text_str, checked_pure]

/-! ### Calls and steps -/

theorem outputLine_toJson {l : OutputLine} (h : Word l.line) : outputLine l.toJson = pure l := by
  unfold outputLine
  rw [OutputLine.toJson, record_members (by simp)]
  simp [text_str, int_int h]

theorem value?_toJson {v : TraceValue} (h : v.Made) : value? v.toJson = pure (some v) := by
  have hobj : value? v.toJson = do return some (← value v.toJson) := by cases v <;> rfl
  rw [hobj, value_toJson h]
  rfl

theorem frame_toJson {f : StackFrame} (h : f.Made) : frame f.toJson = pure f.rebuilt := by
  have hlocals : entries value none (Json.orNull (Json.map TraceValue.toJson) f.locals) =
      pure (f.locals.map rebuiltMap) :=
    entries_orNull fun m hm e he => value_toJson (h.locals m hm e he)
  have hordered (old : Option (List String)) :
      items (text "") old (Json.orNull Json.strs f.orderedLocals) = pure f.orderedLocals :=
    (items_orNull (fun _ _ s _ => text_str "" s) old).trans (by simp)
  obtain ⟨hid, ⟨hc1, hc2, hc3, hc4⟩, ⟨hs1, hs2, hs3, hs4⟩, -, hreturn⟩ := h
  unfold frame
  rw [StackFrame.toJson, record_members (by cases f.returnValue <;> simp)]
  obtain ⟨frameId, functionName, functionCode, code, state, locals, orderedLocals, returnValue⟩ := f
  cases returnValue with
  | none =>
    simp [text_str, int_int, hlocals, hordered, hid, hc1, hc2, hc3, hc4, hs1, hs2, hs3, hs4, StackFrame.rebuilt]
  | some v =>
    have hv : value? v.toJson = pure (some v) := value?_toJson (hreturn v rfl)
    simp [text_str, int_int, hlocals, hordered, hid, hc1, hc2, hc3, hc4, hs1, hs2, hs3, hs4, hv, StackFrame.rebuilt]

theorem step_toJson {s : TraceStep} (h : s.Made) : step s.toJson = pure s.rebuilt := by
  have hstdout (old : Option (List OutputLine)) :
      items outputLine old (Json.orNull (fun ls => .arr (ls.map OutputLine.toJson)) s.stdout) = pure s.stdout :=
    (items_orNull (fun ls hls l hl => outputLine_toJson (h.stdout ls hls l hl)) old).trans (by simp)
  have hframes (old : Option (List StackFrame)) :
      items frame old (Json.orNull (fun fs => .arr (fs.map StackFrame.toJson)) s.frames) =
        pure (s.frames.map (List.map StackFrame.rebuilt)) :=
    items_orNull (fun fs hfs f hf => frame_toJson (h.frames fs hfs f hf)) old
  have hheap : entries element none (Json.orNull (Json.map HeapElement.toJson) s.heap) = pure (s.heap.map rebuiltMap) :=
    entries_orNull fun m hm e he => element_toJson (h.heap m hm e he)
  obtain ⟨-, ⟨h1, h2, h3, h4⟩, -, -⟩ := h
  unfold step
  rw [TraceStep.toJson, record_members (by cases s.exceptionMessage <;> simp)]
  obtain ⟨stdout, range, functionName, event, frames, heap, exceptionMessage⟩ := s
  cases exceptionMessage with
  | none => simp [text_str, int_int, hstdout, hframes, hheap, h1, h2, h3, h4, TraceStep.rebuilt]
  | some m => simp [text_str, text?, int_int, hstdout, hframes, hheap, h1, h2, h3, h4, TraceStep.rebuilt]

end TraceReader

/-! ### Texts -/

namespace Json

variable {α : Type} {write : α → Json} {o : Option α}

theorem readable_orNull (h : ∀ a ∈ o, (write a).Readable) : (orNull write o).Readable := by
  cases o with
  | none => exact .null
  | some a => exact h a rfl

theorem readable_list {l : List α} (h : ∀ a ∈ l, (write a).Readable) : (arr (l.map write)).Readable :=
  .arr (List.forall_mem_map.2 h)

theorem readable_map {m : Std.TreeMap String α} (h : ∀ e ∈ m.toList, (write e.2).Readable) : (map write m).Readable :=
  .obj (List.forall_mem_map.2 h)

end Json

open Json Readable

theorem TraceValue.readable_toJson {v : TraceValue} (h : v.Made) : v.toJson.Readable := by
  cases v with
  | number x =>
    obtain ⟨negative, m, e, hfinite⟩ := h.exists_finite
    obtain ⟨n, b, hn⟩ := exists_signed_render .json hfinite
    exact .obj (by simp [Readable.str, Readable.num n b hn])
  | _ => exact .obj (by simp [Readable.str, Readable.bool])

theorem HeapElement.readable_toJson {e : HeapElement} (h : e.Made) : e.toJson.Readable := by
  cases e with
  | array id values =>
    have hvalues : (arr (values.map TraceValue.toJson)).Readable :=
      readable_list fun v hv => TraceValue.readable_toJson (h v hv)
    exact .obj (by simp [Readable.str, hvalues])
  | object id entries =>
    have hentries : (arr (entries.map entryJson)).Readable :=
      readable_list fun e he => .obj (by simp [Readable.str, TraceValue.readable_toJson (h e he)])
    rw [toJson_object]
    exact .obj (by simp [Readable.str, hentries])
  | function id name code => exact .obj (by simp [Readable.str])

theorem StackFrame.readable_toJson {f : StackFrame} (h : f.Made) : f.toJson.Readable := by
  have hlocals : (orNull (map TraceValue.toJson) f.locals).Readable :=
    readable_orNull fun m hm => readable_map fun e he => TraceValue.readable_toJson (h.locals m hm e he)
  have hordered : (orNull strs f.orderedLocals).Readable :=
    readable_orNull fun l _ => readable_list fun s _ => .str s
  have hreturn : ∀ v ∈ f.returnValue, v.toJson.Readable := fun v hv => TraceValue.readable_toJson (h.returnValue v hv)
  refine .obj ?_
  simpa [Readable.str, Readable.int, hlocals, hordered] using hreturn

theorem TraceStep.readable_toJson {s : TraceStep} (h : s.Made) : s.toJson.Readable := by
  have hstdout : (orNull (fun ls => arr (ls.map OutputLine.toJson)) s.stdout).Readable :=
    readable_orNull fun ls _ => readable_list fun l _ => .obj (by simp [Readable.str, Readable.int])
  have hframes : (orNull (fun fs => arr (fs.map StackFrame.toJson)) s.frames).Readable :=
    readable_orNull fun fs hfs => readable_list fun f hf => StackFrame.readable_toJson (h.frames fs hfs f hf)
  have hheap : (orNull (map HeapElement.toJson) s.heap).Readable :=
    readable_orNull fun m hm => readable_map fun e he => HeapElement.readable_toJson (h.heap m hm e he)
  refine .obj ?_
  simp [Readable.str, Readable.int, hstdout, hframes, hheap]

namespace TraceReader

/-- What is decoded from a value is read from its text. -/
theorem ofText_compact {α : Type} {d : Json → Decoder α} {j : Json} {a : α} (hj : j.Readable) (h : d j = pure a) :
    ofText d j.compact = .ok a := by
  unfold ofText
  rw [parse?_compact hj]
  dsimp only
  rw [h]
  rfl

/-- Every value that can be made and every element and step that is built of such values is read back from its text. -/
theorem ofText_toJson :
    (∀ v : TraceValue, v.Made → ofText value v.toJson.compact = .ok v) ∧
      (∀ e : HeapElement, e.Made → ofText element e.toJson.compact = .ok e) ∧
      ∀ s : TraceStep, s.Made → ∃ t, ofText step s.toJson.compact = .ok t ∧ t.Same s :=
  ⟨fun _ h => ofText_compact (TraceValue.readable_toJson h) (value_toJson h),
    fun _ h => ofText_compact (HeapElement.readable_toJson h) (element_toJson h),
    fun s h => ⟨s.rebuilt, ofText_compact (TraceStep.readable_toJson h) (step_toJson h), s.same_rebuilt⟩⟩

/-- A call is about to return a number that is none, and its variable points to an array that contains itself. -/
theorem ofText_toJson_cycle :
    let array := HeapElement.array "1" [.undefined, .pointer "1"]
    let call : StackFrame :=
      { frameId := 2, functionName := "f", locals := some {("x", TraceValue.pointer "1")},
        orderedLocals := some ["x"], returnValue := some .nan }
    let s : TraceStep :=
      { stdout := some [⟨"<b>", 3⟩], event := .return_, frames := some [{}, call], heap := some {("1", array)} }
    ofText value (TraceValue.ofNumber notANumber).toJson.compact = .ok .nan ∧
      ofText element array.toJson.compact = .ok array ∧ ∃ t, ofText step s.toJson.compact = .ok t ∧ t.Same s := by
  intro array call s
  have hnan : TraceValue.nan.Made := .number notANumber
  have harray : array.Made := by
    simp [array, HeapElement.Made, TraceValue.Made.undefined, TraceValue.Made.pointer]
  have hspan : LineRange.Fits {} := ⟨by decide, by decide, by decide, by decide⟩
  have hcall : call.Made := by
    refine ⟨by decide, hspan, hspan, ?_, ?_⟩
    · rintro m ⟨⟩ e he
      obtain rfl := List.mem_singleton.1 he
      exact .pointer "1"
    · rintro v ⟨⟩
      exact hnan
  have hs : s.Made := by
    refine ⟨?_, hspan, ?_, ?_⟩
    · rintro ls ⟨⟩ l hl
      obtain rfl := List.mem_singleton.1 hl
      decide
    · rintro fs ⟨⟩ f hf
      rcases List.mem_pair.1 hf with rfl | rfl
      · exact ⟨by decide, hspan, hspan, nofun, nofun⟩
      · exact hcall
    · rintro m ⟨⟩ e he
      obtain rfl := List.mem_singleton.1 he
      exact harray
  exact ⟨ofText_toJson.1 _ (.number notANumber), ofText_toJson.2.1 array harray, ofText_toJson.2.2 s hs⟩

end TraceReader

end Stepwise

import Stepwise.Machine.Codec
import Stepwise.Proofs.Heap.Codec
import Stepwise.Proofs.Machine.Reach

/-!
# Machines read back from their texts

* `Machine.Fits`: every integer has 64 bits.
* `Machine.decodes_restore?`: a machine that a program reaches is read back from its text if its integers
  fit, and its text is never taken for another machine.
* `Machine.run_restored`: it then takes the same steps, if what is outside of its text answers it in the same way.
-/

namespace Stepwise

variable {ω : Type}

/-! ### Integers of 64 bits -/

/-- Whether the integers of a place have 64 bits. -/
def Reference.Fits : Reference → Prop
  | .variable scope _ => Word scope
  | .property base _ => base.Fits

instance (r : Reference) : Decidable r.Fits := by
  unfold Reference.Fits
  split <;> infer_instance

/-- Whether the integers of a state have 64 bits. -/
structure State.Fits (s : State) : Prop where
  id : s.id < 2 ^ 64
  node : Word s.node.id
  scope : Word s.scope
  phase : s.phase < 2 ^ 64
  n : s.n < 2 ^ 64
  m : s.m < 2 ^ 64
  value : s.value.Fits
  left : s.left.Fits
  ref : ∀ r ∈ s.ref, r.Fits
  values : ∀ v ∈ s.values, v.Fits
  func : s.func.Fits
  this : s.this.Fits
  default : Word s.default

/-- Whether the integers of a machine have 64 bits. -/
structure Machine.Fits (m : Machine) : Prop where
  global : Word m.global
  heap : m.heap.Fits
  stack : ∀ s ∈ m.stack, s.Fits
  lastId : m.lastId < 2 ^ 64

instance (s : State) : Decidable s.Fits :=
  decidable_of_iff ((s.id < 2 ^ 64 ∧ Word s.node.id ∧ Word s.scope ∧ s.phase < 2 ^ 64 ∧ s.n < 2 ^ 64 ∧ s.m < 2 ^ 64) ∧
      s.value.Fits ∧ s.left.Fits ∧ (∀ r ∈ s.ref, r.Fits) ∧ (∀ v ∈ s.values, v.Fits) ∧ s.func.Fits ∧ s.this.Fits ∧
      Word s.default)
    ⟨fun ⟨⟨a, b, c, d, e, f⟩, g, h, i, j, k, l, m⟩ => ⟨a, b, c, d, e, f, g, h, i, j, k, l, m⟩,
      fun ⟨a, b, c, d, e, f, g, h, i, j, k, l, m⟩ => ⟨⟨a, b, c, d, e, f⟩, g, h, i, j, k, l, m⟩⟩

instance (m : Machine) : Decidable m.Fits :=
  decidable_of_iff (Word m.global ∧ m.heap.Fits ∧ (∀ s ∈ m.stack, s.Fits) ∧ m.lastId < 2 ^ 64)
    ⟨fun ⟨a, b, c, d⟩ => ⟨a, b, c, d⟩, fun ⟨a, b, c, d⟩ => ⟨a, b, c, d⟩⟩

/-! ### Places and states -/

namespace Reference

theorem toJson_ne_null (r : Reference) : r.toJson ≠ .null := by cases r <;> nofun

theorem decodes_ofJson? (r : Reference) : Decodes r.Fits r (ofJson? r.toJson) := by
  have hd : Json.Distinct ["base", "scope", "name", "isScope"] := by decide
  unfold ofJson? toJson
  rcases r with ⟨scope, name⟩ | ⟨base, name⟩
  · refine Json.decodes_record ["base", "scope", "name", "isScope"] rfl hd fun field => ?_
    refine (field 0 rfl ⟨nofun, Value.undefined.decodes_ofJson?.mono fun _ => trivial⟩).bind ?_
    refine (field 1 rfl (Json.decodesField_nonzero scope id)).bind ?_
    refine (field 2 rfl ⟨nofun, .some name⟩).bind ?_
    refine (field 3 rfl (Json.decodesField_flag true)).bind ?_
    exact .some _
  · refine Json.decodes_record ["base", "scope", "name", "isScope"] rfl hd fun field => ?_
    refine (field 0 rfl ⟨base.toJson_ne_null, base.decodes_ofJson?⟩).bind ?_
    refine (field 1 rfl (Json.decodesField_nonzero 0 fun _ => by decide)).bind ?_
    refine (field 2 rfl ⟨nofun, .some name⟩).bind ?_
    refine (field 3 rfl (Json.decodesField_flag false)).bind ?_
    exact .some _

theorem whole_toJson (r : Reference) : r.toJson.Whole := by
  refine Json.whole_record ?_
  simp [Json.wholeField_optional, Json.Whole.int, Json.Whole.str, Json.Whole.bool, Value.whole_toJson]

end Reference

namespace State

theorem decodes_ofJson? {c : Setting ω} {s : State} (hn : c.node? s.node.id = some s.node) :
    Decodes s.Fits s (ofJson? c s.toJson) := by
  have hv {v : Value} (h : s.Fits → v.Fits) : Json.DecodesField s.Fits v .undefined Value.ofJson? (some v.toJson) :=
    ⟨v.toJson_ne_null, v.decodes_ofJson?.mono h⟩
  unfold ofJson? toJson
  refine Json.decodes_record ["id", "node", "scope", "phase", "n", "m", "done", "hasValue", "value", "left", "ref",
    "values", "func", "this", "keys", "components", "labels", "default"] rfl (by decide) fun field => ?_
  refine (field 0 rfl (Json.decodesField_nat s.id fun h => h.id)).bind ?_
  refine (field 1 rfl (Json.decodesField_int s.node.id fun h => h.node)).bind ?_
  rw [hn]
  refine (Decodes.some s.node).bind ?_
  refine (field 2 rfl (Json.decodesField_int s.scope fun h => h.scope)).bind ?_
  refine (field 3 rfl (Json.decodesField_positive s.phase fun h => h.phase)).bind ?_
  refine (field 4 rfl (Json.decodesField_positive s.n fun h => h.n)).bind ?_
  refine (field 5 rfl (Json.decodesField_positive s.m fun h => h.m)).bind ?_
  refine (field 6 rfl (Json.decodesField_flag s.done)).bind ?_
  refine (field 7 rfl (Json.decodesField_flag s.hasValue)).bind ?_
  refine (field 8 rfl (hv fun h => h.value)).bind ?_
  refine (field 9 rfl (hv fun h => h.left)).bind ?_
  refine (field 10 rfl (Json.decodesField_given Reference.toJson_ne_null fun r hr => ?_)).bind ?_
  · exact r.decodes_ofJson?.mono fun h => h.ref r hr
  refine (field 11 rfl (Json.decodesField_nonempty fun v hm => ?_)).bind ?_
  · exact v.decodes_ofJson?.mono fun h => h.values v hm
  refine (field 12 rfl (hv fun h => h.func)).bind ?_
  refine (field 13 rfl (hv fun h => h.this)).bind ?_
  refine (field 14 rfl (Json.decodesField_texts s.keys)).bind ?_
  refine (field 15 rfl (Json.decodesField_flag s.components)).bind ?_
  refine (field 16 rfl (Json.decodesField_texts s.labels)).bind ?_
  refine (field 17 rfl (Json.decodesField_nonzero s.default fun h => h.default)).bind ?_
  exact .some s

theorem whole_toJson (s : State) : s.toJson.Whole := by
  refine Json.whole_record ?_
  simp [Json.wholeField_optional, Json.wholeField_map, Json.Whole.int, Json.Whole.nat, Json.Whole.bool,
    Json.whole_strs, Json.whole_arr, Value.whole_toJson, Reference.whole_toJson]

end State

/-! ### Machines -/

namespace Machine

variable {c : Setting ω} {m : Machine}

theorem decodes_ofJson? (hm : m.Sound c) : Decodes m.Fits m (ofJson? c m.toJson) := by
  unfold ofJson? toJson
  refine Json.decodes_record ["heap", "global", "stack", "nextId"] rfl (by decide) fun field => ?_
  refine (field 0 rfl ⟨nofun, (Heap.decodes_ofJson? hm.filed).mono fun h => h.heap⟩).bind ?_
  refine (field 2 rfl (Json.decodesField_items fun s hs => ?_)).bind ?_
  · have hs : s ∈ m.stack := List.mem_reverse.1 hs
    exact (State.decodes_ofJson? (hm.node s hs)).mono fun h => h.stack s hs
  have hscopes : (m.stack.reverse.any fun s => (m.heap.scope? s.scope).isNone) = false := by
    rw [List.any_reverse, List.any_eq_false]
    intro s hs
    simpa using Option.isSome_iff_ne_none.1 (hm.scope s hs)
  rw [hscopes]
  refine (field 1 rfl (Json.decodesField_int m.global fun h => h.global)).bind ?_
  refine (field 3 rfl (Json.decodesField_nat m.lastId fun h => h.lastId)).bind ?_
  rw [List.reverse_reverse]
  exact .some m

theorem whole_toJson (m : Machine) : m.toJson.Whole := by
  refine Json.whole_record ?_
  simp only [List.forall_mem_cons, Json.wholeField_some]
  exact ⟨m.heap.whole_toJson, .int _, Json.whole_arr State.whole_toJson _, .nat _, List.forall_mem_nil _⟩

/-- A machine that a program reaches is read back from its text. -/
theorem decodes_restore? (hm : m.Sound c) : Decodes m.Fits m (restore? c m.serialize) := by
  unfold restore? serialize
  rw [Json.parse?_compact m.whole_toJson.readable]
  exact decodes_ofJson? hm

/-- The text of a machine that a program reaches can be read. What is read has the same text, and takes the
same steps to the same end as long as the host and the source of random numbers, which are outside of the text, answer
it in the same way. -/
theorem run_restored {source text : String} {program : Program} {host : List (HostFunction ω)} {maxDepth : Nat}
    {draws : Nat → Float} {m : Machine} {world : ω} (hp : Program.ofSource source = .ok program)
    (hh : ∀ f ∈ host, f.Keeps)
    (hr : m.Reachable (Setting.ofPrograms (Library.read text) program host maxDepth draws) world) (hm : m.Fits) :
    ∃ m', restore? (Setting.ofPrograms (Library.read text) program host maxDepth draws) m.serialize = some m' ∧
      m'.serialize = m.serialize ∧
      ∀ limit world, m'.run (Setting.ofPrograms (Library.read text) program host maxDepth draws) limit world =
        m.run (Setting.ofPrograms (Library.read text) program host maxDepth draws) limit world := by
  have hc := Setting.isRead_ofPrograms hp text host maxDepth draws
  exact ⟨m, (decodes_restore? (hr.sound hc hh)).complete hm, rfl, fun _ _ => rfl⟩

/-- A machine inside a function that has called the host, with a number that is not whole. -/
theorem run_restored_call :
    ∃ (program : Program) (m m' : Machine),
      let echo : HostFunction Unit := ⟨"echo", fun call h world => (.ok (.value (call.arg 0)), h, world)⟩
      let c := Setting.ofPrograms (Library.read "") program [echo] Setting.defaultDepth Setting.zeros
      Program.ofSource "(function (x) { var y = echo(x); })(0.1);" = .ok program ∧ m.Reachable c () ∧ m.Fits ∧
        m.stack.length = 5 ∧ restore? c m.serialize = some m' ∧ m'.serialize = m.serialize ∧
        ∀ limit world, m'.run c limit world = m.run c limit world := by
  let echo : HostFunction Unit := ⟨"echo", fun call h world => (.ok (.value (call.arg 0)), h, world)⟩
  have hrun : (after? "(function (x) { var y = echo(x); })(0.1);" [echo] 14 ()).any fun x =>
      x.2.1.Fits ∧ x.2.1.stack.length = 5 := by
    decide +kernel
  obtain ⟨⟨program, m, world⟩, hx, hrun⟩ := (Option.any_eq_true _ _).1 hrun
  obtain ⟨hp, hr⟩ := of_after? hx
  obtain ⟨hfit, hlength⟩ := of_decide_eq_true hrun
  have hh : ∀ f ∈ [echo], f.Keeps := by
    intro f hf
    cases List.mem_singleton.1 hf
    exact fun _ _ _ => .refl _
  obtain ⟨m', h⟩ := run_restored hp hh hr hfit
  exact ⟨program, m, m', hp, hr, hfit, hlength, h⟩

/-- The text of a machine does not hold what the source of random numbers gives next. The machine that is read may end
with another value of the variable. -/
theorem restored_redraws :
    ∃ (program : Program) (m m' : Machine),
      let c := Setting.ofPrograms (ω := Unit) (Library.read "") program [] Setting.defaultDepth
      let last (draws : Nat → Float) (m : Machine) := (m.run (c draws) endless ()).machine
      Program.ofSource "var x = Math.random();" = .ok program ∧ m.Reachable (c Setting.zeros) () ∧
        restore? (c Setting.zeros) m.serialize = some m' ∧
        (last Setting.zeros m).heap.binding? m.global "x" = some (.number 0) ∧
        (last (fun _ => 0.5) m').heap.binding? m'.global "x" = some (.number 0.5) := by
  let c (program : Program) := Setting.ofPrograms (ω := Unit) (Library.read "") program [] Setting.defaultDepth
  let last (program : Program) (draws : Nat → Float) (m : Machine) := (m.run (c program draws) endless ()).machine
  have hrun : (after? (ω := Unit) "var x = Math.random();" [] 3 ()).any fun x =>
      x.2.1.Fits ∧
        (last x.1 Setting.zeros x.2.1).heap.binding? x.2.1.global "x" = some (.number 0) ∧
        (last x.1 (fun _ => 0.5) x.2.1).heap.binding? x.2.1.global "x" = some (.number 0.5) := by
    decide +kernel
  obtain ⟨⟨program, m, world⟩, hx, hrun⟩ := (Option.any_eq_true _ _).1 hrun
  obtain ⟨hp, hr⟩ := of_after? hx
  obtain ⟨hfit, hx, hx'⟩ := of_decide_eq_true hrun
  have hc := Setting.isRead_ofPrograms hp "" ([] : List (HostFunction Unit)) Setting.defaultDepth Setting.zeros
  have hm : m.Sound (c program Setting.zeros) := hr.sound hc (List.forall_mem_nil _)
  exact ⟨program, m, m, hp, hr, (decodes_restore? hm).complete hfit, hx, hx'⟩

end Machine

end Stepwise

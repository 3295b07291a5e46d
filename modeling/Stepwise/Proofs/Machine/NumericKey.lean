import Stepwise.Proofs.Decimal.Layout
import Stepwise.Proofs.Machine.Convert

/-!
# Numeric names of properties

An object literal stores a property with a numeric name under the text that snapshots have for the number, and an
access with the number selects the text that it converts to.

* `Heap.getOwn?_newRecord`: what a record has under a key.
* `Heap.get_numericKey`: the numbers for which the two texts agree, and what an access finds.
-/

namespace Stepwise

variable {key : String} {v : Value} {properties before after : List (String × Value)}

namespace Heap

variable {h h' : Heap} {o : Object} {id : ObjectId}

theorem toKey_number (h : Heap) (n : Float) : h.toKey (.number n) = NumberStyle.script.render n := by
  rw [toKey, toText, toPrimitive_of_deref? rfl]
  rfl

/-- A record has its properties, stored one after the other in an object without any, and nothing else. -/
theorem exists_newRecord (h : Heap) (properties : List (String × Value)) :
    ∃ o record : Object, (h.newRecord properties).2.object? (h.newRecord properties).1 = some record ∧
      (∀ key, o.own? key = none) ∧
      ∀ key, record.getOwn? key = (properties.foldl (fun o p => o.put p.1 p.2) o).own? key := by
  let o : Object := { id := h.next, cls := .object, proto := h.intrinsic Intrinsic.objectPrototype }
  have ho : h.newPlain.2.object? h.next = some o := (object?_add _ _ _).trans (if_pos rfl)
  have halike : o.Alike (properties.foldl (fun o p => o.put p.1 p.2) o) :=
    Object.alike_foldl (fun o (p : String × Value) => o.alike_put p.1 p.2) properties o
  refine ⟨o, properties.foldl (fun o p => o.put p.1 p.2) o, ?_, fun _ => rfl, fun key => ?_⟩
  · change (h.newPlain.2.modify h.next fun o => properties.foldl (fun o p => o.put p.1 p.2) o).object? h.next = _
    rw [modify, ho, object?_store, if_pos halike.id]
  · rw [Object.getOwn?, halike.cls]

/-- A record finds a property, unless a later one has the same key. -/
theorem getOwn?_newRecord (h : Heap) (before : List (String × Value)) (v : Value) (hafter : ∀ p ∈ after, p.1 ≠ key) :
    ∃ o, (h.newRecord (before ++ (key, v) :: after)).2.object? (h.newRecord (before ++ (key, v) :: after)).1 = some o ∧
      o.getOwn? key = some v := by
  obtain ⟨o, record, hrecord, -, hown⟩ := h.exists_newRecord (before ++ (key, v) :: after)
  refine ⟨record, hrecord, ?_⟩
  rw [hown, List.foldl_append, List.foldl_cons, Object.own?_foldl_put _ hafter, Object.own?_put, if_pos rfl]

/-- It finds no others. -/
theorem getOwn?_newRecord_eq_none (h : Heap) (hother : ∀ p ∈ properties, p.1 ≠ key) :
    ∃ o, (h.newRecord properties).2.object? (h.newRecord properties).1 = some o ∧ o.getOwn? key = none := by
  obtain ⟨o, record, hrecord, hnone, hown⟩ := h.exists_newRecord properties
  exact ⟨record, hrecord, by rw [hown, Object.own?_foldl_put _ hother, hnone]⟩

theorem get_of_getOwn? (ho : h.object? id = some o) (hv : o.getOwn? key = some v) : h.get (.object id) key = .ok v := by
  have hfind : h.find? o key = some v := by
    rw [find?, chainLimit, chain, List.findSome?_cons, hv]
  rw [get, ho]
  simp only [getFrom, hfind, Option.getD_some]

/-- A literal stores a property with a finite number for its name under the key that an access with this number
selects, exactly if the number is not minus zero and its size is below `10 ^ -9`, from `10 ^ -4` to below `10 ^ 6`, or
at least `10 ^ 21`. Then an access to the new object gives the value, unless a later property of the literal has the
same key; otherwise the new object does not have what the access selects, unless another property has that key. -/
theorem get_numericKey {n : Float} {negative : Bool} {m : Nat} {e : Int}
    (hn : Magnitude.decode n = .finite negative m e) (l : Loc) (raw : String) :
    let stored := (PropertyName.number l n raw).key
    let agrees := ¬(m = 0 ∧ negative) ∧ NumberStyle.WritesAlike (m * 2 ^ e)
    (∀ h : Heap, stored = h.toKey (.number n) ↔ agrees) ∧
      ∀ (h h' : Heap) (before after : List (String × Value)) (v : Value),
        let record := h.newRecord (before ++ (stored, v) :: after)
        h'.object? record.1 = record.2.object? record.1 →
        (agrees → (∀ p ∈ after, p.1 ≠ stored) → h'.get (.object record.1) (h'.toKey (.number n)) = .ok v) ∧
        (¬agrees → (∀ p ∈ before ++ after, p.1 ≠ h'.toKey (.number n)) →
          ∃ o, h'.object? record.1 = some o ∧ o.getOwn? (h'.toKey (.number n)) = none) := by
  intro stored agrees
  have hkey (h : Heap) : stored = h.toKey (.number n) ↔ agrees := by
    rw [toKey_number]
    exact NumberStyle.render_compact_eq_script_iff hn
  refine ⟨hkey, ?_⟩
  intro h h' before after v record hkept
  refine ⟨fun hagrees hafter => ?_, fun hdiffers hother => ?_⟩
  · obtain ⟨o, ho, hv⟩ := h.getOwn?_newRecord before v hafter
    rw [← (hkey h').2 hagrees]
    exact get_of_getOwn? (hkept.trans ho) hv
  · have hall : ∀ p ∈ before ++ (stored, v) :: after, p.1 ≠ h'.toKey (.number n) := by
      rw [List.forall_mem_append, List.forall_mem_cons]
      obtain ⟨hbefore, hafter⟩ := List.forall_mem_append.1 hother
      exact ⟨hbefore, mt (hkey h').1 hdiffers, hafter⟩
    obtain ⟨o, ho, hnone⟩ := h.getOwn?_newRecord_eq_none hall
    exact ⟨o, hkept.trans ho, hnone⟩

/-- Both texts of a large number have an exponent. -/
theorem get_numericKey_large :
    let stored := (PropertyName.number default 1e21 "1e21").key
    let record := Library.install.2.newRecord [(stored, .string "x")]
    Magnitude.decode 1e21 = .finite false 7629394531250000 17 ∧
      record.2.get (.object record.1) (record.2.toKey (.number 1e21)) = .ok (.string "x") := by
  have hn : Magnitude.decode 1e21 = .finite false 7629394531250000 17 := rfl
  have hagrees : ¬(7629394531250000 = 0 ∧ false) ∧
      NumberStyle.WritesAlike ((7629394531250000 : Nat) * 2 ^ (17 : Int)) :=
    ⟨by decide, .inr (.inr (by norm_num))⟩
  obtain ⟨-, hget⟩ := get_numericKey hn default "1e21"
  exact ⟨hn, (hget Library.install.2 _ [] [] (.string "x") rfl).1 hagrees (by simp)⟩

end Heap

/-- A million is stored with an exponent and selected without one. -/
theorem Machine.numericKey_missed :
    ∃ (program : Program) (m : Machine) (o : Object),
      let c : Setting Unit := Setting.ofPrograms (Library.read "") program [] Setting.defaultDepth Setting.zeros
      Program.ofSource "var o = {1000000: 1}; var v = o[1000000];" = .ok program ∧ m.Reachable c () ∧
        m.heap.binding? m.global "o" = some (.object 100) ∧ m.heap.object? 100 = some o ∧ o.keys = ["1e+06"] ∧
        o.own? "1e+06" = some (.number 1) ∧ m.heap.toKey (.number 1000000) = "1000000" ∧
        m.heap.binding? m.global "v" = some .undefined := by
  have hrun : (after? (ω := Unit) "var o = {1000000: 1}; var v = o[1000000];" [] 14 ()).any fun x =>
      x.2.1.heap.binding? x.2.1.global "o" = some (.object 100) ∧
        x.2.1.heap.binding? x.2.1.global "v" = some .undefined ∧
        (x.2.1.heap.object? 100).any fun o => o.keys = ["1e+06"] ∧ o.own? "1e+06" = some (.number 1) := by
    decide +kernel
  obtain ⟨⟨program, m, world⟩, hx, hrun⟩ := (Option.any_eq_true _ _).1 hrun
  obtain ⟨hp, hr⟩ := of_after? hx
  obtain ⟨ho, hv, hrun⟩ := of_decide_eq_true hrun
  obtain ⟨o, hobject, hkeys⟩ := (Option.any_eq_true _ _).1 hrun
  obtain ⟨hkeys, hown⟩ := of_decide_eq_true hkeys
  have hkey : m.heap.toKey (.number 1000000) = "1000000" := by
    rw [Heap.toKey_number]
    decide +kernel
  exact ⟨program, m, o, hp, hr, ho, hobject, hkeys, hown, hkey, hv⟩

end Stepwise

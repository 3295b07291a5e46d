import Mathlib.Data.List.DropRight
import Stepwise.Proofs.Heap.WellFormed

/-!
# The lives of a property

A property lives from the operation that inserts it up to its deletion, and can be inserted again after that.

* `sinceDelete`, `sinceInsert`: what a history does after the last deletion of a key, and from its insertion on.
* `Object.keys_edits`: after any operations, an object has the keys that were stored since their last deletion, in the
  order of their insertion. A key is visible unless it was hidden, be it in an earlier life.
-/

namespace Stepwise

/-- An operation on the properties of an object. -/
inductive Edit where
  | put (key : String) (v : Value)
  | hide (key : String) (v : Value)
  | delete (key : String)

namespace Edit

/-- Whether an operation stores a property under a key, hidden or not. -/
def puts (key : String) : Edit → Bool
  | put k _ | hide k _ => k == key
  | delete _ => false

/-- Whether an operation hides a key. -/
def hides (key : String) : Edit → Bool
  | hide k _ => k == key
  | put .. | delete _ => false

/-- Whether an operation deletes a key. -/
def deletes (key : String) : Edit → Bool
  | delete k => k == key
  | put .. | hide .. => false

end Edit

/-- What a history does after the last deletion of a key. -/
def sinceDelete (key : String) (es : List Edit) : List Edit := es.rtakeWhile fun e => !e.deletes key

/-- What a history does from the insertion of a key on; nothing if the key is not there in the end. -/
def sinceInsert (key : String) (es : List Edit) : List Edit := (sinceDelete key es).dropWhile fun e => !e.puts key

namespace Object

/-- An object after an operation on its properties. -/
def edit (o : Object) : Edit → Object
  | .put key v => o.put key v
  | .hide key v => o.putHidden key v
  | .delete key => o.delete key

/-- An object after some operations on its properties. -/
def edits (o : Object) (es : List Edit) : Object := es.foldl edit o

/-- The operations that give an object the properties that it has. -/
def past (o : Object) : List Edit :=
  o.keys.map fun key =>
    let v := (o.own? key).getD .undefined
    if o.isHidden key then .hide key v else .put key v

/-- A key was hidden at some time, but not since its last deletion. -/
def HiddenBefore (o : Object) (es : List Edit) (key : String) : Prop :=
  (o.isHidden key ∨ es.any (·.hides key)) ∧ ¬(sinceDelete key (o.past ++ es)).any (·.hides key)

end Object

variable {o : Object} {es : List Edit} {e : Edit} {key k : String} {v : Value}

/-! ### The keys of a history -/

/-- The keys that are there after an operation. -/
def Edit.keys (keys : List String) : Edit → List String
  | .put key _ | .hide key _ => if key ∈ keys then keys else keys ++ [key]
  | .delete key => keys.erase key

theorem sinceDelete_concat (key : String) (es : List Edit) (e : Edit) :
    sinceDelete key (es ++ [e]) = if e.deletes key then [] else sinceDelete key es ++ [e] := by
  unfold sinceDelete
  rw [List.rtakeWhile_concat]
  cases e.deletes key <;> rfl

theorem sinceInsert_eq_nil : sinceInsert key es = [] ↔ ¬(sinceDelete key es).any (·.puts key) := by
  unfold sinceInsert
  rw [List.dropWhile_eq_nil_iff]
  simp

/-- A key that is inserted stays where it is until it is deleted. -/
theorem sinceInsert_concat (key : String) (es : List Edit) (e : Edit) : sinceInsert key (es ++ [e]) =
    if e.deletes key then [] else if sinceInsert key es ≠ [] then sinceInsert key es ++ [e]
      else if e.puts key then [e] else [] := by
  have hdrop : (sinceDelete key es ++ [e]).dropWhile (fun e => !e.puts key) =
      if ((sinceDelete key es).dropWhile fun e => !e.puts key).isEmpty then [e].dropWhile fun e => !e.puts key
      else ((sinceDelete key es).dropWhile fun e => !e.puts key) ++ [e] := List.dropWhile_append
  unfold sinceInsert
  rw [sinceDelete_concat]
  cases e.deletes key with
  | true => rfl
  | false =>
    rw [if_neg Bool.false_ne_true, if_neg Bool.false_ne_true, hdrop]
    cases (sinceDelete key es).dropWhile fun e => !e.puts key with
    | nil => cases hp : e.puts key <;> simp [hp]
    | cons => rfl

/-- A list of keys in the order of their insertion by a history. -/
structure Inserted (keys : List String) (es : List Edit) : Prop where
  mem : ∀ key, key ∈ keys ↔ sinceInsert key es ≠ []
  order : keys.Pairwise fun first next => (sinceInsert next es).length < (sinceInsert first es).length

namespace Inserted

variable {keys : List String}

theorem nodup (h : Inserted keys es) : keys.Nodup := h.order.imp fun hlt he => by
  subst he
  exact Nat.lt_irrefl _ hlt

/-- An operation that stores a property under `key`. -/
theorem store (h : Inserted keys es) (hd : ∀ k, e.deletes k = false) (hp : ∀ k, e.puts k = (key == k)) :
    Inserted (if key ∈ keys then keys else keys ++ [key]) (es ++ [e]) := by
  have hlist (k : String) : sinceInsert k (es ++ [e]) =
      if k ∈ keys then sinceInsert k es ++ [e] else if key = k then [e] else [] := by
    simp only [sinceInsert_concat, hd, hp, beq_iff_eq, h.mem, Bool.false_eq_true, if_false]
  have hlength {k : String} (hk : k ∈ keys) :
      (sinceInsert k (es ++ [e])).length = (sinceInsert k es).length + 1 := by
    rw [hlist, if_pos hk, List.length_append, List.length_singleton]
  have horder : keys.Pairwise fun first next =>
      (sinceInsert next (es ++ [e])).length < (sinceInsert first (es ++ [e])).length :=
    h.order.imp_of_mem fun ha hb hlt => by
      rw [hlength ha, hlength hb]
      exact Nat.add_lt_add_right hlt 1
  by_cases hkey : key ∈ keys
  · rw [if_pos hkey]
    refine ⟨fun k => ?_, horder⟩
    rw [hlist]
    by_cases hk : k ∈ keys
    · simp [hk]
    · have hne : key ≠ k := fun he => hk (he ▸ hkey)
      simp [hk, hne]
  · rw [if_neg hkey]
    refine ⟨fun k => ?_, List.pairwise_append.2 ⟨horder, List.pairwise_singleton _ _, ?_⟩⟩
    · rw [hlist]
      by_cases hk : k ∈ keys
      · simp [hk]
      · by_cases he : key = k <;> simp [hk, he, eq_comm (a := k)]
    · -- the new key comes last, as the others are older than the operation
      intro first hfirst next hnext
      obtain rfl := List.mem_singleton.1 hnext
      have hold := List.length_pos_iff.2 ((h.mem first).1 hfirst)
      rw [hlength hfirst, hlist, if_neg hkey, if_pos rfl, List.length_singleton]
      omega

theorem delete (h : Inserted keys es) (key : String) : Inserted (keys.erase key) (es ++ [.delete key]) := by
  have hlist (k : String) : sinceInsert k (es ++ [.delete key]) =
      if key = k then [] else if k ∈ keys then sinceInsert k es ++ [.delete key] else [] := by
    simp only [sinceInsert_concat, Edit.deletes, Edit.puts, beq_iff_eq, h.mem, Bool.false_eq_true, if_false]
  have hmem (k : String) : k ∈ keys.erase key ↔ key ≠ k ∧ k ∈ keys := by
    rw [h.nodup.mem_erase_iff, ne_comm]
  refine ⟨fun k => ?_, ((h.order.sublist List.erase_sublist).imp_of_mem fun {a b} ha hb hlt => ?_)⟩
  · rw [hmem, hlist]
    by_cases he : key = k
    · simp [he]
    · by_cases hk : k ∈ keys <;> simp [he, hk]
  · rw [hmem] at ha hb
    rw [hlist, hlist, if_neg ha.1, if_neg hb.1, if_pos ha.2, if_pos hb.2, List.length_append, List.length_append]
    exact Nat.add_lt_add_right hlt 1

/-- One operation keeps the order of insertion. -/
theorem edit (h : Inserted keys es) (e : Edit) : Inserted (e.keys keys) (es ++ [e]) := by
  cases e with
  | put key v => exact h.store (fun _ => rfl) fun _ => rfl
  | hide key v => exact h.store (fun _ => rfl) fun _ => rfl
  | delete key => exact h.delete key

end Inserted

/-- The keys of a whole history. -/
theorem inserted_foldl (es : List Edit) : Inserted (es.foldl Edit.keys []) es := by
  induction es using List.reverseRecOn with
  | nil => exact ⟨fun key => by simp [sinceInsert, sinceDelete], .nil⟩
  | append_singleton es e ih =>
    rw [List.foldl_append]
    exact ih.edit e

/-! ### The keys of an object -/

namespace Object

namespace Listed

theorem edit (ho : o.Listed) (e : Edit) : (o.edit e).Listed ∧ (o.edit e).keys = e.keys o.keys := by
  cases e with
  | put key v => exact ⟨ho.put key v, ho.keys_put key v⟩
  | delete key => exact ⟨ho.delete key, ho.keys_delete key⟩
  | hide key v =>
    unfold Object.edit Object.putHidden
    dsimp only
    split
    · exact ⟨ho.put key v, ho.keys_put key v⟩
    · exact ⟨⟨(ho.put key v).nodup, (ho.put key v).mem_keys⟩, ho.keys_put key v⟩

theorem foldl_keys (ho : o.Listed) (es : List Edit) : (o.edits es).keys = es.foldl Edit.keys o.keys := by
  induction es generalizing o with
  | nil => rfl
  | cons e es ih =>
    obtain ⟨hedit, hkeys⟩ := ho.edit e
    show ((o.edit e).edits es).keys = es.foldl Edit.keys (e.keys o.keys)
    rw [ih hedit, hkeys]

end Listed

/-- The past of an object puts its keys there. -/
theorem foldl_past (hn : o.keys.Nodup) : o.past.foldl Edit.keys [] = o.keys := by
  have hfold (keys before : List String) (hn : (before ++ keys).Nodup) :
      (keys.map fun key => if o.isHidden key then Edit.hide key ((o.own? key).getD .undefined)
        else .put key ((o.own? key).getD .undefined)).foldl Edit.keys before = before ++ keys := by
    induction keys generalizing before with
    | nil => simp
    | cons key keys ih =>
      have hnew : key ∉ before := fun hmem => (List.nodup_append.1 hn).2.2 key hmem key List.mem_cons_self rfl
      have hkeys : (if o.isHidden key then Edit.hide key ((o.own? key).getD .undefined)
          else .put key ((o.own? key).getD .undefined)).keys before = before ++ [key] := by
        split <;> exact if_neg hnew
      rw [List.append_cons] at hn ⊢
      rw [List.map_cons, List.foldl_cons, hkeys, ih _ hn]
  exact hfold o.keys [] hn

theorem isHidden_edit (o : Object) (e : Edit) (key : String) :
    (o.edit e).isHidden key = (o.isHidden key || e.hides key) := by
  cases e with
  | put k v => exact (Bool.or_false _).symm
  | delete k =>
    have hdelete : (o.delete k).isHidden key = o.isHidden key := by
      unfold delete
      split <;> rfl
    exact hdelete.trans (Bool.or_false _).symm
  | hide k v =>
    have hput (k' : String) : (o.put k v).isHidden k' = o.isHidden k' := rfl
    unfold edit putHidden Edit.hides
    simp only [hput]
    by_cases hk : k = key
    · subst hk
      cases hh : o.isHidden k with
      | true => simp [hput, hh]
      | false => simp [isHidden]
    · have hkey : (k == key) = false := beq_eq_false_iff_ne.2 hk
      rw [hkey, Bool.or_false]
      split
      · exact hput key
      · simp [isHidden, put, Ne.symm hk]

/-- Hidden keys stay hidden. -/
theorem isHidden_edits (o : Object) (es : List Edit) (key : String) :
    (o.edits es).isHidden key = (o.isHidden key || es.any (·.hides key)) := by
  induction es generalizing o with
  | nil => simp [edits]
  | cons e es ih =>
    show ((o.edit e).edits es).isHidden key = _
    rw [ih, isHidden_edit, List.any_cons, Bool.or_assoc]

theorem isHidden_of_any_past (hp : o.past.any (·.hides key)) : o.isHidden key := by
  unfold past at hp
  rw [List.any_map] at hp
  obtain ⟨k, -, hk⟩ := List.any_eq_true.1 hp
  dsimp only [Function.comp] at hk
  split at hk
  · next hh => exact eq_of_beq hk ▸ hh
  · cases hk

/-- Whatever operations follow, an object has the keys that were stored since their last deletion, each once and in the
order of their insertion; what it had before counts as stored first. A key that is there is visible if it was not
hidden since its last deletion, unless it was hidden before that: then it has stayed hidden. -/
theorem keys_edits (ho : o.Listed) (es : List Edit) :
    let history := o.past ++ es
    let o' := o.edits es
    o'.keys.Nodup ∧
      o'.keys.Pairwise (fun first next => (sinceInsert next history).length < (sinceInsert first history).length) ∧
      ∀ key, (key ∈ o'.keys ↔ (sinceDelete key history).any (·.puts key)) ∧
        (key ∈ o'.keys →
          (¬o.HiddenBefore es key → (key ∈ o'.visibleKeys ↔ ¬(sinceDelete key history).any (·.hides key))) ∧
          (o.HiddenBefore es key → key ∉ o'.visibleKeys)) := by
  intro history o'
  have hkeys : o'.keys = history.foldl Edit.keys [] := by
    rw [List.foldl_append, foldl_past ho.nodup, ho.foldl_keys]
  have hinserted : Inserted o'.keys history := hkeys ▸ inserted_foldl history
  refine ⟨hinserted.nodup, hinserted.order, fun key => ⟨?_, fun hkey => ?_⟩⟩
  · rw [hinserted.mem, ne_eq, sinceInsert_eq_nil, not_not]
  · have hvisible : key ∈ o'.visibleKeys ↔ ¬(o.isHidden key ∨ es.any (·.hides key)) := by
      unfold visibleKeys
      rw [List.mem_filter, isHidden_edits, Bool.not_eq_true', ← Bool.not_eq_true, Bool.or_eq_true]
      exact and_iff_right hkey
    have hever (hlife : (sinceDelete key history).any (·.hides key)) : o.isHidden key ∨ es.any (·.hides key) := by
      obtain ⟨e, he, hh⟩ := List.any_eq_true.1 hlife
      rcases List.mem_append.1 ((List.rtakeWhile_suffix _ _).mem he) with he | he
      · exact .inl (isHidden_of_any_past (List.any_eq_true.2 ⟨e, he, hh⟩))
      · exact .inr (List.any_eq_true.2 ⟨e, he, hh⟩)
    rw [hvisible]
    refine ⟨fun hbefore => ⟨mt hever, fun hlife hh => hbefore ⟨hh, hlife⟩⟩, fun hbefore hnever => hnever hbefore.1⟩

/-- A key is deleted and stored again, and another one is stored between. -/
theorem keys_edits_again :
    let o : Object := Object.put { id := 1 } "a" .null
    let es : List Edit := [.hide "b" .null, .delete "a", .put "b" .undefined, .put "a" .undefined]
    o.Listed ∧ (o.edits es).keys = ["b", "a"] ∧ "a" ∈ (o.edits es).visibleKeys ∧ "b" ∉ (o.edits es).visibleKeys := by
  intro o es
  have ho : o.Listed := Listed.put ⟨List.nodup_nil, fun key => by simp [own?]⟩ "a" .null
  obtain ⟨-, -, hall⟩ := keys_edits ho es
  have hkeys : (o.edits es).keys = ["b", "a"] := by decide
  have ha := (hall "a").2 (by rw [hkeys]; decide)
  have hb := (hall "b").2 (by rw [hkeys]; decide)
  refine ⟨ho, hkeys, (ha.1 ?_).2 (by decide), fun hvisible => (hb.1 ?_).1 hvisible (by decide)⟩
  · rintro ⟨hh, -⟩
    revert hh
    decide
  · rintro ⟨-, hh⟩
    revert hh
    decide

/-- A key that was hidden, deleted and stored again is not visible. -/
theorem hidden_again :
    let o : Object := { id := 1 }
    let es : List Edit := [.hide "a" .null, .delete "a", .put "a" .null]
    "a" ∈ (o.edits es).keys ∧ ¬(sinceDelete "a" (o.past ++ es)).any (·.hides "a") ∧
      "a" ∉ (o.edits es).visibleKeys := by
  decide

end Object

end Stepwise

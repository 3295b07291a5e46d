import Mathlib
import Stepwise.Library.Text
import Stepwise.Proofs.Machine.Convert

/-!
# Joined arrays

The conversion of an array to a text joins the texts of its elements, and takes an array inside itself for empty. The
method `join` does the same, but converts each element on its own, so that it does not notice its receiver inside them.
It also puts together what `split` takes apart.

* `Heap.textIn_eq`: one more array around makes no difference to a text if the array is empty wherever it is met.
* `Heap.length_textIn_lt`: it makes the text shorter if the array has two elements and is met.
* `Machine.join_eq_toText_iff`: so `join` gives the text of an array unless the array is inside itself and has two
  elements.
* `intercalate_splitText`: the pieces of a text with the separator between them are the text.
* `Library.join_split`: so `join` gives back the text that `split` took apart at the same separator.
-/

namespace Stepwise

variable {α β ω : Type}

theorem map_getD_of_mapM {f : α → Option β} {l : List α} {bs : List β} (b : β) (h : l.mapM f = some bs) :
    l.map (fun a => (f a).getD b) = bs := by
  induction l generalizing bs with
  | nil => exact Option.some.inj h
  | cons a l ih =>
    rw [List.mapM_cons] at h
    obtain ⟨c, hc, h⟩ := Option.bind_eq_some_iff.1 h
    obtain ⟨cs, hcs, h⟩ := Option.bind_eq_some_iff.1 h
    rw [List.map_cons, hc, ih hcs]
    exact Option.some.inj h

theorem length_intercalate_comma (parts : List String) :
    (String.intercalate "," parts).length = (parts.map String.length).sum + (parts.length - 1) := by
  induction parts with
  | nil => rfl
  | cons s parts ih =>
    cases parts with
    | nil => simp
    | cons t parts =>
      rw [String.intercalate_cons_cons, String.length_append, String.length_append, ih]
      simp only [List.map_cons, List.sum_cons, List.length_cons]
      have hcomma : (",").length = 1 := rfl
      omega

namespace Heap

variable {h : Heap} {v w : Value} {o : Object} {id : ObjectId} {depth : Nat} {seen seen' : List ObjectId}

/-! ### Texts inside arrays -/

/-- The text of a value inside some arrays; empty if more than `depth` conversions are inside each other. -/
def textIn (h : Heap) (depth : Nat) (seen : List ObjectId) (v : Value) : String :=
  ((h.primitive? depth seen v).getD (.string "")).text

/-- The text that an element of an array adds. -/
def elementText (h : Heap) (depth : Nat) (seen : List ObjectId) (v : Value) : String :=
  if v.isNullish then "" else h.textIn depth seen v

/-- The elements of an array with commas between them. -/
def joined (h : Heap) (depth : Nat) (seen : List ObjectId) (o : Object) : String :=
  String.intercalate "," (o.elems.toList.map (h.elementText depth seen))

/-- The object with an id is an array. -/
structure IsArray (h : Heap) (id : ObjectId) (o : Object) : Prop where
  deref : h.deref? (.object id) = some o
  id_eq : o.id = id
  primitive : o.primitive = none
  cls : o.cls = .array

theorem WellFormed.isArray (hw : h.WellFormed) (ho : h.object? id = some o) (hc : o.cls = .array) : h.IsArray id o := by
  have hwraps := (hw.sound ho).primitive
  rw [hc] at hwraps
  refine ⟨ho, (hw.toFiled.object ho).1, ?_, hc⟩
  cases hp : o.primitive with
  | none => rfl
  | some p =>
    rw [hp] at hwraps
    exact absurd hwraps (by simp [Class.wraps])

theorem IsArray.mem_conversionParts (ha : h.IsArray id o) :
    w ∈ h.conversionParts o ↔ w ∈ o.elems.toList ∧ w.isNullish = false := by
  simp [conversionParts, ha.primitive, ha.cls]

theorem IsArray.converts (ha : h.IsArray id o) (hw : w ∈ o.elems.toList) (hn : w.isNullish = false) :
    h.Converts (.object id) w :=
  ⟨o, ha.deref, ha.mem_conversionParts.2 ⟨hw, hn⟩⟩

theorem IsArray.mem_of_converts (ha : h.IsArray id o) (hc : h.Converts (.object id) w) :
    w ∈ o.elems.toList ∧ w.isNullish = false := by
  obtain ⟨o', ho', hw⟩ := hc
  cases ha.deref.symm.trans ho'
  exact ha.mem_conversionParts.1 hw

theorem length_elementText_le (hle : v.isNullish = false →
      (h.textIn depth seen' v).length ≤ (h.textIn depth seen v).length) :
    (h.elementText depth seen' v).length ≤ (h.elementText depth seen v).length := by
  unfold elementText
  cases hn : v.isNullish with
  | true => exact le_rfl
  | false => exact hle hn

theorem length_joined (depth : Nat) (seen : List ObjectId) (o : Object) : (h.joined depth seen o).length =
    (o.elems.toList.map fun w => (h.elementText depth seen w).length).sum + (o.elems.size - 1) := by
  rw [joined, length_intercalate_comma, List.map_map, List.length_map, Array.length_toList]
  rfl

theorem length_joined_le (hle : ∀ w ∈ o.elems.toList, w.isNullish = false →
      (h.textIn depth seen' w).length ≤ (h.textIn depth seen w).length) :
    (h.joined depth seen' o).length ≤ (h.joined depth seen o).length := by
  rw [length_joined, length_joined]
  exact Nat.add_le_add_right (List.sum_le_sum fun w hw => length_elementText_le (hle w hw)) _

theorem length_joined_lt (hle : ∀ w ∈ o.elems.toList, w.isNullish = false →
      (h.textIn depth seen' w).length ≤ (h.textIn depth seen w).length) (hv : v ∈ o.elems.toList)
    (hn : v.isNullish = false) (hlt : (h.textIn depth seen' v).length < (h.textIn depth seen v).length) :
    (h.joined depth seen' o).length < (h.joined depth seen o).length := by
  rw [length_joined, length_joined]
  refine Nat.add_lt_add_right (List.sum_lt_sum _ _ (fun w hw => length_elementText_le (hle w hw)) ⟨v, hv, ?_⟩) _
  rwa [elementText, elementText, if_neg (by simp [hn]), if_neg (by simp [hn])]

/-! ### Conversions of arrays -/

/-- An array inside itself is empty. -/
theorem IsArray.textIn_of_mem (ha : h.IsArray id o) (hs : id ∈ seen) : h.textIn depth seen (.object id) = "" := by
  cases depth with
  | zero => rfl
  | succ depth => simp [textIn, primitive?, ha.deref, ha.primitive, ha.cls, ha.id_eq, hs, Value.text]

/-- Any other array is joined if its elements can be converted. -/
theorem IsArray.textIn_of_notMem (ha : h.IsArray id o) (hs : id ∉ seen)
    (hends : (h.primitive? (depth + 1) seen (.object id)).isSome) :
    h.textIn (depth + 1) seen (.object id) = h.joined depth (id :: seen) o ∧
      ∀ w ∈ o.elems.toList, w.isNullish = false → (h.primitive? depth (id :: seen) w).isSome := by
  constructor
  · obtain ⟨p, hprimitive⟩ := Option.isSome_iff_exists.1 hends
    rw [textIn, hprimitive]
    rw [primitive?] at hprimitive
    simp only [ha.deref, ha.primitive, ha.cls, ha.id_eq, List.contains_iff_mem, if_neg hs] at hprimitive
    obtain ⟨parts, hparts, hjoin⟩ := Option.bind_eq_some_iff.1 hprimitive
    cases hjoin
    change String.intercalate "," parts = _
    rw [joined, ← map_getD_of_mapM "" hparts]
    refine congrArg (String.intercalate ",") (List.map_congr_left fun w _ => ?_)
    unfold elementText textIn
    split
    · rfl
    · cases h.primitive? depth (id :: seen) w <;> rfl
  · have hparts := isSome_primitive?_succ.1 hends o ha.deref (fun _ => by rwa [ha.id_eq])
    intro w hw hn
    have hpart := hparts w (ha.mem_conversionParts.2 ⟨hw, hn⟩)
    rwa [noticed, if_pos ha.cls, ha.id_eq] at hpart

/-- Only the conversion of an array looks at the arrays around. -/
theorem isArray_or_primitive?_eq (hf : h.Filed) (v : Value) : (∃ id o, v = .object id ∧ h.IsArray id o) ∨
    ∀ depth seen seen', h.primitive? depth seen v = h.primitive? depth seen' v := by
  cases hd : h.deref? v with
  | none =>
    right
    rintro (- | depth) seen seen'
    · rfl
    · rw [primitive?, primitive?, hd]
  | some o =>
    obtain ⟨id, rfl, ho⟩ := exists_of_deref? hd
    by_cases ha : o.primitive = none ∧ o.cls = .array
    · exact .inl ⟨id, o, rfl, hd, (hf.object ho).1, ha.1, ha.2⟩
    · right
      rintro (- | depth) seen seen'
      · rfl
      · rw [primitive?, primitive?, hd]
        cases hp : o.primitive with
        | some p => simp only [hp]
        | none =>
          cases hc : o.cls with
          | array => exact absurd ⟨hp, hc⟩ ha
          | _ => simp only [hp, hc]

/-- Nothing but arrays is between an array and itself, if the conversion ends. -/
theorem isArray_of_reaches (hf : h.Filed) (ha : h.IsArray id o) (hfree : ¬h.Entangled (.object id))
    (hback : Relation.ReflTransGen h.Converts (.object id) v) (hr : h.Reaches seen v (.object id)) :
    ∃ i o', v = .object i ∧ h.IsArray i o' := by
  rcases hr.cases_head with rfl | ⟨x, ⟨⟨o', ho', hx⟩, -⟩, hr⟩
  · exact ⟨id, o, rfl, ha⟩
  · have hreaches : h.Reaches seen x (.object id) := hr
    have hx' : Relation.ReflTransGen h.Converts x (.object id) :=
      reaches_nil.1 (hreaches.of_subset (List.nil_subset _))
    have hself : Relation.TransGen h.Converts v v := .head' ⟨o', ho', hx⟩ (hx'.trans hback)
    obtain ⟨i, rfl, hi⟩ := exists_of_deref? ho'
    unfold conversionParts at hx
    split at hx
    · exact ⟨i, o', rfl, ho', (hf.object hi).1, ‹_›, ‹_›⟩
    · exact absurd ⟨_, hback, ⟨o', ho', ‹_›, ‹_›⟩, hself⟩ hfree
    · cases hx

/-! ### One more array around -/

theorem mem_cons_iff_of_mem_iff (hseen : ∀ i, i ∈ seen' ↔ i = id ∨ i ∈ seen) (i j : ObjectId) :
    j ∈ i :: seen' ↔ j = id ∨ j ∈ i :: seen := by
  rw [List.mem_cons, List.mem_cons, hseen]
  exact or_left_comm

/-- One more array around makes no difference if the array is empty wherever the conversion comes to it. -/
theorem textIn_eq (hf : h.Filed) (hseen : ∀ i, i ∈ seen' ↔ i = id ∨ i ∈ seen)
    (hempty : Relation.ReflTransGen h.Converts v (.object id) → ∀ depth more, seen ⊆ more →
      (∀ i, v = .object i → i ∈ more ∨ i = id) → h.textIn depth more (.object id) = "")
    (hends : (h.primitive? depth seen v).isSome) (hends' : (h.primitive? depth seen' v).isSome) :
    h.textIn depth seen' v = h.textIn depth seen v := by
  induction depth generalizing seen seen' v with
  | zero => rfl
  | succ depth ih =>
    obtain ⟨i, o, rfl, ha⟩ | heq := isArray_or_primitive?_eq hf v
    · by_cases hi : i = id
      · subst hi
        rw [ha.textIn_of_mem ((hseen i).2 (.inl rfl))]
        exact (hempty .refl _ _ (List.Subset.refl _) fun j hj => .inr (by cases hj; rfl)).symm
      · by_cases hs : i ∈ seen
        · rw [ha.textIn_of_mem hs, ha.textIn_of_mem ((hseen i).2 (.inr hs))]
        · have hs' : i ∉ seen' := fun hs' => ((hseen i).1 hs').elim hi hs
          obtain ⟨htext, hparts⟩ := ha.textIn_of_notMem hs hends
          obtain ⟨htext', hparts'⟩ := ha.textIn_of_notMem hs' hends'
          rw [htext, htext', joined, joined]
          refine congrArg _ (List.map_congr_left fun w hw => ?_)
          unfold elementText
          cases hn : w.isNullish with
          | true => rfl
          | false =>
            refine ih (mem_cons_iff_of_mem_iff hseen i) (fun hr d more hsub _ => ?_) (hparts w hw hn) (hparts' w hw hn)
            obtain ⟨hmem, hsub⟩ := List.cons_subset.1 hsub
            exact hempty (hr.head (ha.converts hw hn)) d more hsub fun j hj => .inl (by cases hj; exact hmem)
    · rw [textIn, textIn, heq]

/-- One more array around makes no text longer. -/
theorem length_textIn_le (hf : h.Filed) (hseen : ∀ i, i ∈ seen' ↔ i = id ∨ i ∈ seen)
    (hends : (h.primitive? depth seen v).isSome) (hends' : (h.primitive? depth seen' v).isSome) :
    (h.textIn depth seen' v).length ≤ (h.textIn depth seen v).length := by
  induction depth generalizing seen seen' v with
  | zero => exact le_rfl
  | succ depth ih =>
    obtain ⟨i, o, rfl, ha⟩ | heq := isArray_or_primitive?_eq hf v
    · by_cases hs' : i ∈ seen'
      · rw [ha.textIn_of_mem hs']
        exact Nat.zero_le _
      · have hs : i ∉ seen := fun hs => hs' ((hseen i).2 (.inr hs))
        obtain ⟨htext, hparts⟩ := ha.textIn_of_notMem hs hends
        obtain ⟨htext', hparts'⟩ := ha.textIn_of_notMem hs' hends'
        rw [htext, htext']
        exact length_joined_le fun w hw hn =>
          ih (mem_cons_iff_of_mem_iff hseen i) (hparts w hw hn) (hparts' w hw hn)
    · rw [textIn, textIn, heq]

/-- One more array around makes a text shorter that comes to it, if it has two elements. -/
theorem length_textIn_lt (hf : h.Filed) (ha : h.IsArray id o) (hsize : 2 ≤ o.elems.size)
    (hfree : ¬h.Entangled (.object id)) (hseen : ∀ i, i ∈ seen' ↔ i = id ∨ i ∈ seen)
    (hback : Relation.ReflTransGen h.Converts (.object id) v) (hr : h.Reaches seen v (.object id))
    (hv : ∀ i ∈ seen, v ≠ .object i)
    (hends : (h.primitive? depth seen v).isSome) (hends' : (h.primitive? depth seen' v).isSome) :
    (h.textIn depth seen' v).length < (h.textIn depth seen v).length := by
  induction depth generalizing seen seen' v with
  | zero => cases hends
  | succ depth ih =>
    obtain ⟨i, o', rfl, ha'⟩ := isArray_of_reaches hf ha hfree hback hr
    have hs : i ∉ seen := fun hs => hv i hs rfl
    obtain ⟨htext, hparts⟩ := ha'.textIn_of_notMem hs hends
    by_cases hi : i = id
    · subst hi
      rw [ha.textIn_of_mem ((hseen i).2 (.inl rfl)), htext, length_joined]
      cases ha.deref.symm.trans ha'.deref
      simp only [String.length_empty]
      omega
    · have hs' : i ∉ seen' := fun hs' => ((hseen i).1 hs').elim hi hs
      obtain ⟨htext', hparts'⟩ := ha'.textIn_of_notMem hs' hends'
      obtain ⟨x, hx, hxs, hr⟩ := hr.exists_next (by simpa using Ne.symm hi)
      obtain ⟨hmem, hn⟩ := ha'.mem_of_converts hx
      have hseen := mem_cons_iff_of_mem_iff hseen i
      rw [htext, htext']
      exact length_joined_lt (fun w hw hn => length_textIn_le hf hseen (hparts w hw hn) (hparts' w hw hn)) hmem hn
        (ih hseen (hback.tail hx) hr hxs (hparts x hmem hn) (hparts' x hmem hn))

/-! ### The text of an array -/

theorem textIn_eq_toText (hf : h.Filed) (hv : ¬h.Entangled v) (hd : h.conversionDepth ≤ depth) :
    h.textIn depth [] v = h.toText v := by
  rw [textIn, primitive?_of_not_entangled hf hv hd]
  rfl

/-- The text of an array, if its conversion ends, and how its elements are converted. -/
theorem IsArray.toText (hf : h.Filed) (ha : h.IsArray id o) (hfree : ¬h.Entangled (.object id)) :
    h.toText (.object id) = h.joined h.conversionDepth [id] o ∧
      ∀ w ∈ o.elems.toList, w.isNullish = false →
        ¬h.Entangled w ∧ (h.primitive? h.conversionDepth [] w).isSome ∧
          (h.primitive? h.conversionDepth [id] w).isSome := by
  have hends := primitive?_of_not_entangled hf hfree (Nat.le_succ h.conversionDepth)
  obtain ⟨htext, hparts⟩ := ha.textIn_of_notMem List.not_mem_nil (Option.isSome_of_eq_some hends)
  refine ⟨by rw [← textIn_eq_toText hf hfree (Nat.le_succ _), htext], fun w hw hn => ?_⟩
  have hw' : ¬h.Entangled w := fun he => hfree (he.of_converts (ha.converts hw hn))
  refine ⟨hw', ?_, hparts w hw hn⟩
  rw [primitive?_of_not_entangled hf hw' le_rfl]
  rfl

theorem mem_singleton_iff_or (i : ObjectId) : i ∈ [id] ↔ i = id ∨ i ∈ ([] : List ObjectId) := by simp

/-- An array with one element is empty wherever its conversion comes back to it. -/
theorem IsArray.textIn_eq_of_size_le (hf : h.Filed) (ha : h.IsArray id o) (hfree : ¬h.Entangled (.object id))
    (hsize : o.elems.size ≤ 1) (hv : v ∈ o.elems.toList) (hn : v.isNullish = false)
    (hr : Relation.ReflTransGen h.Converts v (.object id)) {more : List ObjectId}
    (hmore : ∀ i, v = .object i → i ∈ more ∨ i = id) : h.textIn depth more (.object id) = "" := by
  obtain ⟨i, o', rfl, ha'⟩ := isArray_of_reaches hf ha hfree (.single (ha.converts hv hn)) (reaches_nil.2 hr)
  by_cases hs : id ∈ more
  · exact ha.textIn_of_mem hs
  have hi : i ∈ id :: more := List.mem_cons.2 (hmore i rfl).symm
  rcases depth with - | depth
  · rfl
  · by_cases hends : (h.primitive? (depth + 1) more (.object id)).isSome
    · rw [(ha.textIn_of_notMem hs hends).1, joined]
      have hsingle : o.elems.toList = [.object i] := by
        obtain ⟨w, hw⟩ := List.length_eq_one_iff.1 (le_antisymm hsize (List.length_pos_of_mem hv))
        rw [hw, List.mem_singleton] at hv
        rw [hw, hv]
      rw [hsingle, List.map_singleton, String.intercalate_singleton, elementText, if_neg (by simp [hn]),
        ha'.textIn_of_mem hi]
    · rw [Option.not_isSome_iff_eq_none] at hends
      rw [textIn, hends]
      rfl

/-- Whether an array has the same text if its elements are converted on their own. -/
theorem IsArray.joined_eq_toText_iff (hf : h.Filed) (ha : h.IsArray id o) (hfree : ¬h.Entangled (.object id)) :
    h.joined h.conversionDepth [] o = h.toText (.object id) ↔
      o.elems.size ≤ 1 ∨ ¬Relation.TransGen h.Converts (.object id) (.object id) := by
  obtain ⟨htext, hparts⟩ := ha.toText hf hfree
  rw [htext]
  constructor
  · intro heq
    by_contra hnot
    obtain ⟨hsize, hself⟩ := not_or.1 hnot
    obtain ⟨x, hx, hr⟩ := Relation.TransGen.head'_iff.1 (not_not.1 hself)
    obtain ⟨hmem, hn⟩ := ha.mem_of_converts hx
    have hlt : (h.joined h.conversionDepth [id] o).length < (h.joined h.conversionDepth [] o).length := by
      refine length_joined_lt (fun w hw hn => ?_) hmem hn ?_
      · exact length_textIn_le hf mem_singleton_iff_or (hparts w hw hn).2.1 (hparts w hw hn).2.2
      · exact length_textIn_lt hf ha (by omega) hfree mem_singleton_iff_or (.single hx) (reaches_nil.2 hr) (by simp)
          (hparts x hmem hn).2.1 (hparts x hmem hn).2.2
    rw [heq] at hlt
    exact lt_irrefl _ hlt
  · intro hcase
    refine congrArg (String.intercalate ",") (List.map_congr_left fun w hw => ?_)
    unfold elementText
    cases hn : w.isNullish with
    | true => rfl
    | false =>
      obtain ⟨-, hends, hends'⟩ := hparts w hw hn
      refine (textIn_eq hf mem_singleton_iff_or (fun hr _ more _ hmore => ?_) hends hends').symm
      rcases hcase with hsize | hself
      · exact ha.textIn_eq_of_size_le hf hfree hsize hw hn hr hmore
      · exact absurd (.head' (ha.converts hw hn) hr) hself

end Heap

namespace Library

variable {h : Heap} {o : Object} {call : NativeCall}

/-- The texts of the elements are joined, with commas if no separator is asked for. -/
theorem arrayJoin_run (ho : h.deref? call.this = some o) (hc : o.cls.hasElements) :
    arrayJoin call h =
      .ok (.value (.string (String.intercalate (if (call.arg 0).isUndefined then "," else h.toText (call.arg 0))
        (o.elems.toList.map (h.elementText h.conversionDepth [])))), h) := by
  have hthis : thisArray call "join" h = .ok (o, h) := by
    simp only [thisArray, bind, StateT.bind, get, getThe, MonadStateOf.get, StateT.get, pure, Except.pure, Except.bind,
      ho, hc, if_true]
    rfl
  simp only [arrayJoin, bind, StateT.bind, Except.bind, hthis, get, getThe, MonadStateOf.get, StateT.get, pure,
    Except.pure]
  rfl

theorem arrayJoin_eq (ho : h.deref? call.this = some o) (hc : o.cls.hasElements) (harg : (call.arg 0).isUndefined) :
    arrayJoin call h = .ok (.value (.string (h.joined h.conversionDepth [] o)), h) := by
  rw [arrayJoin_run ho hc, if_pos harg]
  rfl

end Library

namespace Machine

variable {c : Setting ω} {m : Machine} {id : ObjectId} {o : Object} {call : NativeCall}

/-- In every heap that a program reaches, `join` without a separator converts the elements of an array, each of which
ends if the conversion of the array does. What it answers is the text of the array, unless the array is inside itself
and has more than one element: then it is another one. -/
theorem join_eq_toText_iff {world : ω} (hh : ∀ f ∈ c.host, f.Sound) (hr : m.Reachable c world)
    (ho : m.heap.object? id = some o) (hcls : o.cls = .array) (hends : ∃ p, m.heap.ConvertsTo (.object id) p)
    (hthis : call.this = .object id) (harg : (call.arg 0).isUndefined) :
    ∃ s, Library.arrayJoin call m.heap = .ok (.value (.string s), m.heap) ∧
      (∀ w ∈ o.elems, w.isNullish = false → ∃ p, m.heap.ConvertsTo w p) ∧
      (s = m.heap.toText (.object id) ↔
        o.elems.size ≤ 1 ∨ ¬Relation.TransGen m.heap.Converts (.object id) (.object id)) := by
  have hw := (hr.wellFormed hh).heap
  have ha := hw.isArray ho hcls
  obtain ⟨p, hp⟩ := hends
  have hfree := hp.not_entangled hw.toFiled
  refine ⟨m.heap.joined m.heap.conversionDepth [] o, ?_, fun w hmem hn => ?_,
    ha.joined_eq_toText_iff hw.toFiled hfree⟩
  · exact Library.arrayJoin_eq (hthis ▸ ho) (by rw [hcls]; rfl) harg
  · obtain ⟨-, hsome, -⟩ := (ha.toText hw.toFiled hfree).2 w (Array.mem_toList_iff.2 hmem) hn
    obtain ⟨q, hq⟩ := Option.isSome_iff_exists.1 hsome
    exact ⟨q, _, hq⟩

/-- Two arrays that are inside themselves, one with another element and one without. -/
theorem exists_cyclic :
    ∃ (program : Program) (m : Machine) (a b : Object),
      let c : Setting Unit := Setting.ofPrograms (Library.read "") program [] Setting.defaultDepth Setting.zeros
      Program.ofSource "var a = ['x']; a[1] = a; var b = []; b[0] = b;" = .ok program ∧ m.Reachable c () ∧
        m.heap.object? 100 = some a ∧ m.heap.object? 101 = some b ∧
        (a.cls = .array ∧ a.elems = #[.string "x", .object 100] ∧
          m.heap.primitive? 2 [] (.object 100) = some (.string "x,")) ∧
        b.cls = .array ∧ b.elems.size = 1 ∧ m.heap.primitive? 2 [] (.object 101) = some (.string "") := by
  have hrun : (after? (ω := Unit) "var a = ['x']; a[1] = a; var b = []; b[0] = b;" [] 33 ()).any fun x =>
      (x.2.1.heap.object? 100).any fun a => (x.2.1.heap.object? 101).any fun b =>
        (a.cls = .array ∧ a.elems = #[.string "x", .object 100] ∧
          x.2.1.heap.primitive? 2 [] (.object 100) = some (.string "x,")) ∧
        b.cls = .array ∧ b.elems.size = 1 ∧ x.2.1.heap.primitive? 2 [] (.object 101) = some (.string "") := by
    decide +kernel
  obtain ⟨⟨program, m, world⟩, hx, hrun⟩ := (Option.any_eq_true _ _).1 hrun
  obtain ⟨hp, hr⟩ := of_after? hx
  obtain ⟨a, ha, hrun⟩ := (Option.any_eq_true _ _).1 hrun
  obtain ⟨b, hb, hrun⟩ := (Option.any_eq_true _ _).1 hrun
  exact ⟨program, m, a, b, hp, hr, ha, hb, of_decide_eq_true hrun⟩

/-- The array that has only itself is joined to its text. -/
theorem join_eq_toText_iff_alone :
    ∃ (program : Program) (m : Machine),
      let c : Setting Unit := Setting.ofPrograms (Library.read "") program [] Setting.defaultDepth Setting.zeros
      Program.ofSource "var a = ['x']; a[1] = a; var b = []; b[0] = b;" = .ok program ∧ m.Reachable c () ∧
        m.heap.ConvertsTo (.object 101) (.string "") ∧
        ∃ s, Library.arrayJoin { this := .object 101, args := [] } m.heap = .ok (.value (.string s), m.heap) ∧
          s = m.heap.toText (.object 101) := by
  obtain ⟨program, m, -, b, hp, hr, -, hb, -, hcls, hsize, hprimitive⟩ := exists_cyclic
  have hends : m.heap.ConvertsTo (.object 101) (.string "") := ⟨2, hprimitive⟩
  let call : NativeCall := { this := .object 101, args := [] }
  have hthis : call.this = .object 101 := rfl
  have harg : (call.arg 0).isUndefined := rfl
  obtain ⟨s, hjoin, -, heq⟩ :=
    join_eq_toText_iff (fun f hf => absurd hf List.not_mem_nil) hr hb hcls ⟨_, hends⟩ hthis harg
  exact ⟨program, m, hp, hr, hends, s, hjoin, heq.2 (.inl hsize.le)⟩

/-- The other one is joined to a longer text: it comes up twice, and only the inner one is taken for empty. -/
theorem join_longer :
    ∃ (program : Program) (m : Machine),
      let c : Setting Unit := Setting.ofPrograms (Library.read "") program [] Setting.defaultDepth Setting.zeros
      Program.ofSource "var a = ['x']; a[1] = a; var b = []; b[0] = b;" = .ok program ∧ m.Reachable c () ∧
        (∃ a, m.heap.object? 100 = some a ∧ a.cls = .array) ∧
        m.heap.ConvertsTo (.object 100) (.string "x,") ∧ m.heap.toText (.object 100) = "x," ∧
        Library.arrayJoin { this := .object 100, args := [] } m.heap = .ok (.value (.string "x,x,"), m.heap) := by
  obtain ⟨program, m, a, -, hp, hr, ha, -, ⟨hcls, helems, hprimitive⟩, -⟩ := exists_cyclic
  have hw := (hr.wellFormed fun f hf => absurd hf List.not_mem_nil).heap
  have hends : m.heap.ConvertsTo (.object 100) (.string "x,") := ⟨2, hprimitive⟩
  have htext : m.heap.toText (.object 100) = "x," := congrArg Value.text (hends.toPrimitive_eq hw.toFiled)
  have hx : m.heap.toText (.string "x") = "x" :=
    congrArg Value.text ((Heap.convertsTo_self rfl).toPrimitive_eq hw.toFiled)
  refine ⟨program, m, hp, hr, ⟨a, ha, hcls⟩, hends, htext, ?_⟩
  have hjoined : m.heap.joined m.heap.conversionDepth [] a = String.intercalate "," ["x", "x,"] := by
    rw [← hx, ← htext, Heap.joined, helems, hx]
    rfl
  let call : NativeCall := { this := .object 100, args := [] }
  have hthis : m.heap.deref? call.this = some a := ha
  have harg : (call.arg 0).isUndefined := rfl
  have hanswer := Library.arrayJoin_eq hthis (by rw [hcls]; rfl) harg
  rw [hjoined] at hanswer
  exact hanswer

end Machine

/-! ### Pieces of a text -/

theorem splitFrom_ne_nil (separator : List Char) (skip : Nat) (piece cs : List Char) :
    splitFrom separator skip piece cs ≠ [] := by
  fun_induction splitFrom separator skip piece cs with
  | case1 => exact List.cons_ne_nil _ _
  | case2 piece c cs skip ih => exact ih
  | case3 => exact List.cons_ne_nil _ _
  | case4 piece c cs h ih => exact ih

/-- The pieces with the separator between them are what was read since the last separator, and what is still to be
read without the rest of that separator. -/
theorem intercalate_splitFrom {separator : List Char} (hne : separator ≠ []) (skip : Nat) (piece cs : List Char) :
    separator.intercalate (splitFrom separator skip piece cs) = piece.reverse ++ cs.drop skip := by
  fun_induction splitFrom separator skip piece cs with
  | case1 => simp
  | case2 piece c cs skip ih => rw [ih, List.drop_succ_cons]
  | case3 piece c cs h ih =>
    obtain ⟨rest, hrest⟩ := List.isPrefixOf_iff_prefix.1 h
    have hcs : separator ++ cs.drop (separator.length - 1) = c :: cs := by
      have hlength : separator.length - 1 + 1 = separator.length := Nat.sub_add_cancel (List.length_pos_iff.2 hne)
      rw [← List.drop_succ_cons (a := c), hlength, ← hrest, List.drop_left]
    rw [List.intercalate_cons_of_ne_nil (splitFrom_ne_nil _ _ _ _), ih, List.reverse_nil, List.nil_append,
      List.append_assoc, hcs, List.drop_zero]
  | case4 piece c cs h ih => rw [ih, List.reverse_cons, List.append_assoc, List.drop_zero, List.drop_zero]; rfl

/-- The pieces of a text with the separator between them are the text. -/
theorem intercalate_splitText (separator cs : List Char) : separator.intercalate (splitText separator cs) = cs := by
  unfold splitText
  split
  · rename_i h
    rw [List.isEmpty_iff.1 h]
    induction cs with
    | nil => rfl
    | cons c cs ih =>
      cases cs with
      | nil => rfl
      | cons d cs =>
        rw [List.map_cons] at ih ⊢
        rw [List.map_cons, List.intercalate_cons_cons, ih]
        rfl
  · rename_i h
    rw [intercalate_splitFrom (by simpa using h)]
    rfl

theorem intercalate_splitText_ofList (separator s : String) :
    separator.intercalate ((splitText separator.toList s.toList).map String.ofList) = s := by
  rw [← String.toList_inj, String.toList_intercalate, List.map_map]
  have htoList : String.toList ∘ String.ofList = id := funext fun _ => String.toList_ofList
  rw [htoList, List.map_id, intercalate_splitText]

/-! ### Splitting and joining -/

namespace Heap

theorem toText_string (h : Heap) (s : String) : h.toText (.string s) = s := by
  obtain ⟨depth, hd⟩ := Nat.exists_eq_succ_of_ne_zero (n := h.conversionDepth) (by simp [conversionDepth])
  unfold toText toPrimitive
  rw [hd]
  rfl

theorem elementText_string (h : Heap) (s : String) : h.elementText h.conversionDepth [] (.string s) = s :=
  h.toText_string s

end Heap

namespace Library

variable {h : Heap} {call : NativeCall} {s separator : String}

theorem stringSplit_eq (hthis : call.this = .string s) (hseparator : call.arg 0 = .string separator)
    (hlimit : call.arg 1 = .undefined) : stringSplit call h =
      .ok (.value (.object h.next), (h.newTexts ((splitText separator.toList s.toList).map String.ofList)).2) := by
  have hchars : thisChars call "split" h = .ok (s.toList, h) := by
    simp only [thisChars, hthis]
    show Except.ok ((h.toText (.string s)).toList, h) = _
    rw [Heap.toText_string]
  simp only [stringSplit, bind, StateT.bind, Except.bind, hchars, get, getThe, MonadStateOf.get, StateT.get, pure,
    Except.pure, hseparator, hlimit, Heap.toText_string]
  rfl

/-- In every heap, `join` gives back the text that `split` took apart at a separator. -/
theorem join_split (h : Heap) {split : NativeCall} (hthis : split.this = .string s)
    (hseparator : split.arg 0 = .string separator) (hlimit : split.arg 1 = .undefined) :
    ∃ id h', stringSplit split h = .ok (.value (.object id), h') ∧
      ∀ join : NativeCall, join.this = .object id → join.arg 0 = .string separator →
        arrayJoin join h' = .ok (.value (.string s), h') := by
  let texts := (splitText separator.toList s.toList).map String.ofList
  let h' := (h.newTexts texts).2
  refine ⟨h.next, h', stringSplit_eq hthis hseparator hlimit, fun join hjoin harg => ?_⟩
  obtain ⟨o, ho, hcls, helems⟩ : ∃ o, h'.deref? (.object h.next) = some o ∧ o.cls = .array ∧
      o.elems = (texts.map Value.string).toArray :=
    ⟨_, (h.object?_add _ _).trans (if_pos rfl), rfl, rfl⟩
  have htexts : o.elems.toList.map (h'.elementText h'.conversionDepth []) = texts := by
    have hmap : h'.elementText h'.conversionDepth [] ∘ Value.string = id := funext h'.elementText_string
    rw [helems, List.toList_toArray, List.map_map, hmap, List.map_id]
  have hbetween : (if (Value.string separator).isUndefined then "," else h'.toText (.string separator)) = separator :=
    h'.toText_string separator
  rw [arrayJoin_run (hjoin ▸ ho) (by rw [hcls]; rfl), harg, htexts, hbetween, intercalate_splitText_ofList]

/-- Separators next to each other, one that begins inside another, and one at the end. -/
theorem join_split_overlap :
    let split : NativeCall := { this := .string "aaaaab-aa", args := [.string "aa"] }
    ∃ id h', stringSplit split .empty = .ok (.value (.object id), h') ∧
      arrayJoin { this := .object id, args := [.string "aa"] } h' = .ok (.value (.string "aaaaab-aa"), h') := by
  intro split
  have hthis : split.this = .string "aaaaab-aa" := rfl
  have hseparator : split.arg 0 = .string "aa" := rfl
  have hlimit : split.arg 1 = .undefined := rfl
  obtain ⟨id, h', hsplit, hjoin⟩ := join_split .empty hthis hseparator hlimit
  exact ⟨id, h', hsplit, hjoin _ rfl rfl⟩

end Library

end Stepwise

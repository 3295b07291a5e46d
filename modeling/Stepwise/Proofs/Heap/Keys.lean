import Stepwise.Heap.Object
import Stepwise.Proofs.Decimal.Text
import Stepwise.Proofs.Heap.Chain
import Stepwise.Proofs.Heap.Tidy

/-!
# Where an object keeps its properties

An index below `2 ^ 31` is read from its decimal text, and from the texts with a sign that have the same value:

* `arrayIndex?_toString`: the decimal text of a number stands for it, unless it is too large.
* `eq_toString_of_arrayIndex?`: a key without a sign that stands for a number is its decimal text.

The properties of an object are kept under such keys and others:

* `Heap.putOn_apart`: storing a property of an array leaves the others alone. Only keys with a sign share an element
  with another key.
* `Object.unfound_iff`, `Object.unlisted_iff`: the keys that an object lists are those that its lookup finds, up to the
  ones that are named there.
* `Heap.loopKeys_iff`: when a loop over keys visits what `Object.enumerableKeys` lists.
-/

namespace Stepwise

/-! ### Digits -/

/-- Digits without a leading zero are those of their number. -/
theorem AllDigits.toDigits_ofDigitChars {ds : List Char} (hd : AllDigits ds) (hne : ds ≠ [])
    (hz : ∀ d rest, ds ≠ '0' :: d :: rest) : Nat.toDigits 10 (Nat.ofDigitChars 10 ds 0) = ds := by
  induction ds using List.reverseRecOn with
  | nil => exact absurd rfl hne
  | append_singleton ds c ih =>
    have hc := Char.isDigit_iff_toNat.1 (hd c (by simp))
    have h9 : '9'.toNat = 57 := rfl
    have h0 : '0'.toNat = 48 := rfl
    have hchar : (c.toNat - '0'.toNat).digitChar = c := by
      have hall : ∀ n < 10, n.digitChar = Char.ofNat (48 + n) := by decide
      rw [hall _ (by omega), h0, Nat.add_sub_cancel' (by omega), Char.ofNat_toNat]
    rw [Nat.ofDigitChars_append, Nat.ofDigitChars_cons, Nat.ofDigitChars_nil]
    cases ds with
    | nil => rw [Nat.ofDigitChars_nil, Nat.mul_zero, Nat.zero_add, Nat.toDigits_of_lt_base (by omega), hchar]; rfl
    | cons x xs =>
      have hx : x ≠ '0' := by
        rintro rfl
        cases xs with
        | nil => exact hz c [] rfl
        | cons y ys => exact hz y (ys ++ [c]) rfl
      have hxd := Char.isDigit_iff_toNat.1 (hd x (by simp))
      have hx0 : x.toNat ≠ 48 := fun he => hx (Char.toNat_inj.1 he)
      have hpos : 0 < Nat.ofDigitChars 10 (x :: xs) 0 := by
        rw [Nat.ofDigitChars_cons, Nat.ofDigitChars_eq_ofDigitChars_zero]
        have : 0 < 10 ^ xs.length * (10 * 0 + (x.toNat - '0'.toNat)) := Nat.mul_pos (by positivity) (by omega)
        omega
      have hrest := ih (fun d hm => hd d (List.mem_append_left _ hm)) (by simp) fun d rest he => hx (by cases he; rfl)
      rw [Nat.toDigits_of_base_le (by decide) (by omega), Nat.mul_add_div (by decide), Nat.mul_add_mod,
        Nat.div_eq_of_lt (by omega), Nat.mod_eq_of_lt (by omega), Nat.add_zero, hrest, hchar]

/-! ### Indices -/

/-- Whether a key starts with a sign. -/
def isSigned (key : String) : Bool := key.toList.head? == some '+' || key.toList.head? == some '-'

section

variable {key : String} {i j : Nat}

theorem digits_eq {ds : List Char} (hd : AllDigits ds) (hne : ds ≠ []) :
    arrayIndex?.digits ds = if Nat.ofDigitChars 10 ds 0 < 2 ^ 31 then some (Nat.ofDigitChars 10 ds 0) else none := by
  have hall : ds.all Char.isDigit := List.all_eq_true.2 hd
  unfold arrayIndex?.digits
  rw [if_neg (by simp [hne, hall]), Nat.ofDigitChars_eq_foldl]
  simp only [Nat.mul_comm, Nat.pow_eq]

theorem of_digits {ds : List Char} (h : arrayIndex?.digits ds = some i) :
    AllDigits ds ∧ ds ≠ [] ∧ Nat.ofDigitChars 10 ds 0 = i ∧ i < 2 ^ 31 := by
  by_cases hds : ds.isEmpty || !ds.all Char.isDigit
  · unfold arrayIndex?.digits at h
    rw [if_pos hds] at h
    cases h
  · obtain ⟨hne, hd⟩ : ds ≠ [] ∧ AllDigits ds := by simpa [AllDigits] using hds
    rw [digits_eq hd hne] at h
    split at h <;> cases h
    exact ⟨hd, hne, rfl, ‹_›⟩

theorem toList_toString (i : Nat) : (toString i).toList = Nat.toDigits 10 i := String.toList_ofList

theorem toString_injective : Function.Injective (toString : Nat → String) := fun i j he => by
  have hd := congrArg String.toList he
  rw [toList_toString, toList_toString] at hd
  have hv := congrArg (Nat.ofDigitChars 10 · 0) hd
  simpa only [Nat.ofDigitChars_ten_toDigits] using hv

/-- The decimal text of a number stands for it, unless it is too large. -/
theorem arrayIndex?_toString (i : Nat) : arrayIndex? (toString i) = if i < 2 ^ 31 then some i else none := by
  have hd := AllDigits.toDigits i
  have hne : Nat.toDigits 10 i ≠ [] := Nat.toDigits_ne_nil
  have hdigits := digits_eq hd hne
  rw [Nat.ofDigitChars_ten_toDigits] at hdigits
  unfold arrayIndex?
  rw [toList_toString]
  split
  · exact absurd ‹_› hne
  · rename_i x xs he
    rcases Nat.eq_zero_or_pos i with rfl | hi
    · cases he
    · exact absurd (by rw [he]; rfl) (toDigits_head hi)
  · rename_i ds he
    exact absurd (hd '+' (by rw [he]; exact List.mem_cons_self)) (by decide)
  · rename_i ds he
    exact absurd (hd '-' (by rw [he]; exact List.mem_cons_self)) (by decide)
  · exact hdigits

/-- A key without a sign that stands for a number is its decimal text. -/
theorem eq_toString_of_arrayIndex? (h : arrayIndex? key = some i) : key = toString i ∨ isSigned key := by
  unfold isSigned
  unfold arrayIndex? at h
  split at h
  · cases h
  · cases h
  · rename_i he
    exact .inr (by rw [he]; rfl)
  · rename_i he
    exact .inr (by rw [he]; rfl)
  · rename_i hz _ _
    obtain ⟨hd, hne, hv, -⟩ := of_digits h
    refine .inl (String.toList_inj.1 ?_)
    rw [toList_toString, ← hv, hd.toDigits_ofDigitChars hne hz]

theorem isSigned_toString (i : Nat) : isSigned (toString i) = false := by
  have hd := AllDigits.toDigits i
  unfold isSigned
  rw [toList_toString]
  cases he : Nat.toDigits 10 i with
  | nil => rfl
  | cons c cs =>
    have hc : c.isDigit := hd c (by rw [he]; exact List.mem_cons_self)
    have hplus : c ≠ '+' := by rintro rfl; cases hc
    have hminus : c ≠ '-' := by rintro rfl; cases hc
    simp [hplus, hminus]

/-- Of two keys that stand for the same number, one has a sign. -/
theorem isSigned_of_arrayIndex?_eq {key' : String} (h : arrayIndex? key = some i) (h' : arrayIndex? key' = some i)
    (hne : key ≠ key') : isSigned key ∨ isSigned key' := by
  rcases eq_toString_of_arrayIndex? h with rfl | hs
  · rcases eq_toString_of_arrayIndex? h' with rfl | hs
    · exact absurd rfl hne
    · exact .inr hs
  · exact .inl hs

end

variable {o : Object} {h : Heap} {key k₁ k₂ : String} {v : Value} {i j n : Nat}

/-! ### Slots -/

/-- Two keys that stand for the same index. -/
def SameIndex (k₁ k₂ : String) : Prop := ∃ i, arrayIndex? k₁ = some i ∧ arrayIndex? k₂ = some i

/-- A key stands for an element that the second version of an object has and the first has not. -/
def Object.Fills (o o' : Object) (key : String) : Prop :=
  ∃ i, arrayIndex? key = some i ∧ o.elems.size ≤ i ∧ i < o'.elems.size

namespace Object

theorem getOwn?_index (hc : o.cls.hasElements) (hi : arrayIndex? key = some i) : o.getOwn? key = o.elems[i]? := by
  have hl : key ≠ "length" := by
    rintro rfl
    cases hi
  unfold getOwn?
  split
  all_goals simp_all [Class.hasElements]

theorem getOwn?_name (hc : o.cls.hasElements) (hl : key ≠ "length") (hi : arrayIndex? key = none) :
    o.getOwn? key = o.own? key := by
  unfold getOwn?
  split
  all_goals simp_all [Class.hasElements]

theorem size_setElement (o : Object) (i : Nat) (v : Value) :
    (o.setElement i v).elems.size = max o.elems.size (i + 1) := by
  unfold setElement
  dsimp only
  rw [Array.size_setIfInBounds]
  split
  · omega
  · unfold resize
    rw [if_neg (by omega), Array.size_append, Array.size_replicate]
    omega

/-- A stored element is there, and so are those before it. -/
theorem getElem?_setElement (o : Object) (i : Nat) (v : Value) (j : Nat) : (o.setElement i v).elems[j]? =
    if j = i then some v else if o.elems.size ≤ j ∧ j < i then some .undefined else o.elems[j]? := by
  have hsize := size_setElement o i v
  unfold setElement at hsize ⊢
  dsimp only at hsize ⊢
  rw [Array.size_setIfInBounds] at hsize
  rw [Array.getElem?_setIfInBounds]
  by_cases hj : j = i
  · subst hj
    rw [if_pos rfl, if_pos rfl, if_pos (by omega)]
  rw [if_neg (Ne.symm hj), if_neg hj]
  split
  · rw [if_neg (by omega)]
  · unfold resize
    rw [if_neg (by omega), Array.getElem?_append, Array.getElem?_replicate]
    split
    · rw [if_neg (by omega)]
    · by_cases hlt : j < i
      · rw [if_pos (by omega), if_pos (by omega)]
      · rw [if_neg (by omega), if_neg (by omega), Array.getElem?_eq_none (by omega)]

end Object

theorem Heap.putOn_index (h : Heap) (v : Value) (hc : o.cls.hasElements) (hi : arrayIndex? key = some i) :
    h.putOn o key v = .ok (o.setElement i v) := by
  have hl : key ≠ "length" := by
    rintro rfl
    cases hi
  unfold putOn
  split
  all_goals simp_all [Class.hasElements]

theorem Heap.putOn_name (h : Heap) (v : Value) (hc : o.cls.hasElements) (hl : key ≠ "length")
    (hi : arrayIndex? key = none) : h.putOn o key v = .ok (o.put key v) := by
  unfold putOn
  split
  all_goals simp_all [Class.hasElements]

/-- What is stored in an array under a key is found there. Another key finds it as well if both stand for the same
index, and then one of them has a sign. Otherwise it finds undefined if it stands for an element that fills a gap, and
what it found before if it does not. -/
theorem Heap.putOn_apart (h : Heap) (v : Value) (hc : o.cls.hasElements) (hne : k₁ ≠ k₂) (h₁ : k₁ ≠ "length")
    (h₂ : k₂ ≠ "length") :
    ∃ o' : Object, h.putOn o k₁ v = .ok o' ∧ o'.getOwn? k₁ = some v ∧
      (SameIndex k₁ k₂ → (isSigned k₁ ∨ isSigned k₂) ∧ o'.getOwn? k₂ = some v) ∧
      (¬SameIndex k₁ k₂ → o.Fills o' k₂ → o'.getOwn? k₂ = some .undefined) ∧
      (¬SameIndex k₁ k₂ → ¬o.Fills o' k₂ → o'.getOwn? k₂ = o.getOwn? k₂) := by
  cases hi : arrayIndex? k₁ with
  | none =>
    have hc' : (o.put k₁ v).cls.hasElements := hc
    refine ⟨o.put k₁ v, putOn_name h v hc h₁ hi, ?_, ?_, ?_, fun _ _ => ?_⟩
    · rw [Object.getOwn?_name hc' h₁ hi, Object.own?_put, if_pos rfl]
    · rintro ⟨i, hs, -⟩
      rw [hi] at hs
      cases hs
    · rintro - ⟨i, -, hle, hlt⟩
      exact absurd hlt (Nat.not_lt.2 hle)
    · cases hj : arrayIndex? k₂ with
      | none => rw [Object.getOwn?_name hc' h₂ hj, Object.getOwn?_name hc h₂ hj, Object.own?_put, if_neg hne]
      | some j => rw [Object.getOwn?_index hc' hj, Object.getOwn?_index hc hj]; rfl
  | some i =>
    have hc' : (o.setElement i v).cls.hasElements := hc
    have hfound {k : String} {j : Nat} (hj : arrayIndex? k = some j) :=
      (Object.getOwn?_index hc' hj).trans (Object.getElem?_setElement o i v j)
    refine ⟨o.setElement i v, putOn_index h v hc hi, ?_, ?_, ?_, fun hs hf => ?_⟩
    · rw [hfound hi, if_pos rfl]
    · rintro ⟨j, hs, hj⟩
      cases hi.symm.trans hs
      exact ⟨isSigned_of_arrayIndex?_eq hi hj hne, by rw [hfound hj, if_pos rfl]⟩
    · rintro hs ⟨j, hj, hle, hlt⟩
      have hij : j ≠ i := fun he => hs ⟨i, hi, he ▸ hj⟩
      rw [Object.size_setElement] at hlt
      rw [hfound hj, if_neg hij, if_pos (by omega)]
    · cases hj : arrayIndex? k₂ with
      | none => rw [Object.getOwn?_name hc' h₂ hj, Object.getOwn?_name hc h₂ hj]; rfl
      | some j =>
        have hij : j ≠ i := fun he => hs ⟨i, hi, he ▸ hj⟩
        have hgap : ¬(o.elems.size ≤ j ∧ j < i) := fun ⟨hle, hlt⟩ =>
          hf ⟨j, hj, hle, by rw [Object.size_setElement]; omega⟩
        rw [hfound hj, Object.getOwn?_index hc hj, if_neg hij, if_neg hgap]

/-- An element behind a gap. -/
theorem Heap.putOn_apart_gap :
    let o : Object := { id := 1, cls := .array, elems := #[.string "x"] }
    ∃ o' : Object, (default : Heap).putOn o "3" (.string "y") = .ok o' ∧ o'.getOwn? "3" = some (.string "y") ∧
      o'.getOwn? "2" = some .undefined := by
  intro o
  obtain ⟨o', hput, hfound, -, hfills, -⟩ :=
    putOn_apart (o := o) default (.string "y") rfl (show "3" ≠ "2" by decide) (by decide) (by decide)
  cases hput
  refine ⟨_, rfl, hfound, hfills ?_ ⟨2, rfl, by decide, by decide⟩⟩
  rintro ⟨i, h₃, h₂⟩
  cases h₃
  cases h₂

/-- The keys `+1` and `1` share an element. -/
theorem Heap.putOn_signed :
    let o : Object := { id := 1, cls := .array, elems := #[.string "x", .string "y"] }
    ∃ o' : Object, (default : Heap).putOn o "+1" (.string "z") = .ok o' ∧ o'.elems.size = o.elems.size ∧
      o.getOwn? "1" = some (.string "y") ∧ o'.getOwn? "1" = some (.string "z") := by
  exact ⟨_, rfl, rfl, rfl, rfl⟩

/-! ### Lists of keys -/

namespace Object

/-- How many indices an object has, for its elements or for the characters that it wraps. -/
def indexed (o : Object) : Nat := if o.cls.hasElements then o.elems.size else o.wrappedIndices.length

/-- A key that an object lists and does not find: an index that is too large to be read. -/
def Unfound (o : Object) (key : String) : Prop :=
  ¬(o.own? key).isSome ∧ ∃ i < o.indexed, 2 ^ 31 ≤ i ∧ key = toString i

/-- A key that an object finds and does not list: the length of an `arguments` object, what a function says of itself,
or an index with a sign. -/
def Unlisted (o : Object) (key : String) : Prop :=
  ¬(o.own? key).isSome ∧
    (o.cls = .arguments ∧ key = "length" ∨ o.cls = .function ∧ (key = "name" ∨ key = "length") ∨
      ∃ i < o.indexed, arrayIndex? key = some i ∧ isSigned key)

theorem wrappedIndices_eq (o : Object) :
    o.wrappedIndices = (List.range o.wrappedIndices.length).map fun i => toString i := by
  unfold wrappedIndices
  split <;> simp

theorem wrappedIndices_of_ne (hc : o.cls ≠ .string) : o.wrappedIndices = [] := by
  unfold wrappedIndices
  split
  · exact absurd ‹_› hc
  · rfl

theorem elems_of_not_hasElements (hs : o.Sound h) (hc : ¬o.cls.hasElements) : o.elems = #[] :=
  Decidable.byContradiction fun he => hc (hs.elems he)

/-- An object lists its indices, and then what it stores under a name. -/
theorem enumerableKeys_eq (hs : o.Sound h) :
    o.enumerableKeys = (List.range o.indexed).map (fun i => toString i) ++ o.visibleKeys := by
  unfold enumerableKeys indexed
  split
  · rename_i hc
    rw [wrappedIndices_of_ne (by rintro he; rw [he] at hc; cases hc), List.append_nil]
  · rename_i hc
    rw [elems_of_not_hasElements hs hc, ← wrappedIndices_eq]
    rfl

theorem mem_ownKeys (hs : o.Sound h) : key ∈ o.ownKeys ↔
    (∃ i < o.indexed, key = toString i) ∨ (o.cls = .array ∨ o.cls = .string) ∧ key = "length" ∨
      (o.own? key).isSome := by
  have hlist : o.ownKeys = o.enumerableKeys ++ (if o.cls = .array ∨ o.cls = .string then ["length"] else []) ++
      o.keys.filter o.isHidden := by
    unfold ownKeys
    cases o.cls <;> rfl
  have hstored : key ∈ o.visibleKeys ∨ key ∈ o.keys.filter o.isHidden ↔ (o.own? key).isSome := by
    rw [← hs.mem_keys]
    unfold visibleKeys
    simp only [List.mem_filter]
    cases o.isHidden key <;> simp
  rw [hlist, List.mem_append, List.mem_append, enumerableKeys_eq hs, List.mem_append, ← hstored]
  simp only [List.mem_map, List.mem_range, List.mem_ite_nil_right, List.mem_singleton, eq_comm (b := key)]
  grind

/-- An object for a text wraps one. -/
theorem Sound.exists_text (hs : o.Sound h) (hc : o.cls = .string) : ∃ s, o.primitive = some (.string s) := by
  have hwraps := hs.primitive
  rw [hc] at hwraps
  unfold Class.wraps at hwraps
  split at hwraps <;> simp_all

theorem length_wrappedIndices {s : String} (hc : o.cls = .string) (hp : o.primitive = some (.string s)) :
    o.wrappedIndices.length = s.toList.length := by
  unfold wrappedIndices
  rw [hc, hp]
  simp [Value.chars]

theorem isSome_stringProperty? {cs : List Char} :
    (stringProperty? cs key).isSome ↔ key = "length" ∨ ∃ i < cs.length, arrayIndex? key = some i := by
  unfold stringProperty?
  split
  · simp [*]
  · cases hi : arrayIndex? key <;> simp [*]

theorem indexed_eq_zero (hc : ¬o.cls.hasElements) (hc' : o.cls ≠ .string) : o.indexed = 0 := by
  unfold indexed
  rw [if_neg hc, wrappedIndices_of_ne hc']
  rfl

theorem isSome_getOwn? (hs : o.Sound h) (ht : o.Tidy) : (o.getOwn? key).isSome ↔
    (∃ i < o.indexed, arrayIndex? key = some i) ∨ (o.cls.hasElements ∨ o.cls = .string) ∧ key = "length" ∨
      o.cls = .function ∧ (key = "name" ∨ key = "length") ∨ (o.own? key).isSome := by
  by_cases he : o.cls.hasElements
  · have hindexed : o.indexed = o.elems.size := if_pos he
    have hf : o.cls ≠ .function := by rintro hf; rw [hf] at he; cases he
    by_cases hl : key = "length"
    · have hget : (o.getOwn? key).isSome := by
        unfold getOwn?
        split
        all_goals simp_all [Class.hasElements]
      exact iff_of_true hget (.inr (.inl ⟨.inl he, hl⟩))
    cases hi : arrayIndex? key with
    | none =>
      rw [getOwn?_name he hl hi]
      simp [hl, hf]
    | some i =>
      have hown : ¬(o.own? key).isSome := fun hown => by
        rw [ht he key ((hs.mem_keys key).2 hown)] at hi
        cases hi
      rw [getOwn?_index he hi, hindexed]
      simp [hl, hf, hown]
  cases hc : o.cls with
  | array | arguments => simp [hc, Class.hasElements] at he
  | string =>
    obtain ⟨s, hp⟩ := hs.exists_text hc
    have hget : o.getOwn? key = (stringProperty? s.toList key).or (o.own? key) := by
      unfold getOwn?
      rw [hc, hp]
      rfl
    have hindexed : o.indexed = s.toList.length := by
      unfold indexed
      rw [if_neg he, length_wrappedIndices hc hp]
    rw [hget, Option.isSome_or, Bool.or_eq_true, isSome_stringProperty?, hindexed]
    simp only [Class.hasElements, reduceCtorEq, Bool.false_eq_true, or_true, true_and, false_and, false_or, or_assoc]
    exact or_left_comm
  | function =>
    obtain ⟨f, hf⟩ := Option.isSome_iff_exists.1 (hs.func.2 hc)
    rw [indexed_eq_zero he (by simp [hc])]
    unfold getOwn?
    rw [hc, hf]
    dsimp only
    cases o.own? key with
    | some v => simp
    | none =>
      by_cases hn : key = "name"
      · simp [hn]
      · by_cases hl : key = "length"
        · simp [hl]
        · simp [hn, hl, Class.hasElements]
  | object | error | boolean | number =>
    rw [indexed_eq_zero he (by simp [hc])]
    unfold getOwn?
    simp [hc, Class.hasElements]

private theorem toString_ne_length (i : Nat) : toString i ≠ "length" := fun he => by
  have hd := AllDigits.toDigits i 'l' (by rw [← toList_toString, he]; decide)
  cases hd

/-- Of what it lists, an object does not find the indices that are too large. -/
theorem unfound_iff (hs : o.Sound h) (ht : o.Tidy) :
    o.Unfound key ↔ key ∈ o.ownKeys ∧ ¬(o.getOwn? key).isSome := by
  rw [mem_ownKeys hs, isSome_getOwn? hs ht]
  constructor
  · rintro ⟨hown, i, hi, hle, rfl⟩
    refine ⟨.inl ⟨i, hi, rfl⟩, ?_⟩
    rintro (⟨j, -, hj⟩ | ⟨-, hl⟩ | ⟨hc, -⟩ | h)
    · rw [arrayIndex?_toString, if_neg (Nat.not_lt.2 hle)] at hj
      cases hj
    · exact toString_ne_length i hl
    · rw [indexed_eq_zero (by simp [hc, Class.hasElements]) (by simp [hc])] at hi
      cases hi
    · exact hown h
  · rintro ⟨⟨i, hi, rfl⟩ | ⟨hc | hc, rfl⟩ | hown, hnot⟩
    · refine ⟨fun hown => hnot (.inr (.inr (.inr hown))), i, hi, Nat.not_lt.1 fun hlt => ?_, rfl⟩
      exact hnot (.inl ⟨i, hi, by rw [arrayIndex?_toString, if_pos hlt]⟩)
    · exact absurd (.inr (.inl ⟨.inl (by rw [hc]; rfl), rfl⟩)) hnot
    · exact absurd (.inr (.inl ⟨.inr hc, rfl⟩)) hnot
    · exact absurd (.inr (.inr (.inr hown))) hnot

/-- Of what it finds, an object does not list the length of its arguments, what it says of itself as a function, and
indices with a sign. -/
theorem unlisted_iff (hs : o.Sound h) (ht : o.Tidy) :
    o.Unlisted key ↔ key ∉ o.ownKeys ∧ (o.getOwn? key).isSome := by
  rw [mem_ownKeys hs, isSome_getOwn? hs ht]
  constructor
  · rintro ⟨hown, ⟨hc, rfl⟩ | ⟨hc, hk⟩ | ⟨i, hi, he, hsigned⟩⟩
    · refine ⟨?_, .inr (.inl ⟨.inl (by rw [hc]; rfl), rfl⟩)⟩
      rintro (⟨i, -, hl⟩ | ⟨hc', -⟩ | h)
      · exact toString_ne_length i hl.symm
      · simp [hc] at hc'
      · exact hown h
    · refine ⟨?_, .inr (.inr (.inl ⟨hc, hk⟩))⟩
      rintro (⟨i, hi, -⟩ | ⟨hc', -⟩ | h)
      · rw [indexed_eq_zero (by simp [hc, Class.hasElements]) (by simp [hc])] at hi
        cases hi
      · simp [hc] at hc'
      · exact hown h
    · refine ⟨?_, .inl ⟨i, hi, he⟩⟩
      rintro (⟨j, -, rfl⟩ | ⟨-, rfl⟩ | h)
      · rw [isSigned_toString] at hsigned
        cases hsigned
      · cases he
      · exact hown h
  · rintro ⟨hnot, ⟨i, hi, he⟩ | ⟨hc, rfl⟩ | hc | hown⟩
    · refine ⟨fun hown => hnot (.inr (.inr hown)), .inr (.inr ⟨i, hi, he, ?_⟩)⟩
      exact (eq_toString_of_arrayIndex? he).resolve_left fun hk => hnot (.inl ⟨i, hi, hk⟩)
    · refine ⟨fun hown => hnot (.inr (.inr hown)), .inl ⟨?_, rfl⟩⟩
      cases hcls : o.cls <;> simp_all [Class.hasElements]
    · exact ⟨fun hown => hnot (.inr (.inr hown)), .inr (.inl hc)⟩
    · exact absurd (.inr (.inr hown)) hnot

/-! ### Loops over keys -/

/-- The keys that a loop takes from an object itself. -/
def ownLoopKeys (o : Object) : List String :=
  if o.cls = .string ∧ o.primitive.isSome then o.wrappedIndices else o.enumerableKeys

end Object

namespace Heap

theorem nodup_eraseDups : ∀ keys : List String, keys.eraseDups.Nodup
  | [] => .nil
  | key :: keys => by
    rw [List.eraseDups_cons, List.nodup_cons]
    exact ⟨by simp, nodup_eraseDups _⟩
termination_by keys => keys.length
decreasing_by exact Nat.lt_succ_of_le (List.length_filter_le _ _)

theorem eraseDups_of_nodup : ∀ {keys : List String}, keys.Nodup → keys.eraseDups = keys
  | [], _ => rfl
  | key :: keys, hn => by
    obtain ⟨hkey, hn⟩ := List.nodup_cons.1 hn
    have hother : keys.filter (fun k => !k == key) = keys :=
      List.filter_eq_self.2 fun k hk => by
        have : k ≠ key := fun he => hkey (he ▸ hk)
        simpa using this
    rw [List.eraseDups_cons, hother, eraseDups_of_nodup hn]

/-- A loop takes each key once, and none from prototypes that have no others. -/
theorem loopKeys_eq (hw : h.WellFormed) (hp : ∀ p ∈ h.prototypes o, ∀ key ∈ p.ownLoopKeys, key ∈ o.ownLoopKeys) :
    h.loopKeys o = o.ownLoopKeys.eraseDups := by
  have hchain : h.chain chainLimit o = o :: (h.prototypes o).take 999 := (hw.cons_prototypes o).chain_eq chainLimit
  have hrest : (((h.prototypes o).take 999).flatMap Object.ownLoopKeys).removeAll o.ownLoopKeys = [] := by
    refine List.filter_eq_nil_iff.2 fun key hkey => ?_
    obtain ⟨p, hmem, hkey⟩ := List.mem_flatMap.1 hkey
    simpa using hp p (List.mem_of_mem_take hmem) key hkey
  have hloop : h.loopKeys o = ((h.chain chainLimit o).flatMap Object.ownLoopKeys).eraseDups := rfl
  rw [hloop, hchain, List.flatMap_cons, List.eraseDups_append, hrest, List.eraseDups_nil, List.append_nil]

end Heap

namespace Object

theorem nodup_wrappedIndices (o : Object) : o.wrappedIndices.Nodup := by
  rw [wrappedIndices_eq]
  exact List.nodup_range.map toString_injective

theorem indexed_of_ne (hs : o.Sound h) (hc : o.cls ≠ .string) : o.indexed = o.elems.size := by
  by_cases he : o.cls.hasElements
  · exact if_pos he
  · rw [indexed_eq_zero he hc, elems_of_not_hasElements hs he]
    rfl

/-- An object lists a key twice if it is both a name and an index that is too large. -/
theorem nodup_enumerableKeys (hs : o.Sound h) (ht : o.Tidy) (hc : o.cls ≠ .string) :
    o.enumerableKeys.Nodup ↔ ∀ i < o.elems.size, 2 ^ 31 ≤ i → toString i ∉ o.visibleKeys := by
  have hvisible : o.visibleKeys.Nodup := hs.nodup.filter _
  rw [enumerableKeys_eq hs, indexed_of_ne hs hc, List.nodup_append]
  simp only [List.nodup_range.map toString_injective, hvisible, true_and, List.mem_map, List.mem_range]
  constructor
  · rintro hn i hi - hmem
    exact hn _ ⟨i, hi, rfl⟩ _ hmem rfl
  · rintro hn _ ⟨i, hi, rfl⟩ _ hmem rfl
    have he : o.cls.hasElements := hs.elems fun he => by rw [he] at hi; cases hi
    have hname := ht he _ (List.mem_of_mem_filter hmem)
    rw [arrayIndex?_toString] at hname
    split at hname
    · cases hname
    · exact hn i hi (Nat.not_lt.1 ‹_›) hmem

end Object

/-- A loop visits what `Object.enumerableKeys` lists, except for the properties that an object has beside the text that it
wraps. An index that is too large and also a name is listed twice and visited once. -/
theorem Heap.loopKeys_iff (hw : h.WellFormed) (ht : h.Tidy) {id : ObjectId} (ho : h.object? id = some o)
    (hp : ∀ p ∈ h.prototypes o, ∀ key ∈ p.ownLoopKeys, key ∈ o.ownLoopKeys) : h.loopKeys o = o.enumerableKeys ↔
      (o.cls = .string → o.visibleKeys = []) ∧ ∀ i < o.elems.size, 2 ^ 31 ≤ i → toString i ∉ o.visibleKeys := by
  have hs := hw.sound ho
  rw [loopKeys_eq hw hp]
  by_cases hc : o.cls = .string
  · have helems := Object.elems_of_not_hasElements hs (by simp [hc, Class.hasElements])
    obtain ⟨s, hprimitive⟩ := hs.exists_text hc
    have hown : o.ownLoopKeys = o.wrappedIndices := if_pos ⟨hc, by rw [hprimitive]; rfl⟩
    have hall : o.enumerableKeys = o.wrappedIndices ++ o.visibleKeys := by
      unfold Object.enumerableKeys
      rw [helems]
      rfl
    rw [hown, eraseDups_of_nodup o.nodup_wrappedIndices, hall, List.self_eq_append_right, helems]
    simp [hc]
  · have hown : o.ownLoopKeys = o.enumerableKeys := if_neg fun h => hc h.1
    rw [hown, ← Object.nodup_enumerableKeys hs (ht.tidy ho) hc]
    simp only [hc, false_imp_iff, true_and]
    refine ⟨fun he => ?_, eraseDups_of_nodup⟩
    rw [← he]
    exact nodup_eraseDups _

end Stepwise

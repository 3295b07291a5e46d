import Stepwise.Proofs.Machine.Convert

/-!
# Equality with conversions

A comparison of values of different types converts one side and starts again.

* `Heap.Compares`: the turns of a comparison, with a row for either side.
* `Heap.looselyEqual_comm`: the comparison of values that become primitives comes to an end, and the order of the sides
  makes no difference.
-/

namespace Stepwise

/-! ### Equality without conversions -/

open Float.Model in
theorem number_beq_comm (x y : Float) : (x == y) = (y == x) := by
  have hfinite (e₁ e₂ : Int) (m₁ m₂ : Nat) :
      ((compare e₁ e₂).then (compare m₁ m₂)).swap = (compare e₂ e₁).then (compare m₂ m₁) := by
    rw [Ordering.swap_then, ← Std.OrientedCmp.eq_swap, ← Std.OrientedCmp.eq_swap]
  have hcompare (a b : UnpackedFloat) : b.compare a = (a.compare b).map Ordering.swap := by
    unfold UnpackedFloat.compare
    cases a with
    | notANumber => cases b <;> rfl
    | infinity s | zero s | finite s =>
      cases b with
      | notANumber => cases s <;> rfl
      | infinity t | zero t | finite t => cases s <;> cases t <;> simp [hfinite] <;> rfl
  have hbeq (a b : UnpackedFloat) : a.beq b = b.beq a := by
    unfold UnpackedFloat.beq
    rw [hcompare a b]
    rcases a.compare b with - | - | - | - <;> rfl
  exact hbeq _ _

namespace Value

theorem strictEquals_comm (a b : Value) : a.strictEquals b = b.strictEquals a := by
  cases a <;> cases b
  case number.number x y => exact number_beq_comm x y
  case bool.bool | string.string | object.object => exact BEq.comm
  all_goals rfl

/-- A number or a text: what a comparison does not convert to a primitive, and does not take for nothing. -/
def isPlain : Value → Bool
  | number _ | string _ => true
  | _ => false

/-- How many conversions a comparison may need because of a value. -/
def conversions : Value → Nat
  | object _ => 2
  | bool _ => 1
  | _ => 0

end Value

namespace Heap

variable {h : Heap} {a b p q : Value} {r r' : Bool} {turns : Nat}

/-- A comparison that comes to an end with a result. Values of the same type are compared as they are, and null and
undefined with each other. Otherwise texts and truth values become numbers, and objects become primitives. -/
inductive Compares (h : Heap) : Value → Value → Bool → Prop where
  | alike {a b : Value} (ht : a.typeName = b.typeName) : Compares h a b (a.strictEquals b)
  | nullish {a b : Value} (ht : a.typeName ≠ b.typeName) (hn : a.isNullish ∨ b.isNullish) :
    Compares h a b (a.isNullish && b.isNullish)
  | numberText (x : Float) (s : String) : Compares h (.number x) (.string s) (x == stringToNumber s)
  | textNumber (s : String) (y : Float) : Compares h (.string s) (.number y) (stringToNumber s == y)
  | boolLeft {x : Bool} {b : Value} {r : Bool} (hb : b.isPlain ∨ b.isObject)
    (hr : Compares h (.number (if x then 1 else 0)) b r) : Compares h (.bool x) b r
  | boolRight {a : Value} {y : Bool} {r : Bool} (ha : a.isPlain ∨ a.isObject)
    (hr : Compares h a (.number (if y then 1 else 0)) r) : Compares h a (.bool y) r
  | objectLeft {id : ObjectId} {p b : Value} {r : Bool} (hb : b.isPlain) (hp : h.ConvertsTo (.object id) p)
    (hr : Compares h p b r) : Compares h (.object id) b r
  | objectRight {a : Value} {id : ObjectId} {q : Value} {r : Bool} (ha : a.isPlain) (hq : h.ConvertsTo (.object id) q)
    (hr : Compares h a q r) : Compares h a (.object id) r

theorem toNumber_bool (x : Bool) : h.toNumber (.bool x) = if x then 1 else 0 := by
  rw [toNumber, toPrimitive_of_deref? rfl]

/-- The rows for the two sides correspond. -/
theorem Compares.symm (hc : h.Compares a b r) : h.Compares b a r := by
  induction hc with
  | @alike a b ht =>
    rw [Value.strictEquals_comm]
    exact .alike ht.symm
  | @nullish a b ht hn =>
    rw [Bool.and_comm]
    exact .nullish ht.symm hn.symm
  | numberText x s =>
    rw [number_beq_comm]
    exact .textNumber s x
  | textNumber s y =>
    rw [number_beq_comm]
    exact .numberText y s
  | boolLeft hb _ ih => exact .boolRight hb ih
  | boolRight ha _ ih => exact .boolLeft ha ih
  | objectLeft hb hp _ ih => exact .objectRight hb hp ih
  | objectRight ha hq _ ih => exact .objectLeft ha hq ih

/-! ### The turns of a comparison -/

theorem looselyEqualWithin_boolLeft (h : Heap) (turns : Nat) (x : Bool) (hb : b.isPlain ∨ b.isObject) :
    h.looselyEqualWithin (turns + 1) (.bool x) b = h.looselyEqualWithin turns (.number (if x then 1 else 0)) b := by
  rw [← toNumber_bool (h := h)]
  cases b
  case number | string | object => rfl
  all_goals exact absurd hb (by simp [Value.isPlain, Value.isObject])

theorem looselyEqualWithin_boolRight (h : Heap) (turns : Nat) (y : Bool) (ha : a.isPlain ∨ a.isObject) :
    h.looselyEqualWithin (turns + 1) a (.bool y) = h.looselyEqualWithin turns a (.number (if y then 1 else 0)) := by
  rw [← toNumber_bool (h := h)]
  cases a
  case number | string | object => rfl
  all_goals exact absurd ha (by simp [Value.isPlain, Value.isObject])

theorem looselyEqualWithin_objectLeft (h : Heap) (turns : Nat) (id : ObjectId) (hb : b.isPlain) :
    h.looselyEqualWithin (turns + 1) (.object id) b = h.looselyEqualWithin turns (h.toPrimitive (.object id)) b := by
  cases b
  case number | string => rfl
  all_goals exact absurd hb (by simp [Value.isPlain])

theorem looselyEqualWithin_objectRight (h : Heap) (turns : Nat) (id : ObjectId) (ha : a.isPlain) :
    h.looselyEqualWithin (turns + 1) a (.object id) = h.looselyEqualWithin turns a (h.toPrimitive (.object id)) := by
  cases a
  case number | string => rfl
  all_goals exact absurd ha (by simp [Value.isPlain])

/-- A primitive is in every heap and becomes itself. -/
theorem of_not_isObject (hp : p.isObject = false) : p.In h ∧ (∃ q, h.ConvertsTo p q) ∧ p.conversions ≤ 1 := by
  cases p with
  | object id => cases hp
  | bool => exact ⟨trivial, ⟨_, convertsTo_self rfl⟩, le_rfl⟩
  | undefined | null | number | string => exact ⟨trivial, ⟨_, convertsTo_self rfl⟩, Nat.zero_le 1⟩

/-- A comparison comes to an end before its turns do, as every conversion leaves less to convert. -/
theorem compares_looselyEqualWithin (hw : h.WellFormed) (ha : a.In h) (hb : b.In h) (hp : ∃ p, h.ConvertsTo a p)
    (hq : ∃ q, h.ConvertsTo b q) (hturns : a.conversions + b.conversions < turns) :
    h.Compares a b (h.looselyEqualWithin turns a b) := by
  induction turns generalizing a b with
  | zero => omega
  | succ turns ih =>
    -- what an object becomes is no object
    have hobject {id : ObjectId} (hv : (Value.object id).In h) (hp : ∃ p, h.ConvertsTo (.object id) p) :
        h.ConvertsTo (.object id) (h.toPrimitive (.object id)) ∧ (h.toPrimitive (.object id)).In h ∧
          (∃ q, h.ConvertsTo (h.toPrimitive (.object id)) q) ∧ (h.toPrimitive (.object id)).conversions ≤ 1 := by
      obtain ⟨p, hp⟩ := hp
      obtain rfl := hp.toPrimitive_eq hw.toFiled
      exact ⟨hp, of_not_isObject (isObject_primitive? hw hv hp.choose_spec)⟩
    cases a <;> cases b
    case number.string x s => exact .numberText x s
    case string.number s y => exact .textNumber s y
    case bool.number x _ | bool.string x _ | bool.object x _ =>
      refine .boolLeft (by simp [Value.isPlain, Value.isObject]) ?_
      rw [looselyEqualWithin_boolLeft h turns x (by simp [Value.isPlain, Value.isObject])]
      exact ih trivial hb ⟨_, convertsTo_self rfl⟩ hq (by simp only [Value.conversions] at hturns ⊢; omega)
    case number.bool _ y | string.bool _ y | object.bool _ y =>
      refine .boolRight (by simp [Value.isPlain, Value.isObject]) ?_
      rw [looselyEqualWithin_boolRight h turns y (by simp [Value.isPlain, Value.isObject])]
      exact ih ha trivial hp ⟨_, convertsTo_self rfl⟩ (by simp only [Value.conversions] at hturns ⊢; omega)
    case object.number id _ | object.string id _ =>
      obtain ⟨hconverts, hin, hself, hle⟩ := hobject ha hp
      refine .objectLeft rfl hconverts ?_
      rw [looselyEqualWithin_objectLeft h turns id rfl]
      exact ih hin hb hself hq (by simp only [Value.conversions] at hturns hle ⊢; omega)
    case number.object _ id | string.object _ id =>
      obtain ⟨hconverts, hin, hself, hle⟩ := hobject hb hq
      refine .objectRight rfl hconverts ?_
      rw [looselyEqualWithin_objectRight h turns id rfl]
      exact ih ha hin hp hself (by simp only [Value.conversions] at hturns hle ⊢; omega)
    case undefined.undefined | null.null | bool.bool | number.number | string.string | object.object =>
      exact .alike rfl
    all_goals exact .nullish (by simp [Value.typeName]) (by simp [Value.isNullish])

/-- A comparison that comes to an end has the result that every large number of turns gives. -/
theorem Compares.exists_turns (hf : h.Filed) (hc : h.Compares a b r) :
    ∃ least, ∀ turns, least ≤ turns → h.looselyEqualWithin turns a b = r := by
  have hturn {a b : Value} {r : Bool} {f : Nat → Bool} (hf : ∃ least, ∀ turns, least ≤ turns → f turns = r)
      (heq : ∀ turns, h.looselyEqualWithin (turns + 1) a b = f turns) :
      ∃ least, ∀ turns, least ≤ turns → h.looselyEqualWithin turns a b = r := by
    obtain ⟨least, hleast⟩ := hf
    refine ⟨least + 1, fun turns hle => ?_⟩
    obtain ⟨turns, rfl⟩ := Nat.exists_eq_add_of_le' hle
    rw [← Nat.add_assoc, heq]
    exact hleast _ (Nat.le_add_left _ _)
  induction hc with
  | alike ht =>
    refine hturn ⟨0, fun _ _ => rfl⟩ fun turns => ?_
    unfold looselyEqualWithin
    exact if_pos ht
  | nullish ht hn =>
    refine hturn ⟨0, fun _ _ => rfl⟩ fun turns => ?_
    unfold looselyEqualWithin
    rw [if_neg ht]
    exact if_pos (by simpa using hn)
  | numberText | textNumber => exact hturn ⟨0, fun _ _ => rfl⟩ fun turns => rfl
  | boolLeft hb _ ih => exact hturn ih fun turns => looselyEqualWithin_boolLeft h turns _ hb
  | boolRight ha _ ih => exact hturn ih fun turns => looselyEqualWithin_boolRight h turns _ ha
  | objectLeft hb hp _ ih =>
    refine hturn ih fun turns => ?_
    rw [looselyEqualWithin_objectLeft h turns _ hb, hp.toPrimitive_eq hf]
  | objectRight ha hq _ ih =>
    refine hturn ih fun turns => ?_
    rw [looselyEqualWithin_objectRight h turns _ ha, hq.toPrimitive_eq hf]

/-- A comparison has no two results. -/
theorem Compares.unique (hf : h.Filed) (hc : h.Compares a b r) (hc' : h.Compares a b r') : r = r' := by
  obtain ⟨least, hr⟩ := hc.exists_turns hf
  obtain ⟨least', hr'⟩ := hc'.exists_turns hf
  rw [← hr _ (le_max_left least least'), hr' _ (le_max_right least least')]

/-- In a well-formed heap, the comparison of two values whose conversions to primitives end comes to an end itself,
within five turns and with one result, and the order of the sides makes no difference. -/
theorem looselyEqual_comm (hw : h.WellFormed) (ha : a.In h) (hb : b.In h) (hp : ∃ p, h.ConvertsTo a p)
    (hq : ∃ q, h.ConvertsTo b q) :
    h.Compares a b (h.looselyEqual a b) ∧ (∀ r, h.Compares a b r → r = h.looselyEqual a b) ∧
      (∀ turns, 5 ≤ turns → h.looselyEqualWithin turns a b = h.looselyEqual a b) ∧
      h.looselyEqual a b = h.looselyEqual b a := by
  have hconversions (v : Value) : v.conversions ≤ 2 := by cases v <;> simp [Value.conversions]
  have hends {a b : Value} (ha : a.In h) (hb : b.In h) (hp : ∃ p, h.ConvertsTo a p) (hq : ∃ q, h.ConvertsTo b q)
      (turns : Nat) (hle : 5 ≤ turns) : h.Compares a b (h.looselyEqualWithin turns a b) :=
    compares_looselyEqualWithin hw ha hb hp hq (by have := hconversions a; have := hconversions b; omega)
  have hc := hends ha hb hp hq 5 le_rfl
  have hc' := hends hb ha hq hp 5 le_rfl
  have hone {r : Bool} (hr : h.Compares a b r) : r = h.looselyEqual a b := hr.unique hw.toFiled hc
  exact ⟨hc, fun _ => hone, fun turns hle => hone (hends ha hb hp hq turns hle), (hone hc'.symm).symm⟩

/-- An object that wraps a truth value, and a text for a number: three conversions. -/
theorem looselyEqual_comm_wrapped :
    ∃ (h : Heap) (id : ObjectId), Library.install.2.box? (.bool true) = some (id, h) ∧ h.WellFormed ∧
      (Value.object id).In h ∧ h.ConvertsTo (.object id) (.bool true) ∧
      h.looselyEqual (.object id) (.string "1") = true ∧ h.looselyEqual (.string "1") (.object id) = true := by
  let o : Object :=
    { id := 0, cls := .boolean, proto := Library.install.2.intrinsic Intrinsic.booleanPrototype,
      primitive := some (.bool true) }
  let h := (Library.install.2.add o).2
  have hw : h.WellFormed := Library.wellFormed_install.add
    (.new (Library.wellFormed_install.intrinsic_in _) (by decide) rfl (by simp) (by simp)) (by simp [o])
  have ho : h.object? Library.install.2.next = some { o with id := Library.install.2.next } :=
    (object?_add _ _ _).trans (if_pos rfl)
  have hin : (Value.object Library.install.2.next).In h := Option.isSome_of_eq_some ho
  have hp : h.ConvertsTo (.object Library.install.2.next) (.bool true) := ⟨1, by rw [primitive?, deref?, ho]⟩
  obtain ⟨-, hone, -, hcomm⟩ := looselyEqual_comm hw hin (b := .string "1") trivial ⟨_, hp⟩ ⟨_, convertsTo_self rfl⟩
  have hequal : h.Compares (.object Library.install.2.next) (.string "1") (1 == stringToNumber "1") :=
    .objectLeft rfl hp (.boolLeft (.inl rfl) (.numberText 1 "1"))
  have htrue : h.looselyEqual (.object Library.install.2.next) (.string "1") = true :=
    (hone _ hequal).symm.trans (by decide)
  exact ⟨h, _, rfl, hw, hin, hp, htrue, hcomm ▸ htrue⟩

end Heap

end Stepwise

import Mathlib.Data.List.Forall2
import Stepwise.Host.Value
import Stepwise.Proofs.Heap.Install
import Stepwise.Proofs.Heap.WellFormed

/-!
# Values that come from the host and go back

* `HostValue.isData`: a value of undefined, null, booleans, numbers, strings, lists and objects.
* `Heap.StandsFor`: what was added to a heap in a range of identities gives a value of the host back, whatever the rest
  of the heap is and whatever is being converted outside of the range.
* `HostValue.receives_intake`: this is so for what a value of the host adds.
* `HostValue.toHost_intake`: such a value can be taken in, and comes back as it was.
-/

namespace Stepwise

open Heap

/-! ### Values -/

namespace HostValue

mutual

/-- Whether a value is made of undefined, null, booleans, numbers, strings, lists, and objects whose fields have
different names. -/
def isData : HostValue → Bool
  | undefined | null | bool _ | number _ | string _ => true
  | list items => areData items
  | object fields => decide (fields.map Prod.fst).Nodup && haveData fields
  | function _ | int _ | single _ | record _ | foreign _ => false

/-- Whether all values of a list are so. -/
def areData : List HostValue → Bool
  | [] => true
  | x :: xs => x.isData && areData xs

/-- Whether the values of all fields are so. -/
def haveData : List (String × HostValue) → Bool
  | [] => true
  | (_, x) :: fields => x.isData && haveData fields

end

end HostValue

/-! ### Objects -/

namespace Object

variable {o : Object} {properties : List (String × Value)}

theorem Listed.keys_foldl_put (ho : o.Listed) (hn : (o.keys ++ properties.map Prod.fst).Nodup) :
    (properties.foldl (fun o p => o.put p.1 p.2) o).keys = o.keys ++ properties.map Prod.fst := by
  induction properties generalizing o with
  | nil => simp
  | cons p properties ih =>
    have hkeys : (o.put p.1 p.2).keys = o.keys ++ [p.1] := by
      rw [ho.keys_put, if_neg]
      rw [List.map_cons] at hn
      exact fun hp => (List.nodup_append.1 hn).2.2 _ hp _ List.mem_cons_self rfl
    have hn' : ((o.put p.1 p.2).keys ++ properties.map Prod.fst).Nodup := by
      rw [hkeys]
      simpa using hn
    rw [List.foldl_cons, ih (ho.put p.1 p.2) hn', hkeys]
    simp

theorem foldl_put_hidden (o : Object) (properties : List (String × Value)) :
    (properties.foldl (fun o p => o.put p.1 p.2) o).hidden = o.hidden := by
  induction properties generalizing o with
  | nil => rfl
  | cons p properties ih => exact ih (o.put p.1 p.2)

/-- An object without properties has the fields that are stored in it under different names, in order. -/
theorem Listed.fields_foldl_put (ho : o.Listed) (hk : o.keys = []) (hh : o.hidden = [])
    (hn : (properties.map Prod.fst).Nodup) :
    let filled := properties.foldl (fun o p => o.put p.1 p.2) o
    filled.visibleKeys.map (fun key => (key, (filled.own? key).getD .undefined)) = properties := by
  intro filled
  have hkeys : filled.keys = properties.map Prod.fst := by
    rw [ho.keys_foldl_put (by rwa [hk, List.nil_append]), hk, List.nil_append]
  have hhidden : filled.hidden = [] := by
    rw [← hh]
    exact foldl_put_hidden o properties
  have hvisible : filled.visibleKeys = properties.map Prod.fst := by
    rw [visibleKeys, hkeys, List.filter_eq_self]
    intro key _
    rw [isHidden, hhidden]
    rfl
  have hown : ∀ p ∈ properties, filled.own? p.1 = some p.2 := by
    intro p hp
    obtain ⟨before, after, rfl⟩ := List.append_of_mem hp
    have hother : ∀ q ∈ after, q.1 ≠ p.1 := by
      rw [List.map_append, List.map_cons] at hn
      have hafter := (List.nodup_cons.1 (List.nodup_append.1 hn).2.1).1
      exact fun q hq he => hafter (he ▸ List.mem_map_of_mem hq)
    show ((before ++ p :: after).foldl (fun o p => o.put p.1 p.2) o).own? p.1 = some p.2
    rw [List.foldl_append, List.foldl_cons, own?_foldl_put _ hother, own?_put, if_pos rfl]
  rw [hvisible, List.map_map]
  refine (List.map_congr_left fun p hp => ?_).trans properties.map_id
  simp only [Function.comp_apply, hown p hp, Option.getD_some, id_eq]

end Object

/-! ### What stands for a value -/

/-- The objects of a heap from an identity on, up to another, stand for a value of the host: from any heap that agrees
on them it is given back, if objects may nest more than `n` deep and only others are being converted. -/
def Heap.StandsFor (h : Heap) (first next : ObjectId) (n : Nat) (v : Value) (x : HostValue) : Prop :=
  ∀ g : Heap, (∀ id, first ≤ id → id < next → g.object? id = h.object? id) → ∀ depth open_, n < depth →
    (∀ id ∈ open_, id < first ∨ next ≤ id) → g.toHostWithin depth open_ v = x

namespace Heap

variable {h h' : Heap} {first first' next next' id : ObjectId} {n n' : Nat} {v : Value} {x : HostValue}

/-- More objects around those of a value make no difference. -/
theorem StandsFor.widen (hs : h.StandsFor first next n v x) (hfirst : first' ≤ first) (hnext : next ≤ next')
    (hn : n ≤ n') (hsame : ∀ id, first ≤ id → id < next → h'.object? id = h.object? id) :
    h'.StandsFor first' next' n' v x := by
  intro g hg depth open_ hdepth hopen
  refine hs g (fun id hlow hhigh => ?_) depth open_ (by omega) fun id hid => ?_
  · rw [hg id (by lia) (by lia), hsame id hlow hhigh]
  · rcases hopen id hid with hlow | hhigh
    · exact .inl (by lia)
    · exact .inr (by lia)

theorem standsFor_of_plain (hv : ∀ (g : Heap) depth open_, g.toHostWithin (depth + 1) open_ v = x) :
    h.StandsFor first next n v x := by
  intro g _ depth open_ hdepth _
  obtain ⟨depth, rfl⟩ := Nat.exists_eq_add_of_lt (Nat.zero_lt_of_lt hdepth)
  rw [Nat.zero_add]
  exact hv g depth open_

/-- An object that is not being converted is converted by its class. -/
theorem toHostWithin_object {o : Object} {depth : Nat} {open_ : List ObjectId} (ho : h.object? id = some o)
    (hid : o.id = id) (hopen : id ∉ open_) (hp : o.primitive = none) (hf : o.func = none) :
    h.toHostWithin (depth + 1) open_ (.object id) =
      if o.cls.hasElements then .list (o.elems.toList.map (h.toHostWithin depth (id :: open_)))
      else if o.cls = .error then
        .object (["name", "message"].map fun k => (k, .string (h.toText (h.getFrom o k))))
      else .object ((o.visibleKeys.map fun k => (k, (o.own? k).getD .undefined)).map fun p =>
        (p.1, h.toHostWithin depth (id :: open_) p.2)) := by
  subst hid
  have hcontains : ¬open_.contains o.id := fun h => hopen (List.contains_iff_mem.1 h)
  rw [toHostWithin]
  simp only [ho, if_neg hcontains, hp, hf, List.map_map]
  rfl

/-- A new array stands for a list if its elements stand for the items. -/
theorem standsFor_array {vs : List Value} {items : List HostValue} (hfirst : first ≤ h.next)
    (hs : List.Forall₂ (h.StandsFor first h.next n) vs items) :
    (h.newArray vs.toArray).2.StandsFor first (h.next + 1) (n + 1) (.object h.next) (.list items) := by
  intro g hg depth open_ hdepth hopen
  obtain ⟨depth, rfl⟩ : ∃ d, depth = d + 1 := ⟨depth - 1, by omega⟩
  let o : Object :=
    { id := h.next, cls := .array, proto := h.intrinsic Intrinsic.arrayPrototype, elems := vs.toArray }
  have ho : g.object? h.next = some o :=
    (hg h.next hfirst (by lia)).trans ((object?_add _ _ _).trans (if_pos rfl))
  have hid : h.next ∉ open_ := fun hmem => by
    have := hopen _ hmem
    lia
  have hitems : List.Forall₂ (fun v x => g.toHostWithin depth (h.next :: open_) v = x) vs items := by
    refine hs.imp fun v x hv => hv g (fun id hlow hhigh => ?_) depth _ (by omega) ?_
    · rw [hg id hlow (by lia)]
      exact (object?_add _ _ _).trans (if_neg (by lia))
    · refine List.forall_mem_cons.2 ⟨.inr (Int.le_refl _), fun id hmem => ?_⟩
      have := hopen id hmem
      lia
  rw [toHostWithin_object ho rfl hid rfl rfl, if_pos (show o.cls.hasElements = true from rfl)]
  exact congrArg HostValue.list (List.forall₂_eq_eq_eq ▸ List.forall₂_map_left_iff.2 hitems)

/-- A plain object stands for an object of the host if it has the same fields with values that stand for those of the
host. -/
theorem standsFor_object {o : Object} {fields : List (String × HostValue)} (ho : h.object? id = some o) (hid : o.id = id)
    (hcls : o.cls = .object) (hp : o.primitive = none) (hf : o.func = none) {properties : List (String × Value)}
    (hproperties : o.visibleKeys.map (fun key => (key, (o.own? key).getD .undefined)) = properties) (hlt : id < next)
    (hs : List.Forall₂ (fun p f => p.1 = f.1 ∧ h.StandsFor (id + 1) next n p.2 f.2) properties fields) :
    h.StandsFor id next (n + 1) (.object id) (.object fields) := by
  intro g hg depth open_ hdepth hopen
  obtain ⟨depth, rfl⟩ : ∃ d, depth = d + 1 := ⟨depth - 1, by omega⟩
  have ho' : g.object? id = some o := (hg id (Int.le_refl _) hlt).trans ho
  have hmem : id ∉ open_ := fun hmem => by
    have := hopen _ hmem
    lia
  have hfields : List.Forall₂ (fun p f => (p.1, g.toHostWithin depth (id :: open_) p.2) = f) properties fields := by
    refine hs.imp fun p f ⟨hname, hv⟩ => Prod.ext hname (hv g (fun other hlow hhigh => ?_) depth _ (by omega) ?_)
    · exact hg other (by lia) hhigh
    · refine List.forall_mem_cons.2 ⟨.inl (by lia), fun other hmem => ?_⟩
      have := hopen other hmem
      lia
  rw [toHostWithin_object ho' hid hmem hp hf, hcls, if_neg (show ¬Class.object.hasElements = true by decide),
    if_neg (show ¬Class.object = .error by decide), hproperties]
  exact congrArg HostValue.object (List.forall₂_eq_eq_eq ▸ List.forall₂_map_left_iff.2 hfields)

/-! ### Heaps -/

theorem size_add (hf : h.Filed) (o : Object) : (h.add o).2.objects.size = h.objects.size + 1 := by
  have hnone : ¬h.objects.contains h.next := by
    rw [Std.ExtTreeMap.contains_eq_isSome_getElem?, show h.objects[h.next]? = none from hf.object?_next]
    exact Bool.false_ne_true
  show (h.objects.insert h.next _).size = _
  rw [Std.ExtTreeMap.size_insert, if_neg hnone]

end Heap

/-! ### Taking in -/

theorem Intake.bind_eq {α β : Type} {x : Intake α} {f : α → Intake β} {h h' : Heap} {a : α} (hx : x h = .ok a h') :
    (x >>= f) h = f a h' := by
  show EStateM.bind x f h = _
  unfold EStateM.bind
  rw [hx]

namespace HostValue

/-- A value that is taken in: objects that stand for it are added, and what was there is as it was. -/
structure Received (x : HostValue) (h : Heap) (v : Value) (h' : Heap) (n : Nat) : Prop where
  filed : h'.Filed
  extends_ : h.Extends h'
  size : h.objects.size + n ≤ h'.objects.size
  stands : h'.StandsFor h.next h'.next n v x

mutual

/-- A value of the host is taken in. -/
theorem receives_intake {h : Heap} (x : HostValue) (hx : x.isData) (hf : h.Filed) :
    ∃ v h' n, x.intake h = .ok v h' ∧ x.Received h v h' n := by
  cases x with
  | undefined | null | bool | number | string =>
    exact ⟨_, h, 0, rfl, hf, .refl h, Nat.le_refl _, standsFor_of_plain fun _ _ _ => rfl⟩
  | function | int | single | record | foreign => cases hx
  | list items =>
    obtain ⟨vs, h₁, n, hrun, hf₁, e₁, hsize, hs⟩ := receives_intakeAll items hx hf
    refine ⟨.object h₁.next, (h₁.newArray vs.toArray).2, n + 1, ?_, ?_, ?_, ?_, ?_⟩
    · rw [intake, Intake.bind_eq hrun]
      rfl
    · exact (keeps_newArray h₁ _ hf₁).1
    · exact e₁.trans (.add hf₁ _)
    · rw [show (h₁.newArray vs.toArray).2.objects.size = _ from size_add hf₁ _]
      omega
    · exact standsFor_array e₁.next_le hs
  | object fields =>
    obtain ⟨hn, hdata⟩ := Bool.and_eq_true_iff.1 hx
    let o : Object := { id := h.next, cls := .object, proto := h.intrinsic Intrinsic.objectPrototype }
    have ho : h.newPlain.2.object? h.next = some o := (object?_add _ _ _).trans (if_pos rfl)
    have hsize₀ : h.newPlain.2.objects.size = h.objects.size + 1 := size_add hf _
    obtain ⟨properties, h', n, hrun, hf', e, hnext, hsize, ho', -, hs⟩ :=
      receives_intakeFields fields hdata (keeps_newPlain h hf).1 ho rfl (.add hf _) hf.object?_next
    have hnames : properties.map Prod.fst = fields.map Prod.fst :=
      List.forall₂_eq_eq_eq ▸ List.forall₂_map_left_iff.2 (List.forall₂_map_right_iff.2 (hs.imp fun _ _ hs => hs.1))
    have hlisted : o.Listed := ⟨.nil, fun key => by simp [o, Object.own?]⟩
    have halike : o.Alike (properties.foldl (fun o p => o.put p.1 p.2) o) :=
      Object.alike_foldl (fun o (p : String × Value) => o.alike_put p.1 p.2) properties o
    refine ⟨.object h.next, h', n + 1, ?_, hf', e, by omega, ?_⟩
    · have hnew : (modifyGet (·.newPlain) : Intake ObjectId) h = .ok h.next h.newPlain.2 := rfl
      rw [intake, Intake.bind_eq hnew, Intake.bind_eq hrun]
      rfl
    · refine standsFor_object ho' halike.id halike.cls halike.primitive halike.func
        (hlisted.fields_foldl_put rfl rfl (by rw [hnames]; exact of_decide_eq_true hn)) ?_ hs
      exact Int.lt_of_lt_of_le (Int.lt_succ h.next) hnext

/-- The values of a list are taken in one after the other. -/
theorem receives_intakeAll {h : Heap} (xs : List HostValue) (hx : areData xs) (hf : h.Filed) :
    ∃ vs h' n, intakeAll xs h = .ok vs h' ∧ h'.Filed ∧ h.Extends h' ∧ h.objects.size + n ≤ h'.objects.size ∧
      List.Forall₂ (h'.StandsFor h.next h'.next n) vs xs := by
  cases xs with
  | nil => exact ⟨[], h, 0, rfl, hf, .refl h, Nat.le_refl _, .nil⟩
  | cons x xs =>
    obtain ⟨hx, hxs⟩ := Bool.and_eq_true_iff.1 hx
    obtain ⟨v, h₁, n₁, hrun₁, hf₁, e₁, hsize₁, hv⟩ := receives_intake x hx hf
    obtain ⟨vs, h₂, n₂, hrun₂, hf₂, e₂, hsize₂, hvs⟩ := receives_intakeAll xs hxs hf₁
    refine ⟨v :: vs, h₂, n₁ + n₂, ?_, hf₂, e₁.trans e₂, by omega, .cons ?_ (hvs.imp fun _ _ hw => ?_)⟩
    · rw [intakeAll, Intake.bind_eq hrun₁, Intake.bind_eq hrun₂]
      rfl
    · exact hv.widen (Int.le_refl _) e₂.next_le (Nat.le_add_right ..) fun id _ hid => e₂.object?_eq hid
    · exact hw.widen e₁.next_le (Int.le_refl _) (Nat.le_add_left ..) fun _ _ _ => rfl

/-- Fields are stored in a new object one after the other: it is not among what was there in the beginning. -/
theorem receives_intakeFields {h base : Heap} {id : ObjectId} {o : Object} (fields : List (String × HostValue))
    (hx : haveData fields) (hf : h.Filed) (ho : h.object? id = some o) (hid : o.id = id) (e : base.Extends h)
    (hnew : base.object? id = none) :
    ∃ (properties : List (String × Value)) (h' : Heap) (n : Nat),
      intakeFields id fields h = .ok () h' ∧ h'.Filed ∧ base.Extends h' ∧ h.next ≤ h'.next ∧
      h.objects.size + n ≤ h'.objects.size ∧
      h'.object? id = some (properties.foldl (fun o p => o.put p.1 p.2) o) ∧
      (∀ other, other ≠ id → other < h.next → h'.object? other = h.object? other) ∧
      List.Forall₂ (fun p f => p.1 = f.1 ∧ h'.StandsFor h.next h'.next n p.2 f.2) properties fields := by
  cases fields with
  | nil => exact ⟨[], h, 0, rfl, hf, e, Int.le_refl _, Nat.le_refl _, ho, fun _ _ _ => rfl, .nil⟩
  | cons field fields =>
    obtain ⟨key, x⟩ := field
    obtain ⟨hx, hfields⟩ := Bool.and_eq_true_iff.1 hx
    obtain ⟨v, h₁, n₁, hrun₁, hf₁, e₁, hsize₁, hv⟩ := receives_intake x hx hf
    have ho₁ : h₁.object? id = some o := e₁.object ho
    have hlt : id < h.next := (hf.object ho).2.2
    -- the field is stored in the new object
    have hstore : h₁.modify id (·.put key v) = h₁.store (o.put key v) := by
      rw [Heap.modify, ho₁]
    have hother {other : ObjectId} (hne : other ≠ id) : (h₁.store (o.put key v)).object? other = h₁.object? other := by
      rw [object?_store, if_neg]
      rintro rfl
      exact hne hid
    have hsize : (h₁.store (o.put key v)).objects.size = h₁.objects.size := by
      have hmem : h₁.objects.contains (o.put key v).id := by
        rw [Std.ExtTreeMap.contains_eq_isSome_getElem?]
        show (h₁.object? o.id).isSome
        rw [hid, ho₁]
        rfl
      show (h₁.objects.insert _ _).size = _
      rw [Std.ExtTreeMap.size_insert, if_pos hmem]
    have hf₂ := (keeps_modify (fun o => o.alike_put key v) h₁ id hf₁).1
    have e₂ := (e.trans e₁).modify hnew hf₁ fun o => o.alike_put key v
    rw [hstore] at hf₂ e₂
    have ho₂ : (h₁.store (o.put key v)).object? id = some (o.put key v) := (object?_store _ _ _).trans (if_pos hid)
    obtain ⟨properties, h₃, n₂, hrun₃, hf₃, e₃, hnext, hsize₃, ho₃, hsame, hs⟩ :=
      receives_intakeFields fields hfields hf₂ ho₂ hid e₂ hnew
    have hnext₁ : h₁.next ≤ h₃.next := hnext
    refine ⟨(key, v) :: properties, h₃, n₁ + n₂, ?_, hf₃, e₃, Int.le_trans e₁.next_le hnext₁, by omega, ho₃,
      fun other hne hlow => ?_, .cons ⟨rfl, ?_⟩ (hs.imp fun p f hp => ⟨hp.1, ?_⟩)⟩
    · have hput : (modify (·.modify id (·.put key v)) : Intake Unit) h₁ = .ok () (h₁.store (o.put key v)) := by
        rw [← hstore]
        rfl
      rw [intakeFields, Intake.bind_eq hrun₁]
      exact (Intake.bind_eq hput).trans hrun₃
    · rw [hsame other hne (Int.lt_of_lt_of_le hlow e₁.next_le), hother hne, e₁.object?_eq hlow]
    · -- the values before it are not touched, as the object is older
      refine hv.widen (Int.le_refl _) hnext₁ (Nat.le_add_right ..) fun other hlow hhigh => ?_
      have hne : other ≠ id := by
        rintro rfl
        lia
      rw [hsame other hne hhigh, hother hne]
    · exact hp.2.widen e₁.next_le (Int.le_refl _) (Nat.le_add_left ..) fun _ _ _ => rfl

end

/-- A value of the host can be taken in to every heap. All objects that were there are as they were, and what the
host gets for the result is the same value. -/
theorem toHost_intake {h : Heap} {x : HostValue} (hx : x.isData) (hf : h.Filed) :
    ∃ v h', x.intake h = .ok v h' ∧ h'.Filed ∧ h.Extends h' ∧ h'.toHost v = x := by
  obtain ⟨v, h', n, hrun, hr⟩ := receives_intake x hx hf
  have hsize := hr.size
  exact ⟨v, h', hrun, hr.filed, hr.extends_, hr.stands h' (fun _ _ _ => rfl) _ [] (by omega) (List.forall_mem_nil _)⟩

/-- A value that occurs several times is not cut, and the order of the fields is kept. -/
theorem toHost_intake_shared :
    let shared : HostValue := .object [("0", .string "é"), ("", .null)]
    let x : HostValue := .object
      [("length", .list [.bool true, shared, .list [shared]]), ("__proto__", shared), ("2", .undefined), ("1", .list [])]
    ∃ v h', x.intake Library.install.2 = .ok v h' ∧ h'.Filed ∧ Library.install.2.Extends h' ∧ h'.toHost v = x :=
  toHost_intake (by decide) Library.filed_install.1

end HostValue

end Stepwise

import Stepwise.Json.Basic
import Stepwise.Proofs.Json.Text

/-!
# Records decoded again

* `Decodes`: a decoder gives a value back under a condition, and never another value.
* `Json.DecodesField`: what is written for a field is decoded again, or the field has its default.
* `Json.decodes_field`: a field of a record is found under its name.
-/

namespace Stepwise

variable {α β : Type}

/-- What a decoder answers about a value: the value itself if `p` holds, and never another one. -/
structure Decodes (p : Prop) (a : α) (o : Option α) : Prop where
  complete : p → o = some a
  sound : ∀ b, o = some b → b = a

namespace Decodes

variable {p q : Prop} {a : α} {b : β} {o : Option α}

theorem some (a : α) : Decodes p a (some a) := ⟨fun _ => rfl, fun _ h => (Option.some.inj h).symm⟩

theorem mono (h : Decodes p a o) (hq : q → p) : Decodes q a o := ⟨fun hq' => h.complete (hq hq'), h.sound⟩

theorem bind {f : α → Option β} (h : Decodes p a o) (hf : Decodes p b (f a)) : Decodes p b (o.bind f) where
  complete hp := by rw [h.complete hp, Option.bind_some, hf.complete hp]
  sound c hc := by
    obtain ⟨a', ha, hb⟩ := Option.bind_eq_some_iff.1 hc
    obtain rfl := h.sound a' ha
    exact hf.sound c hb

theorem map (h : Decodes p a o) (f : α → β) : Decodes p (f a) (o.map f) := by
  rw [Option.map_eq_bind]
  exact h.bind (.some _)

/-- Items are decoded one after the other. -/
theorem mapM {encode : α → Json} {decode : Json → Option α} {l : List α}
    (h : ∀ a ∈ l, Decodes p a (decode (encode a))) : Decodes p l ((l.map encode).mapM decode) := by
  induction l with
  | nil => exact .some []
  | cons a l ih =>
    rw [List.map_cons, List.mapM_cons]
    refine (h a List.mem_cons_self).bind ?_
    refine (ih fun a ha => h a (List.mem_cons_of_mem _ ha)).bind ?_
    exact .some _

end Decodes

/-- An integer of 64 bits. -/
def Word (n : Int) : Prop := -2 ^ 63 ≤ n ∧ n < 2 ^ 63

instance (n : Int) : Decidable (Word n) := inferInstanceAs (Decidable (_ ∧ _))

/-- A map is made of its entries. -/
theorem foldl_insert_toList {κ : Type} [BEq κ] [LawfulBEq κ] {cmp : κ → κ → Ordering} [Std.TransCmp cmp]
    [Std.LawfulEqCmp cmp] [Std.LawfulBEqCmp cmp] (m : Std.ExtTreeMap κ α cmp) :
    m.toList.foldl (fun m e => m.insert e.1 e.2) ∅ = m := by
  rw [← Std.ExtTreeMap.ofList_eq_foldl]
  refine Std.ExtTreeMap.ext_getElem? fun {k} => ?_
  cases hk : m[k]? with
  | some v =>
    exact Std.ExtTreeMap.getElem?_ofList_of_mem Std.ReflCmp.compare_self m.distinct_keys_toList
      (Std.ExtTreeMap.mem_toList_iff_getElem?_eq_some.2 hk)
  | none =>
    refine Std.ExtTreeMap.getElem?_ofList_of_contains_eq_false ?_
    rw [Std.ExtTreeMap.map_fst_toList_eq_keys]
    simpa using hk

namespace Json

/-! ### Simple values -/

theorem decodes_int64? (n : Int) : Decodes (Word n) n (Json.int n).int64? := by
  unfold int64?
  rw [int?_int, Option.filter_some]
  split
  · exact .some n
  · rename_i h
    exact ⟨fun hn => absurd (decide_eq_true hn) h, nofun⟩

theorem decodes_uint64? (n : Nat) : Decodes (n < 2 ^ 64) n (Json.nat n).uint64? := by
  unfold uint64?
  rw [show Json.nat n = Json.int n from rfl, int?_int, Option.filter_some]
  split
  · exact .some n
  · rename_i h
    refine ⟨fun hn => absurd (decide_eq_true ⟨Int.natCast_nonneg n, ?_⟩) h, nofun⟩
    exact_mod_cast hn

/-- The entries of a map are decoded one after the other. -/
theorem decodes_entries {p : Prop} {encode : α → Json} {decode : Json → Option α} (m : Std.ExtTreeMap String α)
    (h : ∀ e ∈ m.toList, Decodes p e.2 (decode (encode e.2))) :
    Decodes p m ((m.toList.map fun e => (e.1, encode e.2)).foldlM
      (fun m e => (decode e.2).map (m.insert e.1)) (∅ : Std.ExtTreeMap String α)) := by
  have hm : m.toList.foldl (fun m e => m.insert e.1 e.2) ∅ = m := foldl_insert_toList m
  generalize m.toList = l at h hm
  subst hm
  generalize (∅ : Std.ExtTreeMap String α) = m
  induction l generalizing m with
  | nil => exact .some m
  | cons e l ih =>
    rw [List.map_cons, List.foldlM_cons, List.foldl_cons]
    refine ((h e List.mem_cons_self).map (m.insert e.1)).bind ?_
    exact ih (fun e he => h e (List.mem_cons_of_mem _ he)) _

/-! ### Fields -/

/-- What is written for a field is decoded again; what is left out has its default. -/
def DecodesField (p : Prop) (a default : α) (decode : Json → Option α) : Option Json → Prop
  | none => a = default
  | some j => j ≠ .null ∧ Decodes p a (decode j)

section

variable {p : Prop} {a default : α} {encode : α → Json} {decode : Json → Option α}

theorem decodesField_optional {keep : Bool} {j : Json} (hd : keep = false → a = default) (hj : j ≠ .null)
    (h : keep = true → Decodes p a (decode j)) : DecodesField p a default decode (optional keep j) := by
  cases keep with
  | false => exact hd rfl
  | true => exact ⟨hj, h rfl⟩

theorem decodesField_int (n : Int) (h : p → Word n) : DecodesField p n 0 int64? (some (.int n)) :=
  ⟨nofun, (decodes_int64? n).mono h⟩

theorem decodesField_nonzero (n : Int) (h : p → Word n) :
    DecodesField p n 0 int64? (optional (n != 0) (.int n)) :=
  decodesField_optional (by simp) nofun fun _ => (decodes_int64? n).mono h

theorem decodesField_nat (n : Nat) (h : p → n < 2 ^ 64) : DecodesField p n 0 uint64? (some (.nat n)) :=
  ⟨nofun, (decodes_uint64? n).mono h⟩

theorem decodesField_positive (n : Nat) (h : p → n < 2 ^ 64) :
    DecodesField p n 0 uint64? (optional (n != 0) (.nat n)) :=
  decodesField_optional (by simp) nofun fun _ => (decodes_uint64? n).mono h

theorem decodesField_flag (b : Bool) : DecodesField p b false flag? (optional b (.bool true)) :=
  decodesField_optional id nofun fun h => by rw [h]; exact .some true

theorem decodesField_text (s : String) : DecodesField p s "" text? (optional (!s.isEmpty) (.str s)) :=
  decodesField_optional (by simp) nofun fun _ => .some s

theorem decodesField_texts (l : List String) :
    DecodesField p l [] (items? text?) (optional (!l.isEmpty) (.strs l)) :=
  decodesField_optional (by simp) nofun fun _ => .mapM fun s _ => .some s

theorem decodesField_items {l : List α} (h : ∀ a ∈ l, Decodes p a (decode (encode a))) :
    DecodesField p l [] (items? decode) (some (.arr (l.map encode))) := ⟨nofun, .mapM h⟩

theorem decodesField_nonempty {l : List α} (h : ∀ a ∈ l, Decodes p a (decode (encode a))) :
    DecodesField p l [] (items? decode) (optional (!l.isEmpty) (.arr (l.map encode))) :=
  decodesField_optional (by simp) nofun fun _ => .mapM h

theorem decodesField_given {o : Option α} (hj : ∀ a, encode a ≠ .null)
    (h : ∀ a, o = some a → Decodes p a (decode (encode a))) :
    DecodesField p o none (fun j => some <$> decode j) (o.map encode) := by
  cases o with
  | none => rfl
  | some a => exact ⟨hj a, (h a rfl).map some⟩

end

/-- The members of a record that are to be read. -/
def given (fields : List (String × Option Json)) : List (String × Json) :=
  fields.filterMap fun (name, j) => j.map fun j => (name, j)

theorem sameName_self (name : String) : sameName name name := beq_self_eq_true _

theorem sameName_comm (a b : String) : sameName a b = sameName b a := Bool.beq_comm

variable {fields : List (String × Option Json)} {name : String} {decode : Json → Option α}

theorem fieldD_cons_of_ne {key : String} (h : sameName key name = false) (j : Option Json) (default : α) :
    fieldD (given ((key, j) :: fields)) name default decode = fieldD (given fields) name default decode := by
  cases j with
  | none => rfl
  | some j =>
    show fieldD ((key, j) :: given fields) name default decode = _
    simp only [fieldD, List.foldlM_cons, h, Bool.false_eq_true, if_false, Option.bind_eq_bind, Option.bind_some]

/-- A field that a record does not have keeps its default. -/
theorem fieldD_of_ne (h : ∀ f ∈ fields, sameName f.1 name = false) (default : α) :
    fieldD (given fields) name default decode = some default := by
  induction fields with
  | nil => rfl
  | cons f fields ih =>
    rw [fieldD_cons_of_ne (h f List.mem_cons_self)]
    exact ih fun f hf => h f (List.mem_cons_of_mem _ hf)

theorem fieldD_cons_self {j : Json} (hj : j ≠ .null) (h : ∀ f ∈ fields, sameName f.1 name = false) (default : α) :
    fieldD (given ((name, some j) :: fields)) name default decode = decode j := by
  have hrest : (fun x => fieldD (given fields) name x decode) = some := funext (fieldD_of_ne h)
  show fieldD ((name, j) :: given fields) name default decode = _
  unfold fieldD at hrest ⊢
  simp only [List.foldlM_cons, sameName_self, if_true, Option.bind_eq_bind, hrest, Option.bind_fun_some]

/-- Whether no two names agree up to the case of their letters. -/
def Distinct (names : List String) : Prop := names.Pairwise fun a b => sameName b a = false

instance (names : List String) : Decidable (Distinct names) := inferInstanceAs (Decidable (List.Pairwise _ _))

/-- A field of a record is found under its name. -/
theorem decodes_field {p : Prop} {a default : α} {j : Option Json} (hd : Distinct (fields.map Prod.fst)) (i : Nat)
    (hf : fields[i]? = some (name, j)) (hj : DecodesField p a default decode j) :
    Decodes p a (fieldD (given fields) name default decode) := by
  induction fields generalizing i with
  | nil => cases hf
  | cons f fields ih =>
    obtain ⟨hlt, hd⟩ := List.pairwise_cons.1 hd
    cases i with
    | zero =>
      obtain rfl := Option.some.inj hf
      have hne (g : String × Option Json) (hg : g ∈ fields) : sameName g.1 name = false :=
        hlt g.1 (List.mem_map_of_mem hg)
      cases j with
      | none =>
        obtain rfl := hj
        show Decodes p a (fieldD (given fields) name a decode)
        rw [fieldD_of_ne hne]
        exact .some a
      | some j =>
        rw [fieldD_cons_self hj.1 hne]
        exact hj.2
    | succ i =>
      have hne : sameName f.1 name = false := by
        rw [sameName_comm]
        have hmem : (name, j) ∈ fields := List.mem_of_getElem? hf
        exact hlt name (List.mem_map_of_mem hmem)
      rw [fieldD_cons_of_ne hne]
      exact ih hd i hf

/-- A decoder of records gives a value back if its fields do. -/
theorem decodes_record {p : Prop} {b : β} {f : List (String × Json) → Option β} (names : List String)
    (hn : fields.map Prod.fst = names) (hd : Distinct names)
    (h : (∀ {α : Type} {a default : α} {decode : Json → Option α} {name : String} {j : Option Json} (i : Nat),
      fields[i]? = some (name, j) → DecodesField p a default decode j →
        Decodes p a (fieldD (given fields) name default decode)) → Decodes p b (f (given fields))) :
    Decodes p b ((record fields).members?.bind f) := by
  subst hn
  exact h fun i hf hj => decodes_field hd i hf hj

/-! ### The numbers of a record -/

/-- Whether the numbers of what is written for a field are all integers. -/
def WholeField (j : Option Json) : Prop := ∀ i ∈ j, i.Whole

@[simp] theorem wholeField_some {j : Json} : WholeField (some j) ↔ j.Whole := by simp [WholeField]

theorem wholeField_optional {j : Json} (h : j.Whole) (keep : Bool) : WholeField (optional keep j) := by
  cases keep with
  | false => nofun
  | true => exact wholeField_some.2 h

theorem wholeField_map {encode : α → Json} {o : Option α} (h : ∀ a, (encode a).Whole) :
    WholeField (o.map encode) := by
  cases o with
  | none => nofun
  | some a => exact wholeField_some.2 (h a)

theorem whole_record (h : ∀ f ∈ fields, WholeField f.2) : (record fields).Whole := by
  refine .obj fun m hm => ?_
  obtain ⟨⟨name, j⟩, hf, hm⟩ := List.mem_filterMap.1 hm
  obtain ⟨i, hi, rfl⟩ := Option.map_eq_some_iff.1 hm
  exact h (name, j) hf i hi

theorem whole_arr {encode : α → Json} (h : ∀ a, (encode a).Whole) (l : List α) : (arr (l.map encode)).Whole :=
  .arr (List.forall_mem_map.2 fun a _ => h a)

theorem whole_strs (l : List String) : (strs l).Whole := whole_arr .str l

theorem whole_entries {encode : α → Json} (h : ∀ a, (encode a).Whole) (l : List (String × α)) :
    (obj (l.map fun e => (e.1, encode e.2))).Whole := .obj (List.forall_mem_map.2 fun e _ => h e.2)

end Json

end Stepwise

import Stepwise.Proofs.Heap.Tidy
import Stepwise.Proofs.Machine.WellFormed

/-!
# Machines with tidy heaps

* `Machine.tidies_step`: a step, however it ends, leaves a tidy heap tidy.
* `Machine.Reachable.tidy`: so the heap of every machine that a program reaches is tidy.
* `SessionFunction.tidies_toHost`: what the functions of a session add does not change that.
-/

namespace Stepwise

open Heap

variable {ω : Type}

/-- A function of the host that leaves a tidy heap tidy. -/
def HostFunction.Tidies (f : HostFunction ω) : Prop := ∀ call (h : Heap) world, h.Tidies (f.run call h world).2.1

/-- Hiding properties stores no new ones. -/
theorem Object.Tidy.hideVisible {o : Object} (ht : o.Tidy) : (Machine.hideVisible o).Tidy := by
  refine ht.of_keys (Machine.alike_hideVisible o).cls ?_
  have hfold (l : List String) (p : Object) (hl : ∀ k ∈ l, k ∈ o.keys) (hp : ∀ k ∈ p.keys, k ∈ o.keys) :
      ∀ k ∈ (l.foldl (fun p k => if p.hidden.contains k then p else p.putHidden k ((p.own? k).getD .undefined)) p).keys,
        k ∈ o.keys := by
    induction l generalizing p with
    | nil => exact hp
    | cons key l ih =>
      obtain ⟨hkey, hl⟩ := List.forall_mem_cons.1 hl
      refine ih _ hl ?_
      dsimp only
      split
      · exact hp
      · intro k hk
        rcases eq_or_mem_keys_of_putHidden hk with rfl | hk
        · exact hkey
        · exact hp k hk
  exact hfold o.keys o (fun _ hk => hk) fun _ hk => hk

namespace Machine

variable {c : Setting ω} {m : Machine}

/-! ### Steps -/

theorem tidies_fail (m : Machine) (e : Failure) : m.heap.Tidies (m.fail e).2.heap := by
  cases e with
  | thrown | fault => exact .refl _
  | raised t =>
    have hc : m.heap.Changes (m.raise t).2.heap := (Changes.error m.heap _ _).trans (.hide (names_newError _ _ _) _ _)
    exact hc.tidies

theorem tidies_step (hh : ∀ f ∈ c.host, f.Tidies) (m : Machine) (world : ω) :
    m.heap.Tidies (m.step c world).2.1.heap := by
  intro ht
  rcases hs : m.step c world with ⟨outcome, m', world'⟩
  cases takes_of_step hs with
  | ended => exact ht
  | @moved _ _ _ f _ _ _ ha he =>
    obtain rfl : _ = m' := congrArg Prod.snd he
    have hf : f.heap.Tidy := ha.heap (fun _ _ hc => hc.tidies) (fun f hf call h w => hh f hf call h w) ht
    rw [snd_move, (heap_apply _ _ _ _).1]
    exact hf
  | @failed _ _ e f _ _ _ ha he =>
    obtain rfl : _ = m' := congrArg Prod.snd he
    have hf : f.heap.Tidy := ha.heap (fun _ _ hc => hc.tidies) (fun f hf call h w => hh f hf call h w) ht
    exact tidies_fail _ _ hf

theorem tidies_run (hh : ∀ f ∈ c.host, f.Tidies) (limit done : Nat) (m : Machine) (world : ω) :
    m.heap.Tidies (run.go c limit done m world).machine.heap := fun ht =>
  run_induct (P := fun m => m.heap.Tidy) (fun m world => tidies_step hh m world) limit done ht world

/-! ### The start -/

theorem tidy_enter (ht : m.heap.Tidy) (hg : (m.heap.scope? m.global).isSome) (p : Program) : (m.enter c p).heap.Tidy :=
  ht.hoist p.declarations hg

theorem tidy_bare : bare.heap.Tidy := by
  have ht := Library.tidy_install
  rw [bare_eq]
  generalize Library.install = i at ht ⊢
  exact ht

theorem tidy_withLibrary (h : withLibrary c = .ok m) : m.heap.Tidy := by
  obtain ⟨l, -, hl, rfl⟩ := withLibrary_eq h
  have hr : l.heap.Tidy :=
    hl ▸ tidies_run (c := c.alone) (by simp [Setting.alone]) endless 0 _ ()
      (tidy_enter tidy_bare wellFormed_bare.global c.library)
  exact tidies_modify alike_hideVisible (fun _ ht => ht.hideVisible) _ _ hr

theorem tidy_bindHosts (hm : m.WellFormed) (ht : m.heap.Tidy) (names : List String) :
    (names.foldl bindHost m).heap.Tidy := by
  induction names generalizing m with
  | nil => exact ht
  | cons name names ih =>
    have hn : FunctionInfo.IsNamed ⟨name, .native ("host." ++ name), 0⟩ := by simp [FunctionInfo.IsNamed]
    have ht' := tidies_newFunction m.heap hn ht
    obtain ⟨s, hs⟩ := Option.isSome_iff_exists.1
      ((keeps_newFunction m.heap hn hm.heap.toFiled).2.isSome_scope? hm.global)
    exact ih (wellFormed_bindHost hm name) (tidies_names (·.alike_putHidden name _) (ht'.names hs) ht')

theorem tidy_start (h : start c = .ok m) : m.heap.Tidy := by
  obtain ⟨l, names, hl, -, rfl⟩ := start_eq h
  have hw := wellFormed_withLibrary hl
  exact tidy_enter (tidy_bindHosts hw (tidy_withLibrary hl) names) (wellFormed_bindHosts hw names).global c.program

/-- The heap of every machine that a program reaches is tidy. -/
theorem Reachable.tidy (hh : ∀ f ∈ c.host, f.Tidies) {world : ω} (h : m.Reachable c world) : m.heap.Tidy := by
  induction h with
  | start h world => exact tidy_start h
  | step h hs ih =>
    rename_i world _
    have ht := tidies_step hh _ world ih
    rw [hs] at ht
    exact ht

end Machine

/-! ### Functions of a session -/

/-- Values are added to a tidy heap, with what then holds of the result: the heap stays tidy, and what it holds stays. -/
def Intake.Adds {α : Type} (x : Intake α) (Q : α → Heap → Prop) (h : Heap) : Prop :=
  match x h with
  | .ok a h' => h'.Tidy ∧ h.Grows h' ∧ Q a h'
  | .error _ h' => h'.Tidy

theorem Intake.Adds.bind {α β : Type} {Q : α → Heap → Prop} {R : β → Heap → Prop} {x : Intake β} {f : β → Intake α}
    {h : Heap} (hx : x.Adds R h) (hf : ∀ b h', h'.Tidy → h.Grows h' → R b h' → (f b).Adds Q h') :
    Intake.Adds (x >>= f) Q h := by
  unfold Adds at hx ⊢
  have he : (x >>= f) h = EStateM.bind x f h := rfl
  rw [he]
  unfold EStateM.bind
  cases hr : x h with
  | error e h' =>
    rw [hr] at hx
    exact hx
  | ok b h' =>
    rw [hr] at hx
    obtain ⟨ht, g, hb⟩ := hx
    have hy := hf b h' ht g hb
    unfold Adds at hy
    dsimp only
    split
    · rename_i he'
      rw [he'] at hy
      exact ⟨hy.1, g.trans hy.2.1, hy.2.2⟩
    · rename_i he'
      rw [he'] at hy
      exact hy

namespace HostValue

mutual

theorem adds_intake {h : Heap} (x : HostValue) (ht : h.Tidy) : x.intake.Adds (fun _ _ => True) h := by
  cases x with
  | undefined | null | bool | number | string | int | single => exact ⟨ht, .refl h, trivial⟩
  | function | foreign => exact ht
  | list items =>
    refine .bind (adds_intakeAll items ht) fun elems h' ht' _ _ => ?_
    have hc := Changes.newArray h' elems.toArray
    exact ⟨hc.tidies ht', (hc.keeps ht'.toFiled).2, trivial⟩
  | object fields | record fields =>
    have hc := Changes.newPlain h
    have hnew : Intake.Adds (modifyGet (·.newPlain)) (fun id h => h.Names id) h :=
      ⟨hc.tidies ht, (hc.keeps ht.toFiled).2, names_add h rfl⟩
    refine .bind hnew fun id h' ht' _ hn => ?_
    exact .bind (adds_intakeFields id fields ht' hn) fun _ h'' ht'' _ _ => ⟨ht'', .refl h'', trivial⟩

theorem adds_intakeAll {h : Heap} (xs : List HostValue) (ht : h.Tidy) : (intakeAll xs).Adds (fun _ _ => True) h := by
  cases xs with
  | nil => exact ⟨ht, .refl h, trivial⟩
  | cons x xs =>
    refine .bind (adds_intake x ht) fun v h' ht' _ _ => ?_
    exact .bind (adds_intakeAll xs ht') fun vs h'' ht'' _ _ => ⟨ht'', .refl h'', trivial⟩

theorem adds_intakeFields {h : Heap} (id : ObjectId) (fields : List (String × HostValue)) (ht : h.Tidy)
    (hn : h.Names id) : (intakeFields id fields).Adds (fun _ _ => True) h := by
  cases fields with
  | nil => exact ⟨ht, .refl h, trivial⟩
  | cons field fields =>
    obtain ⟨key, x⟩ := field
    refine .bind (adds_intake x ht) fun v h' ht' g _ => ?_
    have ha (o : Object) : o.Alike (o.put key v) := o.alike_put key v
    have hput : Intake.Adds (modify (·.modify id (·.put key v))) (fun _ h => h.Names id) h' :=
      have g' := (keeps_modify ha h' id ht'.toFiled).2
      ⟨tidies_names ha (hn.mono g) ht', g', (hn.mono g).mono g'⟩
    exact .bind hput fun _ h'' ht'' _ hn' => adds_intakeFields id fields ht'' hn'

end

end HostValue

/-- The functions of a session leave a tidy heap tidy. -/
theorem SessionFunction.tidies_toHost {σ : Type} (f : SessionFunction σ) : f.toHost.Tidies := by
  intro call h world ht
  have haccept (logged : Bool) (result : Except String HostValue) : (accept f.name h logged result).2.Tidy := by
    unfold accept
    split
    · exact ht
    · rename_i x
      split
      · exact ht
      · have hy := x.adds_intake ht
        unfold Intake.Adds at hy
        split <;> rename_i he <;> rw [he] at hy
        · exact hy.1
        · exact hy
  exact haccept _ _

end Stepwise

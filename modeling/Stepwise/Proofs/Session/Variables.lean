import Stepwise.Proofs.Machine.Bound
import Stepwise.Proofs.Session.Frames

/-!
# The variables of running functions

* `Machine.builds_step`: where nothing is deleted, names stay bound in every step, however it ends.
* `Machine.Declares`: the scopes of the program and of the functions that are running bind their variables.
* `Machine.Declares.lasts`: this holds at the start, and every step that does not fault keeps it.
-/

namespace Stepwise

open Heap RuleM

variable {ω : Type}

/-- Nothing in the program or the library deletes a property. -/
def Setting.Spares (c : Setting ω) : Prop := ∀ n, c.Holds n → n.isDelete = false

variable {c : Setting ω} {m m' : Machine}

/-- Whatever the effect of a rule, names stay bound if it deletes nothing. -/
theorem Effect.builds {f : Frame} {mv : Move} {h : Heap} (hd : f.top.node.isDelete = false) (hf : f.Sound)
    (e : Effect c f mv h) : f.heap.Builds (fun _ => True) h := by
  cases e with
  | edits e => exact (e.builds (by simp [hd]) hf.heap).mono fun _ => False.elim
  | @function callable =>
    obtain ⟨_, b, -⟩ := builds_evalFunction hf.heap.toFiled callable f.top.scope
    exact b.mono fun _ _ => trivial
  | @enter h id closure callable this args e =>
    have hw := (e.wellFormed hf.heap).1
    refine ((e.builds not_false hf.heap).mono fun _ => False.elim).trans ?_
    exact (builds_bindCall hw.toFiled closure callable this args).1.mono fun _ _ => trivial

namespace Machine

theorem builds_fail (hw : m.heap.WellFormed) (e : Failure) : m.heap.Builds (fun _ => True) (m.fail e).2.heap := by
  cases e with
  | thrown | fault => exact .refl _
  | raised t =>
    have e : m.heap.Edits False (m.heap.newError t.type.name t.message).2 := edits_newError hw _ _
    exact ((e.builds not_false hw).mono fun _ => False.elim).trans (builds_putHidden _ _ _ _)

theorem builds_move {top : State} {below : List State} (mv : Move) :
    m.heap.Builds (fun _ => True) (m.move c top below mv).2.heap := by
  rw [snd_move, (heap_apply m top below mv).1]

/-- Where nothing is deleted, names stay bound, however a step ends. -/
theorem builds_step (hc : c.IsRead) (hd : c.Spares) (hh : ∀ f ∈ c.host, f.Sound) (hm : m.WellFormed) (hs : m.Sound c)
    (world : ω) : m.heap.Builds (fun _ => True) (m.step c world).2.1.heap := by
  rcases hstep : m.step c world with ⟨outcome, m', world'⟩
  have hkeeps {s : State} {below : List State} {r : EStateM.Result Failure Frame Move} {world' : ω}
      (ha : m.Asks c s below world r world') : s.node.isDelete = false :=
    hd _ (hc.mem_of_node? (hs.node s (ha.stack ▸ List.mem_cons_self))).1
  cases takes_of_step hstep with
  | ended => exact .refl _
  | moved ha he =>
    obtain rfl : _ = m' := congrArg Prod.snd he
    exact ((ha.ends hh hm).1.effect.builds (hkeeps ha) (ha.sound hm)).trans (builds_move (m := { m with heap := _ }) _)
  | @failed s _ e f _ _ _ ha he =>
    obtain rfl : _ = m' := congrArg Prod.snd he
    have hr := ha.fails hh hm
    have b : m.heap.Builds (fun _ => True) _ := (hr.edits.builds not_false hm.heap).mono fun _ => False.elim
    exact b.trans (builds_fail (m := { m with heap := _, stack := _ }) (hr.edits.wellFormed hm.heap).1 _)

/-- The global scope binds the variables of the program, and the scope of each body on the stack those of its
function. -/
structure Declares (c : Setting ω) (m : Machine) : Prop where
  global : ∀ x ∈ c.program.locals, m.heap.Declares m.global x
  body : ∀ t s below, t :: s :: below <:+ m.stack → s.isActiveCall → ∀ o n callable, m.heap.deref? s.func = some o →
    c.functionNode? o = some (n, callable) → ∀ x ∈ "this" :: callable.bound, m.heap.Declares t.scope x

theorem declares_start (h : Machine.start c = .ok m) : m.Declares c := by
  refine ⟨fun x hx => ?_, fun t s below hsuf => ?_⟩
  · obtain ⟨l, names, hl, -, rfl⟩ := start_eq h
    obtain ⟨hf, hs, -⟩ := filed_withLibrary hl
    have hb := keeps_bindHosts hf names
    obtain ⟨d, hd, rfl⟩ := List.mem_map.1 (List.mem_eraseDups.1 hx)
    exact declares_hoist hb.heap.1 (hb.scope hs) hd
  · have hl := hsuf.length_le
    rw [(stack_start h).2] at hl
    simp at hl

/-- What is known of two states on the stack is still known of them when the heap has grown. -/
theorem Declares.grows (hd : m.Declares c) (hm : m.WellFormed) {h : Heap} (b : m.heap.Builds (fun _ => True) h)
    {t s : State} {below : List State} (hsuf : t :: s :: below <:+ m.stack) (hactive : s.isActiveCall) {o : Object}
    {n : Node} {callable : Callable} (ho : h.deref? s.func = some o) (hn : c.functionNode? o = some (n, callable)) :
    ∀ x ∈ "this" :: callable.bound, h.Declares t.scope x := by
  have hf := hm.heap.toFiled
  have hs : s ∈ m.stack := hsuf.subset (by simp)
  have hobject : s.func.isObject := by
    unfold Heap.deref? at ho
    split at ho
    · rename_i hfunc
      rw [hfunc]
      rfl
    · cases ho
  obtain ⟨o', ho', -⟩ := (hm.stack s hs).func.deref? hm.heap hobject
  obtain ⟨o'', ho'', ha⟩ := (b.keeps hf).2.deref? ho'
  cases ho.symm.trans ho''
  have hn' : c.functionNode? o' = some (n, callable) := by
    rw [← hn]
    unfold Setting.functionNode?
    rw [ha.func]
  exact fun x hx => b.declares hf (hd.body t s below hsuf hactive o' n callable ho' hn' x hx)

/-- Every step that does not fault keeps the variables of the scopes bound. -/
theorem Declares.step (hc : c.IsRead) (hspares : c.Spares) (hk : ∀ f ∈ c.host, f.Keeps) (hh : ∀ f ∈ c.host, f.Sound)
    (hm : m.Running c) (hd : m.Declares c) (world : ω) (hm' : (m.step c world).2.1.Running c) :
    (m.step c world).2.1.Declares c := by
  have b := builds_step hc hspares hh hm.wellFormed hm.sound world
  obtain ⟨hglobal, -, hstack⟩ := moves_step hk hm.sound.filed world
  generalize (m.step c world).2.1 = m' at b hglobal hstack hm' ⊢
  refine ⟨fun x hx => ?_, fun t s below hsuf hactive o n callable ho hn => ?_⟩
  · rw [hglobal]
    exact b.declares hm.sound.filed (hd.global x hx)
  · -- states that were there
    have hold {stack : List State} (hsinks : Sinks m.stack stack) (hsuf : t :: s :: below <:+ stack) :
        ∀ x ∈ "this" :: callable.bound, m'.heap.Declares t.scope x := by
      rcases hsinks with rfl | ⟨u, u', rest, hlow, ha, rfl⟩
      · cases List.suffix_nil.1 hsuf
      · rcases List.suffix_cons_iff.1 hsuf with he | hsuf
        · cases he
          rw [ha.scope]
          exact hd.grows hm.wellFormed b hlow hactive ho hn
        · exact hd.grows hm.wellFormed b ((hsuf.trans (List.suffix_cons u rest)).trans hlow) hactive ho hn
    rcases hstack with ⟨u, u', rest, node, scope, components, labels, he, ha, -, he', hfits⟩ | ⟨-, hsinks⟩
    · rw [he'] at hsuf
      rcases List.suffix_cons_iff.1 hsuf with heq | hsuf
      · cases heq
        rcases hfits with ⟨-, hscope⟩ | hen
        · -- a part is no body
          have hbusy := hm'.busy
          rw [he'] at hbusy
          exact absurd hscope (hbusy _ _ _ (List.suffix_refl _) hactive)
        · obtain ⟨o', info, id, closure, callable', ho', hi, hcode, hcall, -, -, hdeclares⟩ := hen.body
          cases ho.symm.trans ho'
          have hcallable : callable' = callable := by
            unfold Setting.functionNode? at hn
            rw [hi] at hn
            obtain ⟨n', hid, hcall'⟩ := Option.bind_eq_some_iff.1 hcall
            simp [hcode, hid, hcall'] at hn
            exact hn.2
          exact hcallable ▸ hdeclares
      · exact hold (he ▸ .head ha rest) hsuf
    · exact hold hsinks hsuf

/-- While a program runs that deletes nothing, the variables of its scopes are bound. -/
theorem Declares.lasts (hc : c.IsRead) (hsize : c.program.nodes.length < 2 ^ 24) (hspares : c.Spares)
    (hk : ∀ f ∈ c.host, f.Keeps) (hh : ∀ f ∈ c.host, f.Sound) :
    Machine.Lasts c fun m => m.Running c ∧ m.Declares c where
  start m h := ⟨(Running.lasts hc hsize hk hh).start m h, declares_start h⟩
  step m world h hf := by
    have hm' := (Running.lasts hc hsize hk hh).step m world h.1 hf
    exact ⟨hm', h.2.step hc hspares hk hh h.1 world hm'⟩
  sound _ h := h.1.sound

end Machine

end Stepwise

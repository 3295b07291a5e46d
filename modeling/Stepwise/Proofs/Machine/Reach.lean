import Mathlib.Data.List.Nodup
import Mathlib.Logic.Relation
import Stepwise.Proofs.Heap.Install
import Stepwise.Proofs.Machine.Node
import Stepwise.Proofs.Machine.Step

/-!
# Machines that a program reaches

* `Machine.Reachable`: the machine at the start of a program, and what steps that advance lead to.
* `Machine.withLibrary_eq` and `Machine.start_eq`: how a machine comes to the start. `Machine.run_induct`: what every step
  keeps, a run keeps.
* `Machine.Sound`: what all of them have in common. The states on the stack have nodes and scopes that can
  be found, and identities that grow from the bottom to the top.
* `Machine.Reachable.sound`: the invariant holds at the start, and every step keeps it.
* `Machine.Reachable.grounded`: as long as steps advance, the state of the program is at the bottom.
* `Machine.Bears` and `Machine.Spent`: what becomes of a state. It lies on the same states until it leaves the stack, and
  then its identity is spent for good.
* `Machine.steps_local`: whatever the host and the program do, a step acts on the top of the stack, and no identity is
  given to two states of a run.
-/

namespace Stepwise

deriving instance DecidableEq for Value
deriving instance DecidableEq for Reference

variable {ω : Type}

namespace Machine

/-- The machine at the start of a program, and every machine that steps lead to. -/
inductive Reachable (c : Setting ω) : Machine → ω → Prop where
  | start {m : Machine} (h : Machine.start c = .ok m) (world : ω) : Reachable c m world
  | step {m m' : Machine} {world world' : ω} (h : Reachable c m world)
    (hs : m.step c world = (.advanced, m', world')) : Reachable c m' world'

/-- What all machines that a program reaches have in common. -/
structure Sound (c : Setting ω) (m : Machine) : Prop where
  filed : m.heap.Filed
  node : ∀ s ∈ m.stack, c.node? s.node.id = some s.node
  scope : ∀ s ∈ m.stack, (m.heap.scope? s.scope).isSome
  ordered : m.stack.Pairwise fun s below => below.id < s.id
  le_lastId : ∀ s ∈ m.stack, s.id ≤ m.lastId

end Machine

namespace Machine

variable {c : Setting ω} {m m' : Machine}

/-! ### The start -/

/-- A heap after some steps or preparations, with the same global scope. -/
structure Keeps (m m' : Machine) : Prop where
  global : m'.global = m.global
  heap : m'.heap.Filed ∧ m.heap.Grows m'.heap

theorem Keeps.trans {m'' : Machine} (h : m.Keeps m') (h' : m'.Keeps m'') : m.Keeps m'' :=
  ⟨h'.global.trans h.global, h'.heap.1, h.heap.2.trans h'.heap.2⟩

/-- The global scope is still there. -/
theorem Keeps.scope (h : m.Keeps m') (hs : (m.heap.scope? m.global).isSome) :
    (m'.heap.scope? m'.global).isSome := by
  obtain ⟨s, hs⟩ := Option.isSome_iff_exists.1 hs
  rw [h.global, h.heap.2.scope hs]
  rfl

/-- What every step keeps, however it ends, a run keeps. -/
theorem run_induct {P : Machine → Prop} (hstep : ∀ m world, P m → P (m.step c world).2.1) (limit done : Nat) (hm : P m)
    (world : ω) : P (run.go c limit done m world).machine := by
  induction limit generalizing done m world with
  | zero => exact hm
  | succ limit ih =>
    have hs := hstep m world hm
    unfold run.go
    split
    · rename_i m' world' he
      rw [he] at hs
      exact ih (done + 1) hs world'
    · rename_i outcome m' world' _ he
      rw [he] at hs
      exact hs

/-- Steps keep the heap, however they end. -/
theorem keeps_run (hc : ∀ f ∈ c.host, f.Keeps) (limit done : Nat) (hf : m.heap.Filed) (world : ω) :
    m.Keeps (run.go c limit done m world).machine := by
  refine run_induct (fun m' world hk => ?_) limit done ⟨rfl, hf, .refl _⟩ world
  have hm := moves_step hc hk.heap.1 world
  exact hk.trans ⟨hm.global, hm.heap hk.heap.1⟩

theorem keeps_enter (hf : m.heap.Filed) (p : Program) : m.Keeps (m.enter c p) :=
  ⟨rfl, Heap.keeps_hoist _ _ _ hf⟩

theorem alike_hideVisible (o : Object) : o.Alike (hideVisible o) := by
  refine Object.alike_foldl (fun o k => ?_) _ o
  split
  · exact .refl o
  · exact Object.alike_putHidden _ _ _

theorem keeps_bindHost (hf : m.heap.Filed) (name : String) : m.Keeps (m.bindHost name) := by
  have hn : FunctionInfo.IsNamed ⟨name, .native ("host." ++ name), 0⟩ := by
    simp [FunctionInfo.IsNamed]
  have hk := Heap.Keeps.trans (Heap.keeps_newFunction m.heap hn)
    (Heap.keeps_putHidden _ m.global name (.object (m.heap.newFunction ⟨name, .native ("host." ++ name), 0⟩).1))
  exact ⟨rfl, hk hf⟩

theorem keeps_bindHosts (hf : m.heap.Filed) (names : List String) : m.Keeps (names.foldl bindHost m) := by
  induction names generalizing m with
  | nil => exact ⟨rfl, hf, .refl _⟩
  | cons name names ih =>
    have hk := keeps_bindHost hf name
    exact hk.trans (ih hk.heap.1)

theorem stack_bindHosts (names : List String) (m : Machine) : (names.foldl bindHost m).stack = m.stack := by
  induction names generalizing m with
  | nil => rfl
  | cons name names ih => exact ih (m.bindHost name)

theorem bare_eq : bare = ⟨Library.install.1, Library.install.2, [], 0⟩ := by
  unfold bare
  generalize Library.install = i
  rfl

theorem filed_bare : bare.heap.Filed ∧ (bare.heap.scope? bare.global).isSome := by
  obtain ⟨hf, hs⟩ := Library.filed_install
  rw [bare_eq]
  dsimp only
  exact ⟨hf, by rw [hs]; rfl⟩

/-- The library's own code has come to its end, and then what it has added to arrays is hidden. -/
theorem withLibrary_eq (h : withLibrary c = .ok m) :
    ∃ l : Machine, ((bare.enter c.alone c.library).run c.alone endless ()).outcome = .ended ∧
      ((bare.enter c.alone c.library).run c.alone endless ()).machine = l ∧
      m = { l with heap := l.heap.modify (l.heap.intrinsic Intrinsic.arrayPrototype) hideVisible, stack := [] } := by
  unfold withLibrary at h
  generalize (bare.enter c.alone c.library).run c.alone endless () = r at h ⊢
  dsimp only at h
  split at h
  · cases h
    exact ⟨r.machine, ‹_›, rfl, rfl⟩
  · cases h

/-- After the library, the functions of the host are bound, and then the program starts. -/
theorem start_eq (h : start c = .ok m) : ∃ (l : Machine) (names : List String), withLibrary c = .ok l ∧
    (∀ name, name ∈ names ↔ name ∈ c.host.map HostFunction.name) ∧ m = (names.foldl bindHost l).enter c c.program := by
  unfold start at h
  cases hl : withLibrary c with
  | error => rw [hl] at h; cases h
  | ok l =>
    rw [hl] at h
    simp only [bind, Except.bind, pure, Except.pure] at h
    have hnames (name : String) : name ∈ (c.host.map HostFunction.name).mergeSort (fun a b => decide (a ≤ b)) ↔
        name ∈ c.host.map HostFunction.name := List.mem_mergeSort
    generalize (c.host.map HostFunction.name).mergeSort _ = names at h hnames
    split at h
    · cases h
    · cases h
      exact ⟨l, names, rfl, hnames, rfl⟩

/-- After the library's own code has run, its heap is in order and nothing is on the stack. -/
theorem filed_withLibrary (h : withLibrary c = .ok m) :
    m.heap.Filed ∧ (m.heap.scope? m.global).isSome ∧ m.stack = [] := by
  have hbare := filed_bare
  obtain ⟨l, -, hl, rfl⟩ := withLibrary_eq h
  have he := keeps_enter (c := c.alone) hbare.1 c.library
  have hr : bare.Keeps l :=
    hl ▸ he.trans (keeps_run (c := c.alone) (by simp [Setting.alone]) endless 0 he.heap.1 ())
  have hk := Heap.keeps_modify alike_hideVisible l.heap (l.heap.intrinsic Intrinsic.arrayPrototype) hr.heap.1
  exact ⟨hk.1, hk.2.isSome_scope? (hr.scope hbare.2), rfl⟩

/-- At the start, the stack holds the state of the program alone. -/
theorem stack_start (h : start c = .ok m) :
    (m.heap.Filed ∧ (m.heap.scope? m.global).isSome) ∧
      m.stack = [{ id := m.lastId, node := c.resolve (.program c.program), scope := m.global }] := by
  obtain ⟨l, names, hl, -, rfl⟩ := start_eq h
  obtain ⟨hf, hs, hstack⟩ := filed_withLibrary hl
  have hb := keeps_bindHosts hf names
  have hk := hb.trans (keeps_enter (c := c) hb.heap.1 c.program)
  refine ⟨⟨hk.heap.1, hk.scope hs⟩, ?_⟩
  show _ :: (names.foldl bindHost l).stack = _
  rw [stack_bindHosts, hstack]
  rfl

theorem stack_start_of_isRead (hc : c.IsRead) (h : start c = .ok m) :
    m.stack = [{ id := m.lastId, node := .program c.program, scope := m.global }] := by
  rw [(stack_start h).2]
  unfold Setting.resolve
  rw [hc.node?_program]
  rfl

theorem sound_start (hc : c.IsRead) (h : start c = .ok m) : m.Sound c := by
  obtain ⟨⟨hf, hs⟩, -⟩ := stack_start h
  have hstack := stack_start_of_isRead hc h
  refine ⟨hf, ?_, ?_, ?_, ?_⟩ <;> rw [hstack]
  · simpa using hc.node?_program
  · simpa using hs
  · exact List.pairwise_singleton _ _
  · simp

/-! ### Steps -/

/-- What a rule starts has a node and a scope that can be found. -/
theorem found_of_fits (hc : c.IsRead) {s s' : State} {node : Node} {scope : ObjectId} {components : Bool}
    {labels : List String} {h h' : Heap} (hk : h.Grows h') (ha : s.Alike s')
    (hn : c.node? s.node.id = some s.node) (hs : (h.scope? s.scope).isSome)
    (hf : Move.Fits c h s.node (.push node scope components labels) ⟨s', h'⟩) :
    c.node? (c.resolve node).id = some (c.resolve node) ∧ (h'.scope? scope).isSome := by
  rcases hf with ⟨hp, rfl⟩ | he
  · refine ⟨hc.node?_part hn (Node.part_of_operand hp.operand), ?_⟩
    obtain ⟨o, ho⟩ := Option.isSome_iff_exists.1 hs
    rw [ha.scope, hk.scope ho]
    rfl
  · obtain ⟨o, info, id, closure, callable, -, -, -, hcall, rfl, hscope, -⟩ := he.body
    obtain ⟨n, hid, hcall⟩ := Option.bind_eq_some_iff.1 hcall
    exact ⟨hc.node?_part hid (Setting.IsRead.part_of_callable hcall), by rw [hscope]; rfl⟩

theorem sound_step (hc : c.IsRead) (hh : ∀ f ∈ c.host, f.Keeps) (hm : m.Sound c) (world : ω) :
    (m.step c world).2.1.Sound c := by
  obtain ⟨-, hheap, hstack⟩ := moves_step hh hm.filed world
  obtain ⟨hids, hle⟩ := (acts_step (c := c) m world).ordered ⟨hm.ordered, hm.le_lastId⟩
  generalize (m.step c world).2.1 = m' at hheap hstack hids hle ⊢
  obtain ⟨hf, hgrows⟩ := hheap hm.filed
  have hscope (s : State) (h : (m.heap.scope? s.scope).isSome) : (m'.heap.scope? s.scope).isSome := by
    obtain ⟨o, ho⟩ := Option.isSome_iff_exists.1 h
    rw [hgrows.scope ho]
    rfl
  rcases hstack with ⟨s, s', below, node, scope, components, labels, he, ha, -, he', hfits⟩ | ⟨-, hsinks⟩
  · have hsinks : Sinks m.stack (s' :: below) := he ▸ .head ha below
    obtain ⟨hnode, hnew⟩ := found_of_fits hc hgrows ha (hm.node s (by simp [he])) (hm.scope s (by simp [he])) hfits
    refine ⟨hf, ?_, ?_, hids, hle⟩ <;> rw [he']
    · refine List.forall_mem_cons.2 ⟨hnode, hsinks.forall_mem (fun _ _ ha h => ?_) hm.node⟩
      rw [ha.node]
      exact h
    · refine List.forall_mem_cons.2 ⟨hnew, hsinks.forall_mem (fun _ _ ha h => ?_) fun s hs => hscope s (hm.scope s hs)⟩
      rw [ha.scope]
      exact h
  · refine ⟨hf, ?_, ?_, hids, hle⟩
    · refine hsinks.forall_mem (fun _ _ ha h => ?_) hm.node
      rw [ha.node]
      exact h
    · refine hsinks.forall_mem (fun _ _ ha h => ?_) fun s hs => hscope s (hm.scope s hs)
      rw [ha.scope]
      exact h

/-- What holds at the start and is kept by every step holds of all machines that are reached. -/
theorem Reachable.sound (hc : c.IsRead) (hh : ∀ f ∈ c.host, f.Keeps) {world : ω} (h : m.Reachable c world) :
    m.Sound c := by
  induction h with
  | start h world => exact sound_start hc h
  | step h hs ih =>
    rename_i world _
    have hstep := sound_step hc hh ih world
    rw [hs] at hstep
    exact hstep

theorem Reachable.grounded (hc : c.IsRead) (hh : ∀ f ∈ c.host, f.Keeps) {world : ω} (h : m.Reachable c world) :
    Grounded c.program m.global m.stack := by
  induction h with
  | start h world =>
    rw [stack_start_of_isRead hc h]
    exact ⟨_, rfl, rfl, rfl, rfl⟩
  | step h hs ih =>
    rename_i m m' world _
    have hm := h.sound hc hh
    have hglobal := (moves_step hh hm.filed world).global
    have hground : (m.step c world).1 = .advanced → Grounded c.program m.global (m.step c world).2.1.stack :=
      grounded_step ih
    rw [hs] at hglobal hground
    rw [hglobal]
    exact hground rfl

/-- Running only goes to machines that the program reaches. -/
theorem reachable_run (limit done : Nat) {world : ω} (h : m.Reachable c world)
    (ho : (run.go c limit done m world).outcome.isAdvanced) :
    (run.go c limit done m world).machine.Reachable c (run.go c limit done m world).world := by
  induction limit generalizing done m world with
  | zero => exact h
  | succ limit ih =>
    unfold run.go at ho ⊢
    split
    · rename_i m' world' hs
      rw [hs] at ho
      exact ih (done + 1) (h.step hs) ho
    · rename_i outcome m' world' hne hs
      rw [hs] at ho
      cases outcome with
      | advanced => exact absurd rfl hne
      | ended | exception | fault => cases ho

theorem step_of_isAdvanced {world : ω} (h : (m.step c world).1.isAdvanced) :
    m.step c world = (.advanced, (m.step c world).2.1, (m.step c world).2.2) := by
  unfold Outcome.isAdvanced at h
  split at h
  · exact Prod.ext ‹_› rfl
  · cases h

/-- A program, and its machine and the world after some steps that all advance. The library has no code of its own. -/
def after? (source : String) (host : List (HostFunction ω)) (n : Nat) (world : ω) : Option (Program × Machine × ω) := do
  let program ← (Program.ofSource source).toOption
  let c := Setting.ofPrograms (Library.read "") program host Setting.defaultDepth Setting.zeros
  let first ← (start c).toOption
  let run := first.run c n world
  if run.outcome.isAdvanced then some (program, run.machine, run.world) else none

theorem of_after? {source : String} {host : List (HostFunction ω)} {n : Nat} {world world' : ω} {program : Program}
    {m : Machine} (h : after? source host n world = some (program, m, world')) :
    Program.ofSource source = .ok program ∧
      m.Reachable (Setting.ofPrograms (Library.read "") program host Setting.defaultDepth Setting.zeros) world' := by
  unfold after? at h
  obtain ⟨p, hp, h⟩ := Option.bind_eq_some_iff.1 h
  obtain ⟨first, hfirst, h⟩ := Option.bind_eq_some_iff.1 h
  obtain ⟨hrun, h⟩ := Option.ite_none_right_eq_some.1 h
  cases h
  exact ⟨eq_ok_of_toOption hp, reachable_run n 0 (.start (eq_ok_of_toOption hfirst) world) hrun⟩

/-! ### Identities -/

section

open Relation

variable {m m' : Machine} {world : ω} {s : State} {below : List State} {id : ℕ}

theorem Reachable.ordered (h : m.Reachable c world) : m.Ordered := by
  induction h with
  | start h world =>
    constructor <;> rw [(stack_start h).2]
    · exact List.pairwise_singleton _ _
    · exact List.forall_mem_singleton.2 (Nat.le_refl _)
  | step _ hs ih => exact (acts_of_step hs).ordered ih

/-- Two states with one identity are the same. -/
theorem Ordered.eq_of_id_eq (h : m.Ordered) {s s' : State} (hs : s ∈ m.stack) (hs' : s' ∈ m.stack)
    (hid : s.id = s'.id) : s = s' := by
  have hnodup : (m.stack.map State.id).Nodup := List.pairwise_map.2 (h.ids.imp fun hlt => Nat.ne_of_gt hlt)
  exact List.inj_on_of_nodup_map hnodup hs hs' hid

/-! ### What becomes of a state -/

/-- A state lies on certain others, whatever it has gathered. -/
def Bears (m : Machine) (s : State) (below : List State) : Prop :=
  ∃ above s', m.stack = above ++ s' :: below ∧ s.Alike s'

/-- An identity that has been given to a state, and the state is no longer there. -/
structure Spent (m : Machine) (id : ℕ) : Prop where
  le_lastId : id ≤ m.lastId
  not_mem : ∀ s ∈ m.stack, s.id ≠ id

namespace Acts

theorem spent (h : m.Acts m') (hs : m.Spent id) : m'.Spent id := by
  refine ⟨Nat.le_trans hs.le_lastId h.le_lastId, h.forall_mem (fun _ _ ha hne => ?_) hs.not_mem fun s hs' => ?_⟩
  · rwa [ha.id]
  · rw [hs']
    exact Nat.ne_of_gt (Nat.lt_succ_of_le hs.le_lastId)

/-- A state stays on the same states, or its identity is spent. -/
theorem bears_or_spent (h : m.Acts m') (ho : m.Ordered) (hb : m.Bears s below) : m'.Bears s below ∨ m'.Spent s.id := by
  obtain ⟨above, s', hm, ha⟩ := hb
  by_cases hlow : below.length < m'.stack.length
  · obtain ⟨above', t, hm', ha', -⟩ := h.exists_above hm hlow
    exact .inl ⟨above', t, hm', ha.trans ha'⟩
  · -- the states that are left lay below, so they have smaller identities
    have hids := ho.ids
    rw [hm] at hids
    have hbelow : ∀ t ∈ below, t.id ≠ s.id := fun t ht => by
      rw [← ha.id]
      exact Nat.ne_of_lt ((List.pairwise_cons.1 (List.pairwise_append.1 hids).2.1).1 t ht)
    have hle : s.id ≤ m.lastId := ha.id ▸ ho.le_lastId s' (by simp [hm])
    refine .inr ⟨Nat.le_trans hle h.le_lastId, ?_⟩
    exact (h.sinks_of_length_le hm (Nat.le_of_not_lt hlow)).forall_mem (fun _ _ ha h => ha.id ▸ h) hbelow

end Acts

/-! ### Runs -/

/-- The second machine, in its world, is what a step of the first one leads to. -/
def Next (c : Setting ω) (p q : Machine × ω) : Prop := p.1.step c p.2 = (.advanced, q.1, q.2)

variable {p q : Machine × ω}

theorem Reachable.run (h : p.1.Reachable c p.2) (hrun : ReflTransGen (Next c) p q) : q.1.Reachable c q.2 := by
  induction hrun with
  | refl => exact h
  | tail _ hs ih => exact ih.step hs

theorem Spent.run (h : p.1.Spent id) (hrun : ReflTransGen (Next c) p q) : q.1.Spent id := by
  induction hrun with
  | refl => exact h
  | tail _ hs ih => exact (acts_of_step hs).spent ih

/-- During a run, a state stays on the same states until its identity is spent. -/
theorem Bears.run (h : p.1.Bears s below) (hr : p.1.Reachable c p.2) (hrun : ReflTransGen (Next c) p q) :
    q.1.Bears s below ∨ q.1.Spent s.id := by
  induction hrun with
  | refl => exact .inl h
  | tail hrun hs ih =>
    have hacts := acts_of_step hs
    rcases ih with hb | hspent
    · exact hacts.bears_or_spent (hr.run hrun).ordered hb
    · exact .inr (hacts.spent hspent)

/-- A step that advances starts one state on top of the stack, which gets the next identity, or it leaves a lower part of
the stack. All states below the top stay as they are, and the one on which the new state comes to lie, or which comes to
lie on top, keeps its identity, its node and its scope. So the identities grow from the bottom of the stack to its top, and
a state that turns up with the identity of an earlier one is this state, on the same others, and was there all the time. -/
theorem steps_local (hr : m.Reachable c world) :
    (∀ m' world', m.step c world = (.advanced, m', world') →
      (m'.stack.length = m.stack.length + 1 ∧ m'.lastId = m.lastId + 1 ∧
          ∃ t s s' below, m.stack = s :: below ∧ m'.stack = t :: s' :: below ∧ s.Alike s' ∧ t.id = m'.lastId) ∨
        (m'.stack.length ≤ m.stack.length ∧ m'.lastId = m.lastId ∧ Sinks m.stack m'.stack)) ∧
      m.stack.Pairwise (fun s below => below.id < s.id) ∧ (∀ s ∈ m.stack, s.id ≤ m.lastId) ∧
      ∀ p, ReflTransGen (Next c) (m, world) p → ∀ above s below, m.stack = above ++ s :: below →
        ∀ s' ∈ p.1.stack, s'.id = s.id → s.Alike s' ∧ (∃ above', p.1.stack = above' ++ s' :: below) ∧
          ∀ q, ReflTransGen (Next c) (m, world) q → ReflTransGen (Next c) q p → q.1.Bears s below := by
  refine ⟨fun m' world' hs => ?_, hr.ordered.ids, hr.ordered.le_lastId,
    fun p hp above s below hm s' hs' hid => ?_⟩
  · cases acts_of_step hs with
    | push hm ha hm' hid hlast => exact .inl ⟨by simp [hm, hm'], hlast, _, _, _, _, hm, hm', ha, hid⟩
    | sink hlast hsinks => exact .inr ⟨hsinks.length_le, hlast, hsinks⟩
  · have hb : m.Bears s below := ⟨above, s, hm, .refl s⟩
    have hthere {q : Machine × ω} (hq : ReflTransGen (Next c) (m, world) q) (hqp : ReflTransGen (Next c) q p) :
        q.1.Bears s below := by
      refine (hb.run hr hq).resolve_right fun hspent => ?_
      exact (hspent.run hqp).not_mem s' hs' hid
    obtain ⟨above', t, hp', ha⟩ := hthere hp .refl
    have hordered : p.1.Ordered := (Reachable.run (p := (m, world)) hr hp).ordered
    cases hordered.eq_of_id_eq hs' (by simp [hp'] : t ∈ p.1.stack) (hid.trans ha.id.symm)
    exact ⟨ha, ⟨above', hp'⟩, fun q => hthere⟩

/-- A `return` in a loop leaves three states, and the call gets the value. -/
theorem steps_local_return : ∃ (program : Program) (m m' : Machine),
    let c : Setting Unit := Setting.ofPrograms (Library.read "") program [] Setting.defaultDepth Setting.zeros
    Program.ofSource "(function () { for (;;) return 1; })();" = .ok program ∧ m.Reachable c () ∧
      m.step c () = (.advanced, m', ()) ∧
      m.stack.map (·.node.kind) =
        [.returnStatement, .forStatement, .blockStatement, .callExpression, .expressionStatement, .program] ∧
      m'.stack.map (·.node.kind) = [.callExpression, .expressionStatement, .program] ∧
      m'.lastId = m.lastId ∧ Sinks m.stack m'.stack ∧ m.stack.Pairwise fun s below => below.id < s.id := by
  have hrun : (after? (ω := Unit) "(function () { for (;;) return 1; })();" [] 10 ()).any fun x =>
      let c := Setting.ofPrograms (Library.read "") x.1 [] Setting.defaultDepth Setting.zeros
      (x.2.1.step c x.2.2).1.isAdvanced ∧ x.2.1.stack.map (·.node.kind) =
        [.returnStatement, .forStatement, .blockStatement, .callExpression, .expressionStatement, .program] ∧
      (x.2.1.step c x.2.2).2.1.stack.map (·.node.kind) = [.callExpression, .expressionStatement, .program] := by
    decide +kernel
  obtain ⟨⟨program, m, world⟩, hx, hrun⟩ := (Option.any_eq_true _ _).1 hrun
  obtain ⟨hp, hr⟩ := of_after? hx
  obtain ⟨hadvanced, hkinds, hkinds'⟩ := of_decide_eq_true hrun
  have hs : m.step (Setting.ofPrograms (Library.read "") program [] Setting.defaultDepth Setting.zeros) world = _ :=
    step_of_isAdvanced hadvanced
  obtain ⟨hsteps, hids, -⟩ := steps_local hr
  obtain ⟨hlonger, -⟩ | ⟨-, hlast, hsinks⟩ := hsteps _ _ hs
  · have hlen := congrArg List.length hkinds
    have hlen' := congrArg List.length hkinds'
    simp only [List.length_map, List.length_cons, List.length_nil] at hlen hlen'
    omega
  · exact ⟨program, m, _, hp, hr, hs, hkinds, hkinds', hlast, hsinks, hids⟩

end

end Machine

end Stepwise

import Mathlib.Data.List.Chain
import Stepwise.Proofs.Library.Tail
import Stepwise.Proofs.Machine.Course

/-!
# Calls by `new`

The object of a call by `new` is made when the body of a function starts, and is the value of the call unless the body
returns another one. A native function makes its object itself. What it answers is the value of the call even if it is
none.

* `Native.Constructs`: a native function that answers `new` with an object. The functions under the names of the
  constructors do (`Library.constructs_native?`).
* `State.Constructs`: a call by `new` has no receiver before the body of its function runs, and an object from then on.
* `Move.Constructs`: what the rule of such a call may answer.
* `Constructing`: all calls by `new` on a stack are like this, and none of them is delivered a place.
* `Machine.new_gives_object`: what a call by `new` comes to is an object, or the answer of a native function that is not
  a constructor.
-/

namespace Stepwise

/-! ### Native functions -/

section

open Heap

/-- An operation that answers with an object, if it answers. -/
def HeapM.Makes (x : HeapM Reply) : Prop := ∀ h, x.wp (fun r _ => ∃ v, r = .value v ∧ v.isObject) h

namespace HeapM.Makes

variable {α : Type}

theorem bind {x : HeapM α} {f : α → HeapM Reply} (hf : ∀ a, (f a).Makes) : Makes (x >>= f) := by
  intro h
  rw [wp_bind]
  unfold wp
  split
  · exact hf _ _
  · trivial

theorem give {v : Value} (hv : v.isObject) : Makes (Native.give v) := fun _ => ⟨v, rfl, hv⟩

theorem giveNew (add : Heap → ObjectId × Heap) : Makes (Native.giveNew add) := bind fun _ => give rfl

theorem raise (type : ErrorType) (message : String) : Makes (Native.raise type message) := fun _ => trivial

/-- A primitive that can be wrapped is wrapped for `new`. -/
theorem giveWrapped {c : NativeCall} (hc : c.construct) {v : Value} (hv : ∀ h : Heap, (h.box? v).isSome) :
    Makes (Native.giveWrapped c v) := by
  unfold Native.giveWrapped
  rw [if_pos hc]
  refine bind fun h => ?_
  obtain ⟨p, hp⟩ := Option.isSome_iff_exists.1 (hv h)
  rw [hp]
  exact bind fun _ => give rfl

end HeapM.Makes

/-- A native function that answers `new` with an object, if it answers. -/
def Native.Constructs (f : Native) : Prop := ∀ c, c.construct → (f c).Makes

namespace Library

open HeapM (Makes)

theorem objectConstructor_constructs : Native.Constructs objectConstructor := by
  intro c _
  simp only [objectConstructor]
  split
  · exact .giveNew _
  · split
    · exact .give ‹_›
    · exact .bind fun _ => .give rfl

theorem arrayConstructor_constructs : Native.Constructs arrayConstructor := by
  intro c _
  unfold arrayConstructor
  split
  · split
    · exact .raise _ _
    · exact .giveNew _
  · exact .giveNew _

theorem constructors_construct : ∀ k ∈ constructors, k.run.Constructs := by
  simp only [constructors, List.forall_mem_append, List.forall_mem_cons, List.forall_mem_map]
  exact ⟨⟨objectConstructor_constructs, fun _ _ => .raise _ _, arrayConstructor_constructs,
    fun _ hc => .bind fun _ => .giveWrapped hc fun _ => rfl, fun _ hc => .bind fun _ => .giveWrapped hc fun _ => rfl,
    fun _ hc => .giveWrapped hc fun _ => rfl, List.forall_mem_nil _⟩,
    fun _ _ _ _ => .bind fun _ => .bind fun _ => .give rfl⟩

/-- The names of the constructors. -/
def constructorNames : List String := constructors.map Method.name

/-- The functions under the names of the constructors are the constructors. -/
theorem exists_constructor {name : String} (hname : name ∈ constructorNames) :
    ∃ k ∈ constructors, native? name = some k.run := by
  obtain ⟨k, hk, rfl⟩ := List.mem_map.1 hname
  have hfirst : ((constructors.map fun k => (fullName "" k.name, k.run)).find? (·.1 == k.name)).isSome := by
    rw [List.find?_isSome]
    exact ⟨_, List.mem_map_of_mem hk, beq_self_eq_true k.name⟩
  obtain ⟨p, hp⟩ := Option.isSome_iff_exists.1 hfirst
  obtain ⟨k', hk', rfl⟩ := List.mem_map.1 (List.mem_of_find?_eq_some hp)
  refine ⟨k', hk', ?_⟩
  unfold native? natives families
  rw [List.flatMap_cons, List.find?_append, hp]
  rfl

theorem isSome_native? {name : String} (hname : name ∈ constructorNames) : (native? name).isSome := by
  obtain ⟨k, -, hk⟩ := exists_constructor hname
  exact Option.isSome_of_eq_some hk

theorem constructs_native? {name : String} {f : Native} (hf : native? name = some f) (hname : name ∈ constructorNames) :
    f.Constructs := by
  obtain ⟨k, hk, hrun⟩ := exists_constructor hname
  cases hf.symm.trans hrun
  exact constructors_construct k hk

end Library

end

/-! ### Calls -/

open RuleM Library

variable {ω : Type} {c : Setting ω} {below stack stack' : List State} {callee : Expr} {args : List Expr} {f : Frame}
  {s t : State}

/-- Whether a node is a call by `new`. -/
def Node.isNew : Node → Bool
  | expr (.new ..) => true
  | _ => false

/-- A native function, of the library or the host, that is not a constructor. -/
def Heap.IsPlainNative (h : Heap) (v : Value) : Prop :=
  ∃ o info name, h.deref? v = some o ∧ o.func = some info ∧ info.code = .native name ∧ name ∉ constructorNames

namespace State

/-- The function that a call has evaluated. -/
def called (s : State) : Value := if s.phase = CallPhase.target then s.value else s.func

/-- A call by `new`. It has no receiver before the body of its function runs, and an object from then on. -/
structure Constructs (s : State) : Prop where
  ref : s.ref = none
  before : s.phase < CallPhase.body → s.this = .undefined
  after : CallPhase.body ≤ s.phase → s.this.isObject

end State

/-- A function of the host that answers a call by `new` with a value. -/
def HostFunction.AnswersNew (f : HostFunction ω) : Prop := ∀ call : NativeCall, call.construct → ¬f.Forwards call

/-- What the rule of a call by `new` may answer, if `func` is the function. -/
def Move.Constructs (h : Heap) (func : Value) (mv : Move) (f : Frame) : Prop :=
  f.top.Constructs ∧ match mv with
  | .give v => v.isObject ∨ h.IsPlainNative func
  | .host _ call => h.IsPlainNative func ∧ call.construct
  | .push _ _ components _ => components = false
  | _ => False

/-! ### Rules -/

theorem enterClosure_constructs (hs : f.top.Constructs) (function : Object) (node : Int) (scope : ObjectId) (h : Heap)
    (func : Value) : (enterClosure c function node scope true).wp (Move.Constructs h func) (fun _ _ => True) f := by
  unfold enterClosure
  cases (c.node? node).bind Node.callable? with
  | none => trivial
  | some callable => exact ⟨⟨hs.ref, fun hlt => absurd hlt (Nat.lt_irrefl _), fun _ => rfl⟩, rfl⟩

/-- A native function that asks for another call fails here, for it has no receiver. -/
theorem callNative_constructs {turns : Nat} {name : String} {native : Native} (hn : native? name = some native)
    {call : NativeCall} (hs : f.top.Constructs) (hthis : call.this = .undefined) (hconstruct : call.construct)
    {func : Value} (hfunc : name ∉ constructorNames → f.heap.IsPlainNative func) :
    (callNative native call >>= afterNative c below callee turns).wp (Move.Constructs f.heap func) (fun _ _ => True) f := by
  have hasks := mayAsk_native? hn call f.heap
  have hmakes (hname : name ∈ constructorNames) := constructs_native? hn hname call hconstruct f.heap
  unfold HeapM.wp at hasks hmakes
  unfold wp
  rw [callNative_bind]
  cases hcall : native call f.heap with
  | error t => trivial
  | ok p =>
    obtain ⟨reply, h⟩ := p
    rw [hcall] at hasks hmakes
    obtain ⟨v, rfl⟩ | ⟨-, hcallable, -⟩ := hasks
    · by_cases hname : name ∈ constructorNames
      · obtain ⟨w, hw, hobject⟩ := hmakes hname
        cases hw
        exact ⟨hs, .inl hobject⟩
      · exact ⟨hs, .inr (hfunc hname)⟩
    · rw [hthis] at hcallable
      cases hcallable

theorem invoke_constructs (below : List State) (callee : Expr) (hs : f.top.Constructs)
    (hp : f.top.phase < CallPhase.body) (turns : Nat) :
    (invoke c below callee turns true).wp (Move.Constructs f.heap f.top.func) (fun _ _ => True) f := by
  cases turns with
  | zero => trivial
  | succ turns =>
    unfold wp
    rw [invoke_succ]
    cases hfound : (f.heap.deref? f.top.func).bind fun o => o.func.map (o, ·) with
    | none => trivial
    | some p =>
      obtain ⟨o, ho, hmap⟩ := Option.bind_eq_some_iff.1 hfound
      obtain ⟨info, hinfo, rfl⟩ := Option.map_eq_some_iff.1 hmap
      cases hcode : info.code with
      | closure node scope =>
        simp only [invokeFound, hcode]
        exact enterClosure_constructs hs o node scope _ _
      | native name =>
        have hfunc (hname : name ∉ constructorNames) : f.heap.IsPlainNative f.top.func :=
          ⟨o, info, name, ho, hinfo, hcode, hname⟩
        simp only [invokeFound, hcode]
        cases hn : native? name with
        | none =>
          refine ⟨hs, hfunc fun hname => ?_, rfl⟩
          have hsome := isSome_native? hname
          rw [hn] at hsome
          cases hsome
        | some native => exact callNative_constructs hn hs (hs.before hp) rfl hfunc

theorem stepArguments_constructs (hs : f.top.Constructs) (hp : f.top.phase < CallPhase.body) :
    (stepArguments c below callee args true).wp (Move.Constructs f.heap f.top.func) (fun _ _ => True) f := by
  -- the next argument, or the call if there is none
  have hnext (g : Frame) (hv : g.top.hasValue = false) (hg : g.top.Constructs) (hgp : g.top.phase < CallPhase.body)
      (hheap : g.heap = f.heap) (hfunc : g.top.func = f.top.func) :
      (stepArguments c below callee args true).wp (Move.Constructs f.heap f.top.func) (fun _ _ => True) g := by
    refine wp_bind (wp_top ?_)
    dsimp only
    rw [if_neg (by simp [hv])]
    refine wp_bind (wp_top ?_)
    cases args[g.top.n]? with
    | some e => exact ⟨⟨hg.ref, hg.before, hg.after⟩, rfl⟩
    | none =>
      have hready : (CallPhase.invoke : Nat) < CallPhase.body := by decide
      have hinvoke := invoke_constructs (c := c) (f := ⟨{ g.top with phase := CallPhase.invoke }, g.heap⟩) below callee
        ⟨hg.ref, fun _ => hg.before hgp, fun hle => absurd hready (Nat.not_lt.2 hle)⟩ hready tailLimit
      rw [← hheap, ← hfunc]
      exact wp_bind hinvoke
  by_cases hv : f.top.hasValue
  · refine wp_bind (wp_top ?_)
    dsimp only
    rw [if_pos hv]
    refine wp_bind ?_
    exact hnext { f with top := { f.top with hasValue := false, values := f.top.values ++ [f.top.value] } } rfl
      ⟨hs.ref, hs.before, hs.after⟩ hp rfl rfl
  · exact hnext f (by simpa using hv) hs hp rfl rfl

theorem endCall_constructs (hs : f.top.Constructs) (hp : CallPhase.body ≤ f.top.phase) (h : Heap) (func : Value) :
    (endCall true).wp (Move.Constructs h func) (fun _ _ => True) f := by
  have hs' : ({ f.top with hasValue := false } : State).Constructs := ⟨hs.ref, hs.before, hs.after⟩
  refine wp_bind (wp_take ?_)
  by_cases hv : f.top.value.isObject
  · rw [if_neg (by simp [hv])]
    exact ⟨hs', .inl hv⟩
  · rw [if_pos (by simpa using hv)]
    exact ⟨hs', .inl (hs.after hp)⟩

/-- The function of a call by `new` is no property of anything. -/
theorem takeFunction_constructs (hs : f.top.Constructs) (hp : f.top.phase < CallPhase.body) :
    takeFunction.wp (fun _ f' => f'.top.Constructs ∧ f'.top.phase = CallPhase.arguments ∧ f'.heap = f.heap ∧
      f'.top.func = f.top.value) (fun _ _ => True) f := by
  have hbody : (CallPhase.arguments : Nat) < CallPhase.body := by decide
  refine wp_bind (wp_top ?_)
  rw [hs.ref]
  let s' : State := { f.top with func := f.top.value, hasValue := false, phase := CallPhase.arguments, n := 0 }
  have hs' : s'.Constructs := ⟨hs.ref, fun _ => hs.before hp, fun hle => absurd hbody (Nat.not_lt.2 hle)⟩
  exact ⟨hs', rfl, rfl, rfl⟩

/-- A step of a call by `new` gives an object, or what a native function has answered. -/
theorem stepCall_constructs (hs : f.top.Constructs) :
    (stepCall c below callee args true).wp (Move.Constructs f.heap f.top.called) (fun _ _ => True) f := by
  refine wp_bind (wp_top ?_)
  split
  · rename_i hp
    have hbody : (CallPhase.target : Nat) < CallPhase.body := by decide
    refine wp_bind ?_
    have hs' : ({ f.top with phase := CallPhase.target } : State).Constructs :=
      ⟨hs.ref, fun _ => hs.before (by simp [hp, CallPhase.body]), fun hle => absurd hbody (Nat.not_lt.2 hle)⟩
    exact ⟨hs', rfl⟩
  · rename_i hp
    have hbody : (CallPhase.arguments : Nat) < CallPhase.body := by decide
    refine wp_bind ((takeFunction_constructs hs (by simp [hp, CallPhase.body])).mono (fun _ g hg => ?_) fun _ _ _ => trivial)
    obtain ⟨hg, hphase, hheap, hfunc⟩ := hg
    rw [show f.top.called = f.top.value from if_pos hp, ← hheap, ← hfunc]
    exact stepArguments_constructs hg (hphase ▸ hbody)
  · rename_i hp
    rw [show f.top.called = f.top.func from if_neg (by simp [hp, CallPhase.target])]
    exact stepArguments_constructs hs (by simp [hp, CallPhase.body])
  · rename_i hp
    rw [show f.top.called = f.top.func from if_neg (by simp [hp, CallPhase.target])]
    exact invoke_constructs below callee hs (by simp [hp, CallPhase.body]) tailLimit
  · rename_i hp
    have hs' : ({ f.top with value := .undefined } : State).Constructs := ⟨hs.ref, hs.before, hs.after⟩
    exact wp_bind (wp_modifyTop (endCall_constructs (f := ⟨_, f.heap⟩) hs' hp.ge _ _))
  · rename_i h₀ h₁ h₂ h₃ _
    have hphase : f.top.phase ≠ 0 ∧ f.top.phase ≠ 1 ∧ f.top.phase ≠ 2 ∧ f.top.phase ≠ 3 := ⟨h₀, h₁, h₂, h₃⟩
    exact endCall_constructs hs (show 4 ≤ f.top.phase by omega) _ _

theorem stepNode_constructs (below : List State) (hn : f.top.node.isNew) (hs : f.top.Constructs) :
    (stepNode c below f.top.node).wp (Move.Constructs f.heap f.top.called) (fun _ _ => True) f := by
  unfold Node.isNew at hn
  split at hn
  · rename_i hnode
    rw [hnode]
    exact stepCall_constructs hs
  · cases hn

/-! ### Stacks -/

/-- What lies on a call by `new` gives it no place. -/
def State.GivesNoPlace (t s : State) : Prop := s.node.isNew → t.components = false

/-- The calls by `new` on a stack. -/
structure Constructing (stack : List State) : Prop where
  constructs : ∀ s ∈ stack, s.node.isNew → s.Constructs
  chain : stack.IsChain State.GivesNoPlace

/-- A lower part of a stack is a chain if what the states have gathered does not matter. -/
theorem Sinks.isChain {R : State → State → Prop} (hR : ∀ t t' s : State, t.Alike t' → R t s → R t' s)
    (h : Sinks stack stack') (hs : stack.IsChain R) : stack'.IsChain R := by
  rcases h with rfl | ⟨s, s', rest, hsuf, ha, rfl⟩
  · exact .nil
  · exact (hs.suffix hsuf).imp_head fun h => hR _ _ _ ha h

namespace Machine

variable {m m' : Machine} {mv : Move} {world world' : ω}

/-- What the call by `new` on top answers, or the host in its place. -/
theorem Advances.constructs (hh : ∀ f ∈ c.host, f.AnswersNew) (hn : s.node.isNew) (hs : s.Constructs)
    (ha : m.Advances c s below mv f m') : mv.Constructs m.heap s.called f := by
  have hrule := stepNode_constructs (c := c) (f := ⟨s, m.heap⟩) below hn hs
  rcases ha.rule with h | hresumes
  · exact hrule.of_ok h
  · obtain ⟨name, call, g, h, hanswer⟩ := hresumes.answer
    obtain ⟨hg, hplain, hnew⟩ := hrule.of_ok h
    obtain ⟨v, rfl, htop⟩ := hanswer.resolve_right fun ⟨_, k, hk, hforwards⟩ => hh k hk call hnew hforwards
    exact ⟨htop ▸ hg, .inr hplain⟩

theorem Advances.constructing (hnew : ∀ f ∈ c.host, f.AnswersNew) (hm : Constructing m.stack)
    (ha : m.Advances c s below mv f m') :
    Constructing m'.stack := by
  rw [ha.stack] at hm
  obtain ⟨hs, hbelow⟩ := List.forall_mem_cons.1 hm.constructs
  have hR (t t' s : State) (ha : t.Alike t') (h : t.GivesNoPlace s) : t'.GivesNoPlace s := fun hn =>
    ha.components.trans (h hn)
  have hchain : (f.top :: below).IsChain State.GivesNoPlace := (Sinks.head ha.top.toAlike below).isChain hR hm.chain
  have hrule (hn : f.top.node.isNew) : mv.Constructs m.heap s.called f :=
    have hn := ha.top.node ▸ hn
    ha.constructs hnew hn (hs hn)
  rw [ha.stack_eq]
  constructor
  · by_cases hplace : ∃ r, mv = .giveRef r
    · -- only what gives places gives one, so what lies below is no call by `new`
      obtain ⟨r, rfl⟩ := hplace
      have hcomponents : f.top.components := ha.fits.resolve_right id
      cases below with
      | nil => exact hbelow
      | cons s below =>
        obtain ⟨-, hrest⟩ := List.forall_mem_cons.1 hbelow
        refine List.forall_mem_cons.2 ⟨fun hn => ?_, hrest⟩
        have hno := (List.isChain_cons_cons.1 hchain).1 hn
        rw [hno] at hcomponents
        cases hcomponents
    · refine forall_mem_apply (fun hn => (hrule hn).1) hbelow ?_ ?_ ?_ ?_
      · exact fun _ _ _ _ _ _ => ⟨rfl, fun _ => rfl, fun hle => absurd hle (by simp [CallPhase.body])⟩
      · exact fun s v _ hs hn => ⟨(hs hn).ref, (hs hn).before, (hs hn).after⟩
      · exact fun s r hr => absurd ⟨r, hr⟩ hplace
      · intro s v _ hactive hs hn
        have hle : CallPhase.body ≤ s.phase := (State.phase_of_isActiveCall hactive).ge
        have hlt : ¬CallPhase.returned < CallPhase.body := by decide
        exact ⟨(hs hn).ref, fun h => absurd h hlt, fun _ => (hs hn).after hle⟩
  · rcases push_or_sinks (c := c) { m with heap := f.heap } f.top below mv with
      ⟨node, scope, components, labels, rfl⟩ | ⟨-, hsinks⟩
    · exact hchain.cons_cons fun hn => (hrule hn).2
    · exact hsinks.isChain hR hchain

theorem Reachable.constructing (hh : ∀ f ∈ c.host, f.Sound) (hnew : ∀ f ∈ c.host, f.AnswersNew)
    (h : m.Reachable c world) : Constructing m.stack := by
  induction h with
  | start h world =>
    rw [(stack_start h).2]
    refine ⟨List.forall_mem_singleton.2 fun _ => ⟨rfl, fun _ => rfl, fun hle => ?_⟩, .singleton _⟩
    exact absurd hle (by simp [CallPhase.body])
  | step h hs ih =>
    obtain ⟨s, below, mv, f, ha⟩ := advances_of_step hh (h.wellFormed hh) hs
    exact ha.constructing hnew ih

/-- When a call by `new` leaves the stack, it delivers a value to the state below. -/
theorem gives_of_new {parent : State} (hh : ∀ f ∈ c.host, f.Sound) (hnew : ∀ f ∈ c.host, f.AnswersNew)
    (hr : m.Reachable c world) (hm : m.stack = s :: parent :: below) (hn : s.node.isNew)
    (hs : m.step c world = (.advanced, m', world'))
    (hleft : m'.stack.length < m.stack.length) :
    ∃ v f, (Move.give v).Constructs m.heap s.called f ∧ m'.stack = parent.receive v :: below := by
  obtain ⟨s', below', mv, f, ha⟩ := advances_of_step hh (hr.wellFormed hh) hs
  obtain ⟨rfl, rfl⟩ := List.cons.inj (hm.symm.trans ha.stack)
  have hconstructs := ha.constructs hnew hn ((hr.constructing hh hnew).constructs s (by simp [hm]) hn)
  have hstack := ha.stack_eq
  cases mv with
  | give v => exact ⟨v, f, hconstructs, hstack⟩
  | host name call => exact absurd rfl (ha.answered name call)
  | push node scope components labels =>
    rw [hstack, hm] at hleft
    simp only [apply, Machine.push, List.length_cons] at hleft
    omega
  | stay | drop | giveRef | jump | return_ => cases hconstructs.2

/-- When a call by `new` leaves the stack, it delivers a value to the state below. This is an object, unless a native
function was called that is not a constructor. -/
theorem new_gives_object {parent : State} {loc : Loc} (hh : ∀ f ∈ c.host, f.Sound)
    (hanswers : ∀ f ∈ c.host, f.AnswersNew) (hr : m.Reachable c world) (hm : m.stack = s :: parent :: below)
    (hn : s.node = .expr (.new loc callee args))
    (hs : m.step c world = (.advanced, m', world')) (hleft : m'.stack.length < m.stack.length) :
    ∃ v, m'.stack = parent.receive v :: below ∧ (v.isObject ∨ m.heap.IsPlainNative s.called) := by
  have hnew : s.node.isNew := by rw [hn]; rfl
  obtain ⟨v, f, hv, hstack⟩ := gives_of_new hh hanswers hr hm hnew hs hleft
  exact ⟨v, hstack, hv.2⟩

/-- Whether the next step takes a call by `new` from the state below it, and what that state has then got. -/
def newGives? (p : Program) (m : Machine) : Option Value :=
  let c : Setting Unit := Setting.ofPrograms (Library.read "") p [] Setting.defaultDepth Setting.zeros
  let r := m.step c ()
  if r.1.isAdvanced ∧ r.2.1.stack.length < m.stack.length ∧ 2 ≤ m.stack.length ∧ m.stack.head?.any (·.node.isNew) then
    r.2.1.stack.head?.map State.value
  else none

theorem of_newGives? {p : Program} {v : Value} (hv : newGives? p m = some v) :
    let c : Setting Unit := Setting.ofPrograms (Library.read "") p [] Setting.defaultDepth Setting.zeros
    ∃ (m' : Machine) (s parent : State) (below : List State) (loc : Loc) (callee : Expr) (args : List Expr),
      m.stack = s :: parent :: below ∧ s.node = .expr (.new loc callee args) ∧
        m.step c () = (.advanced, m', ()) ∧ m'.stack.length < m.stack.length ∧
        m'.stack.head?.map State.value = some v := by
  intro c
  obtain ⟨⟨hadvanced, hleft, htwo, hnew⟩, hv⟩ := Option.ite_none_right_eq_some.1 hv
  obtain ⟨s, hs, hnew⟩ := (Option.any_eq_true _ _).1 hnew
  obtain ⟨below, hstack⟩ := List.head?_eq_some_iff.1 hs
  unfold Node.isNew at hnew
  split at hnew
  · rename_i loc callee args hn
    cases below with
    | nil =>
      rw [hstack] at htwo
      simp at htwo
    | cons parent below =>
      exact ⟨_, s, parent, below, loc, callee, args, hstack, hn, step_of_isAdvanced hadvanced, hleft, hv⟩
  · cases hnew

/-- A function of the source that returns a primitive. -/
theorem new_gives_object_made :
    ∃ (program : Program) (m m' : Machine) (s parent : State) (below : List State) (loc : Loc) (callee : Expr)
      (args : List Expr) (v : Value),
      let c : Setting Unit := Setting.ofPrograms (Library.read "") program [] Setting.defaultDepth Setting.zeros
      Program.ofSource "function F() { return 1; } new F();" = .ok program ∧ m.Reachable c () ∧
        m.stack = s :: parent :: below ∧ s.node = .expr (.new loc callee args) ∧ m.step c () = (.advanced, m', ()) ∧
        m'.stack.length < m.stack.length ∧ m'.stack = parent.receive v :: below ∧ v.isObject := by
  have hrun : (after? (ω := Unit) "function F() { return 1; } new F();" [] 11 ()).any fun x =>
      (newGives? x.1 x.2.1).any Value.isObject := by
    decide +kernel
  obtain ⟨⟨program, m, world⟩, hx, hgives⟩ := (Option.any_eq_true _ _).1 hrun
  obtain ⟨hp, hr⟩ := of_after? hx
  obtain ⟨w, hw, hobject⟩ := (Option.any_eq_true _ _).1 hgives
  obtain ⟨m', s, parent, below, loc, callee, args, hm, hn, hs, hleft, hhead⟩ := of_newGives? hw
  obtain ⟨v, hstack, -⟩ := new_gives_object (fun f hf => absurd hf List.not_mem_nil)
    (fun f hf => absurd hf List.not_mem_nil) hr hm hn hs hleft
  have hv : w = v := by
    rw [hstack] at hhead
    exact (Option.some.inj hhead).symm
  exact ⟨program, m, m', s, parent, below, loc, callee, args, v, hp, hr, hm, hn, hs, hleft, hstack, hv ▸ hobject⟩

/-- A function of the library that is no constructor, called by `new`. -/
theorem new_gives_number :
    ∃ (program : Program) (m m' : Machine) (s parent : State) (below : List State) (loc : Loc) (callee : Expr)
      (args : List Expr) (v : Value),
      let c : Setting Unit := Setting.ofPrograms (Library.read "") program [] Setting.defaultDepth Setting.zeros
      Program.ofSource "new parseInt('7');" = .ok program ∧ m.Reachable c () ∧
        m.stack = s :: parent :: below ∧ s.node = .expr (.new loc callee args) ∧ m.step c () = (.advanced, m', ()) ∧
        m'.stack = parent.receive v :: below ∧ v.isObject = false := by
  have hrun : (after? (ω := Unit) "new parseInt('7');" [] 6 ()).any fun x =>
      (newGives? x.1 x.2.1).any fun v => v.isObject = false := by
    decide +kernel
  obtain ⟨⟨program, m, world⟩, hx, hgives⟩ := (Option.any_eq_true _ _).1 hrun
  obtain ⟨hp, hr⟩ := of_after? hx
  obtain ⟨w, hw, hobject⟩ := (Option.any_eq_true _ _).1 hgives
  obtain ⟨m', s, parent, below, loc, callee, args, hm, hn, hs, hleft, hhead⟩ := of_newGives? hw
  obtain ⟨v, f, -, hstack⟩ := gives_of_new (fun f hf => absurd hf List.not_mem_nil)
    (fun f hf => absurd hf List.not_mem_nil) hr hm (by rw [hn]; rfl) hs hleft
  have hv : w = v := by
    rw [hstack] at hhead
    exact (Option.some.inj hhead).symm
  exact ⟨program, m, m', s, parent, below, loc, callee, args, v, hp, hr, hm, hn, hs, hstack,
    hv ▸ of_decide_eq_true hobject⟩

end Machine

end Stepwise

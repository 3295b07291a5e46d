import Mathlib.Order.WellFounded
import Mathlib.Data.Fintype.EquivFin
import Stepwise.Proofs.Library.Tail
import Stepwise.Proofs.Machine.Convert

/-!
# Chains of calls

A native function may ask for another call, which may be one of a native function again. Such a chain can only go
on for ever through `apply` and a list that contains itself.

* `Heap.Lists`: the list of arguments that `apply` makes of one value contains the other.
* `Settled`: what a call comes to: a value, a call of the host, the body of a function, or an error.
* `call_settles`: the chain of a call settles, unless some list that its arguments lead to contains itself. What it
  converts comes to an end, unless it is or leads to an error that contains itself.
* `apply_itself_endless`: if a list holds `apply` and itself, the chain does not settle.
-/

namespace Stepwise

open RuleM Library

variable {ω : Type}

/-- The list of arguments that `apply` makes of a value contains another. -/
def Heap.Lists (h : Heap) (list v : Value) : Prop := v ∈ listElements h list

/-- What a call comes to. -/
inductive Settled : EStateM.Result Failure Frame Move → Prop where
  | value (v : Value) (f : Frame) : Settled (.ok (.give v) f)
  | host (name : String) (call : NativeCall) (f : Frame) : Settled (.ok (.host name call) f)
  | body (callable : Callable) (scope : ObjectId) {f : Frame} (hp : f.top.phase = CallPhase.body) :
    Settled (.ok (.push (.stmt (.block callable.body)) scope false []) f)
  | error {e : Failure} (he : e ≠ .fault .endlessCalls) (f : Frame) : Settled (.error e f)

/-- A value that is no object, or an older one. -/
def Value.IsOlder (id : ObjectId) (v : Value) : Prop := ∀ older, v = .object older → older < id

instance (id : ObjectId) (v : Value) : Decidable (v.IsOlder id) :=
  match v with
  | .object older => decidable_of_iff (older < id) (by simp [Value.IsOlder])
  | .undefined | .null | .bool _ | .number _ | .string _ => isTrue (by simp [Value.IsOlder])

/-- The frame of the call that a native function asked for, which is to call its receiver. -/
def Frame.forward (f : Frame) (args : List Value) : Frame :=
  { f with top := { f.top with func := f.top.this, this := f.top.values[0]?.getD .undefined, values := args } }

/-- Whether the state is a call that takes its last argument next and then calls its function. -/
def State.isComplete (s : State) : Bool :=
  s.phase == CallPhase.arguments && s.hasValue &&
    match s.node with
    | .expr (.call _ _ args) => args.length ≤ s.n
    | _ => false

/-- The state of a complete call when it calls its function. -/
def State.invoking (s : State) : State :=
  { s with hasValue := false, values := s.values ++ [s.value], phase := CallPhase.invoke }

/-- Enough turns settle the call of a frame. -/
def Settles (c : Setting ω) (below : List State) (callee : Expr) (f : Frame) : Prop :=
  ∀ construct, ∃ n r, Settled r ∧ ∀ turns, n ≤ turns → invoke c below callee turns construct f = r

variable {c : Setting ω} {below : List State} {callee : Expr} {f : Frame} {h : Heap} {v w : Value}

/-! ### One turn -/

theorem callNative_bind (native : Native) (call : NativeCall) (rest : Reply → RuleM Move) (f : Frame) :
    (callNative native call >>= rest) f =
      match native call f.heap with
      | .ok (reply, h) => rest reply { f with heap := h }
      | .error t => .error (.raised t) f := by
  have hcall : callNative native call f =
      match native call f.heap with
      | .ok (r, h) => .ok r { f with heap := h }
      | .error t => .error (.raised t) f := by
    unfold callNative
    show (match (native call).run f.heap with
      | .ok (r, h) => (do RuleM.setHeap h; return r : RuleM Reply)
      | .error t => RuleM.raise t) f = _
    rw [show (native call).run f.heap = native call f.heap from rfl]
    split <;> rename_i he <;> rw [he] <;> rfl
  show EStateM.bind _ _ f = _
  unfold EStateM.bind
  rw [hcall]
  cases native call f.heap <;> rfl

theorem enterClosure_settled (function : Object) (node : Int) (scope : ObjectId) (construct : Bool) (f : Frame) :
    Settled (enterClosure c function node scope construct f) := by
  unfold enterClosure
  cases (c.node? node).bind Node.callable? with
  | none => exact .error (by simp) f
  | some callable => cases construct <;> exact .body _ _ rfl

/-- What a turn does with the answer of a native function. -/
def afterNative (c : Setting ω) (below : List State) (callee : Expr) (turns : Nat) : Reply → RuleM Move
  | .value v => give v
  | .tail func this args => do
    modifyTop fun s => { s with func, this, values := args }
    invoke c below callee turns false

/-- The call of a native function settles, or it goes on with the call of the receiver. -/
theorem callNative_turn {name : String} {native : Native} (hn : native? name = some native) {call : NativeCall}
    (hthis : call.this = f.top.this) (hargs : call.args = f.top.values) :
    (∃ r, Settled r ∧ ∀ turns, (callNative native call >>= afterNative c below callee turns) f = r) ∨
      f.heap.isCallable f.top.this ∧ ∃ args, Forwards f.heap f.top.values args ∧
        ∀ turns, (callNative native call >>= afterNative c below callee turns) f =
          invoke c below callee turns false (f.forward args) := by
  have hm := mayAsk_native? hn call f.heap
  simp only [callNative_bind]
  unfold HeapM.wp at hm
  cases hcall : native call f.heap with
  | error t => exact .inl ⟨_, .error (by simp) f, fun _ => rfl⟩
  | ok p =>
    obtain ⟨reply, h'⟩ := p
    rw [hcall] at hm
    obtain ⟨v, rfl⟩ | ⟨rfl, hc, args, rfl, hforwards⟩ := hm
    · exact .inl ⟨_, .value v _, fun _ => rfl⟩
    · rw [hthis] at hc
      rw [hargs] at hforwards
      refine .inr ⟨hc, args, hforwards, fun turns => ?_⟩
      have harg : call.arg 0 = f.top.values[0]?.getD .undefined := by rw [← hargs]; rfl
      rw [Frame.forward, ← hthis, ← harg]
      rfl

/-- What a turn does with the function it has found. -/
def invokeFound (c : Setting ω) (below : List State) (callee : Expr) (turns : Nat) (construct : Bool) (s : State)
    (h : Heap) : Option (Object × FunctionInfo) → RuleM Move
  | none =>
    let what := c.text (.expr callee)
    raise (if construct then .notConstructor what else .notFunction what)
  | some (function, info) =>
    match info.code with
    | .closure node scope => enterClosure c function node scope construct
    | .native name =>
      let call : NativeCall :=
        { this := s.this, args := s.values, construct, site := some s.node,
          trace := some fun _ => stackTrace h (s :: below), draw := c.draws s.id }
      match Library.native? name with
      | none => return .host name call
      | some native => callNative native call >>= afterNative c below callee turns

theorem invoke_succ (c : Setting ω) (below : List State) (callee : Expr) (turns : Nat) (construct : Bool) (f : Frame) :
    invoke c below callee (turns + 1) construct f =
      invokeFound c below callee turns construct f.top f.heap
        ((f.heap.deref? f.top.func).bind fun o => o.func.map (o, ·)) f := by
  rw [invoke]
  rfl

/-- A turn settles the call, or it goes on with the call of the receiver. -/
theorem invoke_turn (c : Setting ω) (below : List State) (callee : Expr) (construct : Bool) (f : Frame) :
    (∃ r, Settled r ∧ ∀ turns, invoke c below callee (turns + 1) construct f = r) ∨
      f.heap.isCallable f.top.this ∧ ∃ args, Forwards f.heap f.top.values args ∧
        ∀ turns, invoke c below callee (turns + 1) construct f =
          invoke c below callee turns false (f.forward args) := by
  simp only [invoke_succ]
  cases (f.heap.deref? f.top.func).bind fun o => o.func.map (o, ·) with
  | none => exact .inl ⟨_, .error (e := .raised _) (by simp) f, fun _ => rfl⟩
  | some p =>
    obtain ⟨function, name, code, length⟩ := p
    cases code with
    | closure node scope => exact .inl ⟨_, enterClosure_settled function node scope construct f, fun _ => rfl⟩
    | native name =>
      dsimp only [invokeFound]
      cases hn : Library.native? name with
      | none => exact .inl ⟨_, .host _ _ f, fun _ => rfl⟩
      | some native => exact callNative_turn hn rfl rfl

/-! ### Chains that end -/

/-- A call settles if the call of its receiver does, whatever list it gets. -/
theorem Settles.of_forward
    (hf : f.heap.isCallable f.top.this → ∀ args, Forwards f.heap f.top.values args →
      Settles c below callee (f.forward args)) : Settles c below callee f := by
  intro construct
  obtain ⟨r, hr, he⟩ | ⟨hc, args, hargs, he⟩ := invoke_turn c below callee construct f
  · refine ⟨1, r, hr, fun turns hle => ?_⟩
    obtain ⟨turns, rfl⟩ := Nat.exists_eq_add_of_le' hle
    exact he turns
  · obtain ⟨n, r, hr, he'⟩ := hf hc args hargs false
    refine ⟨n + 1, r, hr, fun turns hle => ?_⟩
    obtain ⟨turns, rfl⟩ := Nat.exists_eq_add_of_le' hle
    rw [show turns + (n + 1) = turns + n + 1 from rfl, he, he' _ (Nat.le_add_left n turns)]

/-- Without arguments, the call after the next one has no receiver. -/
theorem settles_nil (hf : f.top.values = []) : Settles c below callee f := by
  refine .of_forward fun _ args hargs => .of_forward fun hc => ?_
  have hthis : (f.forward args).top.this = .undefined := by simp [Frame.forward, hf]
  rw [hthis] at hc
  cases hc

/-- A call settles if the lists among its arguments make calls that settle. -/
theorem settles_of_lists {args : List Value} (hf : f.top.values = args)
    (hargs : ∀ v ∈ args, ∀ f' : Frame, f'.heap = f.heap → f'.top.values = listElements f.heap v →
      Settles c below callee f') : Settles c below callee f := by
  induction args generalizing f with
  | nil => exact settles_nil hf
  | cons v args ih =>
    refine .of_forward fun _ args' hargs' => ?_
    cases hargs' with
    | rest => exact ih (f := f.forward _) (by simp [Frame.forward, hf]) fun w hw => hargs w (List.mem_cons_of_mem v hw)
    | none => exact settles_nil rfl
    | list hw => exact hargs _ (hf ▸ hw) _ rfl rfl

/-- A call settles if no argument leads to lists in lists without end. -/
theorem settles_of_acc (hf : ∀ v ∈ f.top.values, Acc (fun w v => f.heap.Lists v w) v) :
    Settles c below callee f := by
  have hlist : ∀ h : Heap, ∀ v, Acc (fun w v => h.Lists v w) v → ∀ f' : Frame, f'.heap = h →
      f'.top.values = listElements h v → Settles c below callee f' := by
    intro h v hv
    induction hv with
    | intro v _ ih =>
      rintro f' rfl hvalues
      exact settles_of_lists hvalues fun w hw => ih w hw
  exact settles_of_lists rfl fun v hv => hlist f.heap v (hf v hv)

/-! ### Lists in lists -/

/-- Only an object makes a list. -/
theorem Heap.Lists.exists_object (hl : h.Lists v w) : ∃ id o, v = .object id ∧ h.object? id = some o := by
  unfold Heap.Lists listElements at hl
  split at hl
  · rename_i o ho
    cases v with
    | object id => exact ⟨id, o, rfl, ho⟩
    | _ => cases ho
  · cases hl

/-- From a value on, lists end if none of them leads back to itself: there are finitely many objects. -/
theorem Heap.acc_lists (hv : ∀ w, Relation.ReflTransGen h.Lists v w → ¬Relation.TransGen h.Lists w w) :
    Acc (fun w v => h.Lists v w) v := by
  let Listed := { id : ObjectId // (h.object? id).isSome ∧ Relation.ReflTransGen h.Lists v (.object id) }
  let Leads (x y : Listed) : Prop := Relation.TransGen h.Lists (.object y.1) (.object x.1)
  have : Finite Listed := by
    refine Finite.of_injective (β := { id : ObjectId // id ∈ h.objects.keys })
      (fun x => ⟨x.1, Std.ExtTreeMap.mem_keys.2 (Std.ExtTreeMap.mem_iff_isSome_getElem?.2 x.2.1)⟩) fun x y hxy => ?_
    exact Subtype.ext (Subtype.mk.inj hxy)
  have : IsTrans Listed Leads := ⟨fun _ _ _ hxy hyz => hyz.trans hxy⟩
  have : Std.Irrefl Leads := ⟨fun x => hv _ x.2.2⟩
  have hwf : WellFounded Leads := Finite.wellFounded_of_trans_of_irrefl Leads
  have hacc : ∀ x : Listed, Acc (fun w v => h.Lists v w) (.object x.1) := by
    intro x
    induction x using hwf.induction with
    | _ x ih =>
      refine .intro _ fun w hw => ?_
      refine .intro _ fun w' hw' => ?_
      obtain ⟨id, o, rfl, ho⟩ := hw'.exists_object
      have hx := ih ⟨id, by simp [ho], x.2.2.tail hw⟩ (.single hw)
      exact hx.inv hw'
  refine .intro _ fun w hw => ?_
  obtain ⟨id, o, rfl, ho⟩ := hw.exists_object
  exact (hacc ⟨id, by simp [ho], .refl⟩).inv hw

/-- No list contains itself if lists only contain older objects. -/
theorem Heap.not_lists_self (hold : ∀ id ∈ h.objects.keys, ∀ w ∈ listElements h (.object id), w.IsOlder id) :
    ∀ v, ¬Relation.TransGen h.Lists v v := by
  have step {v w : Value} (hl : h.Lists v w) : ∃ id, v = .object id ∧ w.IsOlder id := by
    obtain ⟨id, o, rfl, ho⟩ := hl.exists_object
    have hid : id ∈ h.objects.keys := by
      rw [Std.ExtTreeMap.mem_keys, Std.ExtTreeMap.mem_iff_isSome_getElem?, show h.objects[id]? = some o from ho]
      rfl
    exact ⟨id, rfl, hold id hid w hl⟩
  have run {v w : Value} (hl : Relation.TransGen h.Lists v w) : ∃ id, v = .object id ∧ w.IsOlder id := by
    induction hl using Relation.TransGen.head_induction_on with
    | single hl => exact step hl
    | head hl _ ih =>
      obtain ⟨id, rfl, hid⟩ := step hl
      obtain ⟨id', rfl, hid'⟩ := ih
      exact ⟨id, rfl, fun older he => (hid' older he).trans (hid id' rfl)⟩
  intro v hv
  obtain ⟨id, rfl, hid⟩ := run hv
  exact Int.lt_irrefl _ (hid id rfl)

/-- The call whose arguments are all there calls its function. -/
theorem State.exists_call {s : State} (hs : s.isComplete) :
    ∃ loc callee args, s.node = .expr (.call loc callee args) ∧ ∀ (c : Setting ω) below h,
      stepNode c below s.node ⟨s, h⟩ = invoke c below callee tailLimit false ⟨s.invoking, h⟩ := by
  simp only [isComplete, Bool.and_eq_true, beq_iff_eq] at hs
  obtain ⟨⟨hphase, hvalue⟩, hnode⟩ := hs
  split at hnode
  · rename_i loc callee args hn
    have hargs : args[s.n]? = none := List.getElem?_eq_none (by simpa using hnode)
    refine ⟨loc, callee, args, hn, fun c below h => ?_⟩
    simp [hn, stepNode, stepExpr, stepCall, stepArguments, invoking, hphase, hvalue, hargs, CallPhase.arguments]
  · cases hnode

namespace Machine

/-- A call settles, unless some list that its arguments lead to contains itself. What the functions that it comes to
convert on the way comes to an end as well, unless it is or leads to an error that contains itself. -/
theorem call_settles (c : Setting ω) (below : List State) (callee : Expr) (f : Frame)
    (hf : ∀ v ∈ f.top.values, ∀ w, Relation.ReflTransGen f.heap.Lists v w →
      ¬Relation.TransGen f.heap.Lists w w) :
    Settles c below callee f ∧
      (f.heap.Filed → ∀ v, ¬f.heap.Entangled v → f.heap.ConvertsTo v (f.heap.toPrimitive v)) :=
  ⟨settles_of_acc fun v hv => Heap.acc_lists (hf v hv), fun hfiled _ hv => Heap.convertsTo_toPrimitive hfiled hv⟩

/-- A call of `apply` on a list in a list, at the moment when its arguments are all there. -/
theorem call_settles_apply :
    ∃ (program : Program) (m : Machine) (s : State) (below : List State) (loc : Loc) (callee : Expr)
      (args : List Expr),
      let c : Setting Unit := Setting.ofPrograms (Library.read "") program [] Setting.defaultDepth Setting.zeros
      Program.ofSource "Math.max.apply(null, [1, [2]]);" = .ok program ∧
        m.Reachable c () ∧ m.stack = s :: below ∧ s.node = .expr (.call loc callee args) ∧
        stepNode c below s.node ⟨s, m.heap⟩ = invoke c below callee tailLimit false ⟨s.invoking, m.heap⟩ ∧
        (∀ v ∈ s.invoking.values, ∀ w, Relation.ReflTransGen m.heap.Lists v w →
          ¬Relation.TransGen m.heap.Lists w w) ∧
        Settles c below callee ⟨s.invoking, m.heap⟩ ∧
        ∀ v ∈ s.invoking.values, m.heap.ConvertsTo v (m.heap.toPrimitive v) := by
  have hrun : (after? (ω := Unit) "Math.max.apply(null, [1, [2]]);" [] 18 ()).any fun x =>
      x.2.1.stack.head?.any State.isComplete ∧
        (∀ id ∈ x.2.1.heap.objects.keys, ∀ w ∈ listElements x.2.1.heap (.object id), w.IsOlder id) ∧
        x.2.1.heap.IsFlat := by
    decide +kernel
  obtain ⟨⟨program, m, world⟩, hx, hrun⟩ := (Option.any_eq_true _ _).1 hrun
  obtain ⟨hp, hr⟩ := of_after? hx
  obtain ⟨htop, hold, hflat⟩ := of_decide_eq_true hrun
  obtain ⟨s, hhead, hs⟩ := (Option.any_eq_true _ _).1 htop
  obtain ⟨below, hstack⟩ := List.head?_eq_some_iff.1 hhead
  obtain ⟨loc, callee, args, hn, hstep⟩ := s.exists_call (ω := Unit) hs
  have hlists : ∀ v ∈ s.invoking.values, ∀ w, Relation.ReflTransGen m.heap.Lists v w →
      ¬Relation.TransGen m.heap.Lists w w := fun _ _ w _ => Heap.not_lists_self hold w
  have hw := (hr.wellFormed (List.forall_mem_nil _)).heap
  obtain ⟨hsettles, hconverts⟩ := call_settles _ below callee ⟨s.invoking, m.heap⟩ hlists
  exact ⟨program, m, s, below, loc, callee, args, hp, hr, hstack, hn, hstep _ below m.heap, hlists, hsettles,
    fun v _ => hconverts hw.toFiled v (hflat.not_entangled)⟩

end Machine

/-! ### A chain that does not end -/

/-- With an object as the list, `apply` asks for its receiver to be called with the elements. -/
theorem functionApply_tail {call : NativeCall} (hc : h.isCallable call.this) {list : ObjectId}
    (hlist : call.arg 1 = .object list) :
    functionApply call h = .ok (.tail call.this (call.arg 0) (listElements h (.object list)), h) := by
  show (functionApply call).run h = _
  simp [functionApply, hc, hlist]
  rfl

/-- `apply` that is to call itself with a list that holds `apply` and the list does so for ever. -/
theorem apply_itself_endless {apply list : ObjectId} {info : FunctionInfo}
    (happly : (f.heap.object? apply).bind Object.func = some info)
    (hcode : info.code = .native "Function.prototype.apply")
    (hfunc : f.top.func = .object apply) (hthis : f.top.this = .object apply)
    (hvalues : f.top.values = [.object apply, .object list])
    (hlist : listElements f.heap (.object list) = [.object apply, .object list]) (turns : Nat) (construct : Bool) :
    invoke c below callee turns construct f = .error (.fault .endlessCalls) f := by
  obtain ⟨function, hfunction, hinfo⟩ := Option.bind_eq_some_iff.1 happly
  have hfound : (f.heap.deref? f.top.func).bind (fun o => o.func.map (o, ·)) = some (function, info) := by
    rw [hfunc]
    simp [Heap.deref?, hfunction, hinfo]
  have hcallable : f.heap.isCallable f.top.this := by
    rw [hthis]
    simp [Heap.isCallable, Heap.deref?, hfunction, Object.isCallable, hinfo]
  have hsame : f.forward [.object apply, .object list] = f := by
    obtain ⟨⟨⟩, h⟩ := f
    simp_all [Frame.forward]
  induction turns generalizing construct with
  | zero => rfl
  | succ turns ih =>
    have hn : Library.native? "Function.prototype.apply" = some functionApply := rfl
    rw [invoke_succ, hfound]
    dsimp only [invokeFound]
    rw [hcode]
    dsimp only
    rw [hn]
    dsimp only
    rw [callNative_bind,
      functionApply_tail hcallable (show NativeCall.arg _ 1 = .object list by rw [NativeCall.arg, hvalues]; rfl), hlist]
    -- the next call is this one again
    refine Eq.trans ?_ (ih false)
    conv_rhs => rw [← hsame]
    rfl

namespace Machine

/-- A program of one line whose last call does not settle, however many turns it gets. -/
theorem call_endless :
    ∃ (program : Program) (m : Machine) (s : State) (below : List State) (loc : Loc) (callee : Expr)
      (args : List Expr),
      let c : Setting Unit := Setting.ofPrograms (Library.read "") program [] Setting.defaultDepth Setting.zeros
      Program.ofSource "var f = [].push.apply, a = [f]; a[1] = a; f.apply(f, a);" = .ok program ∧
        m.Reachable c () ∧ m.stack = s :: below ∧ s.node = .expr (.call loc callee args) ∧
        stepNode c below s.node ⟨s, m.heap⟩ = invoke c below callee tailLimit false ⟨s.invoking, m.heap⟩ ∧
        ∀ turns construct, invoke c below callee turns construct ⟨s.invoking, m.heap⟩ =
          .error (.fault .endlessCalls) ⟨s.invoking, m.heap⟩ := by
  have hrun : (after? (ω := Unit) "var f = [].push.apply, a = [f]; a[1] = a; f.apply(f, a);" [] 34 ()).any fun x =>
      (x.2.1.heap.object? 16).bind Object.func = some ⟨"apply", .native "Function.prototype.apply", 2⟩ ∧
        listElements x.2.1.heap (.object 101) = [.object 16, .object 101] ∧ x.2.1.stack.head?.any fun s =>
          s.isComplete ∧ s.func = .object 16 ∧ s.this = .object 16 ∧
            s.invoking.values = [.object 16, .object 101] := by
    decide +kernel
  obtain ⟨⟨program, m, world⟩, hx, hrun⟩ := (Option.any_eq_true _ _).1 hrun
  obtain ⟨hp, hr⟩ := of_after? hx
  obtain ⟨happly, hlist, htop⟩ := of_decide_eq_true hrun
  obtain ⟨s, hhead, htop⟩ := (Option.any_eq_true _ _).1 htop
  obtain ⟨hs, hfunc, hthis, hvalues⟩ := of_decide_eq_true htop
  obtain ⟨below, hstack⟩ := List.head?_eq_some_iff.1 hhead
  obtain ⟨loc, callee, args, hn, hstep⟩ := s.exists_call (ω := Unit) hs
  exact ⟨program, m, s, below, loc, callee, args, hp, hr, hstack, hn, hstep _ below m.heap,
    apply_itself_endless (f := ⟨s.invoking, m.heap⟩) happly rfl hfunc hthis hvalues hlist⟩

end Machine

end Stepwise

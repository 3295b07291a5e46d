import Stepwise.Proofs.Heap.Closure
import Stepwise.Proofs.Library.Answer
import Stepwise.Proofs.Library.Tail
import Stepwise.Proofs.Machine.Statement

/-!
# What a rule does to values

* `State.In`, `Move.In`, `Failure.In`: all that a state, a move or a failure refers to is in the heap.
* `Effect`: a rule edits the heap, makes a function, or binds what a call needs.
* `Complains`: why a rule can fail.
* `stepNode_ends`: from a well-formed heap and a state in it, every rule has one of these effects, leaves
  its state in the heap and answers with what is in the heap; or it fails for one of these reasons, and leaves the heap
  as it was.
-/

namespace Stepwise

open Heap RuleM

variable {ω : Type}

/-! ### What is in the heap -/

/-- A place in a scope or object that is there. -/
def Reference.In (r : Reference) (h : Heap) : Prop :=
  match r with
  | .variable scope _ => (h.scope? scope).isSome
  | .property base _ => base.In h

/-- All that a state has gathered is in the heap, and so is its scope. -/
def State.In (s : State) (h : Heap) : Prop :=
  (h.scope? s.scope).isSome ∧ s.value.In h ∧ s.left.In h ∧ (∀ r ∈ s.ref, r.In h) ∧ (∀ v ∈ s.values, v.In h) ∧
    s.func.In h ∧ s.this.In h

/-- What a rule answers with is in the heap. A call of the host comes from a function that is there. -/
def Move.In (m : Move) (h : Heap) : Prop :=
  match m with
  | .push _ scope _ _ => (h.scope? scope).isSome
  | .give v | .return_ v => v.In h
  | .giveRef r => r.In h
  | .host name call => call.In h ∧ h.Runs (.native name) ∧ Library.native? name = none
  | .stay | .drop | .jump .. => True

/-- What is thrown is in the heap. -/
def Failure.In (e : Failure) (h : Heap) : Prop :=
  match e with
  | .thrown v => v.In h
  | .raised _ | .fault _ => True

/-- The heap has no loose ends, and the state on top is in it. -/
structure Frame.Sound (f : Frame) : Prop where
  heap : f.heap.WellFormed
  top : f.top.In f.heap

namespace State.In

variable {s : State} {h h' : Heap}

theorem scope (hs : s.In h) : (h.scope? s.scope).isSome := hs.1

theorem value (hs : s.In h) : s.value.In h := hs.2.1

theorem left (hs : s.In h) : s.left.In h := hs.2.2.1

theorem ref (hs : s.In h) {r : Reference} (hr : s.ref = some r) : r.In h := hs.2.2.2.1 r hr

theorem values (hs : s.In h) : ∀ v ∈ s.values, v.In h := hs.2.2.2.2.1

theorem func (hs : s.In h) : s.func.In h := hs.2.2.2.2.2.1

theorem this (hs : s.In h) : s.this.In h := hs.2.2.2.2.2.2

theorem mono (g : h.Grows h') (hs : s.In h) : s.In h' := by
  refine ⟨g.isSome_scope? hs.scope, hs.value.mono g, hs.left.mono g, fun r hr => ?_, fun v hv => (hs.values v hv).mono g,
    hs.func.mono g, hs.this.mono g⟩
  have hr' := hs.ref hr
  rcases r with ⟨scope, name⟩ | ⟨base, name⟩
  · exact g.isSome_scope? hr'
  · exact Value.In.mono g hr'

theorem with_values (hs : s.In h) {values : List Value} (hv : ∀ v ∈ values, v.In h) :
    ({ s with values } : State).In h := ⟨hs.scope, hs.value, hs.left, hs.2.2.2.1, hv, hs.func, hs.this⟩

theorem with_left (hs : s.In h) {left : Value} (hl : left.In h) : ({ s with left } : State).In h :=
  ⟨hs.scope, hs.value, hl, hs.2.2.2.1, hs.values, hs.func, hs.this⟩

theorem with_value (hs : s.In h) {value : Value} (hv : value.In h) : ({ s with value } : State).In h :=
  ⟨hs.scope, hv, hs.left, hs.2.2.2.1, hs.values, hs.func, hs.this⟩

theorem with_ref (hs : s.In h) {ref : Option Reference} (hr : ∀ r ∈ ref, r.In h) : ({ s with ref } : State).In h :=
  ⟨hs.scope, hs.value, hs.left, hr, hs.values, hs.func, hs.this⟩

theorem with_func (hs : s.In h) {func : Value} (hf : func.In h) : ({ s with func } : State).In h :=
  ⟨hs.scope, hs.value, hs.left, hs.2.2.2.1, hs.values, hf, hs.this⟩

theorem with_this (hs : s.In h) {this : Value} (ht : this.In h) : ({ s with this } : State).In h :=
  ⟨hs.scope, hs.value, hs.left, hs.2.2.2.1, hs.values, hs.func, ht⟩

end State.In

/-! ### Effects and complaints -/

namespace Node

/-- Whether the node deletes a property. -/
def isDelete : Node → Bool
  | expr (.unary _ .delete _) => true
  | _ => false

/-- The names that the rule of a node reads or assigns in its own scope. -/
def ownNames : Node → List String
  | expr (.identifier i) => [i.name]
  | stmt (.var d) => d.declarators.map (·.name.name)
  | stmt (.forIn _ (.var d) _ _) => d.declarators.map (·.name.name)
  | stmt (.forIn _ (.expr (.identifier i)) _ _) => [i.name]
  | _ => []

/-- Whether the node is syntax that is not evaluated. -/
def isRefused : Node → Bool
  | expr (.regexp ..) | stmt (.tryCatch ..) | stmt (.with_ ..) => true
  | expr (.object _ properties) => properties.any (·.kind != .init)
  | _ => false

/-- Whether the node is evaluated at all. -/
def isEvaluated : Node → Bool
  | program _ | stmt _ | expr _ => true
  | declarator _ | switchCase _ | catchClause _ | property _ => false

end Node

/-- Whether the state cannot go on without a place. -/
def State.awaitsPlace (s : State) : Bool :=
  match s.node with
  | .expr (.update ..) | .expr (.assign ..) => s.phase != 0
  | .stmt (.forIn ..) => s.phase == 3
  | _ => false

/-- What a rule makes of the heap, together with its move. -/
inductive Effect (c : Setting ω) (f : Frame) : Move → Heap → Prop where
  /-- Nothing is lost unless a property is deleted. -/
  | edits {m : Move} {h : Heap} (e : f.heap.Edits f.top.node.isDelete h) : Effect c f m h
  | function {callable : Callable} (hn : f.top.node.callable? = some callable) :
    Effect c f (.give (f.heap.evalFunction callable f.top.scope).1) (f.heap.evalFunction callable f.top.scope).2
  /-- A call of a function of the source starts its body. -/
  | enter {h : Heap} {id : Int} {closure : ObjectId} {callable : Callable} {this : Value} {args : List Value}
    (e : f.heap.Edits False h) (hr : h.Runs (.closure id closure))
    (hc : (c.node? id).bind Node.callable? = some callable) (ht : this.In h) (ha : ∀ v ∈ args, v.In h) :
    Effect c f (.push (.stmt (.block callable.body)) (h.bindCall closure callable this args).1 false [])
      (h.bindCall closure callable this args).2

/-- Why a rule fails, and with what heap. -/
inductive Complains (c : Setting ω) (f : Frame) (h : Heap) : Failure → Prop where
  | thrown (v : Value) : Complains c f h (.thrown v)
  | ordinary {t : Throw} (ht : t.IsOrdinary) : Complains c f h (.raised t)
  /-- A name of the node, or the place that was evaluated, is bound nowhere. -/
  | unbound {scope : ObjectId} {name : String}
    (hn : scope = f.top.scope ∧ name ∈ f.top.node.ownNames ∨ f.top.ref = some (.variable scope name))
    (hl : f.heap.lookup? scope name = none) : Complains c f h (.raised (.notDefined name))
  /-- No place was evaluated. -/
  | place {t : Throw} (ha : f.top.awaitsPlace) (hr : f.top.ref = none) : Complains c f h (.raised t)
  | refused {what : String} (hn : f.top.node.isRefused) : Complains c f h (.raised (.unsupported what))
  | endless : Complains c f h (.fault .endlessCalls)
  | missing {id : Int} {closure : ObjectId} (hr : h.Runs (.closure id closure))
    (hn : (c.node? id).bind Node.callable? = none) : Complains c f h (.fault (.missingFunction id))
  | unexpected {kind : Kind} (hn : f.top.node.isEvaluated = false) : Complains c f h (.fault (.unexpectedNode kind))

/-- A rule has ended with a move. -/
structure Ends (c : Setting ω) (f : Frame) (m : Move) (f' : Frame) : Prop where
  effect : Effect c f m f'.heap
  top : f'.top.In f'.heap
  move : m.In f'.heap

/-- A rule has failed, with the heap as it was. -/
structure Fails (c : Setting ω) (f : Frame) (e : Failure) (f' : Frame) : Prop where
  heap : f'.heap = f.heap
  top : f'.top.In f'.heap
  failure : e.In f'.heap
  cause : Complains c f f'.heap e

/-- From a sound frame, the rule of a node ends or fails as it may. -/
def RuleM.Does (c : Setting ω) (n : Node) (r : RuleM Move) : Prop :=
  ∀ f : Frame, f.Sound → f.top.node = n → r.wp (Ends c f) (Fails c f) f

theorem Heap.Edits.mono {loses loses' : Prop} {h h' : Heap} (e : h.Edits loses h') (hl : loses → loses') :
    h.Edits loses' h' := by
  induction e with
  | refl => exact .refl
  | add _ ho hf ih => exact ih.add ho hf
  | store _ ho ha hs hk ih => exact ih.store ho ha hs (hk.imp_left hl)

section

variable {c : Setting ω} {f f' : Frame} {m : Move} {t : Throw} {e : Failure}

/-- A rule that only changes its state. -/
theorem Ends.same (ht : f'.top.In f.heap) (hm : m.In f.heap) (hh : f'.heap = f.heap) : Ends c f m f' := by
  rw [← hh] at ht hm
  exact ⟨.edits (hh ▸ .refl), ht, hm⟩

theorem Ends.edits (he : f.heap.Edits False f'.heap) (ht : f'.top.In f'.heap) (hm : m.In f'.heap) : Ends c f m f' :=
  ⟨.edits (he.mono False.elim), ht, hm⟩

theorem Fails.ordinary (he : f'.heap = f.heap) (ht : f'.top.In f'.heap) (ho : t.IsOrdinary) :
    Fails c f (.raised t) f' := ⟨he, ht, trivial, .ordinary ho⟩

theorem Fails.edits (h : Fails c f e f') : f.heap.Edits False f'.heap := h.heap ▸ .refl

end

/-! ### Reading and writing -/

section

variable {h h' : Heap} {v w : Value} {t : Throw} {key : String}

theorem ordinary_get (hg : h.get v key = .error t) : t.IsOrdinary := by
  unfold Heap.get at hg
  split at hg
  · cases hg
    exact ⟨ErrorType.noConfusion, ErrorType.noConfusion⟩
  · cases hg
    exact ⟨ErrorType.noConfusion, ErrorType.noConfusion⟩
  · cases hg
  · cases hg
  · cases hg
  · split at hg <;> cases hg

theorem ordinary_put (hp : h.put v key w = .error t) : t.IsOrdinary := by
  have hon {o : Object} (hp : h.putOn o key w = .error t) : t.IsOrdinary := by
    unfold Heap.putOn at hp
    split at hp
    · split at hp
      · split at hp <;> cases hp
        exact ⟨ErrorType.noConfusion, ErrorType.noConfusion⟩
      · split at hp <;> cases hp
    · split at hp
      · split at hp <;> cases hp
        exact ⟨ErrorType.noConfusion, ErrorType.noConfusion⟩
      · split at hp <;> cases hp
    · split at hp <;> cases hp
      exact ⟨ErrorType.noConfusion, ErrorType.noConfusion⟩
    · cases hp
  unfold Heap.put at hp
  split at hp
  · rename_i o _
    cases hq : h.putOn o key w with
    | error t' =>
      rw [hq] at hp
      cases hp
      exact hon hq
    | ok o' => rw [hq] at hp; cases hp
  · split at hp <;> cases hp <;> exact ⟨ErrorType.noConfusion, ErrorType.noConfusion⟩

/-- A binary operator gives a primitive, or fails for an ordinary reason. -/
theorem applyBinary_spec (op : BinaryOp) :
    (∀ r, h.applyBinary op v w = .ok r → r.In h) ∧ ∀ t, h.applyBinary op v w = .error t → t.IsOrdinary := by
  have hbool {x : Except Throw Bool} (hx : ∀ t, x = .error t → t.IsOrdinary) :
      (∀ r, Value.bool <$> x = .ok r → r.In h) ∧ ∀ t, Value.bool <$> x = .error t → t.IsOrdinary := by
    cases x with
    | ok b => exact ⟨fun r hr => by cases hr; trivial, fun t ht => by cases ht⟩
    | error u => exact ⟨fun r hr => by injection hr, fun t ht => by cases ht; exact hx u rfl⟩
  unfold Heap.applyBinary
  split
  case h_20 =>
    refine hbool fun t ht => ?_
    unfold Heap.within at ht
    split at ht <;> cases ht
    exact ⟨ErrorType.noConfusion, ErrorType.noConfusion⟩
  case h_21 =>
    refine hbool fun t ht => ?_
    unfold Heap.instanceOf at ht
    split at ht
    · cases ht
      exact ⟨ErrorType.noConfusion, ErrorType.noConfusion⟩
    · split at ht
      · cases ht
        exact ⟨ErrorType.noConfusion, ErrorType.noConfusion⟩
      · split at ht
        · cases ht
        · split at ht <;> cases ht
          exact ⟨ErrorType.noConfusion, ErrorType.noConfusion⟩
  case h_1 =>
    refine ⟨fun r hr => ?_, fun t ht => by cases ht⟩
    cases hr
    unfold Heap.addValues
    split <;> trivial
  all_goals exact ⟨fun r hr => by cases hr; trivial, fun t ht => by cases ht⟩

theorem in_applyUnary (op : UnaryOp) : (h.applyUnary op v).In h := by
  cases op <;> trivial

/-- An assignment fails only if the name is bound nowhere. -/
theorem assign_error {scope : ObjectId} {name : String} (ha : h.assign scope name v = .error t) :
    t = .notDefined name ∧ h.lookup? scope name = none := by
  simp only [Heap.assign] at ha
  split at ha
  · cases ha
  · rename_i hn
    have hl : h.lookup? scope name = none := by
      refine List.findSome?_eq_none_iff.2 fun s hs => ?_
      have hb := List.find?_eq_none.1 hn s hs
      exact Option.not_isSome_iff_eq_none.1 hb
    split at ha
    · split at ha <;> cases ha
      exact ⟨rfl, hl⟩
    · cases ha
      exact ⟨rfl, hl⟩

/-- Reading a place gives what is in the heap. -/
theorem in_readRef {r : Reference} (hw : h.WellFormed) (hr : readRef h r = .ok v) : v.In h := by
  unfold readRef at hr
  split at hr
  · split at hr <;> cases hr
    exact in_lookup? hw ‹_›
  · exact in_get hw hr

theorem readRef_error {r : Reference} (hr : readRef h r = .error t) :
    t.IsOrdinary ∨ ∃ scope name, r = .variable scope name ∧ t = .notDefined name ∧ h.lookup? scope name = none := by
  unfold readRef at hr
  split at hr
  · rename_i scope name
    split at hr <;> cases hr
    exact .inr ⟨scope, name, rfl, rfl, ‹_›⟩
  · exact .inl (ordinary_get hr)

theorem writeRef_error {r : Reference} (hr : writeRef h r v = .error t) :
    t.IsOrdinary ∨ ∃ scope name, r = .variable scope name ∧ t = .notDefined name ∧ h.lookup? scope name = none := by
  unfold writeRef at hr
  split at hr
  · rename_i scope name
    exact .inr ⟨scope, name, rfl, assign_error hr⟩
  · exact .inl (ordinary_put hr)

theorem edits_writeRef {r : Reference} (hw : h.WellFormed) (hv : v.In h) (hr : writeRef h r v = .ok h') :
    h.Edits False h' := by
  unfold writeRef at hr
  split at hr
  · exact edits_assign hw hv hr
  · exact edits_put hw hv hr

end

section

variable {α : Type} {Q : α → Frame → Prop} {E : Failure → Frame → Prop} {f : Frame} {r : Reference} {v : Value}

theorem wp_orRaise {x : Except Throw α} (hQ : ∀ a, x = .ok a → Q a f) (hE : ∀ t, x = .error t → E (.raised t) f) :
    (orRaise x).wp Q E f := by
  cases x with
  | ok a => exact hQ a rfl
  | error t => exact hE t rfl

theorem wp_modifyTop {Q : PUnit → Frame → Prop} {g : State → State} (hQ : Q ⟨⟩ { f with top := g f.top }) :
    (modifyTop g).wp Q E f := hQ

theorem wp_take {Q : Value → Frame → Prop} (hQ : Q f.top.value { f with top := { f.top with hasValue := false } }) :
    take.wp Q E f := hQ

theorem wp_getRef {Q : Value → Frame → Prop} (hw : f.heap.WellFormed) (hQ : ∀ v, v.In f.heap → Q v f)
    (hE : ∀ t, readRef f.heap r = .error t → E (.raised t) f) : (getRef r).wp Q E f := by
  unfold getRef
  refine wp_bind (wp_heap (wp_orRaise (fun v hv => hQ v (in_readRef hw hv)) hE))

theorem wp_putRef {Q : Unit → Frame → Prop} (hw : f.heap.WellFormed) (hv : v.In f.heap)
    (hQ : ∀ h, f.heap.Edits False h → Q () { f with heap := h })
    (hE : ∀ t, writeRef f.heap r v = .error t → E (.raised t) f) : (putRef r v).wp Q E f := by
  unfold putRef
  refine wp_bind (wp_heap (wp_bind (wp_orRaise (fun h hh => ?_) hE)))
  exact hQ h (edits_writeRef hw hv hh)

end

/-! ### Rules of expressions -/

section

variable {c : Setting ω} {n : Node} {f f' : Frame} {t : Throw}

/-- What cannot be read or stored at the place that was evaluated. -/
theorem Complains.of_ref {h : Heap} {r : Reference} (hr : f.top.ref = some r)
    (ht : t.IsOrdinary ∨ ∃ scope name, r = .variable scope name ∧ t = .notDefined name ∧
      f.heap.lookup? scope name = none) : Complains c f h (.raised t) := by
  rcases ht with ht | ⟨scope, name, rfl, rfl, hl⟩
  · exact .ordinary ht
  · exact .unbound (.inr hr) hl

/-- What cannot be read or stored under a name of the node. -/
theorem Complains.of_name {h : Heap} {scope : ObjectId} {name : String} (hs : scope = f.top.scope)
    (hn : name ∈ f.top.node.ownNames)
    (ht : t.IsOrdinary ∨ ∃ scope' name', Reference.variable scope name = .variable scope' name' ∧
      t = .notDefined name' ∧ f.heap.lookup? scope' name' = none) : Complains c f h (.raised t) := by
  rcases ht with ht | ⟨scope', name', he, rfl, hl⟩
  · exact .ordinary ht
  · cases he
    exact .unbound (.inl ⟨hs, hn⟩) hl

theorem evalIdentifier_does {name : String} (hn : name ∈ n.ownNames) : Does c n (evalIdentifier name) := by
  intro f hf he
  refine wp_bind (wp_top ?_)
  split
  · exact .same hf.top hf.top.scope rfl
  · refine wp_bind (wp_getRef hf.heap (fun v hv => .same hf.top hv rfl) fun t ht => ?_)
    exact ⟨rfl, hf.top, trivial, .of_name rfl (he ▸ hn) (readRef_error ht)⟩

theorem evalThis_does : Does c n evalThis := by
  intro f hf he
  refine Ends.same hf.top ?_ rfl
  show (((f.heap.lookup? f.top.scope "this")).getD .undefined).In f.heap
  cases hl : f.heap.lookup? f.top.scope "this" with
  | none => trivial
  | some v => exact in_lookup? hf.heap hl

/-- Keeping an element leaves the state in the heap. -/
theorem wp_keepElement {Q : PUnit → Frame → Prop} {E : Failure → Frame → Prop} (hs : f.top.In f.heap)
    (hQ : ∀ s : State, s.In f.heap → Q ⟨⟩ ⟨s, f.heap⟩) : keepElement.wp Q E f := by
  refine wp_bind (wp_top ?_)
  split
  · refine hQ _ (hs.with_values fun v hv => ?_)
    rcases List.mem_append.1 hv with hv | hv
    · exact hs.values v hv
    · cases List.mem_singleton.1 hv
      exact hs.value
  · exact hQ _ hs

/-- The elements that were kept become an array. -/
theorem Ends.newArray {s : State} (hf : f.Sound) (hs : s.In f.heap) :
    Ends c f (.give (.object (f.heap.newArray s.values.toArray).1)) ⟨s, (f.heap.newArray s.values.toArray).2⟩ := by
  have e : f.heap.Edits False (f.heap.newArray s.values.toArray).2 :=
    edits_newArray hf.heap fun v hv => hs.values v (List.mem_toArray.1 hv)
  exact .edits e (hs.mono (e.wellFormed hf.heap).2) (in_add _ _)

theorem evalArray_does (elements : List (Option Expr)) : Does c n (evalArray elements) := by
  intro f hf he
  refine wp_bind (wp_keepElement hf.top fun s hs => wp_bind (wp_top (wp_bind ?_)))
  have hs' : ∀ holes, ∀ v ∈ s.values ++ List.replicate holes Value.undefined, v.In f.heap := by
    intro holes v hv
    rcases List.mem_append.1 hv with hv | hv
    · exact hs.values v hv
    · rw [(List.mem_replicate.1 hv).2]
      trivial
  refine wp_modifyTop ?_
  split
  · exact .same (hs.with_values (hs' _)) hs.scope rfl
  · exact .newArray hf (hs.with_values (hs' _))

theorem edits_newRecord {h : Heap} (hw : h.WellFormed) {properties : List (String × Value)}
    (hp : ∀ p ∈ properties, p.2.In h) :
    h.Edits False (h.newRecord properties).2 ∧ (Value.object (h.newRecord properties).1).In (h.newRecord properties).2 := by
  have e₁ : h.Edits False h.newPlain.2 := edits_newPlain hw
  obtain ⟨hw₁, g₁⟩ := e₁.wellFormed hw
  have hp₁ : ∀ p ∈ properties, p.2.In h.newPlain.2 := fun p hm => (hp p hm).mono g₁
  have hfold (o : Object) (hs : o.Sound h.newPlain.2) :
      (properties.foldl (fun o p => o.put p.1 p.2) o).Sound h.newPlain.2 ∧
        ∀ key, (o.own? key).isSome → ((properties.foldl (fun o p => o.put p.1 p.2) o).own? key).isSome := by
    clear hp
    induction properties generalizing o with
    | nil => exact ⟨hs, fun _ hk => hk⟩
    | cons p properties ih =>
      obtain ⟨hv, hp₁⟩ := List.forall_mem_cons.1 hp₁
      obtain ⟨hs', hk'⟩ := ih hp₁ _ (hs.put p.1 hv)
      exact ⟨hs', fun key hk => hk' key (isSome_own?_put o p.1 p.2 key hk)⟩
  have e₂ : h.newPlain.2.Edits False (h.newRecord properties).2 :=
    edits_modify hw₁ (fun o => Object.alike_foldl (fun o (p : String × Value) => o.alike_put p.1 p.2) _ o) hfold _
  have hin : (Value.object h.newPlain.1).In h.newPlain.2 := in_add _ _
  exact ⟨e₁.trans e₂, hin.mono (e₂.wellFormed hw₁).2⟩

theorem evalObject_does {properties : List Property} (hn : ∀ p ∈ properties, p.kind ≠ .init → n.isRefused) :
    Does c n (evalObject properties) := by
  intro f hf he
  refine wp_bind (wp_keepElement hf.top fun s hs => wp_bind (wp_top ?_))
  split
  · rename_i p hp
    split
    · exact .same hs hs.scope rfl
    · rename_i hk
      exact ⟨rfl, hs, trivial, .refused (he ▸ hn p (List.mem_of_getElem? hp) hk)⟩
  · have hp : ∀ p ∈ (properties.map (·.name.key)).zip s.values, p.2.In f.heap := fun p hm =>
      hs.values p.2 (List.of_mem_zip hm).2
    obtain ⟨e, hin⟩ := edits_newRecord hf.heap hp
    exact .edits e (hs.mono (e.wellFormed hf.heap).2) hin

theorem evalDelete_does (hn : n.isDelete) : Does c n evalDelete := by
  intro f hf he
  refine wp_bind (wp_top ?_)
  split
  · exact .same hf.top trivial rfl
  · rename_i r hr
    have hnothing : Fails c f (.raised .deleteOfNothing) f :=
      .ordinary rfl hf.top ⟨ErrorType.noConfusion, ErrorType.noConfusion⟩
    rcases r with ⟨scope, name⟩ | ⟨base, name⟩
    · exact hnothing
    · dsimp only
      split
      · exact hnothing
      · refine wp_bind (wp_heap ?_)
        split
        · exact .same hf.top trivial rfl
        · rename_i o ho
          have hs := sound_remove (hf.heap.sound_deref? ho) name
          have e : f.heap.Edits f.top.node.isDelete (f.heap.store (remove o name).1) :=
            edits_store_deref hf.heap ho (alike_remove o name) hs (.inl (he ▸ hn))
          exact ⟨.edits e, hf.top.mono (e.wellFormed hf.heap).2, trivial⟩

theorem evalUnary_does {op : UnaryOp} {argument : Expr} (hn : op = .delete → n.isDelete) :
    Does c n (evalUnary op argument) := by
  intro f hf he
  refine wp_bind (wp_top ?_)
  split
  · refine wp_bind (wp_modifyTop ?_)
    split
    · refine wp_bind (wp_heap (wp_bind (wp_top ?_)))
      split <;> exact .same hf.top trivial rfl
    · exact .same hf.top hf.top.scope rfl
    · exact .same hf.top hf.top.scope rfl
    · exact .same hf.top hf.top.scope rfl
  · split
    · exact evalDelete_does (hn ‹_›) f hf he
    · exact .same hf.top (in_applyUnary op) rfl

theorem evalUpdate_does {op : UpdateOp} {leading : Bool} {argument : Expr}
    (hn : ∀ s : State, s.node = n → s.phase ≠ 0 → s.awaitsPlace) : Does c n (evalUpdate op leading argument) := by
  intro f hf he
  refine wp_bind (wp_top ?_)
  split
  · exact .same hf.top hf.top.scope rfl
  · rename_i hp
    refine wp_bind (wp_top ?_)
    split
    · rename_i hr
      exact ⟨rfl, hf.top, trivial, .place (hn f.top he hp) hr⟩
    · rename_i r hr
      refine wp_bind (wp_heap (wp_bind (wp_getRef hf.heap (fun old _ => ?_) fun t ht => ?_)))
      · refine wp_bind (wp_putRef hf.heap trivial (fun h e => ?_) fun t ht => ?_)
        · exact .edits e (hf.top.mono (e.wellFormed hf.heap).2) trivial
        · exact ⟨rfl, hf.top, trivial, .of_ref hr (writeRef_error ht)⟩
      · exact ⟨rfl, hf.top, trivial, .of_ref hr (readRef_error ht)⟩

theorem wp_assigned {Q : Value → Frame → Prop} {E : Failure → Frame → Prop} {op : AssignOp} {right : Value}
    (hr : right.In f.heap) (hQ : ∀ v, v.In f.heap → Q v f) (hE : ∀ t : Throw, t.IsOrdinary → E (.raised t) f) :
    (assigned op right).wp Q E f := by
  unfold assigned
  split
  · exact hQ right hr
  · rename_i b
    obtain ⟨hok, herror⟩ := applyBinary_spec (h := f.heap) (v := f.top.left) (w := right) b
    exact wp_bind (wp_heap (wp_bind (wp_top (wp_orRaise (fun v hv => hQ v (hok v hv)) fun t ht => hE t (herror t ht)))))

theorem evalAssign_does {op : AssignOp} {left right : Expr}
    (hn : ∀ s : State, s.node = n → s.phase ≠ 0 → s.awaitsPlace) : Does c n (evalAssign op left right) := by
  intro f hf he
  refine wp_bind (wp_top ?_)
  split
  · exact .same hf.top hf.top.scope rfl
  · rename_i hp
    refine wp_bind (wp_modifyTop (wp_bind (wp_top ?_)))
    split
    · rename_i hr
      exact ⟨rfl, hf.top, trivial, .place (hn f.top he (by rw [hp]; decide)) hr⟩
    · rename_i r hr
      split
      · refine wp_bind (wp_getRef hf.heap (fun old ho => ?_) fun t ht => ?_)
        · exact .same (hf.top.with_left ho) hf.top.scope rfl
        · exact ⟨rfl, hf.top, trivial, .of_ref hr (readRef_error ht)⟩
      · exact .same hf.top hf.top.scope rfl
  · rename_i hp _
    refine wp_bind (wp_take (wp_bind (wp_assigned hf.top.value (fun v hv => ?_) fun t ht => ?_)))
    · refine wp_bind (wp_top ?_)
      split
      · rename_i hr
        exact ⟨rfl, hf.top, trivial, .place (hn f.top he hp) hr⟩
      · rename_i r hr
        refine wp_bind (wp_putRef hf.heap hv (fun h e => ?_) fun t ht => ?_)
        · obtain ⟨-, g⟩ := e.wellFormed hf.heap
          exact .edits e (hf.top.mono g) (hv.mono g)
        · exact ⟨rfl, hf.top, trivial, .of_ref hr (writeRef_error ht)⟩
    · exact .ordinary rfl hf.top ht

theorem evalBinary_does {op : BinaryOp} {left right : Expr} : Does c n (evalBinary op left right) := by
  intro f hf he
  refine wp_bind (wp_top ?_)
  split
  · exact .same hf.top hf.top.scope rfl
  · exact .same (hf.top.with_left hf.top.value) hf.top.scope rfl
  · obtain ⟨hok, herror⟩ := applyBinary_spec (h := f.heap) (v := f.top.left) (w := f.top.value) op
    refine wp_bind (wp_take (wp_bind (wp_heap (wp_bind (wp_top (wp_bind (wp_orRaise (fun v hv => ?_) fun t ht => ?_)))))))
    · exact .same hf.top (hok v hv) rfl
    · exact .ordinary rfl hf.top (herror t ht)

theorem evalLogical_does {op : LogicalOp} {left right : Expr} : Does c n (evalLogical op left right) := by
  intro f hf he
  refine wp_bind (wp_top ?_)
  split
  · exact .same hf.top hf.top.scope rfl
  · refine wp_bind (wp_take ?_)
    split
    · exact .same hf.top hf.top.value rfl
    · exact .same hf.top hf.top.scope rfl
  · exact .same hf.top hf.top.value rfl

theorem evalConditional_does {test consequent alternate : Expr} :
    Does c n (evalConditional test consequent alternate) := by
  intro f hf he
  refine wp_bind (wp_top ?_)
  split
  · exact .same hf.top hf.top.scope rfl
  · exact .same hf.top hf.top.scope rfl
  · exact .same hf.top hf.top.value rfl

theorem evalSequence_does {expressions : List Expr} : Does c n (evalSequence expressions) := by
  intro f hf he
  refine wp_bind (wp_top ?_)
  split
  · exact .same hf.top hf.top.scope rfl
  · exact .same hf.top hf.top.value rfl

/-- A property access ends with a place or a value of the heap. -/
theorem giveProperty_ends {s : State} (hf : f.Sound) (hs : s.In f.heap) (key : String) :
    (giveProperty key).wp (Ends c f) (Fails c f) ⟨s, f.heap⟩ := by
  refine wp_bind (wp_top ?_)
  split
  · exact .same hs hs.left rfl
  · refine wp_bind (wp_heap (wp_bind (wp_orRaise (fun v hv => ?_) fun t ht => ?_)))
    · exact .same hs (in_get hf.heap hv) rfl
    · exact .ordinary rfl hs (ordinary_get ht)

theorem evalMember_does {object : Expr} {name : String} : Does c n (evalMember object name) := by
  intro f hf he
  refine wp_bind (wp_top ?_)
  split
  · exact .same hf.top hf.top.scope rfl
  · refine wp_bind (wp_take (wp_bind (wp_modifyTop (giveProperty_ends hf ?_ name))))
    exact hf.top.with_left hf.top.value

theorem evalIndex_does {object key : Expr} : Does c n (evalIndex object key) := by
  intro f hf he
  refine wp_bind (wp_top ?_)
  split
  · exact .same hf.top hf.top.scope rfl
  · exact .same (hf.top.with_left hf.top.value) hf.top.scope rfl
  · refine wp_bind (wp_take (wp_bind (wp_heap (giveProperty_ends hf ?_ _))))
    exact hf.top

/-! ### Calls -/

/-- A native function answers with what is in the heap, or asks for another call and leaves the heap as it is. -/
theorem wp_callNative {Q : Reply → Frame → Prop} {E : Failure → Frame → Prop} {native : Native} {call : NativeCall}
    (hn : native.Sound) (hm : native.MayAsk) (hw : f.heap.WellFormed) (hc : call.In f.heap)
    (hQ : ∀ v h, f.heap.Edits False h → v.In h → Q (.value v) { f with heap := h })
    (hask : ∀ func this args, (Reply.tail func this args).In f.heap → Q (.tail func this args) f)
    (hE : ∀ t : Throw, t.IsOrdinary → E (.raised t) f) : (callNative native call).wp Q E f := by
  refine wp_bind (wp_heap ?_)
  have hy := hn call f.heap hw hc
  have hm := hm call f.heap
  unfold HeapM.Yields at hy
  unfold HeapM.wp at hm
  split
  · rename_i r h he
    rw [show native call f.heap = _ from he] at hy hm
    obtain ⟨v, rfl⟩ | ⟨rfl, -, args, rfl, -⟩ := hm
    · exact hQ v h hy.1 hy.2
    · exact hask _ _ _ hy.2
  · rename_i t he
    rw [show native call f.heap = _ from he] at hy
    exact hE t hy

theorem edits_newReceiver {h : Heap} {function : Object} (hw : h.WellFormed) (hs : function.Sound h) :
    h.Edits False (newReceiver h function).2 ∧ (newReceiver h function).1.In (newReceiver h function).2 := by
  unfold newReceiver
  refine ⟨edits_alloc ?_, in_add _ _⟩
  have hin := in_getFrom hw hs "prototype"
  split
  · rename_i id he
    rw [he] at hin
    exact .inr hin
  · exact hw.intrinsic_in _

/-- The body of a function starts once its code and its receiver are known. `f` is where the rule began. -/
theorem enterBody_ends {s : State} {h : Heap} {id : Int} {closure : ObjectId} {callable : Callable} (hf : f.Sound)
    (e : f.heap.Edits False h) (hs : s.In h) (hr : h.Runs (.closure id closure))
    (hn : (c.node? id).bind Node.callable? = some callable) :
    (enterBody closure callable).wp (Ends c f) (Fails c f) ⟨s, h⟩ := by
  have hw := (e.wellFormed hf.heap).1
  obtain ⟨hid, hscope⟩ := scope?_bindCall hw.toFiled closure callable s.this s.values
  have g := (keeps_bindCall h closure callable s.this s.values hw.toFiled).2
  refine ⟨.enter e hr hn hs.this hs.values, State.In.mono g hs, ?_⟩
  show ((h.bindCall closure callable s.this s.values).2.scope? (h.bindCall closure callable s.this s.values).1).isSome
  rw [hid, hscope]
  rfl

theorem enterClosure_ends {s : State} {id : Int} {closure : ObjectId} {function : Object} {info : FunctionInfo}
    (hf : f.Sound) (hs : s.In f.heap) {oid : ObjectId} (ho : f.heap.object? oid = some function)
    (hi : function.func = some info) (hc : info.code = .closure id closure) (construct : Bool) :
    (enterClosure c function id closure construct).wp (Ends c f) (Fails c f) ⟨s, f.heap⟩ := by
  have hr : f.heap.Runs (.closure id closure) := ⟨oid, function, info, ho, hi, hc⟩
  unfold enterClosure
  split
  · exact ⟨rfl, hs, trivial, .missing hr ‹_›⟩
  · rename_i callable hn
    split
    · obtain ⟨e, hthis⟩ := edits_newReceiver hf.heap (hf.heap.sound ho)
      obtain ⟨-, g⟩ := e.wellFormed hf.heap
      obtain ⟨p, hp, ha⟩ := g.object ho
      exact enterBody_ends hf e ((hs.mono g).with_this hthis) ⟨oid, p, info, hp, ha.func.trans hi, hc⟩ hn
    · exact enterBody_ends hf .refl hs hr hn

theorem invoke_ends (below : List State) (callee : Expr) (turns : Nat) (construct : Bool) {s : State}
    (hf : f.Sound) (hs : s.In f.heap) :
    (invoke c below callee turns construct).wp (Ends c f) (Fails c f) ⟨s, f.heap⟩ := by
  -- each turn is a native function that asks for another call
  induction turns generalizing construct s with
  | zero => exact ⟨rfl, hs, trivial, .endless⟩
  | succ turns ih =>
    unfold invoke
    refine wp_bind (wp_top (wp_bind (wp_heap ?_)))
    split
    · split <;> exact .ordinary rfl hs ⟨ErrorType.noConfusion, ErrorType.noConfusion⟩
    · rename_i function info hb
      obtain ⟨o, ho, hm⟩ := Option.bind_eq_some_iff.1 hb
      obtain ⟨i, hi, he⟩ := Option.map_eq_some_iff.1 hm
      cases he
      have ho := hf.heap.object?_id ho
      split
      · exact enterClosure_ends hf hs ho hi ‹_› construct
      · rename_i name hcode
        split
        · exact .edits .refl hs ⟨⟨hs.this, hs.values⟩, ⟨_, _, _, ho, hi, hcode⟩, ‹_›⟩
        · rename_i native hnative
          refine wp_bind (wp_callNative (Library.sound_native? hnative) (Library.mayAsk_native? hnative) hf.heap
            ⟨hs.this, hs.values⟩ (fun v h e hv => ?_) (fun func this args hr => ?_) fun t ht => .ordinary rfl hs ht)
          · exact .edits e (hs.mono (e.wellFormed hf.heap).2) hv
          · obtain ⟨hfunc, hthis, hargs⟩ := hr
            exact wp_bind (wp_modifyTop (ih false (((hs.with_values hargs).with_this hthis).with_func hfunc)))

variable {below : List State} {callee : Expr} {args : List Expr} {construct : Bool}

theorem stepArguments_ends {s : State} (hf : f.Sound) (hs : s.In f.heap) :
    (stepArguments c below callee args construct).wp (Ends c f) (Fails c f) ⟨s, f.heap⟩ := by
  refine wp_bind (wp_top ?_)
  split
  · have hs' : ({ s with values := s.values ++ [s.value] } : State).In f.heap := by
      refine hs.with_values fun v hv => ?_
      rcases List.mem_append.1 hv with hv | hv
      · exact hs.values v hv
      · cases List.mem_singleton.1 hv
        exact hs.value
    refine wp_bind (wp_take (wp_bind (wp_modifyTop (wp_bind (wp_top ?_)))))
    split
    · exact .same hs' hs.scope rfl
    · exact wp_bind (wp_modifyTop (invoke_ends below callee _ construct hf hs'))
  · refine wp_bind (wp_top ?_)
    split
    · exact .same hs hs.scope rfl
    · exact wp_bind (wp_modifyTop (invoke_ends below callee _ construct hf hs))

theorem wp_takeFunction {Q : PUnit → Frame → Prop} (hf : f.Sound) (hQ : ∀ s : State, s.In f.heap → Q ⟨⟩ ⟨s, f.heap⟩) :
    takeFunction.wp Q (Fails c f) f := by
  refine wp_bind (wp_top ?_)
  split
  · rename_i r hr
    refine wp_bind (wp_getRef hf.heap (fun v hv => ?_) fun t ht => ?_)
    · refine hQ _ (((hf.top.with_func hv).with_this ?_).with_ref (by simp))
      rcases r with ⟨scope, name⟩ | ⟨base, name⟩
      · exact hf.top.this
      · exact hf.top.ref hr
    · exact ⟨rfl, hf.top, trivial, .of_ref hr (readRef_error ht)⟩
  · exact hQ _ (hf.top.with_func hf.top.value)

theorem endCall_ends {s : State} (hs : s.In f.heap) : (endCall construct).wp (Ends c f) (Fails c f) ⟨s, f.heap⟩ := by
  refine wp_bind (wp_take ?_)
  split
  · exact .same hs hs.this rfl
  · exact .same hs hs.value rfl

theorem stepCall_does : Does c n (stepCall c below callee args construct) := by
  intro f hf he
  refine wp_bind (wp_top ?_)
  split
  · refine wp_bind (wp_modifyTop ?_)
    split <;> exact .same hf.top hf.top.scope rfl
  · exact wp_bind (wp_takeFunction hf fun s hs => stepArguments_ends hf hs)
  · exact stepArguments_ends hf hf.top
  · exact invoke_ends below callee _ construct hf hf.top
  · exact wp_bind (wp_modifyTop (endCall_ends (hf.top.with_value trivial)))
  · exact endCall_ends hf.top

theorem stepExpr_does (below : List State) (e : Expr) : Does c (.expr e) (stepExpr c below e) := by
  have await {l : Loc} {s : State} {op : UpdateOp} {leading : Bool} {argument : Expr} :
      s.node = .expr (.update l op leading argument) → s.phase ≠ 0 → s.awaitsPlace := by
    intro hs hp
    unfold State.awaitsPlace
    simpa [hs] using hp
  have await' {l : Loc} {s : State} {op : AssignOp} {left right : Expr} :
      s.node = .expr (.assign l op left right) → s.phase ≠ 0 → s.awaitsPlace := by
    intro hs hp
    unfold State.awaitsPlace
    simpa [hs] using hp
  cases e with
  | identifier i => exact evalIdentifier_does (by simp [Node.ownNames])
  | number | string | boolean | null => exact fun f hf _ => .same hf.top trivial rfl
  | regexp => exact fun f hf he => ⟨rfl, hf.top, trivial, .refused (by rw [he]; rfl)⟩
  | this => exact evalThis_does
  | function l name params body =>
    intro f hf he
    obtain ⟨hw, hin⟩ := hf.heap.evalFunction ⟨l, name, params, body⟩ hf.top.scope
    have g := (keeps_evalFunction f.heap ⟨l, name, params, body⟩ f.top.scope hf.heap.toFiled).2
    exact ⟨.function (by rw [he]; rfl), hf.top.mono g, hin⟩
  | array l elements => exact evalArray_does elements
  | object l properties =>
    refine evalObject_does fun p hp hk => ?_
    simp only [Node.isRefused, List.any_eq_true, bne_iff_ne]
    exact ⟨p, hp, hk⟩
  | unary l op argument => exact evalUnary_does fun h => by rw [h]; rfl
  | update l op leading argument => exact evalUpdate_does fun s => await
  | binary l op left right => exact evalBinary_does
  | logical l op left right => exact evalLogical_does
  | assign l op left right => exact evalAssign_does fun s => await'
  | conditional l test consequent alternate => exact evalConditional_does
  | call l callee args | new l callee args => exact stepCall_does
  | member l object name => exact evalMember_does
  | index l object key => exact evalIndex_does
  | sequence l expressions => exact evalSequence_does

/-! ### Rules of statements -/

theorem stepBody_does {body : List Stmt} {last : Move} (hl : ∀ h, last.In h) : Does c n (stepBody body last) := by
  intro f hf he
  refine wp_bind (wp_top ?_)
  split
  · exact .same hf.top hf.top.scope rfl
  · exact .same hf.top (hl _) rfl

theorem stepExpression_does {e : Expr} : Does c n (stepExpression e) := by
  intro f hf he
  refine wp_bind (wp_top ?_)
  split
  · exact .same hf.top hf.top.scope rfl
  · exact .same hf.top trivial rfl

theorem stepDeclarators_ends {s : State} {h : Heap} {rest : List Declarator} (e : f.heap.Edits False h) (hs : s.In h) :
    (stepDeclarators rest).wp (Ends c f) (Fails c f) ⟨s, h⟩ := by
  refine wp_bind (wp_modifyTop ?_)
  split
  · exact .edits e hs hs.scope
  · exact .edits e hs trivial

/-- Assigning to a name of the node. -/
theorem wp_assign {Q : Unit → Frame → Prop} {s : State} {name : String} {v : Value} (hf : f.Sound) (hs : s.In f.heap)
    (hscope : s.scope = f.top.scope) (hn : name ∈ f.top.node.ownNames) (hv : v.In f.heap)
    (hQ : ∀ h, f.heap.Edits False h → Q () ⟨s, h⟩) : (assign name v).wp Q (Fails c f) ⟨s, f.heap⟩ := by
  refine wp_bind (wp_top (wp_putRef hf.heap hv hQ fun t ht => ?_))
  exact ⟨rfl, hs, trivial, .of_name hscope hn (writeRef_error ht)⟩

theorem stepVar_does {declarators : List Declarator} (hn : ∀ d ∈ declarators, d.name.name ∈ n.ownNames) :
    Does c n (stepVar declarators) := by
  intro f hf he
  refine wp_bind (wp_top ?_)
  split
  · refine wp_bind (wp_top ?_)
    split
    · rename_i d hd
      have hd : d.name.name ∈ f.top.node.ownNames := he ▸ hn d (List.mem_of_getElem? hd)
      refine wp_bind (wp_take (wp_bind (wp_assign hf hf.top rfl hd hf.top.value fun h e => ?_)))
      have hs := hf.top.mono (e.wellFormed hf.heap).2
      refine wp_bind (wp_modifyTop (wp_bind (wp_top (stepDeclarators_ends e ?_))))
      exact hs
    · refine wp_bind (wp_modifyTop (wp_bind (wp_top (stepDeclarators_ends .refl ?_))))
      exact hf.top
  · exact wp_bind (wp_top (stepDeclarators_ends .refl hf.top))

theorem stepIf_does {test : Expr} {consequent : Stmt} {alternate : Option Stmt} :
    Does c n (stepIf test consequent alternate) := by
  intro f hf he
  refine wp_bind (wp_top ?_)
  split
  · exact .same hf.top hf.top.scope rfl
  · refine wp_bind (wp_modifyTop (wp_bind (wp_take ?_)))
    split
    · exact .same hf.top hf.top.scope rfl
    · split
      · exact .same hf.top hf.top.scope rfl
      · exact .same hf.top trivial rfl
  · exact .same hf.top trivial rfl

theorem stepLabeled_does {label : String} {body : Stmt} : Does c n (stepLabeled label body) := by
  intro f hf he
  refine wp_bind (wp_top ?_)
  split
  · exact .same hf.top hf.top.scope rfl
  · exact .same hf.top trivial rfl

theorem stepWhile_does {test : Expr} {body : Stmt} : Does c n (stepWhile test body) := by
  intro f hf he
  refine wp_bind (wp_top ?_)
  split
  · exact .same hf.top hf.top.scope rfl
  · refine wp_bind (wp_take ?_)
    split
    · exact .same hf.top hf.top.scope rfl
    · exact .same hf.top trivial rfl

theorem stepDoWhile_does {body : Stmt} {test : Expr} : Does c n (stepDoWhile body test) := by
  intro f hf he
  refine wp_bind (wp_top ?_)
  split
  · exact .same hf.top hf.top.scope rfl
  · exact .same hf.top hf.top.scope rfl
  · refine wp_bind (wp_take ?_)
    split
    · exact .same hf.top hf.top.scope rfl
    · exact .same hf.top trivial rfl

theorem stepForTest_ends {s : State} {body : Stmt} (hs : s.In f.heap) :
    (stepForTest body).wp (Ends c f) (Fails c f) ⟨s, f.heap⟩ := by
  refine wp_bind (wp_take ?_)
  split
  · exact .same hs hs.scope rfl
  · exact .same hs trivial rfl

theorem stepFor_does {init : Option ForHead} {test update : Option Expr} {body : Stmt} :
    Does c n (stepFor init test update body) := by
  intro f hf he
  refine wp_bind (wp_top ?_)
  split
  · refine wp_bind (wp_modifyTop ?_)
    split
    · exact .same hf.top hf.top.scope rfl
    · exact .same hf.top trivial rfl
  · refine wp_bind (wp_modifyTop ?_)
    split
    · exact .same hf.top hf.top.scope rfl
    · refine wp_bind (wp_modifyTop (stepForTest_ends ?_))
      exact hf.top.with_value trivial
  · exact stepForTest_ends hf.top
  · refine wp_bind (wp_modifyTop ?_)
    split
    · exact .same hf.top hf.top.scope rfl
    · exact .same hf.top trivial rfl

theorem enterForIn_does : Does c n enterForIn := by
  intro f hf he
  refine wp_bind (wp_take ?_)
  split
  · exact .same hf.top trivial rfl
  · refine wp_bind (wp_heap ?_)
    split
    · rename_i id h hb
      obtain ⟨e, hin⟩ : f.heap.Edits False h ∧ (Value.object id).In h := edits_box? hf.heap hb
      have hs := (hf.top.mono (e.wellFormed hf.heap).2).with_left hin
      exact .edits e hs trivial
    · exact .same (hf.top.with_left hf.top.value) trivial rfl

theorem nextForIn_does {left : ForHead} {body : Stmt}
    (hv : ∀ d, left = .var d → ∀ x ∈ d.declarators, x.name.name ∈ n.ownNames)
    (hi : ∀ i, left = .expr (.identifier i) → i.name ∈ n.ownNames) : Does c n (nextForIn left body) := by
  intro f hf he
  refine wp_bind (wp_top (wp_bind (wp_heap (wp_bind (wp_modifyTop ?_)))))
  split
  · exact .same hf.top trivial rfl
  · refine wp_bind (wp_modifyTop ?_)
    split
    · rename_i d
      -- at most one variable is assigned
      cases hd : d.declarators with
      | nil => exact .same hf.top hf.top.scope rfl
      | cons x rest =>
        have hx : x.name.name ∈ f.top.node.ownNames := he ▸ hv d rfl x (by simp [hd])
        refine wp_bind (wp_bind (wp_assign hf hf.top rfl hx trivial fun h e => ?_))
        have hs := hf.top.mono (e.wellFormed hf.heap).2
        exact .edits e hs hs.scope
    · rename_i i
      have hx : i.name ∈ f.top.node.ownNames := he ▸ hi i rfl
      refine wp_bind (wp_assign hf hf.top rfl hx trivial fun h e => ?_)
      have hs := hf.top.mono (e.wellFormed hf.heap).2
      exact .edits e hs hs.scope
    · exact .same hf.top hf.top.scope rfl

theorem storeForIn_does {body : Stmt} (hn : ∀ s : State, s.node = n → s.phase = 3 → s.awaitsPlace) {f : Frame}
    (hf : f.Sound) (he : f.top.node = n) (hp : f.top.phase = 3) :
    (storeForIn body).wp (Ends c f) (Fails c f) f := by
  have hs : ({ f.top with ref := none } : State).In f.heap := hf.top.with_ref (by simp)
  refine wp_bind (wp_top (wp_bind (wp_modifyTop ?_)))
  split
  · rename_i hr
    exact ⟨rfl, hs, trivial, .place (hn f.top he hp) hr⟩
  · rename_i r hr
    refine wp_bind (wp_putRef hf.heap trivial (fun h e => ?_) fun t ht => ?_)
    · have hs' := hs.mono (e.wellFormed hf.heap).2
      exact .edits e hs' hs'.scope
    · exact ⟨rfl, hs, trivial, .of_ref hr (writeRef_error ht)⟩

theorem stepForIn_does {left : ForHead} {right : Expr} {body : Stmt}
    (hn : ∀ s : State, s.node = n → s.phase = 3 → s.awaitsPlace)
    (hv : ∀ d, left = .var d → ∀ x ∈ d.declarators, x.name.name ∈ n.ownNames)
    (hi : ∀ i, left = .expr (.identifier i) → i.name ∈ n.ownNames) : Does c n (stepForIn left right body) := by
  intro f hf he
  refine wp_bind (wp_top ?_)
  split
  · exact .same hf.top hf.top.scope rfl
  · exact enterForIn_does f hf he
  · exact storeForIn_does hn hf he ‹_›
  · exact nextForIn_does hv hi f hf he

theorem runCases_ends {s : State} (hs : s.In f.heap) (cases : List SwitchCase) :
    (runCases cases).wp (Ends c f) (Fails c f) ⟨s, f.heap⟩ := by
  induction cases generalizing s with
  | nil => exact .same hs trivial rfl
  | cons x rest ih =>
    refine wp_bind (wp_top ?_)
    split
    · exact .same hs hs.scope rfl
    · refine wp_bind (wp_modifyTop (ih ?_))
      exact hs

theorem searchCases_ends {s : State} (hs : s.In f.heap) (cases rest : List SwitchCase) :
    (searchCases cases rest).wp (Ends c f) (Fails c f) ⟨s, f.heap⟩ := by
  induction rest generalizing s with
  | nil =>
    refine wp_bind (wp_top ?_)
    split
    · exact .same hs trivial rfl
    · refine wp_bind (wp_modifyTop (runCases_ends ?_ _))
      exact hs
  | cons x rest ih =>
    unfold searchCases
    split
    · refine wp_bind (wp_modifyTop (ih ?_))
      exact hs
    · exact .same hs hs.scope rfl

theorem stepSwitch_does {discriminant : Expr} {cases : List SwitchCase} :
    Does c n (stepSwitch discriminant cases) := by
  intro f hf he
  refine wp_bind (wp_top ?_)
  split
  · exact .same hf.top hf.top.scope rfl
  · refine wp_bind (wp_take (wp_bind (wp_modifyTop (searchCases_ends ?_ _ _))))
    exact hf.top.with_left hf.top.value
  · exact wp_bind (wp_top (searchCases_ends hf.top _ _))
  · refine wp_bind (wp_top (wp_bind (wp_take ?_)))
    split
    · refine wp_bind (wp_modifyTop (wp_bind (wp_top (runCases_ends ?_ _))))
      exact hf.top
    · refine wp_bind (wp_modifyTop (wp_bind (wp_top (searchCases_ends ?_ _ _))))
      exact hf.top
  · exact wp_bind (wp_top (runCases_ends hf.top _))

theorem stepReturn_does {argument : Option Expr} : Does c n (stepReturn argument) := by
  intro f hf he
  refine wp_bind (wp_top ?_)
  split
  · exact .same hf.top hf.top.scope rfl
  · refine .same hf.top ?_ rfl
    show (if f.top.hasValue then f.top.value else .undefined).In f.heap
    split
    · exact hf.top.value
    · trivial

theorem stepThrow_does {argument : Expr} : Does c n (stepThrow argument) := by
  intro f hf he
  refine wp_bind (wp_top ?_)
  split
  · exact ⟨rfl, hf.top, hf.top.value, .thrown _⟩
  · exact .same hf.top hf.top.scope rfl

theorem stepStmt_does (s : Stmt) : Does c (.stmt s) (stepStmt s) := by
  cases s with
  | var d => exact stepVar_does fun x hx => List.mem_map_of_mem hx
  | function | empty | debugger => exact fun f hf _ => .same hf.top trivial rfl
  | expression l e => exact stepExpression_does
  | block b => exact stepBody_does fun _ => trivial
  | return_ l argument => exact stepReturn_does
  | if_ l test consequent alternate => exact stepIf_does
  | while_ l test body => exact stepWhile_does
  | doWhile l body test => exact stepDoWhile_does
  | for_ l init test update body => exact stepFor_does
  | forIn l left right body =>
    refine stepForIn_does (fun s hs hp => ?_) ?_ ?_
    · unfold State.awaitsPlace
      simp [hs, hp]
    · rintro d rfl x hx
      exact List.mem_map_of_mem hx
    · rintro i rfl
      exact List.mem_singleton_self _
  | break_ | continue_ => exact fun f hf _ => .same hf.top trivial rfl
  | switch l discriminant cases => exact stepSwitch_does
  | throw l argument => exact stepThrow_does
  | tryCatch | with_ => exact fun f hf he => ⟨rfl, hf.top, trivial, .refused (by rw [he]; rfl)⟩
  | labeled l label body => exact stepLabeled_does

/-- From a sound frame, every rule ends or fails as it may. -/
theorem stepNode_ends (below : List State) (hf : f.Sound) :
    (stepNode c below f.top.node).wp (Ends c f) (Fails c f) f := by
  have hdoes : Does c f.top.node (stepNode c below f.top.node) := by
    cases f.top.node with
    | program p => exact stepBody_does fun _ => trivial
    | stmt s => exact stepStmt_does s
    | expr e => exact stepExpr_does below e
    | declarator | switchCase | catchClause | property =>
      exact fun f hf he => ⟨rfl, hf.top, trivial, .unexpected (by rw [he]; rfl)⟩
  exact hdoes f hf rfl

end

end Stepwise

import Stepwise.Proofs.Heap.Keys
import Stepwise.Proofs.Machine.Course
import Stepwise.Proofs.Parse.Lawful

/-!
# What a loop over keys runs

* `KeyTurn`: what a loop over keys starts for one key, `KeyTurns` for all of them, and `LoopsOver` with its value.
* `Machine.Course.takesTurn`: a loop that looks for its next key gives the first one that is still there its turn.
* `Machine.forIn_visits`: a loop over keys runs its body once for each key that is still there when it is its turn.
-/

namespace Stepwise

open RuleM

variable {ω : Type} {c : Setting ω} {s s' t : State} {below : List State} {f : Frame} {left : ForHead} {right : Expr}
  {body : Stmt} {l : Loc} {keys gone rest : List String} {key : String}

theorem Node.exists_forIn_of_kind {n : Node} (h : n.kind = .forInStatement) :
    ∃ l left right body, n = .stmt (.forIn l left right body) := by
  cases n with
  | stmt s =>
    cases s with
    | forIn l left right body => exact ⟨l, left, right, body, rfl⟩
    | _ => cases h
  | expr e => cases e <;> cases h
  | _ => cases h

/-! ### Subjects and their keys -/

namespace Heap

/-- Whether a value is an object that has a property, its own or one of its prototypes. -/
def offers (h : Heap) (v : Value) (key : String) : Bool := (h.deref? v).any (h.has · key)

/-- What a loop over the keys of a value looks at: a primitive is put into an object. -/
def loopSubject (h : Heap) (v : Value) : Value × Heap :=
  match h.box? v with
  | some (id, h) => (.object id, h)
  | none => (v, h)

/-- The keys of a value, its own and those of its prototypes. -/
def keysOf (h : Heap) (v : Value) : List String := ((h.deref? v).map h.loopKeys).getD []

theorem nodup_keysOf (h : Heap) (v : Value) : (h.keysOf v).Nodup := by
  unfold keysOf
  cases h.deref? v with
  | none => exact .nil
  | some o => exact nodup_eraseDups _

/-- Either none of some keys is there, or there is a first one. -/
theorem exists_turn (h : Heap) (v : Value) (keys : List String) :
    (∀ key ∈ keys, ¬h.offers v key) ∨
      ∃ gone key rest, keys = gone ++ key :: rest ∧ (∀ key ∈ gone, ¬h.offers v key) ∧ h.offers v key := by
  cases hfind : keys.find? (h.offers v ·) with
  | none => exact .inl fun key hkey => List.find?_eq_none.1 hfind key hkey
  | some key =>
    obtain ⟨hkey, gone, rest, hkeys, hgone⟩ := List.find?_eq_some_iff_append.1 hfind
    exact .inr ⟨gone, key, rest, hkeys, fun key hmem => by simpa using hgone key hmem, hkey⟩

end Heap

/-- The variable in which a loop stores its keys, if it has no other place for them. -/
def ForHead.slotName? : ForHead → Option String
  | var d => d.declarators.head?.map (·.name.name)
  | expr (.identifier i) => some i.name
  | expr _ => none

/-! ### KeyTurns -/

/-- What a loop over keys starts for the first of its keys that its subject has, which comes after those that are `gone`. -/
inductive KeyTurn (left : ForHead) (body : Stmt) (scope : ObjectId) (subject : Value) (gone : List String) (key : String) :
    List Visit → Prop where
  /-- The key is stored in a variable, and the body starts. -/
  | variable {name : String} {v : Visit} (hgone : ∀ key ∈ gone, ¬v.before.heap.offers subject key)
    (hkey : v.before.heap.offers subject key) (hhead : left.slotName? = some name) (hbody : v.part = .stmt body)
    (hstore : writeRef v.before.heap (.variable scope name) (.string key) = .ok v.start.heap) :
    KeyTurn left body scope subject gone key [v]
  /-- The place for the key is evaluated. Then the key is stored there, and the body starts. -/
  | place {e : Expr} {r : Reference} {u v : Visit} (hgone : ∀ key ∈ gone, ¬u.before.heap.offers subject key)
    (hkey : u.before.heap.offers subject key) (hhead : left = .expr e) (hvar : left.slotName? = none)
    (htarget : u.part = .expr e) (hplace : u.place = some r) (hbody : v.part = .stmt body) (hbefore : v.before = u.back)
    (hstore : writeRef v.before.heap r (.string key) = .ok v.start.heap) : KeyTurn left body scope subject gone key [u, v]

/-- What a loop over keys starts for some keys of its subject, up to the machine `m`. -/
inductive KeyTurns (left : ForHead) (body : Stmt) (scope : ObjectId) (subject : Value) (below : List State) (m : Machine) :
    List String → List Visit → Prop where
  /-- The loop has ended, and its subject has none of the keys. -/
  | over {keys : List String} (hleft : m.stack = below) (hgone : ∀ key ∈ keys, ¬m.heap.offers subject key) :
    KeyTurns left body scope subject below m keys []
  /-- The loop has not come to any of the keys. -/
  | pause {keys : List String} (hstill : below.length < m.stack.length) : KeyTurns left body scope subject below m keys []
  /-- The loop evaluates a place for a key, and has not stored it. -/
  | target {gone rest : List String} {key : String} {e : Expr} {u : Visit} (hstill : below.length < m.stack.length)
    (hgone : ∀ key ∈ gone, ¬u.before.heap.offers subject key) (hkey : u.before.heap.offers subject key)
    (hhead : left = .expr e) (hvar : left.slotName? = none) (htarget : u.part = .expr e) :
    KeyTurns left body scope subject below m (gone ++ key :: rest) [u]
  /-- The keys that are gone are passed over, the next one has its turn, and then the others. -/
  | turn {gone rest : List String} {key : String} {first later : List Visit}
    (hfirst : KeyTurn left body scope subject gone key first) (hlater : KeyTurns left body scope subject below m rest later) :
    KeyTurns left body scope subject below m (gone ++ key :: rest) (first ++ later)

/-- What a loop over keys starts, up to the machine `m`. -/
inductive LoopsOver (left : ForHead) (right : Expr) (body : Stmt) (scope : ObjectId) (below : List State) (m : Machine) :
    List Visit → Prop where
  /-- The value is not there yet. -/
  | early {visits : List Visit} (hstill : below.length < m.stack.length)
    (hparts : visits.map Visit.part <+: [.expr right]) : LoopsOver left right body scope below m visits
  /-- There is nothing to do for undefined and null. -/
  | nothing {first : Visit} {v : Value} (hpart : first.part = .expr right) (hvalue : first.value = some v)
    (hv : v.isNullish) (hend : below.length < m.stack.length ∨ m.stack = below) :
    LoopsOver left right body scope below m [first]
  /-- Each key of the value gets its turn. -/
  | keys {first : Visit} {later : List Visit} {v subject : Value} {h : Heap} (hpart : first.part = .expr right)
    (hvalue : first.value = some v) (hv : ¬v.isNullish) (hsubject : first.back.heap.loopSubject v = (subject, h))
    (honce : (h.keysOf subject).Nodup) (hturns : KeyTurns left body scope subject below m (h.keysOf subject) later) :
    LoopsOver left right body scope below m (first :: later)

/-! ### Rules -/

/-- The rule of a loop over keys. -/
theorem stepNode_forIn (c : Setting ω) (below : List State) (hn : s.node = .stmt (.forIn l left right body)) (f : Frame) :
    stepNode c below s.node f = stepForIn left right body f := by
  rw [hn]
  rfl

/-- A rule that stores a value and then starts a part stores it if it succeeds. -/
theorem putRef_of_ok {r : Reference} {v : Value} {k : RuleM Move} {mv : Move} {f f' : Frame}
    (h : (do putRef r v; k) f = .ok mv f') : ∃ heap, writeRef f.heap r v = .ok heap ∧ k { f with heap } = .ok mv f' := by
  rw [bind_run, putRef_run] at h
  cases hw : writeRef f.heap r v with
  | ok heap =>
    rw [hw] at h
    exact ⟨heap, rfl, h⟩
  | error t =>
    rw [hw] at h
    cases h

theorem enterForIn_run (f : Frame) : enterForIn f =
    if f.top.value.isNullish then .ok .drop { f with top := { f.top with hasValue := false } }
    else
      let (subject, h) := f.heap.loopSubject f.top.value
      .ok .stay ⟨{ f.top with hasValue := false, left := subject, keys := h.keysOf subject, phase := 2 }, h⟩ := by
  unfold enterForIn Heap.loopSubject Heap.keysOf
  simp only [bind_run, take_run]
  split
  · rfl
  · simp only [bind_run, heap_run]
    cases f.heap.box? f.top.value <;> rfl

theorem nextForIn_gone (left : ForHead) (body : Stmt)
    (hgone : ∀ key ∈ f.top.keys.drop f.top.n, ¬f.heap.offers f.top.left key) :
    ∃ f', nextForIn left body f = .ok .drop f' ∧ f'.heap = f.heap := by
  have hall : (f.top.keys.drop f.top.n).takeWhile (!f.heap.offers f.top.left ·) = f.top.keys.drop f.top.n :=
    List.takeWhile_eq_self_iff.2 fun key hkey => by simpa using hgone key hkey
  unfold Heap.offers at hall
  unfold nextForIn
  simp only [bind_run, top_run, heap_run, modifyTop_run, hall, List.getElem?_length, pure_run]
  exact ⟨_, rfl, rfl⟩

/-- A loop passes over the keys that are gone. -/
theorem nextForIn_turn (body : Stmt) (hkeys : f.top.keys.drop f.top.n = gone ++ key :: rest)
    (hgone : ∀ key ∈ gone, ¬f.heap.offers f.top.left key) (hkey : f.heap.offers f.top.left key) (hslot : left.isSlot) :
    (∃ name, left.slotName? = some name ∧ nextForIn left body f =
        (do putRef (.variable f.top.scope name) (.string key); pushStmt body)
          { f with top := { f.top with n := f.top.n + gone.length + 1 } }) ∨
      ∃ e, left = .expr e ∧ left.slotName? = none ∧ nextForIn left body f = .ok (.push (.expr e) f.top.scope true [])
        { f with top := { f.top with n := f.top.n + gone.length + 1, phase := 3 } } := by
  have htake : (f.top.keys.drop f.top.n).takeWhile (!f.heap.offers f.top.left ·) = gone := by
    rw [hkeys, List.takeWhile_append_of_pos fun key hkey => by simpa using hgone key hkey, List.takeWhile_cons, hkey]
    exact List.append_nil gone
  have hnext : (f.top.keys.drop f.top.n)[gone.length]? = some key := by
    rw [hkeys, List.getElem?_append_right le_rfl, Nat.sub_self]
    rfl
  unfold Heap.offers at htake
  unfold nextForIn
  simp only [bind_run, top_run, heap_run, modifyTop_run, htake, hnext]
  cases left with
  | var d =>
    unfold ForHead.isSlot at hslot
    dsimp only at hslot
    split at hslot
    · rename_i l' i init hd
      refine .inl ⟨i.name, by rw [ForHead.slotName?, hd]; rfl, ?_⟩
      simp only [hd]
      show ((assign i.name (.string key) >>= fun _ => pure ()) >>= fun _ => pushStmt body) _ = _
      simp only [bind_run, assign_run, putRef_run]
      cases writeRef f.heap (.variable f.top.scope i.name) (.string key) <;> rfl
    · cases hslot
  | expr e =>
    unfold ForHead.isSlot Expr.isTarget at hslot
    dsimp only at hslot
    split at hslot
    · refine .inl ⟨_, rfl, ?_⟩
      simp only [bind_run, assign_run, putRef_run]
    · exact .inr ⟨_, rfl, rfl, rfl⟩
    · exact .inr ⟨_, rfl, rfl, rfl⟩
    · cases hslot

/-- A loop stores its key in the place that it has got, or it fails. -/
theorem storeForIn_of_ok {mv : Move} {f' : Frame} (h : storeForIn body f = .ok mv f') :
    ∃ r heap, f.top.ref = some r ∧ writeRef f.heap r (.string ((f.top.keys[f.top.n - 1]?).getD "")) = .ok heap ∧
      storeForIn body f = .ok (.push (.stmt body) f.top.scope false [])
        ⟨{ f.top with ref := none, hasValue := false, phase := 2 }, heap⟩ := by
  unfold storeForIn at h ⊢
  simp only [bind_run, top_run, modifyTop_run] at h ⊢
  cases hr : f.top.ref with
  | none =>
    rw [hr] at h
    cases h
  | some r =>
    simp only [hr] at h ⊢
    obtain ⟨heap, hw, -⟩ := putRef_of_ok h
    refine ⟨r, heap, rfl, hw, ?_⟩
    simp only [bind_run, putRef_run, hw, setPhase_run, pushStmt_run]

/-! ### Runs -/

/-- A state of a loop that looks for its next key. -/
structure State.Seeks (s : State) (n : Node) (scope : ObjectId) (subject : Value) (keys : List String) : Prop where
  node : s.node = n
  scope : s.scope = scope
  phase : s.phase = 2
  subject : s.left = subject
  keys : s.keys.drop s.n = keys

theorem State.Resumes.seeks {n : Node} {scope : ObjectId} {subject : Value} (h : t.Resumes s s')
    (hs : s.Seeks n scope subject keys) : s'.Seeks n scope subject keys := by
  rw [h.eq_with]
  exact ⟨hs.node, hs.scope, hs.phase, hs.subject, hs.keys⟩

namespace Machine

variable {m m' : Machine} {world world' : ω} {visits : List Visit} {scope : ObjectId} {subject : Value}

/-- How a course goes on after it has started the body of a loop: not at all, or with the next keys. -/
inductive LoopsOn (c : Setting ω) (below : List State) (n : Node) (scope : ObjectId) (subject : Value)
    (keys : List String) (m' : Machine) (world' : ω) : List Visit → Prop where
  | inside (hstill : below.length < m'.stack.length) : LoopsOn c below n scope subject keys m' world' []
  | next {m : Machine} {world : ω} {s : State} {visits : List Visit} (hr : m.Reachable c world)
    (hcourse : m.Course c below world visits m' world') (hm : m.stack = s :: below) (hs : s.Seeks n scope subject keys) :
    LoopsOn c below n scope subject keys m' world' visits

/-- What a loop does that looks for the next of `keys`: it stops there, or a key has its turn. -/
inductive TakesTurn (c : Setting ω) (below : List State) (l : Loc) (left : ForHead) (right : Expr) (body : Stmt)
    (scope : ObjectId) (subject : Value) (m' : Machine) (world' : ω) (keys : List String) (visits : List Visit) : Prop where
  | stops (hturns : KeyTurns left body scope subject below m' keys visits)
  | turn {gone rest : List String} {key : String} {first later : List Visit} (hkeys : keys = gone ++ key :: rest)
    (hvisits : visits = first ++ later) (hshorter : later.length < visits.length)
    (hfirst : KeyTurn left body scope subject gone key first)
    (hlater : LoopsOn c below (.stmt (.forIn l left right body)) scope subject rest m' world' later)

namespace Course

theorem lt_of_stack (hm : m.stack = s :: below) : below.length < m.stack.length := by
  rw [hm]
  exact Nat.lt_succ_self _

section

variable (hc : c.IsRead) (hsize : c.program.nodes.length < 2 ^ 24) (hk : ∀ f ∈ c.host, f.Keeps)
  (hh : ∀ f ∈ c.host, f.Sound)

include hc hsize hk hh

/-- After its body a loop looks for its next key. -/
theorem of_body (hr : m.Reachable c world) (h : m.Course c below world visits m' world') (hm : m.stack = s :: below)
    (hn : s.node = .stmt (.forIn l left right body))
    (hrule : stepNode c below s.node ⟨s, m.heap⟩ = .ok (.push (.stmt body) s.scope false []) f)
    (hf : f.top.Seeks (.stmt (.forIn l left right body)) scope subject keys) :
    visits = [] ∧ m' = m ∨ ∃ v later, visits = v :: later ∧ Starts m f (.stmt body) v ∧
      LoopsOn c below (.stmt (.forIn l left right body)) scope subject keys m' world' later := by
  have hcall : ¬s.node.isCall := by rw [hn]; exact Bool.noConfusion
  rcases h.of_push hc hsize hk hh hr hm hcall hrule with
    hnone | ⟨v, later, rfl, hv, ⟨rfl, hinside⟩ | ⟨s', world₁, hback, ⟨t, -, -, -, hresumes⟩, hlater⟩⟩
  · exact .inl hnone
  · exact .inr ⟨v, [], rfl, hv, .inside (by omega)⟩
  · exact .inr ⟨v, later, rfl, hv, .next hback.reachable hlater hback.back (hresumes.seeks hf)⟩

/-- A loop that has asked for a place stores its key there. The counter is one ahead of this key. -/
theorem of_place (hr : m.Reachable c world) (h : m.Course c below world visits m' world') (hm : m.stack = s :: below)
    (hn : s.node = .stmt (.forIn l left right body)) (hphase : s.phase = 3) (hscope : s.scope = scope)
    (hsubject : s.left = subject) (hkey : s.keys[s.n - 1]? = some key) :
    visits = [] ∧ m' = m ∨ ∃ r v later, s.ref = some r ∧ visits = v :: later ∧ v.part = .stmt body ∧ v.before = m ∧
      writeRef v.before.heap r (.string key) = .ok v.start.heap ∧
      LoopsOn c below (.stmt (.forIn l left right body)) scope subject (s.keys.drop s.n) m' world' later := by
  have hrun : stepNode c below s.node ⟨s, m.heap⟩ = storeForIn body ⟨s, m.heap⟩ := by
    rw [stepNode_forIn c below hn]
    simp only [stepForIn, bind_run, top_run, hphase]
  rcases h.exists_rule hm with hnone | ⟨mv, f, hrule⟩
  · exact .inl hnone
  obtain ⟨r, heap, hplace, hstore, hpush⟩ := storeForIn_of_ok (hrun.symm.trans hrule)
  rw [hkey, Option.getD_some] at hstore
  rcases of_body hc hsize hk hh hr h hm hn (hrun.trans hpush) ⟨hn, hscope, rfl, hsubject, rfl⟩ with
    hnone | ⟨v, later, hvisits, hv, hlater⟩
  · exact .inl hnone
  · exact .inr ⟨r, v, later, hplace, hvisits, hv.part, hv.before, by rw [hv.before, hv.heap]; exact hstore, hlater⟩

/-- A loop that stores its next key in a variable. -/
theorem takesTurn_of_variable (hr : m.Reachable c world) (h : m.Course c below world visits m' world')
    (hm : m.stack = s :: below) (hn : s.node = .stmt (.forIn l left right body)) (hphase : s.phase = 2)
    (hgone : ∀ key ∈ gone, ¬m.heap.offers s.left key) (hkey : m.heap.offers s.left key)
    (hmore : s.keys.drop (s.n + gone.length + 1) = rest) {name : String} (hhead : left.slotName? = some name)
    (hrun : stepNode c below s.node ⟨s, m.heap⟩ = (do putRef (.variable s.scope name) (.string key); pushStmt body)
      ⟨{ s with n := s.n + gone.length + 1 }, m.heap⟩) :
    TakesTurn c below l left right body s.scope s.left m' world' (gone ++ key :: rest) visits := by
  rcases h.exists_rule hm with ⟨rfl, rfl⟩ | ⟨mv, f, hrule⟩
  · exact .stops (.pause (lt_of_stack hm))
  obtain ⟨heap, hstore, -⟩ := putRef_of_ok (hrun.symm.trans hrule)
  have hpush : stepNode c below s.node ⟨s, m.heap⟩ =
      .ok (.push (.stmt body) s.scope false []) ⟨{ s with n := s.n + gone.length + 1 }, heap⟩ := by
    rw [hrun]
    simp only [bind_run, putRef_run, hstore, pushStmt_run]
  rcases of_body hc hsize hk hh hr h hm hn hpush ⟨hn, rfl, hphase, rfl, hmore⟩ with
    ⟨rfl, rfl⟩ | ⟨v, later, rfl, hv, hlater⟩
  · exact .stops (.pause (lt_of_stack hm))
  · rw [← hv.before] at hgone hkey
    have hfirst : KeyTurn left body s.scope s.left gone key [v] :=
      .variable hgone hkey hhead hv.part (by rw [hv.before, hv.heap]; exact hstore)
    have hvisits : v :: later = [v] ++ later := rfl
    exact .turn rfl hvisits (Nat.lt_succ_self _) hfirst hlater

/-- A loop that asks for a place for its next key. -/
theorem takesTurn_of_place (hr : m.Reachable c world) (h : m.Course c below world visits m' world')
    (hm : m.stack = s :: below) (hn : s.node = .stmt (.forIn l left right body))
    (hgone : ∀ key ∈ gone, ¬m.heap.offers s.left key) (hkey : m.heap.offers s.left key)
    (hkeys : s.keys.drop s.n = gone ++ key :: rest) (hmore : s.keys.drop (s.n + gone.length + 1) = rest) {e : Expr}
    (hhead : left = .expr e) (hvar : left.slotName? = none)
    (hrule : stepNode c below s.node ⟨s, m.heap⟩ = .ok (.push (.expr e) s.scope true [])
      ⟨{ s with n := s.n + gone.length + 1, phase := 3 }, m.heap⟩) :
    TakesTurn c below l left right body s.scope s.left m' world' (gone ++ key :: rest) visits := by
  have hcall : ¬s.node.isCall := by rw [hn]; exact Bool.noConfusion
  rcases h.of_push hc hsize hk hh hr hm hcall hrule with ⟨rfl, rfl⟩ | ⟨u, later, rfl, hu, hrest⟩
  · exact .stops (.pause (lt_of_stack hm))
  rw [← hu.before] at hgone hkey
  rcases hrest with ⟨rfl, hinside⟩ | ⟨s', world₁, hback, ⟨t, -, -, -, hresumes⟩, hlater⟩
  · exact .stops (.target (by omega) hgone hkey hhead hvar hu.part)
  obtain ⟨hn', hscope, hphase, hsubject, hkeys', hcount⟩ : s'.node = .stmt (.forIn l left right body) ∧
      s'.scope = s.scope ∧ s'.phase = 3 ∧ s'.left = s.left ∧ s'.keys = s.keys ∧ s'.n = s.n + gone.length + 1 := by
    rw [hresumes.eq_with]
    exact ⟨hn, rfl, rfl, rfl, rfl, rfl⟩
  have hcurrent : s'.keys[s'.n - 1]? = some key := by
    rw [hkeys', hcount, Nat.add_sub_cancel, ← List.getElem?_drop, hkeys, List.getElem?_append_right le_rfl, Nat.sub_self]
    rfl
  rcases of_place hc hsize hk hh hback.reachable hlater hback.back hn' hphase hscope hsubject hcurrent with
    ⟨rfl, rfl⟩ | ⟨r, v, later, hplace, rfl, hbody, hbefore, hstore, hlater⟩
  · exact .stops (.target (lt_of_stack hback.back) hgone hkey hhead hvar hu.part)
  · have hfirst : KeyTurn left body s.scope s.left gone key [u, v] :=
      .place hgone hkey hhead hvar hu.part (hback.place.trans hplace) hbody hbefore hstore
    rw [hkeys', hcount, hmore] at hlater
    have hvisits : u :: v :: later = [u, v] ++ later := rfl
    exact .turn rfl hvisits (by simp only [List.length_cons]; omega) hfirst hlater

/-- A loop that looks for its next key. -/
theorem takesTurn (hr : m.Reachable c world) (h : m.Course c below world visits m' world') (hm : m.stack = s :: below)
    (hslot : left.isSlot) (hs : s.Seeks (.stmt (.forIn l left right body)) scope subject keys) :
    TakesTurn c below l left right body scope subject m' world' keys visits := by
  obtain ⟨hn, rfl, hphase, rfl, rfl⟩ := hs
  have hrun : stepNode c below s.node ⟨s, m.heap⟩ = nextForIn left body ⟨s, m.heap⟩ := by
    rw [stepNode_forIn c below hn]
    simp only [stepForIn, bind_run, top_run, hphase]
  rcases m.heap.exists_turn s.left (s.keys.drop s.n) with hgone | ⟨gone, key, rest, hkeys, hgone, hkey⟩
  · obtain ⟨f, hrule, hheap⟩ := nextForIn_gone left body (f := ⟨s, m.heap⟩) hgone
    obtain ⟨rfl, rfl | ⟨hstack, hheap'⟩⟩ := h.of_drop hm (hrun.trans hrule)
    · exact .stops (.pause (lt_of_stack hm))
    · refine .stops (.over hstack ?_)
      rw [hheap', hheap]
      exact hgone
  have hmore : s.keys.drop (s.n + gone.length + 1) = rest := by
    rw [Nat.add_assoc, ← List.drop_drop, hkeys, List.drop_append, List.drop_eq_nil_of_le (Nat.le_succ _),
      Nat.add_sub_cancel_left]
    rfl
  rcases nextForIn_turn body (f := ⟨s, m.heap⟩) hkeys hgone hkey hslot with
    ⟨name, hhead, hturn⟩ | ⟨e, hhead, hvar, hturn⟩
  · rw [hkeys]
    exact takesTurn_of_variable hc hsize hk hh hr h hm hn hphase hgone hkey hmore hhead (hrun.trans hturn)
  · rw [hkeys]
    exact takesTurn_of_place hc hsize hk hh hr h hm hn hgone hkey hkeys hmore hhead hvar (hrun.trans hturn)

/-- A loop goes through its keys. -/
theorem turns (hr : m.Reachable c world) (h : m.Course c below world visits m' world') (hm : m.stack = s :: below)
    (hslot : left.isSlot) (hs : s.Seeks (.stmt (.forIn l left right body)) scope subject keys) :
    KeyTurns left body scope subject below m' keys visits := by
  induction hlen : visits.length using Nat.strongRecOn generalizing m world s keys visits with
  | _ n ih =>
    rcases takesTurn hc hsize hk hh hr h hm hslot hs with hturns | ⟨rfl, rfl, hshorter, hfirst, hlater⟩
    · exact hturns
    cases hlater with
    | inside hstill => exact .turn hfirst (.pause hstill)
    | next hr' hcourse hm' hs' => exact .turn hfirst (ih _ (hlen ▸ hshorter) hr' hcourse hm' hs' rfl)

/-- A loop over keys asks for its value, and goes through the keys of it. -/
theorem loopsOver (hr : m.Reachable c world) (h : m.Course c below world visits m' world') (hm : m.stack = s :: below)
    (hslot : left.isSlot) (hn : s.node = .stmt (.forIn l left right body)) (hphase : s.phase = 0)
    (hcount : s.n = 0) : LoopsOver left right body s.scope below m' visits := by
  have hcall : ¬s.node.isCall := by rw [hn]; exact Bool.noConfusion
  have hrule : stepNode c below s.node ⟨s, m.heap⟩ =
      .ok (.push (.expr right) s.scope false []) ⟨{ s with phase := 1 }, m.heap⟩ := by
    rw [stepNode_forIn c below hn]
    simp only [stepForIn, bind_run, top_run, hphase, setPhase_run, pushExpr_run]
  rcases h.of_push hc hsize hk hh hr hm hcall hrule with ⟨rfl, rfl⟩ | ⟨v, later, rfl, hv, hrest⟩
  · exact .early (lt_of_stack hm) List.nil_prefix
  have hpart : [v].map Visit.part <+: [.expr right] := by
    rw [List.map_singleton, hv.part]
  rcases hrest with ⟨rfl, hinside⟩ | ⟨u, world₁, hback, ⟨t, ht, hcomponents, hlabels, hresumes⟩, hlater⟩
  · exact .early (by omega) hpart
  have hphase₁ : s.isLoop → ¬s.node.resumesAt 1 := fun _ hresumes => by
    rw [hn] at hresumes
    exact hresumes (by simp)
  obtain ⟨x, hu⟩ := hresumes.exists_value (by rw [ht]; rfl) (by simp [hcomponents]) hlabels hphase₁
  obtain ⟨hn', hscope, hphase', hcount', hvalue⟩ : u.node = .stmt (.forIn l left right body) ∧ u.scope = s.scope ∧
      u.phase = 1 ∧ u.n = 0 ∧ v.value = some u.value := by
    rw [hback.value, hu]
    exact ⟨hn, rfl, rfl, hcount, rfl⟩
  have hrun : stepNode c below u.node ⟨u, v.back.heap⟩ = enterForIn ⟨u, v.back.heap⟩ := by
    rw [stepNode_forIn c below hn']
    simp only [stepForIn, bind_run, top_run, hphase']
  rw [enterForIn_run] at hrun
  by_cases hnull : u.value.isNullish
  · rw [if_pos hnull] at hrun
    obtain ⟨rfl, rfl | ⟨hstack, -⟩⟩ := hlater.of_drop hback.back hrun
    · exact .nothing hv.part hvalue hnull (.inl (lt_of_stack hback.back))
    · exact .nothing hv.part hvalue hnull (.inr hstack)
  · rw [if_neg hnull] at hrun
    cases hsubject : v.back.heap.loopSubject u.value with
    | mk subject heap =>
      rw [hsubject] at hrun
      refine .keys hv.part hvalue hnull hsubject (heap.nodup_keysOf subject) ?_
      rcases hlater.of_stay hback.back hrun with ⟨rfl, rfl⟩ | ⟨m₁, world₂, hs, hm₁, -, hcourse⟩
      · exact .pause (lt_of_stack hback.back)
      · rw [← hscope]
        refine turns hc hsize hk hh (hback.reachable.step hs) hcourse hm₁ hslot ⟨hn', rfl, rfl, rfl, ?_⟩
        rw [hcount']
        rfl

end

end Course

/-- A loop over keys runs its body once for each key that is still there when it is its turn. From every machine that a
program reaches with the state of a loop that has just been started, at every moment while this is on the stack or when a
step of its own has taken it from there, the loop has started its value and then, unless this is undefined or null, what
the keys of it need, in the order in which they were listed at the start. A key that is gone by then is passed over. Each
other one is stored, in the variable or in a place that is evaluated for it, and by the same step the body starts. When
the loop has ended, every key has had its turn. The body may change the keys of the value, and may end with a `continue`.

The library numbers its nodes from `2 ^ 24` on. A program has fewer nodes, so that no part of it is taken for one of the
library. The functions of the host have to keep objects and scopes in their places and to hand out values of the heap;
those of sessions do (`SessionFunction.host_table`). -/
theorem forIn_visits {source text : String} {program : Program} {host : List (HostFunction ω)} {maxDepth : Nat}
    {draws : Nat → Float} (hp : Program.ofSource source = .ok program) (hsize : program.nodes.length < 2 ^ 24)
    (hk : ∀ f ∈ host, f.Keeps) (hh : ∀ f ∈ host, f.Sound)
    (hr : m.Reachable (Setting.ofPrograms (Library.read text) program host maxDepth draws) world) (hm : m.stack = s :: below)
    (hn : s.node = .stmt (.forIn l left right body)) (hphase : s.phase = 0) (hcount : s.n = 0)
    (hrun : m.Tenure (Setting.ofPrograms (Library.read text) program host maxDepth draws) below world m' world') :
    ∃ visits, m.Course (Setting.ofPrograms (Library.read text) program host maxDepth draws) below world visits m' world' ∧
      LoopsOver left right body s.scope below m' visits := by
  have hc := Setting.isRead_ofPrograms hp text host maxDepth draws
  obtain ⟨visits, hcourse⟩ := hrun.exists_course hm
  have hnode := (hr.sound hc hk).node s (by rw [hm]; exact List.mem_cons_self)
  have hslot : left.isSlot := by
    have hlawful := (Node.isRegular_iff.1 (hc.isRegular (hc.mem_of_node? hnode).1)).1
    rw [hn] at hlawful
    exact hlawful
  exact ⟨visits, hcourse, hcourse.loopsOver hc hsize hk hh hr hm hslot hn hphase hcount⟩

/-- Keys that are stored in a place, and a body that deletes one, adds another, and ends with a `continue`: it runs once,
for the key `a`. -/
theorem forIn_visits_continue :
    ∃ (program : Program) (m m' : Machine) (s : State) (below : List State) (l : Loc) (left : ForHead) (right : Expr)
      (body : Stmt),
      let c : Setting Unit := Setting.ofPrograms (Library.read "") program [] Setting.defaultDepth Setting.zeros
      Program.ofSource "for (o.a in o = { a: 1, b: 2 }) { delete o.b; o.c = 3; continue; } var o;" = .ok program ∧
        m.Reachable c () ∧ m.stack = s :: below ∧ s.node = .stmt (.forIn l left right body) ∧ s.phase = 0 ∧ s.n = 0 ∧
        m.Tenure c below () m' () ∧ m'.stack.length ≤ below.length ∧
        ∃ visits, m.Course c below () visits m' () ∧ LoopsOver left right body s.scope below m' visits ∧
          visits.map (fun v => (c.text v.part, v.place)) =
            [("o = { a: 1, b: 2 }", none), ("o.a", some (.property (.object 100) "a")),
              ("{ delete o.b; o.c = 3; continue; }", none)] ∧
          visits.getLast?.any fun v => (v.start.heap.object? 100).any fun o =>
            o.keys = ["a", "b"] ∧ o.own? "a" = some (.string "a") := by
  have hrun : (after? (ω := Unit)
      "for (o.a in o = { a: 1, b: 2 }) { delete o.b; o.c = 3; continue; } var o;" [] 1 ()).any fun x =>
        let c := Setting.ofPrograms (Library.read "") x.1 [] Setting.defaultDepth Setting.zeros
        x.1.nodes.length < 2 ^ 24 ∧
          x.2.1.stack.map (fun s => (s.node.kind, s.phase, s.n)) = [(.forInStatement, 0, 0), (.program, 0, 1)] ∧
          ((x.2.1.aloft? c 1 36 x.2.2).any fun y => y.1.stack.length = 2 ∧ (y.1.step c y.2).1.isAdvanced ∧
            (y.1.step c y.2).2.1.stack.length = 1) ∧
          (x.2.1.visits? c 1 37 none x.2.2).any fun visits =>
            visits.map (fun v => (c.text v.part, v.place)) =
              [("o = { a: 1, b: 2 }", none), ("o.a", some (.property (.object 100) "a")),
                ("{ delete o.b; o.c = 3; continue; }", none)] ∧
            visits.getLast?.any fun v => (v.start.heap.object? 100).any fun o =>
              o.keys = ["a", "b"] ∧ o.own? "a" = some (.string "a") := by
    decide +kernel
  obtain ⟨⟨program, m, world⟩, hx, hrun⟩ := (Option.any_eq_true _ _).1 hrun
  obtain ⟨hp, hr⟩ := of_after? hx
  obtain ⟨hsize, hstates, haloft, hvisits⟩ := of_decide_eq_true hrun
  obtain ⟨⟨m₁, world₁⟩, hy, hlast⟩ := (Option.any_eq_true _ _).1 haloft
  obtain ⟨htop, hlast, hleft⟩ := of_decide_eq_true hlast
  obtain ⟨found, hfound, hvisits⟩ := (Option.any_eq_true _ _).1 hvisits
  have hin := aloft_of_aloft? hy
  have hs := step_of_isAdvanced hlast
  -- the state of the program is below
  obtain ⟨s, below, hstack⟩ : ∃ s below, m.stack = [s, below] :=
    List.length_eq_two.1 (by simpa using congrArg List.length hstates)
  rw [hstack] at hstates
  simp only [List.map_cons, List.map_nil, List.cons.injEq, Prod.mk.injEq, and_true] at hstates
  obtain ⟨⟨hforIn, hphase, hcount⟩, -⟩ := hstates
  have htenure : m.Tenure _ [below] world _ _ := .left hin htop hs hleft.le
  obtain ⟨l, left, right, body, hn⟩ := Node.exists_forIn_of_kind hforIn
  obtain ⟨visits, hcourse, hloops⟩ :=
    forIn_visits hp hsize (List.forall_mem_nil _) (List.forall_mem_nil _) hr hstack hn hphase hcount htenure
  obtain rfl := hcourse.visits_eq hleft.le hfound
  exact ⟨program, m, _, s, [below], l, left, right, body, hp, hr, hstack, hn, hphase, hcount, htenure, hleft.le,
    visits, hcourse, hloops, of_decide_eq_true hvisits⟩

end Machine

end Stepwise

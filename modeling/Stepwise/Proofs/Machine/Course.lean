import Stepwise.Proofs.Machine.Land

/-!
# The course of a state

While a state is on the stack, it makes steps of its own and waits for the parts that it starts. What happens above it
between two of its own steps may be of any length, but when it is over the state is as it was, with the result of the part.

* `Machine.Aloft`: steps during which the stack never falls to a certain height.
* `Machine.Tenure`: steps during which a state is on the stack, or to the step of its own that takes it from there.
* `Machine.Course`: all that a state does during such a time, with the parts that it has started. Every tenure is a
  course, `Machine.Tenure.exists_course`. The parts are those that are found by running, `Machine.Course.visits_eq`.
* `State.Resumes`: how a state goes on after a part that it has started, `Machine.resumes_of_step`.
* `Machine.Course.of_drop`, `Machine.Course.of_stay` and `Machine.Course.of_push`: the rule of the state decides how its
  course goes on.
-/

namespace Stepwise

open RuleM

variable {ω : Type} {c : Setting ω} {s s' t : State} {above below low : List State} {floor : ℕ}
  {m m₁ m' : Machine} {world world₁ world' : ω}

namespace Machine

/-! ### Steps above a part of the stack -/

/-- Steps that advance, with more than `floor` states on the stack all the time. -/
inductive Aloft (c : Setting ω) (floor : ℕ) : Machine → ω → Machine → ω → Prop where
  | refl {m : Machine} {world : ω} (h : floor < m.stack.length) : Aloft c floor m world m world
  | step {m m₁ m' : Machine} {world world₁ world' : ω} (h : floor < m.stack.length)
    (hs : m.step c world = (.advanced, m₁, world₁)) (hrest : Aloft c floor m₁ world₁ m' world') :
    Aloft c floor m world m' world'

namespace Aloft

theorem floor_lt (h : m.Aloft c floor world m' world') : floor < m.stack.length := by
  cases h <;> assumption

theorem floor_lt_last (h : m.Aloft c floor world m' world') : floor < m'.stack.length := by
  induction h with
  | refl h => exact h
  | step _ _ _ ih => exact ih

theorem reachable (h : m.Aloft c floor world m' world') (hr : m.Reachable c world) : m'.Reachable c world' := by
  induction h with
  | refl => exact hr
  | step _ hs _ ih => exact ih (hr.step hs)

/-- The lowest states stay as they are, and the one on them alike. -/
theorem exists_above (h : m.Aloft c low.length world m' world') (hm : m.stack = above ++ t :: low) :
    ∃ above' t', m'.stack = above' ++ t' :: low ∧ t.Alike t' := by
  induction h generalizing above t with
  | refl => exact ⟨above, t, hm, .refl t⟩
  | step _ hs hrest ih =>
    obtain ⟨above₁, t₁, hm₁, ha, -⟩ := (acts_of_step hs).exists_above hm hrest.floor_lt
    obtain ⟨above', t', hm', ha'⟩ := ih hm₁
    exact ⟨above', t', hm', ha.trans ha'⟩

/-- A part stays above the state that has started it. -/
theorem exists_above_part (h : m.Aloft c (below.length + 1) world m' world')
    (hm : m.stack = t :: s :: below) :
    ∃ above t', m'.stack = above ++ t' :: s :: below ∧ t.Alike t' := by
  have h : m.Aloft c (s :: below).length world m' world' := h
  have hm : m.stack = [] ++ t :: s :: below := hm
  exact h.exists_above hm

end Aloft

/-- Takes some steps, as long as they advance and there are more than `floor` states on the stack. -/
def aloft? (c : Setting ω) (floor : ℕ) : ℕ → Machine → ω → Option (Machine × ω)
  | 0, m, world => if floor < m.stack.length then some (m, world) else none
  | steps + 1, m, world =>
    if floor < m.stack.length then
      match m.step c world with
      | (.advanced, m', world') => m'.aloft? c floor steps world'
      | _ => none
    else none

theorem aloft_of_aloft? {steps : ℕ} (h : m.aloft? c floor steps world = some (m', world')) :
    m.Aloft c floor world m' world' := by
  induction steps generalizing m world with
  | zero =>
    unfold aloft? at h
    split at h
    · cases h
      exact .refl ‹_›
    · cases h
  | succ steps ih =>
    unfold aloft? at h
    split at h
    · split at h
      · exact .step ‹_› ‹_› (ih h)
      · cases h
    · cases h

end Machine

/-! ### Courses -/

/-- What a part has delivered to a state, if it was a value. -/
def State.delivered (s : State) : Option Value := if s.hasValue then some s.value else none

/-- A part that a state has started: its node, the value and the place that the state has when it goes on, the machine
whose step started the part, the machine with the part on top, and the machine in which the state goes on. If the part is
not over, this is the last machine that is known. -/
structure Visit where
  part : Node
  value : Option Value
  place : Option Reference
  before : Machine
  start : Machine
  back : Machine

namespace Machine

/-- Steps during which a state is on `below`: to some moment of this time, or to the step of its own that ends it. -/
inductive Tenure (c : Setting ω) (below : List State) (m : Machine) (world : ω) : Machine → ω → Prop where
  | still {m' : Machine} {world' : ω} (hrun : m.Aloft c below.length world m' world') : Tenure c below m world m' world'
  | left {m₁ m' : Machine} {world₁ world' : ω} (hrun : m.Aloft c below.length world m₁ world₁)
    (htop : m₁.stack.length = below.length + 1) (hs : m₁.step c world₁ = (.advanced, m', world'))
    (hleft : m'.stack.length ≤ below.length) : Tenure c below m world m' world'

/-- All that the state on top does, from one of its own steps on: to some moment while it is on the stack, or to the step
of its own that takes it from the stack, so that `below` is left or less. The parts are all that it starts, in this order.
Only the last one may not be over. -/
inductive Course (c : Setting ω) (below : List State) : Machine → ω → List Visit → Machine → ω → Prop where
  | pause {m : Machine} {world : ω} {s : State} (hm : m.stack = s :: below) : Course c below m world [] m world
  | leave {m m' : Machine} {world world' : ω} {s : State} (hm : m.stack = s :: below)
    (hs : m.step c world = (.advanced, m', world')) (hleft : m'.stack.length ≤ below.length) :
    Course c below m world [] m' world'
  | stay {m m₁ m' : Machine} {world world₁ world' : ω} {s s' : State} {visits : List Visit} (hm : m.stack = s :: below)
    (hs : m.step c world = (.advanced, m₁, world₁)) (hm₁ : m₁.stack = s' :: below)
    (hrest : Course c below m₁ world₁ visits m' world') : Course c below m world visits m' world'
  | inside {m m₁ m' : Machine} {world world₁ world' : ω} {s s' t : State} (hm : m.stack = s :: below)
    (hs : m.step c world = (.advanced, m₁, world₁)) (hm₁ : m₁.stack = t :: s' :: below)
    (habove : m₁.Aloft c (below.length + 1) world₁ m' world') :
    Course c below m world [⟨t.node, none, none, m, m₁, m'⟩] m' world'
  | visit {m m₁ m₂ m₃ m' : Machine} {world world₁ world₂ world₃ world' : ω} {s s' s'' t : State} {visits : List Visit}
    (hm : m.stack = s :: below) (hs : m.step c world = (.advanced, m₁, world₁)) (hm₁ : m₁.stack = t :: s' :: below)
    (habove : m₁.Aloft c (below.length + 1) world₁ m₂ world₂) (hback : m₂.step c world₂ = (.advanced, m₃, world₃))
    (hm₃ : m₃.stack = s'' :: below) (hrest : Course c below m₃ world₃ visits m' world') :
    Course c below m world (⟨t.node, s''.delivered, s''.ref, m, m₁, m₃⟩ :: visits) m' world'

/-- A run that goes on as a course as soon as only the state is left above `below` is a course. With states above, it first
comes back to the state, or it never does. -/
theorem Aloft.courses (hrun : m.Aloft c below.length world m₁ world₁)
    (hm : m.stack = above ++ s :: below)
    (htop : ∀ s, m₁.stack = s :: below → ∃ visits, m₁.Course c below world₁ visits m' world')
    (hhigh : below.length + 1 < m₁.stack.length → m₁.Aloft c (below.length + 1) world₁ m' world') :
    (above = [] → ∃ visits, m.Course c below world visits m' world') ∧
      (above ≠ [] → m.Aloft c (below.length + 1) world m' world' ∨
        ∃ m₂ world₂ m₃ world₃ s'' visits, m.Aloft c (below.length + 1) world m₂ world₂ ∧
          m₂.step c world₂ = (.advanced, m₃, world₃) ∧ m₃.stack = s'' :: below ∧
          m₃.Course c below world₃ visits m' world') := by
  have hhigher {m : Machine} {above : List State} {s : State} (hm : m.stack = above ++ s :: below) (hne : above ≠ []) :
      below.length + 1 < m.stack.length := by
    have hpos := List.length_pos_of_ne_nil hne
    rw [hm, List.length_append, List.length_cons]
    omega
  induction hrun generalizing above s with
  | refl => exact ⟨fun hnil => htop s (by rw [hm, hnil, List.nil_append]), fun hne => .inl (hhigh (hhigher hm hne))⟩
  | step hlow hs₁ hrest ih =>
    obtain ⟨above', s', hm₁, -, hlen⟩ := (acts_of_step hs₁).exists_above hm hrest.floor_lt
    obtain ⟨hdown, hup⟩ := ih hm₁ htop hhigh
    by_cases hnil' : above' = []
    · obtain ⟨visits, hcourse⟩ := hdown hnil'
      rw [hnil'] at hm₁
      refine ⟨fun hnil => ⟨visits, ?_⟩, fun hne => .inr ?_⟩
      · rw [hnil] at hm
        exact .stay hm hs₁ hm₁ hcourse
      · exact ⟨_, _, _, _, s', visits, .refl (hhigher hm hne), hs₁, hm₁, hcourse⟩
    · have hstart (hnil : above = []) : ∃ t, above' = [t] := by
        have hpos := List.length_pos_of_ne_nil hnil'
        rw [hnil, List.length_nil] at hlen
        exact List.length_eq_one_iff.1 (by omega)
      rcases hup hnil' with hinside | ⟨m₂, world₂, m₃, world₃, s'', visits, habove, hback, hm₃, hcourse⟩
      · refine ⟨fun hnil => ?_, fun hne => .inl (.step (hhigher hm hne) hs₁ hinside)⟩
        obtain ⟨t, rfl⟩ := hstart hnil
        rw [hnil] at hm
        exact ⟨_, .inside hm hs₁ hm₁ hinside⟩
      · refine ⟨fun hnil => ?_, fun hne => .inr ?_⟩
        · obtain ⟨t, rfl⟩ := hstart hnil
          rw [hnil] at hm
          exact ⟨_, .visit hm hs₁ hm₁ habove hback hm₃ hcourse⟩
        · exact ⟨_, _, _, _, s'', visits, .step (hhigher hm hne) hs₁ habove, hback, hm₃, hcourse⟩

/-- Every run during which a state is on the stack, or which a step of its own ends, is a course of the state. -/
theorem Tenure.exists_course (h : m.Tenure c below world m' world') (hm : m.stack = s :: below) :
    ∃ visits, m.Course c below world visits m' world' := by
  have hm : m.stack = [] ++ s :: below := hm
  cases h with
  | still hrun => exact (hrun.courses hm (fun s hs => ⟨[], .pause hs⟩) .refl).1 rfl
  | left hrun htop hs hleft =>
    refine (hrun.courses hm (fun s hm₁ => ⟨[], .leave hm₁ hs hleft⟩) fun h => ?_).1 rfl
    exact absurd htop (Nat.ne_of_gt h)

/-! ### Visits that are found by running -/

/-- The visits from here on until no more than `floor` states are left, by running some steps at most. `part` is the part
that is not over, with the machine whose step started it and the one with the part on top. -/
def visits? (c : Setting ω) (floor : ℕ) : ℕ → Option (Node × Machine × Machine) → Machine → ω → Option (List Visit)
  | 0, _, _, _ => none
  | steps + 1, part, m, world =>
    match m.step c world with
    | (.advanced, m', world') =>
      match m'.stack, part with
      | [], _ => some []
      | top :: below, none =>
        if below.length < floor then some []
        else visits? c floor steps (if below.length = floor then none else some (top.node, m, m')) m' world'
      | top :: below, some (node, before, start) =>
        if below.length = floor then
          (visits? c floor steps none m' world').map (⟨node, top.delivered, top.ref, before, start, m'⟩ :: ·)
        else visits? c floor steps part m' world'
    | _ => none

theorem visits_of_left {steps : ℕ} (hs : m.step c world = (.advanced, m', world'))
    (hleft : m'.stack.length ≤ below.length) : m.visits? c below.length (steps + 1) none world = some [] := by
  rw [visits?, hs]
  dsimp only
  cases hm' : m'.stack with
  | nil => rfl
  | cons top rest =>
    rw [hm'] at hleft
    exact if_pos hleft

theorem visits_of_stay {steps : ℕ} (hs : m.step c world = (.advanced, m', world')) (hm' : m'.stack = s' :: below) :
    m.visits? c below.length (steps + 1) none world = m'.visits? c below.length steps none world' := by
  rw [visits?, hs]
  simp only [hm', Nat.lt_irrefl, if_false, if_true]

theorem visits_of_start {steps : ℕ} (hs : m.step c world = (.advanced, m', world'))
    (hm' : m'.stack = t :: s' :: below) : m.visits? c below.length (steps + 1) none world =
      m'.visits? c below.length steps (some (t.node, m, m')) world' := by
  rw [visits?, hs]
  simp [hm']

/-- A part that comes back is visited. -/
theorem Aloft.exists_visits (h : m.Aloft c (below.length + 1) world m₁ world₁)
    (hs : m₁.step c world₁ = (.advanced, m', world')) (hm' : m'.stack = s' :: below) {part : Node × Machine × Machine}
    {steps : ℕ} {visits : List Visit} (hrest : m'.visits? c below.length steps none world' = some visits) :
    ∃ steps', m.visits? c below.length steps' (some part) world =
      some (⟨part.1, s'.delivered, s'.ref, part.2.1, part.2.2, m'⟩ :: visits) := by
  obtain ⟨node, before, start⟩ := part
  induction h with
  | refl =>
    refine ⟨steps + 1, ?_⟩
    rw [visits?, hs]
    simp only [hm', if_true, hrest, Option.map_some]
  | @step m m₂ _ _ _ _ _ hs₂ hlater ih =>
    obtain ⟨steps', ih⟩ := ih hs
    refine ⟨steps' + 1, ?_⟩
    rw [visits?, hs₂]
    have hhigh := hlater.floor_lt
    dsimp only
    cases hm₂ : m₂.stack with
    | nil =>
      rw [hm₂] at hhigh
      cases hhigh
    | cons top rest =>
      have hne : rest.length ≠ below.length := by
        rw [hm₂, List.length_cons] at hhigh
        omega
      exact (if_neg hne).trans ih

/-- A state that leaves the stack makes the visits that are found by running. -/
theorem Course.exists_visits {visits : List Visit} (h : m.Course c below world visits m' world')
    (hleft : m'.stack.length ≤ below.length) : ∃ steps, m.visits? c below.length steps none world = some visits := by
  induction h with
  | pause hm =>
    rw [hm, List.length_cons] at hleft
    omega
  | leave _ hs hleft => exact ⟨1, visits_of_left hs hleft⟩
  | stay _ hs hm₁ _ ih =>
    obtain ⟨steps, ih⟩ := ih hleft
    exact ⟨steps + 1, (visits_of_stay hs hm₁).trans ih⟩
  | inside _ _ _ habove =>
    have hhigh := habove.floor_lt_last
    omega
  | visit _ hs hm₁ habove hback hm₃ _ ih =>
    obtain ⟨steps, ih⟩ := ih hleft
    obtain ⟨steps', hvisits⟩ := habove.exists_visits hback hm₃ ih
    exact ⟨steps' + 1, (visits_of_start hs hm₁).trans hvisits⟩

/-- More steps find the same visits. -/
theorem visits_mono {floor steps steps' : ℕ} {part : Option (Node × Machine × Machine)} {visits : List Visit}
    (hle : steps ≤ steps') (h : m.visits? c floor steps part world = some visits) :
    m.visits? c floor steps' part world = some visits := by
  induction steps generalizing m world part visits steps' with
  | zero => cases h
  | succ steps ih =>
    obtain ⟨steps', rfl⟩ := Nat.exists_eq_add_of_le' (Nat.le_of_add_left_le hle)
    have hle := Nat.le_of_succ_le_succ hle
    rw [visits?] at h ⊢
    revert h
    split
    · split
      · exact id
      · split
        · exact id
        · exact ih hle
      · split
        · intro h
          obtain ⟨rest, hrest, rfl⟩ := Option.map_eq_some_iff.1 h
          rw [ih hle hrest]
          rfl
        · exact ih hle
    · exact id

theorem Course.visits_eq {visits found : List Visit} (h : m.Course c below world visits m' world')
    (hleft : m'.stack.length ≤ below.length) {steps : ℕ}
    (hfound : m.visits? c below.length steps none world = some found) : visits = found := by
  obtain ⟨steps', hvisits⟩ := h.exists_visits hleft
  have hvisits := visits_mono (le_max_left steps' steps) hvisits
  exact Option.some.inj (hvisits.symm.trans (visits_mono (le_max_right steps' steps) hfound))

end Machine

/-! ### Going on after a part -/

/-- How a state goes on when `t`, which lay on it, has left the stack: with a value or a place, without a result if that
was a statement or was left by a `break`, or because of a `continue` if it is a loop that waits for its body. -/
inductive State.Resumes (t s : State) : State → Prop where
  | value (v : Value) : Resumes t s (s.receive v)
  | place (r : Reference) (ht : t.components) : Resumes t s (s.receiveRef r)
  | done (ht : ¬t.node.isExpr) : Resumes t s s
  | left {label : Option String} (ht : t.isTarget label false) : Resumes t s s
  | next (hloop : s.isLoop) (hphase : s.node.resumesAt s.phase) : Resumes t s s

/-- Nothing but the result of the part is new to the state. -/
theorem State.Resumes.eq_with (h : t.Resumes s s') :
    s' = { s with value := s'.value, hasValue := s'.hasValue, ref := s'.ref } := by
  cases h <;> rfl

/-- A state that waits for the value of an expression gets it. -/
theorem State.Resumes.exists_value (h : t.Resumes s s') (hn : t.node.isExpr) (hcomponents : ¬t.components)
    (hlabels : t.labels = []) (hphase : s.isLoop → ¬s.node.resumesAt s.phase) : ∃ v, s' = s.receive v := by
  cases h with
  | value v => exact ⟨v, rfl⟩
  | place r ht => exact absurd ht hcomponents
  | done ht => exact absurd hn ht
  | left ht => exact absurd ht (State.not_isTarget_of_isExpr hn hlabels _ _)
  | next hloop hp => exact absurd hp (hphase hloop)

/-- Parts of a stack that reach down to its bottom are the same if they are of the same height. -/
theorem eq_of_suffix {stack low low' : List State} (h : low <:+ stack) (h' : low' <:+ stack)
    (hlen : low.length = low'.length) : low = low' :=
  (List.suffix_of_suffix_length_le h h' hlen.le).eq_of_length hlen

/-- What lies below some state lies below the top. -/
theorem suffix_of_cons_eq {u : State} {rest : List State} (h : u :: rest = above ++ t :: below) : below <:+ rest := by
  cases above with
  | nil =>
    cases h
    exact List.suffix_refl _
  | cons a above =>
    cases h
    exact (List.suffix_cons t _).trans (List.suffix_append above _)

/-- With nothing else above it, the state is the top. -/
theorem eq_top_of_length_eq {u : State} {rest : List State} (h : u :: rest = above ++ t :: below)
    (hlen : rest.length = below.length) : u = t ∧ rest = below := by
  have hrest := eq_of_suffix (suffix_of_cons_eq h) (List.suffix_refl rest) hlen.symm
  cases above with
  | nil => exact ⟨(List.cons.inj h).1, hrest.symm⟩
  | cons a above =>
    have hlen := congrArg List.length h
    simp only [← hrest, List.length_cons, List.length_append] at hlen
    omega

/-- A `continue` that comes down to a state has found this state, and a `break` has found the one that lay on it. -/
theorem leaveTo_comes_down {u : State} {rest : List State} {label : Option String} {isContinue : Bool}
    (hfound : (leaveTo label isContinue rest).2) (h : u :: rest = above ++ t :: s :: below)
    (he : (leaveTo label isContinue rest).1 = s' :: below) :
    s' = s ∧ (isContinue → s.isTarget label true ∧ ∃ inner, rest = inner ++ s :: below ∧ ∀ v ∈ inner, ¬v.isActiveCall) ∧
      (¬isContinue → t.isTarget label false) := by
  have hlow : s :: below <:+ rest := suffix_of_cons_eq h
  obtain ⟨inner, target, outer, rfl, hinner, -, htarget, hleave⟩ := leaveTo_found hfound
  have hleft : (if isContinue then target :: outer else outer) = s' :: below := hleave.symm.trans he
  cases isContinue with
  | true =>
    cases hleft
    cases eq_of_suffix hlow (List.suffix_append inner _) rfl
    exact ⟨rfl, fun _ => ⟨htarget, inner, rfl, fun v hv => (hinner v hv).1⟩, fun h => absurd rfl h⟩
  | false =>
    cases hleft
    have hlow' : target :: s' :: below <:+ inner ++ target :: s' :: below := List.suffix_append inner _
    cases eq_of_suffix hlow ((List.suffix_cons target _).trans hlow') rfl
    refine ⟨rfl, nofun, fun _ => ?_⟩
    cases above with
    | nil =>
      have hlen := congrArg List.length h
      simp only [List.length_cons, List.length_append, List.nil_append] at hlen
      omega
    | cons a above =>
      cases eq_of_suffix hlow' ⟨above, (List.cons.inj h).2.symm⟩ rfl
      exact htarget

/-- What a `return` comes down to is a running call. -/
theorem isCall_of_returnTo {u : State} {rest : List State} {v : Value} (hfound : (returnTo v (u :: rest)).2)
    (hlow : s :: below <:+ rest) (he : (returnTo v (u :: rest)).1 = s' :: below) : s.node.isCall := by
  obtain ⟨inner, call, outer, hstack, -, hcalling, hleave⟩ := returnTo_found hfound
  cases hleave.symm.trans he
  have hsuf : call :: below <:+ u :: rest := hstack ▸ List.suffix_append inner _
  cases eq_of_suffix (hlow.trans (List.suffix_cons u rest)) hsuf rfl
  exact State.isCall_of_isActiveCall hcalling

namespace Machine

/-- The step that comes down to a state that runs no function. -/
theorem resumes_of_step (hc : c.IsRead) (hsize : c.program.nodes.length < 2 ^ 24) (hh : ∀ f ∈ c.host, f.Sound)
    (hr : m.Reachable c world) (hm : m.stack = above ++ t :: s :: below) (hcall : ¬s.node.isCall)
    (hs : m.step c world = (.advanced, m', world')) (hm' : m'.stack = s' :: below) : t.Resumes s s' := by
  obtain ⟨u, rest, mv, f, ha⟩ := advances_of_step hh (hr.wellFormed hh) hs
  have hstack : u :: rest = above ++ t :: s :: below := ha.stack.symm.trans hm
  have hmoved := ha.stack_eq.symm.trans hm'
  have hlow : s :: below <:+ rest := suffix_of_cons_eq hstack
  have hlen := hlow.length_le
  cases mv with
  | stay | host =>
    cases hmoved
    simp only [List.length_cons] at hlen
    omega
  | push =>
    have hmoved := congrArg List.length hmoved
    simp only [apply, push, List.length_cons] at hmoved hlen
    omega
  | drop =>
    have hrest : rest = s' :: below := hmoved
    obtain ⟨rfl, hrest'⟩ := eq_top_of_length_eq hstack (by simp [hrest])
    cases hrest.symm.trans hrest'
    exact .done ha.not_isExpr_of_drop
  | give v =>
    cases rest with
    | nil => cases hmoved
    | cons x rest =>
      cases hmoved
      obtain ⟨-, he⟩ := eq_top_of_length_eq hstack rfl
      cases he
      exact .value v
  | giveRef r =>
    cases rest with
    | nil => cases hmoved
    | cons x rest =>
      cases hmoved
      obtain ⟨rfl, he⟩ := eq_top_of_length_eq hstack rfl
      cases he
      have hcomponents : f.top.components := ha.fits.resolve_right id
      exact .place r (ha.top.components ▸ hcomponents)
  | jump label isContinue =>
    have hjump : u.node.jump? = some (label, isContinue) := ha.fits.resolve_left id
    obtain ⟨rfl, hcontinue, hbreak⟩ := leaveTo_comes_down ha.target_found hstack hmoved
    cases isContinue with
    | true =>
      obtain ⟨htarget, inner, rfl, hinner⟩ := hcontinue rfl
      refine .next (State.isLoop_of_isTarget htarget) ?_
      exact (hr.awaiting hc hsize hh).resumesAt ⟨[], ha.stack.symm⟩ hinner (Node.isStatement_of_jump hjump)
    | false => exact .left (hbreak Bool.false_ne_true)
  | return_ v => exact absurd (isCall_of_returnTo ha.call_found hlow hmoved) hcall

/-! ### The rule of the state -/

/-- A step that advances has made the move that the rule asked for, unless this was to call the host. -/
theorem exists_rule_of_step (hm : m.stack = s :: below) (hs : m.step c world = (.advanced, m', world')) :
    ∃ mv f, stepNode c below s.node ⟨s, m.heap⟩ = .ok mv f ∧
      ((∀ name call, mv ≠ .host name call) → ({ m with heap := f.heap } : Machine).apply c f.top below mv = (m', none)) := by
  have hended : m.isEnded = false := by
    cases takes_of_step hs with
    | moved ha | failed ha => exact ha.goes
  cases hrule : stepNode c below s.node ⟨s, m.heap⟩ with
  | ok mv f =>
    refine ⟨mv, f, rfl, fun hmv => ?_⟩
    rw [step_of_rule_eq hm hended hrule (fun name call f he => hmv name call (by cases he; rfl))] at hs
    obtain ⟨houtcome, hrest⟩ := Prod.mk.inj hs
    exact apply_of_move (Prod.ext houtcome (congrArg Prod.fst hrest))
  | error e f =>
    rw [step_of_rule_eq hm hended hrule (fun _ _ _ => nofun)] at hs
    exact absurd (congrArg Prod.fst hs) (not_advanced_fail _ _)

/-- The move of a step whose rule is known. -/
theorem apply_of_rule {mv : Move} {f : Frame} (hm : m.stack = s :: below) (hs : m.step c world = (.advanced, m', world'))
    (hrule : stepNode c below s.node ⟨s, m.heap⟩ = .ok mv f) (hmv : ∀ name call, mv ≠ .host name call) :
    ({ m with heap := f.heap } : Machine).apply c f.top below mv = (m', none) := by
  obtain ⟨mv', f', hrule', happly⟩ := exists_rule_of_step hm hs
  cases hrule.symm.trans hrule'
  exact happly hmv

/-- What a state has started: `f` is what its rule has left of it and of the heap. -/
structure Starts (m : Machine) (f : Frame) (part : Node) (v : Visit) : Prop where
  part : v.part = part
  before : v.before = m
  heap : v.start.heap = f.heap

/-- How a state goes on after what it has started. -/
structure Returns (c : Setting ω) (below : List State) (v : Visit) (s' : State) (world' : ω) : Prop where
  value : v.value = s'.delivered
  place : v.place = s'.ref
  back : v.back.stack = s' :: below
  reachable : v.back.Reachable c world'

namespace Course

variable {visits : List Visit} {f : Frame}

/-- A course that goes on takes a step, for which there is a rule. -/
theorem exists_rule (h : m.Course c below world visits m' world') (hm : m.stack = s :: below) :
    visits = [] ∧ m' = m ∨ ∃ mv f, stepNode c below s.node ⟨s, m.heap⟩ = .ok mv f := by
  cases h with
  | pause => exact .inl ⟨rfl, rfl⟩
  | leave _ hs | stay _ hs | inside _ hs | visit _ hs =>
    obtain ⟨mv, f, hrule, -⟩ := exists_rule_of_step hm hs
    exact .inr ⟨mv, f, hrule⟩

theorem of_drop (h : m.Course c below world visits m' world') (hm : m.stack = s :: below)
    (hrule : stepNode c below s.node ⟨s, m.heap⟩ = .ok .drop f) :
    visits = [] ∧ (m' = m ∨ m'.stack = below ∧ m'.heap = f.heap) := by
  have hnext {m₁ : Machine} {world₁ : ω} (hs : m.step c world = (.advanced, m₁, world₁)) :
      m₁ = { m with heap := f.heap, stack := below } :=
    (congrArg Prod.fst (apply_of_rule hm hs hrule fun _ _ => nofun)).symm
  cases h with
  | pause => exact ⟨rfl, .inl rfl⟩
  | leave _ hs =>
    cases hnext hs
    exact ⟨rfl, .inr ⟨rfl, rfl⟩⟩
  | stay _ hs hm₁ | inside _ hs hm₁ | visit _ hs hm₁ =>
    cases hnext hs
    have hlen := congrArg List.length hm₁
    simp only [List.length_cons] at hlen
    omega

theorem of_stay (h : m.Course c below world visits m' world') (hm : m.stack = s :: below)
    (hrule : stepNode c below s.node ⟨s, m.heap⟩ = .ok .stay f) :
    visits = [] ∧ m' = m ∨ ∃ m₁ world₁, m.step c world = (.advanced, m₁, world₁) ∧ m₁.stack = f.top :: below ∧
      m₁.heap = f.heap ∧ m₁.Course c below world₁ visits m' world' := by
  have hnext {m₁ : Machine} {world₁ : ω} (hs : m.step c world = (.advanced, m₁, world₁)) :
      m₁ = { m with heap := f.heap, stack := f.top :: below } :=
    (congrArg Prod.fst (apply_of_rule hm hs hrule fun _ _ => nofun)).symm
  cases h with
  | pause => exact .inl ⟨rfl, rfl⟩
  | leave _ hs hleft =>
    cases hnext hs
    simp only [List.length_cons] at hleft
    omega
  | stay _ hs hm₁ hrest =>
    cases hnext hs
    exact .inr ⟨_, _, hs, rfl, rfl, hrest⟩
  | inside _ hs hm₁ | visit _ hs hm₁ =>
    cases hnext hs
    have hlen := congrArg List.length hm₁
    simp at hlen

/-- A state that is no call starts a part of its node, and if this comes to its end, then it goes on with what is left of
it. -/
theorem of_push (hc : c.IsRead) (hsize : c.program.nodes.length < 2 ^ 24) (hk : ∀ f ∈ c.host, f.Keeps)
    (hh : ∀ f ∈ c.host, f.Sound) (hr : m.Reachable c world) (h : m.Course c below world visits m' world')
    (hm : m.stack = s :: below) (hcall : ¬s.node.isCall) {part : Node} {scope : ObjectId} {components : Bool}
    {labels : List String} (hrule : stepNode c below s.node ⟨s, m.heap⟩ = .ok (.push part scope components labels) f) :
    visits = [] ∧ m' = m ∨ ∃ v rest, visits = v :: rest ∧ Starts m f part v ∧
      (rest = [] ∧ below.length + 1 < m'.stack.length ∨
        ∃ s' world₁, Returns c below v s' world₁ ∧
          (∃ t : State, t.node = part ∧ t.components = components ∧ t.labels = labels ∧ t.Resumes f.top s') ∧
          v.back.Course c below world₁ rest m' world') := by
  have hsound := hr.sound hc hk
  obtain ⟨hkeeps, hfits⟩ := (stepNode_calls c below s.node ⟨s, m.heap⟩ hsound.filed).of_ok hrule
  have hresolve : c.resolve part = part := by
    rcases hfits with ⟨hstarts, -⟩ | hen
    · have hnode : c.node? s.node.id = some s.node := hsound.node s (by simp [hm])
      exact hc.resolve_of_mem hsize
        (Setting.IsRead.mem_of_part (hc.mem_of_node? hnode).1 (Node.part_of_operand hstarts.operand))
    · exact absurd hen.call hcall
  have hnext {m₁ : Machine} {world₁ : ω} (hs : m.step c world = (.advanced, m₁, world₁)) :
      m₁.heap = f.heap ∧
        m₁.stack = { id := m.lastId + 1, node := part, scope, components, labels } :: f.top :: below := by
    have happly := congrArg Prod.fst (apply_of_rule hm hs hrule fun _ _ => nofun)
    cases happly
    exact ⟨rfl, by simp only [hresolve]⟩
  cases h with
  | pause => exact .inl ⟨rfl, rfl⟩
  | leave _ hs hleft =>
    rw [(hnext hs).2] at hleft
    simp only [List.length_cons] at hleft
    omega
  | stay _ hs hm₁ =>
    have hlen := congrArg List.length ((hnext hs).2.symm.trans hm₁)
    simp at hlen
  | inside _ hs hm₁ habove =>
    obtain ⟨hheap, hstack⟩ := hnext hs
    cases hm₁.symm.trans hstack
    exact .inr ⟨_, _, rfl, ⟨rfl, rfl, hheap⟩, .inl ⟨rfl, habove.floor_lt_last⟩⟩
  | visit _ hs hm₁ habove hback hm₃ hrest =>
    obtain ⟨hheap, hstack⟩ := hnext hs
    cases hm₁.symm.trans hstack
    have hr₁ := hr.step hs
    have hr₂ := habove.reachable hr₁
    obtain ⟨above', t', hm₂, ha⟩ := habove.exists_above_part hm₁
    have hcall' : ¬f.top.node.isCall := by
      rw [hkeeps.top.node]
      exact hcall
    exact .inr ⟨_, _, rfl, ⟨rfl, rfl, hheap⟩, .inr ⟨_, _, ⟨rfl, rfl, hm₃, hr₂.step hback⟩,
      ⟨t', ha.node, ha.components, ha.labels, resumes_of_step hc hsize hh hr₂ hm₂ hcall' hback hm₃⟩, hrest⟩⟩

/-- A state that leaves the stack has waited for the end of every part that it has started. -/
theorem of_push_of_left (hc : c.IsRead) (hsize : c.program.nodes.length < 2 ^ 24) (hk : ∀ f ∈ c.host, f.Keeps)
    (hh : ∀ f ∈ c.host, f.Sound) (hr : m.Reachable c world) (h : m.Course c below world visits m' world')
    (hm : m.stack = s :: below) (hleft : m'.stack.length ≤ below.length) (hcall : ¬s.node.isCall) {part : Node}
    {scope : ObjectId} {components : Bool} {labels : List String}
    (hrule : stepNode c below s.node ⟨s, m.heap⟩ = .ok (.push part scope components labels) f) :
    ∃ v rest s' world₁, visits = v :: rest ∧ Starts m f part v ∧ Returns c below v s' world₁ ∧
      (∃ t : State, t.node = part ∧ t.components = components ∧ t.labels = labels ∧ t.Resumes f.top s') ∧
      v.back.Course c below world₁ rest m' world' := by
  rcases h.of_push hc hsize hk hh hr hm hcall hrule with
    ⟨-, rfl⟩ | ⟨v, rest, rfl, hv, ⟨-, hinside⟩ | ⟨s', world₁, hback, ht, hrest⟩⟩
  · rw [hm, List.length_cons] at hleft
    omega
  · omega
  · exact ⟨v, rest, s', world₁, rfl, hv, hback, ht, hrest⟩

end Course

end Machine

end Stepwise

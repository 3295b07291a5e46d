import Stepwise.Proofs.Machine.Course

/-!
# What a switch runs

* `Selects`: the tests that a `switch` evaluates and the cases whose statements it runs.
* `RuleM.Plays`: a rule that starts the first of some statements, and remembers the others.
* `Machine.switch_selects`: a `switch` starts its discriminant, the tests, and the statements that it selects.
-/

namespace Stepwise

open RuleM

variable {ω : Type} {c : Setting ω} {s s' : State} {below : List State} {f : Frame} {x : Value}
  {cases rest fallback chosen : List SwitchCase} {tested : List (Expr × Value)}

/-! ### Selection -/

/-- What a `switch` does with the value of its discriminant: the tests that it evaluates, with their values, and the cases
whose statements it runs. -/
inductive Selects (x : Value) (cases : List SwitchCase) : List (Expr × Value) → List SwitchCase → Prop where
  /-- The cases from the first one on whose test has this value. -/
  | matched {before after : List SwitchCase} {k : SwitchCase} {e : Expr} {v : Value} {tested : List (Expr × Value)}
    (hcases : cases = before ++ k :: after) (hk : k.test = some e)
    (htested : tested.map Prod.fst = before.filterMap SwitchCase.test) (hother : ∀ t ∈ tested, ¬x.strictEquals t.2)
    (hequal : x.strictEquals v) : Selects x cases (tested ++ [(e, v)]) (k :: after)
  /-- The cases from the default on, if no test has this value. -/
  | default {before after : List SwitchCase} {k : SwitchCase} {tested : List (Expr × Value)}
    (hcases : cases = before ++ k :: after) (hk : k.test = none) (hlast : ∀ k' ∈ after, k'.test ≠ none)
    (htested : tested.map Prod.fst = cases.filterMap SwitchCase.test) (hother : ∀ t ∈ tested, ¬x.strictEquals t.2) :
    Selects x cases tested (k :: after)
  /-- Nothing, if there is no default either. -/
  | nothing {tested : List (Expr × Value)} (hnone : ∀ k ∈ cases, k.test ≠ none)
    (htested : tested.map Prod.fst = cases.filterMap SwitchCase.test) (hother : ∀ t ∈ tested, ¬x.strictEquals t.2) :
    Selects x cases tested []

/-- How the cases are searched, one after the other. `fallback` are the cases from the default on, if it was passed. -/
inductive Searches (x : Value) : List SwitchCase → List SwitchCase → List (Expr × Value) → List SwitchCase → Prop where
  | exhausted {fallback : List SwitchCase} : Searches x [] fallback [] fallback
  | default {k : SwitchCase} {rest fallback chosen : List SwitchCase} {tested : List (Expr × Value)} (hk : k.test = none)
    (hrest : Searches x rest (k :: rest) tested chosen) : Searches x (k :: rest) fallback tested chosen
  | differs {k : SwitchCase} {rest fallback chosen : List SwitchCase} {e : Expr} {v : Value}
    {tested : List (Expr × Value)} (hk : k.test = some e) (hother : ¬x.strictEquals v)
    (hrest : Searches x rest fallback tested chosen) : Searches x (k :: rest) fallback ((e, v) :: tested) chosen
  | equal {k : SwitchCase} {rest fallback : List SwitchCase} {e : Expr} {v : Value} (hk : k.test = some e)
    (hequal : x.strictEquals v) : Searches x (k :: rest) fallback [(e, v)] (k :: rest)

/-- A search finds the first case with the value, or the last default. -/
theorem Searches.found (h : Searches x rest fallback tested chosen) :
    (∃ before k after e v tested', rest = before ++ k :: after ∧ k.test = some e ∧ tested = tested' ++ [(e, v)] ∧
        tested'.map Prod.fst = before.filterMap SwitchCase.test ∧ (∀ t ∈ tested', ¬x.strictEquals t.2) ∧
        x.strictEquals v ∧ chosen = k :: after) ∨
      tested.map Prod.fst = rest.filterMap SwitchCase.test ∧ (∀ t ∈ tested, ¬x.strictEquals t.2) ∧
        ((∃ before k after, rest = before ++ k :: after ∧ k.test = none ∧ (∀ k' ∈ after, k'.test ≠ none) ∧
            chosen = k :: after) ∨
          (∀ k ∈ rest, k.test ≠ none) ∧ chosen = fallback) := by
  induction h with
  | exhausted => exact .inr ⟨rfl, nofun, .inr ⟨nofun, rfl⟩⟩
  | @default k rest fallback chosen tested hk _ ih =>
    rcases ih with ⟨before, k', after, e, v, tested', rfl, hk', rfl, htested, hother, hequal, rfl⟩ |
      ⟨htested, hother, hchosen⟩
    · exact .inl ⟨k :: before, k', after, e, v, tested', rfl, hk', rfl, by rw [htested, List.filterMap_cons, hk], hother,
        hequal, rfl⟩
    · refine .inr ⟨by rw [htested, List.filterMap_cons, hk], hother, .inl ?_⟩
      rcases hchosen with ⟨before, k', after, rfl, hk', hlast, rfl⟩ | ⟨hlast, rfl⟩
      · exact ⟨k :: before, k', after, rfl, hk', hlast, rfl⟩
      · exact ⟨[], k, rest, rfl, hk, hlast, rfl⟩
  | @differs k rest fallback chosen e v tested hk hne _ ih =>
    rcases ih with ⟨before, k', after, e', v', tested', rfl, hk', rfl, htested, hother, hequal, rfl⟩ |
      ⟨htested, hother, hchosen⟩
    · refine .inl ⟨k :: before, k', after, e', v', (e, v) :: tested', rfl, hk', rfl, ?_, ?_, hequal, rfl⟩
      · rw [List.map_cons, htested, List.filterMap_cons, hk]
      · exact List.forall_mem_cons.2 ⟨hne, hother⟩
    · refine .inr ⟨by rw [List.map_cons, htested, List.filterMap_cons, hk], List.forall_mem_cons.2 ⟨hne, hother⟩, ?_⟩
      rcases hchosen with ⟨before, k', after, rfl, hk', hlast, rfl⟩ | ⟨hlast, rfl⟩
      · exact .inl ⟨k :: before, k', after, rfl, hk', hlast, rfl⟩
      · exact .inr ⟨List.forall_mem_cons.2 ⟨by rw [hk]; nofun, hlast⟩, rfl⟩
  | @equal k rest fallback e v hk hequal => exact .inl ⟨[], k, rest, e, v, [], rfl, hk, rfl, rfl, nofun, hequal, rfl⟩

theorem Searches.selects (h : Searches x cases [] tested chosen) : Selects x cases tested chosen := by
  rcases h.found with ⟨before, k, after, e, v, tested', hcases, hk, rfl, htested, hother, hequal, rfl⟩ |
    ⟨htested, hother, ⟨before, k, after, hcases, hk, hlast, rfl⟩ | ⟨hnone, rfl⟩⟩
  · exact .matched hcases hk htested hother hequal
  · exact .default hcases hk hlast htested hother
  · exact .nothing hnone htested hother

/-! ### Rules -/

/-- The statements of cases, without the first ones of the first case. -/
def statementsFrom (m : Nat) : List SwitchCase → List Stmt
  | [] => []
  | k :: rest => k.body.drop m ++ rest.flatMap SwitchCase.body

theorem statementsFrom_zero (cases : List SwitchCase) : statementsFrom 0 cases = cases.flatMap SwitchCase.body := by
  cases cases <;> rfl

/-- A rule that goes on with some statements of the cases: it starts the first one and remembers the others, or it ends. -/
def RuleM.Plays (cases : List SwitchCase) (r : RuleM Move) (f : Frame) : List Stmt → Prop
  | [] => ∃ f', r f = .ok .drop f'
  | st :: todo => ∃ s', r f = .ok (.push (.stmt st) f.top.scope false []) ⟨s', f.heap⟩ ∧ s'.node = f.top.node ∧
      s'.phase = 4 ∧ statementsFrom s'.m (cases.drop s'.n) = todo

/-- A rule plays what the rule plays that it goes over to. -/
theorem RuleM.Plays.congr {r r' : RuleM Move} {f f' : Frame} {todo : List Stmt} (h : r'.Plays cases f' todo)
    (he : r f = r' f') (hscope : f'.top.scope = f.top.scope) (hnode : f'.top.node = f.top.node)
    (hheap : f'.heap = f.heap) : r.Plays cases f todo := by
  cases todo with
  | nil =>
    obtain ⟨g, hg⟩ := h
    exact ⟨g, he.trans hg⟩
  | cons st todo =>
    obtain ⟨s', hs', hn, hphase, htodo⟩ := h
    exact ⟨s', by rw [he, hs', hscope, hheap], hn.trans hnode, hphase, htodo⟩

theorem runCases_plays (hrest : cases.drop f.top.n = rest) (hphase : f.top.phase = 4) :
    (runCases rest).Plays cases f (statementsFrom f.top.m rest) := by
  induction rest generalizing f with
  | nil => exact ⟨f, rfl⟩
  | cons k rest ih =>
    have hrest' : cases.drop (f.top.n + 1) = rest := by rw [← List.drop_drop, hrest, List.drop_one, List.tail_cons]
    cases hb : k.body[f.top.m]? with
    | some st =>
      obtain ⟨hlt, he⟩ := List.getElem?_eq_some_iff.1 hb
      have hrun : runCases (k :: rest) f = .ok (.push (.stmt st) f.top.scope false [])
          { f with top := { f.top with m := f.top.m + 1 } } := by
        simp only [runCases, bind_run, top_run, hb, modifyTop_run, pushStmt_run]
      have htodo : statementsFrom f.top.m (k :: rest) = st :: statementsFrom (f.top.m + 1) (k :: rest) := by
        show k.body.drop f.top.m ++ _ = _
        rw [List.drop_eq_getElem_cons hlt, he]
        rfl
      rw [htodo]
      exact ⟨_, hrun, rfl, hphase, by rw [hrest]⟩
    | none =>
      have hle : k.body.length ≤ f.top.m := List.getElem?_eq_none_iff.1 hb
      have hrun : runCases (k :: rest) f = runCases rest { f with top := { f.top with n := f.top.n + 1, m := 0 } } := by
        simp only [runCases, bind_run, top_run, hb, modifyTop_run]
      have hplays := ih (f := { f with top := { f.top with n := f.top.n + 1, m := 0 } }) hrest' hphase
      have htodo : statementsFrom f.top.m (k :: rest) = statementsFrom 0 rest := by
        rw [statementsFrom_zero, statementsFrom, List.drop_eq_nil_of_le hle, List.nil_append]
      rw [htodo]
      exact hplays.congr hrun rfl rfl rfl

/-- Which cases are left for a search without success, given the position of the default or a negative number. -/
def FallsBack (cases : List SwitchCase) (default : Int) (fallback : List SwitchCase) : Prop :=
  default < 0 ∧ fallback = [] ∨ 0 ≤ default ∧ fallback = cases.drop default.toNat

/-- A state of a `switch` that waits for the value of a test, which is the one of the first case of `k :: rest`. -/
structure State.Tests (s : State) (cases : List SwitchCase) (x : Value) (e : Expr) (k : SwitchCase)
    (rest fallback : List SwitchCase) : Prop where
  phase : s.phase = 3
  left : s.left = x
  position : cases.drop s.n = k :: rest
  test : k.test = some e
  fallback : FallsBack cases s.default fallback

/-- A search starts the next test, or goes on with the cases that are left without one. -/
theorem searchCases_run (hrest : cases.drop f.top.n = rest) (hfallback : FallsBack cases f.top.default fallback) :
    (∃ s' e k after fallback', searchCases cases rest f = .ok (.push (.expr e) f.top.scope false []) ⟨s', f.heap⟩ ∧
        s'.node = f.top.node ∧ s'.Tests cases f.top.left e k after fallback' ∧
        ∀ {tested chosen}, Searches f.top.left (k :: after) fallback' tested chosen →
          Searches f.top.left rest fallback tested chosen) ∨
      ∃ chosen, Searches f.top.left rest fallback [] chosen ∧
        (searchCases cases rest).Plays cases f (chosen.flatMap SwitchCase.body) := by
  induction rest generalizing f fallback with
  | nil =>
    refine .inr ⟨fallback, .exhausted, ?_⟩
    rcases hfallback with ⟨hneg, rfl⟩ | ⟨hpos, rfl⟩
    · exact ⟨f, by simp only [searchCases, bind_run, top_run, if_pos hneg, pure_run]⟩
    · let f' : Frame := { f with top := { f.top with phase := 4, n := f.top.default.toNat, m := 0 } }
      have hplays : (runCases (cases.drop f'.top.n)).Plays cases f' (statementsFrom 0 (cases.drop f'.top.n)) :=
        runCases_plays rfl rfl
      rw [statementsFrom_zero] at hplays
      have hrun : searchCases cases [] f = runCases (cases.drop f.top.default.toNat) f' := by
        simp only [searchCases, bind_run, top_run, if_neg (Int.not_lt.2 hpos), modifyTop_run, f']
      exact hplays.congr hrun rfl rfl rfl
  | cons k rest ih =>
    cases hk : k.test with
    | some e =>
      refine .inl ⟨{ f.top with phase := 3 }, e, k, rest, fallback, ?_, rfl, ⟨rfl, rfl, hrest, hk, hfallback⟩, id⟩
      simp only [searchCases, hk, bind_run, setPhase_run, pushExpr_run]
    | none =>
      have hrest' : cases.drop (f.top.n + 1) = rest := by rw [← List.drop_drop, hrest, List.drop_one, List.tail_cons]
      let f' : Frame := { f with top := { f.top with default := f.top.n, n := f.top.n + 1 } }
      have hrun : searchCases cases (k :: rest) f = searchCases cases rest f' := by
        simp only [searchCases, hk, bind_run, modifyTop_run, f']
      have hfallback' : FallsBack cases f'.top.default (k :: rest) := .inr ⟨Int.natCast_nonneg _, hrest.symm⟩
      rcases ih (f := f') hrest' hfallback' with
        ⟨s', e, k', after, fallback', hpush, hnode, htests, hsearch⟩ | ⟨chosen, hsearch, hplays⟩
      · exact .inl ⟨s', e, k', after, fallback', hrun.trans hpush, hnode, htests, fun h => .default hk (hsearch h)⟩
      · exact .inr ⟨chosen, .default hk hsearch, hplays.congr hrun rfl rfl rfl⟩

/-- The rule of a `switch`. -/
theorem stepNode_switch (c : Setting ω) (below : List State) {l : Loc} {d : Expr} (hn : s.node = .stmt (.switch l d cases))
    (f : Frame) : stepNode c below s.node f = stepSwitch d cases f := by
  rw [hn]
  rfl

/-- When the value of a test is there, the statements of its case run, or the next test is searched. -/
theorem stepSwitch_tested {d : Expr} (hphase : s.phase = 3) (h : Heap) :
    stepSwitch d cases ⟨s, h⟩ =
      if s.left.strictEquals s.value then
        runCases (cases.drop s.n) ⟨{ s with hasValue := false, phase := 4, m := 0 }, h⟩
      else searchCases cases (cases.drop (s.n + 1)) ⟨{ s with hasValue := false, phase := 2, n := s.n + 1 }, h⟩ := by
  simp only [stepSwitch, bind_run, top_run, hphase, take_run]
  split <;> simp only [bind_run, top_run, modifyTop_run]

/-! ### Runs -/

namespace Machine

variable {m m' : Machine} {world world' : ω} {visits : List Visit} {l : Loc} {d : Expr}

/-- The parts that a `switch` starts once it has the value of its discriminant: first tests, which deliver their values,
then statements. -/
def Selected (found : List (Expr × Value) → List SwitchCase → Prop) (visits : List Visit) : Prop :=
  ∃ tests bodies tested chosen, visits = tests ++ bodies ∧
    tests.map (fun v => (v.part, v.value)) = tested.map (fun t => (Node.expr t.1, some t.2)) ∧
    bodies.map Visit.part = (chosen.flatMap SwitchCase.body).map Node.stmt ∧ found tested chosen

namespace Course

/-- A rule that goes on with some statements starts them one after the other, and nothing else. -/
theorem plays (hc : c.IsRead) (hsize : c.program.nodes.length < 2 ^ 24) (hk : ∀ f ∈ c.host, f.Keeps)
    (hh : ∀ f ∈ c.host, f.Sound) (hr : m.Reachable c world) (h : m.Course c below world visits m' world')
    (hm : m.stack = s :: below) (hleft : m'.stack.length ≤ below.length) (hn : s.node = .stmt (.switch l d cases))
    {todo : List Stmt} (hplays : (stepNode c below s.node).Plays cases ⟨s, m.heap⟩ todo) :
    visits.map Visit.part = todo.map Node.stmt ∧ m'.stack = below := by
  induction todo generalizing m world s visits with
  | nil =>
    obtain ⟨f', hrule⟩ := hplays
    obtain ⟨rfl, rfl | ⟨hstack, -⟩⟩ := h.of_drop hm hrule
    · rw [hm, List.length_cons] at hleft
      omega
    · exact ⟨rfl, hstack⟩
  | cons st todo ih =>
    obtain ⟨s', hrule, hnode, hphase, htodo⟩ := hplays
    have hcall : ¬s.node.isCall := by rw [hn]; exact Bool.noConfusion
    obtain ⟨v, rest, s'', world₁, rfl, hv, hback, ⟨t, -, -, -, hresumes⟩, hrest⟩ :=
      h.of_push_of_left hc hsize hk hh hr hm hleft hcall hrule
    have hn' : s''.node = .stmt (.switch l d cases) := by
      rw [hresumes.eq_with]
      exact hnode.trans hn
    have hphase' : s''.phase = 4 := by
      rw [hresumes.eq_with]
      exact hphase
    have hrun : stepNode c below s''.node ⟨s'', v.back.heap⟩ = runCases (cases.drop s''.n) ⟨s'', v.back.heap⟩ := by
      rw [stepNode_switch c below hn']
      simp only [stepSwitch, bind_run, top_run, hphase']
    have hplays' := (runCases_plays (f := ⟨s'', v.back.heap⟩) rfl hphase').congr hrun rfl rfl rfl
    have htodo' : statementsFrom s''.m (cases.drop s''.n) = todo := by
      rw [hresumes.eq_with]
      exact htodo
    rw [htodo'] at hplays'
    obtain ⟨hparts, hstack⟩ := ih hback.reachable hrest hback.back hn' hplays'
    exact ⟨by rw [List.map_cons, hv.part, hparts, List.map_cons], hstack⟩

/-- A search starts the tests of its cases, and then the statements of the cases that it finds. -/
theorem searches (hc : c.IsRead) (hsize : c.program.nodes.length < 2 ^ 24) (hk : ∀ f ∈ c.host, f.Keeps)
    (hh : ∀ f ∈ c.host, f.Sound) (hr : m.Reachable c world) (h : m.Course c below world visits m' world')
    (hm : m.stack = s :: below) (hleft : m'.stack.length ≤ below.length) (hn : s.node = .stmt (.switch l d cases))
    (hrun : stepNode c below s.node ⟨s, m.heap⟩ = searchCases cases rest f) (hf : f.top.Alike s) (hheap : f.heap = m.heap)
    (hrest : cases.drop f.top.n = rest) (hfallback : FallsBack cases f.top.default fallback) :
    Selected (Searches f.top.left rest fallback) visits ∧ m'.stack = below := by
  induction hlen : visits.length using Nat.strongRecOn generalizing m world s f rest fallback visits with
  | _ n ih =>
    have hcall : ¬s.node.isCall := by rw [hn]; exact Bool.noConfusion
    rcases searchCases_run hrest hfallback with
      ⟨s', e, k, after, fallback', hpush, hnode, htests, hsearch⟩ | ⟨chosen, hsearch, hplays⟩
    · obtain ⟨v, later, u, world₁, rfl, hv, hback, ⟨t, ht, hcomponents, hlabels, hresumes⟩, hlater⟩ :=
        h.of_push_of_left hc hsize hk hh hr hm hleft hcall (hrun.trans hpush)
      have hloop : ¬s'.isLoop := by
        rw [State.isLoop, hnode, ← hf.node, hn]
        exact Bool.noConfusion
      obtain ⟨y, hu⟩ := hresumes.exists_value (by rw [ht]; rfl) (by simp [hcomponents]) hlabels fun h => absurd h hloop
      -- the test has delivered its value
      have hn' : u.node = .stmt (.switch l d cases) := by rw [hu]; exact hnode.trans (hf.node.symm.trans hn)
      have hphase : u.phase = 3 := by rw [hu]; exact htests.phase
      have hsubject : u.left = f.top.left := by rw [hu]; exact htests.left
      have hposition : cases.drop u.n = k :: after := by rw [hu]; exact htests.position
      have hdefault : FallsBack cases u.default fallback' := by rw [hu]; exact htests.fallback
      have hvalue : v.value = some u.value := by rw [hback.value, hu]; rfl
      have hmore : cases.drop (u.n + 1) = after := by rw [← List.drop_drop, hposition, List.drop_one, List.tail_cons]
      have hrun' := (stepNode_switch c below hn' ⟨u, v.back.heap⟩).trans (stepSwitch_tested hphase v.back.heap)
      by_cases hequal : u.left.strictEquals u.value
      · rw [if_pos hequal, hposition] at hrun'
        have hplays := runCases_plays (f := ⟨{ u with hasValue := false, phase := 4, m := 0 }, v.back.heap⟩) hposition rfl
        obtain ⟨hparts, hstack⟩ :=
          hlater.plays hc hsize hk hh hback.reachable hback.back hleft hn' (hplays.congr hrun' rfl rfl rfl)
        refine ⟨⟨[v], later, [(e, u.value)], k :: after, rfl, ?_, ?_, hsearch (.equal htests.test ?_)⟩, hstack⟩
        · rw [List.map_singleton, hv.part, hvalue, List.map_singleton]
        · rw [hparts, ← statementsFrom_zero]
        · rwa [← hsubject]
      · rw [if_neg hequal, hmore] at hrun'
        obtain ⟨⟨tests, bodies, tested, chosen, rfl, htests', hbodies, hsearch'⟩, hstack⟩ :=
          ih later.length (by simp [← hlen]) hback.reachable hlater hback.back hn' hrun' ⟨rfl, rfl, rfl, rfl, rfl⟩ rfl hmore
            hdefault rfl
        refine ⟨⟨v :: tests, bodies, (e, u.value) :: tested, chosen, rfl, ?_, hbodies, hsearch (.differs htests.test ?_ ?_)⟩,
          hstack⟩
        · rw [List.map_cons, htests', hv.part, hvalue, List.map_cons]
        · rwa [← hsubject]
        · rwa [← hsubject]
    · obtain ⟨hparts, hstack⟩ :=
        h.plays hc hsize hk hh hr hm hleft hn (hplays.congr hrun hf.scope.symm hf.node.symm hheap)
      exact ⟨⟨[], visits, [], chosen, rfl, rfl, hparts, hsearch⟩, hstack⟩

/-- What a run of a `switch` starts: its discriminant, and then what it selects for the value of this. -/
theorem selects (hc : c.IsRead) (hsize : c.program.nodes.length < 2 ^ 24) (hk : ∀ f ∈ c.host, f.Keeps)
    (hh : ∀ f ∈ c.host, f.Sound) (hr : m.Reachable c world) (h : m.Course c below world visits m' world')
    (hm : m.stack = s :: below) (hleft : m'.stack.length ≤ below.length) (hn : s.node = .stmt (.switch l d cases))
    (hphase : s.phase = 0) :
    ∃ first later x, visits = first :: later ∧ first.part = .expr d ∧ first.value = some x ∧
      Selected (Selects x cases) later ∧ m'.stack = below := by
  have hcall : ¬s.node.isCall := by rw [hn]; exact Bool.noConfusion
  have hrule : stepNode c below s.node ⟨s, m.heap⟩ =
      .ok (.push (.expr d) s.scope false []) ⟨{ s with phase := 1 }, m.heap⟩ := by
    rw [stepNode_switch c below hn]
    simp only [stepSwitch, bind_run, top_run, hphase, setPhase_run, pushExpr_run]
  obtain ⟨v, later, u, world₁, rfl, hv, hback, ⟨t, ht, hcomponents, hlabels, hresumes⟩, hlater⟩ :=
    h.of_push_of_left hc hsize hk hh hr hm hleft hcall hrule
  have hloop : ¬State.isLoop { s with phase := 1 } := by
    rw [State.isLoop, hn]
    exact Bool.noConfusion
  obtain ⟨x, hu⟩ := hresumes.exists_value (by rw [ht]; rfl) (by simp [hcomponents]) hlabels fun h => absurd h hloop
  have hn' : u.node = .stmt (.switch l d cases) := by rw [hu]; exact hn
  have hphase' : u.phase = 1 := by rw [hu]; rfl
  have hvalue : v.value = some u.value := by rw [hback.value, hu]; rfl
  have hrun : stepNode c below u.node ⟨u, v.back.heap⟩ = searchCases cases cases
      ⟨{ u with hasValue := false, left := u.value, phase := 2, n := 0, default := -1 }, v.back.heap⟩ := by
    rw [stepNode_switch c below hn']
    simp only [stepSwitch, bind_run, top_run, hphase', take_run, modifyTop_run]
  obtain ⟨⟨tests, bodies, tested, chosen, rfl, htests, hbodies, hsearch⟩, hstack⟩ :=
    hlater.searches hc hsize hk hh hback.reachable hback.back hleft hn' hrun ⟨rfl, rfl, rfl, rfl, rfl⟩ rfl rfl
      (.inl ⟨Int.negSucc_lt_zero 0, rfl⟩)
  exact ⟨v, _, u.value, rfl, hv.part, hvalue, ⟨tests, bodies, tested, chosen, rfl, htests, hbodies, hsearch.selects⟩, hstack⟩

end Course

/-- A `switch` runs what it selects. From every machine that a program reaches, if the state of a `switch` that has just
been started leaves the stack by a step of its own, and not because of a jump or an exception, then it has started its
discriminant, tests, and statements, in this order. The tests are those of the cases in their order, without the default,
up to the first whose value is strictly equal to that of the discriminant. The statements are all those of the cases from
this one on, or from the default on if there is no such test, or none. Then only the states below are left.

The library numbers its nodes from `2 ^ 24` on. A program has fewer nodes, so that no part of it is taken for one of the
library. The functions of the host have to keep objects and scopes in their places and to hand out values of the heap;
those of sessions do (`SessionFunction.host_table`). -/
theorem switch_selects {source text : String} {program : Program} {host : List (HostFunction ω)} {maxDepth : Nat}
    {draws : Nat → Float} (hp : Program.ofSource source = .ok program) (hsize : program.nodes.length < 2 ^ 24)
    (hk : ∀ f ∈ host, f.Keeps) (hh : ∀ f ∈ host, f.Sound)
    (hr : m.Reachable (Setting.ofPrograms (Library.read text) program host maxDepth draws) world) (hm : m.stack = s :: below)
    (hn : s.node = .stmt (.switch l d cases)) (hphase : s.phase = 0)
    (hrun : m.Tenure (Setting.ofPrograms (Library.read text) program host maxDepth draws) below world m' world')
    (hleft : m'.stack.length ≤ below.length) :
    ∃ discriminant tests bodies x tested chosen,
      m.Course (Setting.ofPrograms (Library.read text) program host maxDepth draws) below world
        (discriminant :: (tests ++ bodies)) m' world' ∧
      discriminant.part = .expr d ∧ discriminant.value = some x ∧
      tests.map (fun v => (v.part, v.value)) = tested.map (fun t => (Node.expr t.1, some t.2)) ∧
      bodies.map Visit.part = (chosen.flatMap SwitchCase.body).map Node.stmt ∧ Selects x cases tested chosen ∧
      m'.stack = below := by
  have hc := Setting.isRead_ofPrograms hp text host maxDepth draws
  obtain ⟨visits, hcourse⟩ := hrun.exists_course hm
  obtain ⟨first, later, x, rfl, hpart, hvalue, ⟨tests, bodies, tested, chosen, rfl, htests, hbodies, hselects⟩, hstack⟩ :=
    hcourse.selects hc hsize hk hh hr hm hleft hn hphase
  exact ⟨first, tests, bodies, x, tested, chosen, hcourse, hpart, hvalue, htests, hbodies, hselects, hstack⟩

/-- A default that stands before the case with the value, and a case into which this one falls through: the tests `1` and
`2` are evaluated, and then `2;` and `3;` run. -/
theorem switch_selects_fallthrough :
    ∃ (program : Program) (m m' : Machine) (s : State) (below : List State) (l : Loc) (d : Expr)
      (cases : List SwitchCase),
      let c : Setting Unit := Setting.ofPrograms (Library.read "") program [] Setting.defaultDepth Setting.zeros
      Program.ofSource "switch (2) { default: 7; case 1: 1; case 2: 2; case 3: 3; }" = .ok program ∧ m.Reachable c () ∧
        m.stack = s :: below ∧ s.node = .stmt (.switch l d cases) ∧ s.phase = 0 ∧ m.Tenure c below () m' () ∧
        m'.stack.length ≤ below.length ∧
        ∃ discriminant tests bodies x tested chosen,
          m.Course c below () (discriminant :: (tests ++ bodies)) m' () ∧
          discriminant.part = .expr d ∧ discriminant.value = some x ∧
          tests.map (fun v => (v.part, v.value)) = tested.map (fun t => (Node.expr t.1, some t.2)) ∧
          bodies.map Visit.part = (chosen.flatMap SwitchCase.body).map Node.stmt ∧ Selects x cases tested chosen ∧
          m'.stack = below ∧
          (discriminant :: (tests ++ bodies)).map (fun v => (c.text v.part, v.value)) =
            [("2", some (.number 2)), ("1", some (.number 1)), ("2", some (.number 2)), ("2;", none), ("3;", none)] := by
  have hrun : (after? (ω := Unit) "switch (2) { default: 7; case 1: 1; case 2: 2; case 3: 3; }" [] 1 ()).any fun x =>
      let c := Setting.ofPrograms (Library.read "") x.1 [] Setting.defaultDepth Setting.zeros
      x.1.nodes.length < 2 ^ 24 ∧ x.2.1.stack.map (fun s => (s.isSwitch, s.phase)) = [(true, 0), (false, 0)] ∧
        ((x.2.1.aloft? c 1 14 x.2.2).any fun y => y.1.stack.length = 2 ∧ (y.1.step c y.2).1.isAdvanced ∧
          (y.1.step c y.2).2.1.stack.length = 1) ∧
        (x.2.1.visits? c 1 15 none x.2.2).any fun visits => visits.map (fun v => (c.text v.part, v.value)) =
          [("2", some (.number 2)), ("1", some (.number 1)), ("2", some (.number 2)), ("2;", none), ("3;", none)] := by
    decide +kernel
  obtain ⟨⟨program, m, world⟩, hx, hrun⟩ := (Option.any_eq_true _ _).1 hrun
  obtain ⟨hp, hr⟩ := of_after? hx
  obtain ⟨hsize, hstates, haloft, hvisits⟩ := of_decide_eq_true hrun
  obtain ⟨⟨m₁, world₁⟩, hy, hlast⟩ := (Option.any_eq_true _ _).1 haloft
  obtain ⟨htop, hlast, hleft⟩ := of_decide_eq_true hlast
  obtain ⟨visits, hfound, hvisits⟩ := (Option.any_eq_true _ _).1 hvisits
  have hin := aloft_of_aloft? hy
  have hs := step_of_isAdvanced hlast
  -- the state of the program is below
  obtain ⟨s, below, hstack⟩ : ∃ s below, m.stack = [s, below] :=
    List.length_eq_two.1 (by simpa using congrArg List.length hstates)
  rw [hstack] at hstates
  simp only [List.map_cons, List.map_nil, List.cons.injEq, Prod.mk.injEq, and_true] at hstates
  obtain ⟨⟨hswitch, hphase⟩, -⟩ := hstates
  have htenure : m.Tenure _ [below] world _ _ := .left hin htop hs hleft.le
  unfold State.isSwitch at hswitch
  split at hswitch
  · rename_i l d cases hn
    obtain ⟨discriminant, tests, bodies, x, tested, chosen, hcourse, hselects⟩ :=
      switch_selects hp hsize (List.forall_mem_nil _) (List.forall_mem_nil _) hr hstack hn hphase htenure hleft.le
    obtain ⟨hpart, hvalue, htests, hbodies, hchosen, hbelow⟩ := hselects
    have heq := hcourse.visits_eq hleft.le hfound
    exact ⟨program, m, _, s, [below], l, d, cases, hp, hr, hstack, hn, hphase, htenure, hleft.le,
      discriminant, tests, bodies, x, tested, chosen, hcourse, hpart, hvalue, htests, hbodies, hchosen, hbelow,
      heq ▸ of_decide_eq_true hvisits⟩
  · cases hswitch

end Machine

end Stepwise

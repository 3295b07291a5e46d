import Stepwise.Proofs.Session.Frames

/-!
# Where stops and output are

* `Machine.Visited`: the machines that a program comes to, in whatever worlds its steps are taken.
* `Machine.lines_step`: what a step logs carries the line of the call on top of the stack.
* `Machine.Running.node_mem`: the nodes on the stack are the program's, or the library's own.
* `Session.collect_positions`: a stop is at a node of the program unless the library threw what ended the program,
  and each line of the output is that of the call that logged it.
-/

namespace Stepwise

variable {ω σ δ : Type}

/-! ### What a step logs -/

namespace Console

theorem all_open (c : Console) : c.open_.all = c.all := by
  unfold all open_
  simp

theorem mem_all_of_drop? {c c' : Console} {l : OutputLine} (h : c.drop? = some c') (hl : l ∈ c'.all) : l ∈ c.all := by
  unfold drop? at h
  split at h
  · cases h
  · rename_i bin bins he
    cases h
    unfold all at hl ⊢
    rw [he, List.reverse_cons, List.flatten_append]
    exact List.mem_append_left _ hl

theorem all_log? {c c' : Console} {content : String} {line : Int} (h : c.log? content line = some c') :
    c'.all = c.all ++ [⟨content, line⟩] := by
  unfold log? at h
  split at h
  · cases h
  · rename_i bin bins he
    cases h
    unfold all
    rw [he]
    simp

/-- What is logged is added, for the line that was given. -/
theorem all_logAll (c : Console) (lines : List String) (line : Int) :
    ∃ more, (c.logAll lines line).1.all = c.all ++ more ∧ ∀ l ∈ more, l.line = line := by
  unfold logAll
  generalize true = ok
  induction lines generalizing c ok with
  | nil => exact ⟨[], (List.append_nil _).symm, by simp⟩
  | cons content lines ih =>
    rw [List.foldl_cons]
    dsimp only
    split
    · rename_i c' hlog
      obtain ⟨more, he, hline⟩ := ih c' ok
      refine ⟨⟨content, line⟩ :: more, ?_, List.forall_mem_cons.2 ⟨rfl, hline⟩⟩
      rw [he, all_log? hlog, List.append_assoc]
      rfl
    · exact ih c false

end Console

/-- A program is no part of another node. -/
theorem Node.not_part_program (n : Node) (p : Program) : ¬n.Part (.program p) := by
  have hchild (n : Node) : Node.program p ∉ n.children := by
    have hhead (head : ForHead) : head.node ≠ .program p := by cases head <;> exact Node.noConfusion
    cases n with
    | stmt s => cases s <;> simp [children, ofIdentifier, hhead, Ne.symm (hhead _)]
    | expr e => cases e <;> simp [children, ofIdentifier]
    | program | declarator | switchCase | catchClause | property => simp [children, ofIdentifier]
  rintro (h | ⟨joint, -, -, h⟩)
  · exact hchild n h
  · exact hchild joint h

namespace Machine

/-- A step of the machine logs this line, in some world. -/
def Logs (c : Setting (World σ)) (m : Machine) (line : OutputLine) : Prop :=
  ∃ world lines, (m.step c world).2.2.console.all = world.console.all ++ lines ∧ line ∈ lines

variable {m : Machine}

/-- What a step logs carries the line of the call on top of the stack. -/
theorem lines_step {c : Setting (World σ)} (hc : ∀ f ∈ c.host, ∃ g : SessionFunction σ, f = g.toHost)
    (hf : m.heap.Filed) (world : World σ) :
    ∃ lines, (m.step c world).2.2.console.all = world.console.all ++ lines ∧ ∀ l ∈ lines,
      ∃ s below, m.stack = s :: below ∧ s.node.isCall ∧ l.line = s.node.loc.start.line := by
  -- the world after a call, and what the next one has to say about its place
  let logged (s : State) (w : World σ) := ∃ lines, w.console.all = world.console.all ++ lines ∧
    ∀ l ∈ lines, s.node.isCall ∧ l.line = s.node.loc.start.line
  have hasked {s : State} {below : List State} {r : EStateM.Result Failure Frame Move} {world' : World σ}
      (ha : m.Asks c s below world r world') : logged s world' := by
    refine (ha.induct (P := fun r w => logged s w ∧ ∀ name call f, r = .ok (.host name call) f →
      s.node.isCall ∧ call.site = some s.node) ⟨⟨[], (List.append_nil _).symm, by simp⟩, fun name call f hrule => ?_⟩ ?_ ?_).1
    · obtain ⟨hk, hfits⟩ := (stepNode_calls c below s.node ⟨s, m.heap⟩ hf).of_ok hrule
      obtain ⟨hcall, hsite⟩ := hfits.resolve_left id
      exact ⟨hcall, hsite.trans (congrArg some hk.top.node)⟩
    · exact fun _ _ _ _ _ h _ => ⟨h.1, fun _ _ _ => nofun⟩
    · rintro name call f g answer h w w' ⟨⟨lines, hlines, hline⟩, hsite⟩ hg hrun
      obtain ⟨hcall, hsite⟩ := hsite name call f rfl
      obtain ⟨g, rfl⟩ := hc g hg
      obtain rfl : _ = w' := congrArg (·.2.2) hrun
      obtain ⟨more, hmore, hmoreLine⟩ := Console.all_logAll w.console (g.call (call.args.map f.heap.toHost) w.host).logged
        ((call.site.map (·.loc.start.line)).getD 0)
      refine ⟨⟨lines ++ more, ?_, fun l hl => ?_⟩, fun name call f he => ?_⟩
      · exact hmore.trans (by rw [hlines, List.append_assoc])
      · rcases List.mem_append.1 hl with hl | hl
        · exact hline l hl
        · exact ⟨hcall, by rw [hmoreLine l hl, hsite]; rfl⟩
      · -- the function asks for no further call
        cases answer with
        | error => cases he
        | ok reply =>
          cases reply with
          | value => cases he
          | tail func this args => exact absurd (congrArg Prod.fst hrun) (g.ne_tail _ _ _ _ _ _)
  rcases hs : m.step c world with ⟨outcome, m', world'⟩
  cases takes_of_step hs with
  | ended => exact ⟨[], (List.append_nil _).symm, by simp⟩
  | moved ha | failed ha =>
    obtain ⟨lines, he, hlines⟩ := hasked ha
    exact ⟨lines, he, fun l hl => ⟨_, _, ha.stack, hlines l hl⟩⟩

/-- A line that a step logs is that of the call on top of the stack. -/
theorem Logs.line_eq {c : Setting (World σ)} (hc : ∀ f ∈ c.host, ∃ g : SessionFunction σ, f = g.toHost)
    (hf : m.heap.Filed) {line : OutputLine} (h : m.Logs c line) :
    ∃ s below, m.stack = s :: below ∧ s.node.isCall ∧ line.line = s.node.loc.start.line := by
  obtain ⟨world, lines, he, hl⟩ := h
  obtain ⟨lines', he', hlines⟩ := lines_step hc hf world
  cases List.append_cancel_left (he.symm.trans he')
  exact hlines line hl

/-! ### The nodes of a run -/

variable {c : Setting ω}

/-- The machines that a program comes to by steps that do not fault, in whatever worlds they are taken. -/
inductive Visited (c : Setting ω) : Machine → Prop where
  | start {m : Machine} (h : Machine.start c = .ok m) : Visited c m
  | step {m : Machine} (h : Visited c m) (world : ω) (hf : ∀ f, (m.step c world).1 ≠ .fault f) :
    Visited c (m.step c world).2.1

/-- What lasts holds of all machines that are visited. -/
theorem Visited.holds {P : Machine → Prop} (hP : Machine.Lasts c P) (h : Visited c m) : P m := by
  induction h with
  | start h => exact hP.start _ h
  | step _ world hf ih => exact hP.step _ world ih hf

theorem Visited.lasts {P : Machine → Prop} (hP : Machine.Lasts c P) : Machine.Lasts c (Visited c) where
  start _ h := .start h
  step _ world h hf := h.step world hf
  sound _ h := hP.sound _ (h.holds hP)

/-- The only program on the stack is the one that is run. -/
theorem Running.program_eq (hm : m.Running c) {s : State} {p : Program} (hs : s ∈ m.stack) (hn : s.node = .program p) :
    p = c.program := by
  obtain ⟨above, below, he⟩ := List.append_of_mem hs
  cases below with
  | nil =>
    obtain ⟨b, hlast, hnode, -⟩ := hm.grounded
    rw [he, List.getLast?_concat] at hlast
    cases hlast
    exact Node.program.inj (hn.symm.trans hnode)
  | cons t below =>
    rcases hm.stacked s t below ⟨above, he.symm⟩ with ⟨-, hp⟩ | ⟨-, hruns, -⟩
    · rw [hn] at hp
      exact absurd hp (Node.not_part_program _ _)
    · obtain ⟨_, _, _, _, -, -, -, hbody, -⟩ := hruns
      cases hn.symm.trans hbody

/-- The nodes on the stack are the program's, or the library's own. -/
theorem Running.node_mem (hc : c.IsRead) (hm : m.Running c) {s : State} (hs : s ∈ m.stack) :
    s.node ∈ c.program.nodes ∨ s.node ∈ c.library.nodes ∧ s.node.isInternal := by
  rcases (hc.mem_of_node? (hm.sound.node s hs)).1 with hn | hn
  · obtain ⟨text, hl⟩ := hc.library
    rw [hl] at hn ⊢
    unfold Library.read at hn ⊢
    cases hp : Program.parse text Library.scriptFirst Library.scriptName with
    | ok p =>
      rw [hp] at hn
      refine .inr ⟨hn, ?_⟩
      unfold Node.isInternal
      rw [Program.source_of_parse hp hn]
      exact beq_self_eq_true _
    | error e =>
      -- an empty library has no node but its program
      rw [hp] at hn
      change s.node ∈ (Node.program default).nodes at hn
      rw [Node.nodes_eq] at hn
      have hnode : s.node = .program default := List.mem_singleton.1 hn
      rw [hnode, hm.program_eq hs hnode]
      exact .inl (Node.mem_nodes_self _)
  · exact .inl hn

/-- At the end of a program, its own state is on top. -/
theorem Running.top_of_isEnded (hm : m.Running c) {s : State} {below : List State}
    (hstack : m.stack = s :: below) (he : m.isEnded) : s.node ∈ c.program.nodes := by
  unfold isEnded at he
  rw [hstack] at he
  dsimp only at he
  split at he
  · rename_i p hn
    rw [hn, hm.program_eq (hstack ▸ List.mem_cons_self) hn]
    exact Node.mem_nodes_self _
  · cases he

/-! ### Stops -/

variable {console : Console} {exception : Option Value} {step : TraceStep}

/-- A stop shows the node on top of the stack, and everything that was logged. -/
theorem position_of_collect (h : m.collect c console exception = .ok step) :
    (∃ s below, m.stack = s :: below ∧ step.range = .ofLoc s.node.loc) ∧ step.stdout = some console.all := by
  obtain ⟨top, below, frames, elements, hc⟩ := exists_collects h
  exact ⟨⟨top, below, hc.stack, hc.range⟩, hc.stdout⟩

end Machine

/-- Each line was logged by a machine that the program comes to. -/
theorem Console.lasts_logged {c : Setting (World σ)} {P : Machine → Prop}
    (hc : ∀ f ∈ c.host, ∃ g : SessionFunction σ, f = g.toHost) (hP : Machine.Lasts c P) :
    Console.Lasts c (Machine.Visited c) fun console =>
      ∀ line ∈ console.all, ∃ m, Machine.Visited c m ∧ m.Logs c line where
  empty := by simp [Console.all]
  opened console h := by
    rw [Console.all_open]
    exact h
  dropped _ _ h hd line hl := h line (Console.mem_all_of_drop? hd hl)
  step m world hm h line hl := by
    obtain ⟨lines, he, -⟩ := Machine.lines_step hc (hP.sound m (hm.holds hP)).filed world
    rw [he] at hl
    rcases List.mem_append.1 hl with hl | hl
    · exact h line hl
    · exact ⟨m, hm, world, lines, he, hl⟩

namespace Session

variable {first t : Session σ δ} {step : TraceStep}

/-- A stop is at a node of the program, unless the library threw what ended the program. Each line of the output is
that of the call that logged it, a node of the program unless the library called the function of the host. -/
theorem collect_positions {source text : String} {program : Program} {scheme : DeltaScheme String δ}
    {functions : List (SessionFunction σ)} {host : σ} {draws : Nat → Float} (hp : Program.ofSource source = .ok program)
    (hsize : program.nodes.length < 2 ^ 24) (hd : scheme.Exact)
    (h : startOver (Library.read text) scheme source functions host draws = .ok first) (ht : Reached first t)
    (hstep : t.collect = .ok step) :
    (∃ s below, t.stepper.machine.stack = s :: below ∧ step.range = .ofLoc s.node.loc ∧
      (s.node ∈ program.nodes ∨
        s.node ∈ (Library.read text).nodes ∧ s.node.isInternal ∧ ∃ thrown, t.status = .threw thrown)) ∧
    ∀ line ∈ step.stdout.getD [], ∃ m s below, Machine.Visited t.setting m ∧ m.Logs t.setting line ∧
      m.stack = s :: below ∧ s.node.isCall ∧ line.line = s.node.loc.start.line ∧
      (s.node ∈ program.nodes ∨ s.node ∈ (Library.read text).nodes ∧ s.node.isInternal) := by
  obtain ⟨program', hp', hwithin⟩ := ht.within hd h
  cases hp.symm.trans hp'
  obtain ⟨hkeeps, hsound⟩ := SessionFunction.host_table functions
  have hc := Setting.isRead_ofPrograms hp text ((SessionFunction.table functions).map SessionFunction.toHost)
    Setting.defaultDepth draws
  have hlasts := Machine.Running.lasts hc hsize hkeeps hsound
  have hhost : ∀ f ∈ (SessionFunction.table functions).map SessionFunction.toHost,
      ∃ g : SessionFunction σ, f = g.toHost := by
    intro f hf
    obtain ⟨g, -, rfl⟩ := List.mem_map.1 hf
    exact ⟨g, rfl⟩
  obtain ⟨hs, hstands⟩ := hwithin _ _ (Machine.Visited.lasts hlasts) (Console.lasts_logged hhost hlasts)
  have hm := hs.machine.holds hlasts
  obtain ⟨⟨s, below, hstack, hrange⟩, hstdout⟩ := Machine.position_of_collect hstep
  have hsetting := hs.setting
  refine ⟨⟨s, below, hstack, hrange, ?_⟩, fun line hl => ?_⟩
  · rcases hm.node_mem hc (hstack ▸ List.mem_cons_self) with hn | ⟨hn, hown⟩
    · exact .inl hn
    · unfold Stands at hstands
      cases hstate : t.state with
      | notStarted =>
        rw [hstate] at hstands
        exact hstands.elim
      | started =>
        rw [hstate] at hstands
        exact absurd hown (hstands s (by rw [hstack]; rfl))
      | finished =>
        rw [hstate] at hstands
        rcases hstands with he | he
        · obtain ⟨v, hv⟩ := Option.isSome_iff_exists.1 he
          refine .inr ⟨hn, hown, t.stepper.machine.heap.describeThrown v, ?_⟩
          unfold status isLast
          rw [hstate, hv]
          rfl
        · exact .inl (hm.top_of_isEnded hstack he)
  · rw [hstdout] at hl
    obtain ⟨m, hv, hlogs⟩ := hs.console line hl
    have hmv := hv.holds hlasts
    obtain ⟨s, below, hstack, hcall, hline⟩ := hlogs.line_eq hhost hmv.sound.filed
    refine ⟨m, s, below, ?_, ?_, hstack, hcall, hline, hmv.node_mem hc (hstack ▸ List.mem_cons_self)⟩
    · rw [hsetting]
      exact hv
    · rw [hsetting]
      exact hlogs

/-- The library throws in a function that has called the host back. Neither the last stop nor the line that was
logged there is in the program. -/
theorem collect_positions_callback :
    ∃ (program : Program) (first t : Session Unit String) (step : TraceStep),
      Program.ofSource "output(2); each(output);" = .ok program ∧ program.nodes.length < 2 ^ 24 ∧
        startOver (Library.read "\nfunction each(f) { f(1); throw 2; }") (.whole String) "output(2); each(output);"
          [SessionFunction.output] () Setting.zeros = .ok first ∧ Reached first t ∧ t.collect = .ok step ∧
        step.stdout = some [⟨"2", 1⟩, ⟨"1", 2⟩] ∧ (∀ n ∈ program.nodes, step.range ≠ .ofLoc n.loc) ∧
        ∃ s below thrown, t.stepper.machine.stack = s :: below ∧ step.range = .ofLoc s.node.loc ∧
          s.node.isInternal ∧ t.status = .threw thrown := by
  let text := "\nfunction each(f) { f(1); throw 2; }"
  let source := "output(2); each(output);"
  let program := (Program.ofSource source).toOption.getD default
  have hp : Program.ofSource source = .ok program := eq_ok_of_isSome (by decide +kernel)
  have hsize : program.nodes.length < 2 ^ 24 := by decide +kernel
  have hrun : (startOver (Library.read text) (.whole String) source
      ([SessionFunction.output] : List (SessionFunction Unit)) () Setting.zeros).toOption.any fun first =>
        (first.walk? 6).any fun t => t.collect.toOption.any fun step =>
          step.stdout = some [⟨"2", 1⟩, ⟨"1", 2⟩] ∧ ∀ n ∈ program.nodes, step.range ≠ .ofLoc n.loc := by
    decide +kernel
  obtain ⟨first, hfirst, hrun⟩ := (Option.any_eq_true _ _).1 hrun
  obtain ⟨t, hw, hrun⟩ := (Option.any_eq_true _ _).1 hrun
  obtain ⟨step, hstep, hrun⟩ := (Option.any_eq_true _ _).1 hrun
  obtain ⟨hlines, hrange⟩ := of_decide_eq_true hrun
  have hstart : startOver (Library.read text) (.whole String) source [SessionFunction.output] () Setting.zeros = .ok first :=
    eq_ok_of_toOption hfirst
  have hcollect : t.collect = .ok step := eq_ok_of_toOption hstep
  obtain ⟨⟨s, below, hstack, hat, hs⟩, -⟩ :=
    collect_positions hp hsize (fun _ _ => rfl) hstart (reached_walk? hw) hcollect
  refine ⟨program, first, t, step, hp, hsize, hstart, reached_walk? hw, hcollect, hlines, hrange, ?_⟩
  rcases hs with hs | ⟨-, hown, thrown, hthrown⟩
  · exact absurd hat (hrange s.node hs)
  · exact ⟨s, below, thrown, hstack, hat, hown, hthrown⟩

end Session

end Stepwise

import Stepwise.Proofs.Session.Lasting

/-!
# Going back after a step that failed

A step forward that fails has kept the stop before it, has opened a bin, and has moved the stepper a part of the way.
One small step backward undoes all three.

* `Session.Poised`: a session at a stop, with a history of stops that can be restored. Steps forward and backward
  keep it.
* `Session.forward_eq_error`: a small step forward fails for a fault of the machine only, after the stop was kept.
* `Session.failure_undone`: going back gives the session before the step, as far as the state of the host allows.
-/

namespace Stepwise

variable {σ δ α β ω : Type}

/-! ### Steppers -/

namespace Stepper

variable {c : Setting ω} {s s' : Stepper} {stop : Stop} {e : StepperError} {world world' : ω}

/-- A stop that is not the last comes with no value. -/
theorem Leads.plain (h : Leads c s world stop s' world') (hk : stop.kind.isFinal = false) :
    stop = { kind := stop.kind } := by
  induction h with
  | ended => rfl
  | uncaught => cases hk
  | stopped => rfl
  | passed _ _ _ _ ih => exact ih hk

theorem fault_of_advance {limit : Nat} (h : s.advance c limit world = (.error e, s', world')) :
    ∃ f, e = .fault f := by
  induction limit generalizing s world with
  | zero =>
    cases h
    exact ⟨_, rfl⟩
  | succ limit ih =>
    unfold advance at h
    rcases hm : s.machine.step c world with ⟨outcome, m, world₁⟩
    rw [hm] at h
    dsimp only at h
    cases outcome with
    | ended | exception => cases h
    | fault f =>
      cases h
      exact ⟨f, rfl⟩
    | advanced =>
      dsimp only at h
      split at h
      · cases h
        exact ⟨_, rfl⟩
      · split at h
        · cases h
        · exact ih h

/-- A stepper that has not come to the end fails only if the machine does. -/
theorem fault_of_step (hs : s.isFinished = false) (h : s.step c world = (.error e, s', world')) :
    ∃ f, e = .fault f := by
  unfold step at h
  rw [hs, if_neg Bool.false_ne_true] at h
  exact fault_of_advance h

end Stepper

/-! ### The parts of a step that fails -/

/-- What happens in sequence fails where one of its parts does. -/
theorem SessionM.bind_eq_error {x : SessionM σ δ α} {f : α → SessionM σ δ β} {s t : Session σ δ} {e : SessionError} :
    (x >>= f) s = .error e t ↔ x s = .error e t ∨ ∃ a r, x s = .ok a r ∧ f a r = .error e t := by
  show EStateM.bind x f s = _ ↔ _
  unfold EStateM.bind
  cases x s <;> simp

namespace Session

open SessionM

variable {s s' t : Session σ δ} {stop : Stop} {mode : Mode} {limit : Nat} {e : SessionError} {snapshot : Snapshot}

theorem advance_eq_error (h : advance s = .error e t) :
    ∃ e' stepper world, s.stepper.step s.setting s.world = (.error e', stepper, world) ∧ e = .forward e' ∧
      t = { s with stepper, world } := by
  unfold advance at h
  rw [get_bind] at h
  rcases hr : s.stepper.step s.setting s.world with ⟨e' | stop, stepper, world⟩
  · rw [hr] at h
    cases h
    exact ⟨e', stepper, world, rfl, rfl, rfl⟩
  · rw [hr] at h
    cases h

theorem advanceTo_micro_eq_error (h : advanceTo .micro (limit + 1) s = .error e t) : advance s = .error e t := by
  unfold advanceTo at h
  rcases bind_eq_error.1 h with h | ⟨stop, r, -, h⟩
  · exact h
  · cases h

/-- A step forward that fails after the stop was kept has failed to find the next stop. -/
theorem forward_eq_error (hs : s.state = .started) (hsave : s.stepper.save = .ok snapshot)
    (hk : snapshot.kind.isFinal = false) (h : forward mode s = .error e t) :
    advanceTo mode Machine.endless (s.remember snapshot).ready = .error e t := by
  have hl : s.isLast = false := by simp [isLast, hs]
  unfold forward at h
  rw [get_bind, hl, if_neg Bool.false_ne_true] at h
  dsimp only at h
  rw [get_bind, if_pos hs] at h
  have hkept : save s = .ok () (s.remember snapshot) := save_eq_ok.2 ⟨snapshot, hsave, hk, rfl⟩
  rcases bind_eq_error.1 h with h | ⟨⟨⟩, r, hr, h⟩
  · rw [hkept] at h
    cases h
  · cases hkept.symm.trans hr
    rcases bind_eq_error.1 h with h | ⟨⟨⟩, r, ho, h⟩
    · cases h
    · cases ho
      rcases bind_eq_error.1 h with h | ⟨⟨⟩, r, hm, h⟩
      · cases h
      · cases hm
        rcases bind_eq_error.1 h with h | ⟨stop, r, -, h⟩
        · exact h
        · cases hkind : stop.kind <;> rw [hkind] at h <;> cases h

/-- How a small step forward fails. -/
def failure? (s : Session σ δ) : Option (SessionError × Session σ δ) :=
  match forward .micro s with
  | .ok .. => none
  | .error e t => some (e, t)

theorem failure?_eq_some : s.failure? = some (e, t) ↔ forward .micro s = .error e t := by
  unfold failure?
  cases forward .micro s <;> simp

/-! ### Sessions that can go back -/

/-- What a history keeps of a stop: the snapshot of a stepper of the program, at a stop that is not the last. -/
def Remembers (c : Setting (World σ)) (text : String) (saved : SavedState) : Prop :=
  ∃ (stepper : Stepper) (snapshot : Snapshot), stepper.Ready c ∧ stepper.save = .ok snapshot ∧
    snapshot.kind.isFinal = false ∧ text = snapshot.machine ∧
    saved = { snapshot.toBookmark with exception := none, state := .started }

/-- A session of a setting that can step on and back. -/
structure Prepared (c : Setting (World σ)) (s : Session σ δ) : Prop where
  setting : s.setting = c
  scheme : s.scheme.Exact
  stepper : s.stepper.Ready c
  history : s.history.Holds s.scheme (Remembers c)

/-- A session of a setting that stands at a stop and can step on and back. -/
structure Poised (c : Setting (World σ)) (s : Session σ δ) : Prop extends Prepared c s where
  stop : ∃ stop, s.stepper.last = some stop ∧ s.state = (if stop.kind.isFinal then .finished else .started) ∧
    (stop.kind.isFinal = false → s.exception = none ∧ stop = { kind := stop.kind })

variable {c : Setting (World σ)}

namespace Prepared

theorem of_eq (hs : s.Prepared c) (hsetting : t.setting = s.setting) (hscheme : t.scheme = s.scheme)
    (hstepper : t.stepper = s.stepper) (hhistory : t.history = s.history) : t.Prepared c := by
  refine ⟨hsetting.trans hs.setting, hscheme ▸ hs.scheme, hstepper ▸ hs.stepper, ?_⟩
  rw [hhistory, hscheme]
  exact hs.history

theorem remember (hs : s.Prepared c) (hstate : s.state = .started) (hexc : s.exception = none)
    (hsave : s.stepper.save = .ok snapshot) (hk : snapshot.kind.isFinal = false) :
    (s.remember snapshot).Prepared c := by
  refine ⟨hs.setting, hs.scheme, hs.stepper, .push hs.history ⟨s.stepper, snapshot, hs.stepper, hsave, hk, rfl, ?_⟩⟩
  rw [hstate, hexc]

theorem finish (hs : s.Prepared c) (hlast : s.stepper.last = some stop)
    (hplain : stop.kind.isFinal = false → stop = { kind := stop.kind }) (hstate : s.state = .started)
    (hexc : s.exception = none) : (s.finish stop).Poised c := by
  obtain ⟨hsetting, hscheme, hstepper, hhistory, -⟩ := finish_frame s stop
  refine ⟨hs.of_eq hsetting hscheme hstepper hhistory, stop, hstepper ▸ hlast, state_finish hstate stop, fun hk => ?_⟩
  exact ⟨(exception_finish s hk).trans hexc, hplain hk⟩

/-- Going back restores a stop that was kept. -/
theorem undo {kind : StopKind} (hs : s.Prepared c) (h : Session.undo s = .ok kind s') : s'.Poised c := by
  obtain ⟨console, text, saved, history, stepper, -, hpop, hrestore, -, rfl⟩ := undo_eq_ok.1 h
  obtain ⟨⟨r, snapshot, hr, hsave, hk, rfl, rfl⟩, hhistory⟩ := hs.history.pop hs.scheme hpop
  have hkept : stepper = r.kept := by
    rw [hs.setting] at hrestore
    rcases Stepper.restore_save hr hsave with h | ⟨h, -⟩
    · exact Except.ok.inj (hrestore.symm.trans h)
    · cases hrestore.symm.trans h
  subst hkept
  refine ⟨⟨hs.setting, hs.scheme, Stepper.ready_kept hr, hhistory⟩, { kind := snapshot.kind }, ?_, ?_,
    fun _ => ⟨rfl, rfl⟩⟩
  · obtain ⟨stop, hlast, hkind⟩ := Option.map_eq_some_iff.1 (Stepper.kind_of_save hsave)
    show Option.map _ r.last = _
    rw [hlast, Option.map_some, hkind]
  · dsimp only
    rw [hk]
    rfl

section

variable (hc : c.IsRead) (hh : ∀ f ∈ c.host, f.Keeps)

include hc hh

theorem advance (hs : s.Prepared c) (h : Session.advance s = .ok stop s') :
    s'.Prepared c ∧ s'.stepper.last = some stop ∧ (stop.kind.isFinal = false → stop = { kind := stop.kind }) ∧
      s'.state = s.state ∧ s'.exception = s.exception := by
  obtain ⟨stepper, world, hstep, rfl⟩ := advance_eq_ok.1 h
  have hready := Stepper.ready_step hc hh hs.stepper s.world
  rw [hs.setting] at hstep
  rw [hstep] at hready
  have hleads := Stepper.leads_of_step hstep
  exact ⟨⟨hs.setting, hs.scheme, hready, hs.history⟩, hleads.last, hleads.plain, rfl, rfl⟩

theorem advanceTo (hs : s.Prepared c) (hstate : s.state = .started) (hexc : s.exception = none)
    (h : Session.advanceTo mode limit s = .ok stop s') :
    s'.Prepared c ∧ s'.stepper.last = some stop ∧ (stop.kind.isFinal = false → stop = { kind := stop.kind }) ∧
      s'.state = .started ∧ s'.exception = none := by
  induction limit generalizing s with
  | zero => cases h
  | succ limit ih =>
    have found {r : Session σ δ} (ha : Session.advance s = .ok stop r) :
        r.Prepared c ∧ r.stepper.last = some stop ∧ (stop.kind.isFinal = false → stop = { kind := stop.kind }) ∧
          r.state = .started ∧ r.exception = none := by
      obtain ⟨hr, hlast, hplain, hstate', hexc'⟩ := hs.advance hc hh ha
      exact ⟨hr, hlast, hplain, hstate'.trans hstate, hexc'.trans hexc⟩
    cases mode with
    | micro => exact found (advanceTo_micro.1 h)
    | coarse =>
      rcases advanceTo_coarse h with ⟨-, ha⟩ | ⟨stop', t, snapshot, hkind, ha, hsave, h⟩
      · exact found ha
      · obtain ⟨ht, hlast, -, hstate', hexc'⟩ := hs.advance hc hh ha
        have hk : snapshot.kind.isFinal = false := by
          have he := Stepper.kind_of_save hsave
          rw [hlast, Option.map_some, hkind] at he
          rw [← Option.some.inj he]
          rfl
        have hkept := ht.remember (hstate'.trans hstate) (hexc'.trans hexc) hsave hk
        have hopen : Prepared c { t.remember snapshot with world.console := t.world.console.open_ } :=
          hkept.of_eq rfl rfl rfl rfl
        exact ih hopen (hstate'.trans hstate) (hexc'.trans hexc) h

theorem forward (hs : s.Prepared c) (hexc : s.state = .started → s.exception = none)
    (h : Session.forward mode s = .ok () s') : s'.Poised c := by
  have seek {r t : Session σ δ} {stop : Stop} (hr : r.Prepared c)
      (ha : Session.advanceTo mode Machine.endless r.ready = .ok stop t) : (t.finish stop).Poised c := by
    have hready : r.ready.Prepared c := hr.of_eq rfl rfl rfl rfl
    obtain ⟨ht, hlast, hplain, hstate, hexc⟩ := hready.advanceTo hc hh rfl rfl ha
    exact ht.finish hlast hplain hstate hexc
  cases hstate : s.state with
  | notStarted =>
    obtain ⟨stop, t, ha, rfl⟩ := forward_first hstate h
    exact seek hs ha
  | started =>
    obtain ⟨snapshot, hsave, hk, stop, t, ha, rfl⟩ := (forward_eq_ok hstate).1 h
    exact seek (hs.remember hstate (hexc hstate) hsave hk) ha
  | finished =>
    rw [forward_last hstate] at h
    cases h

end

end Prepared

namespace Poised

theorem exception_eq (hs : s.Poised c) (hstate : s.state = .started) : s.exception = none := by
  obtain ⟨stop, -, hst, hexc⟩ := hs.stop
  cases hk : stop.kind.isFinal with
  | false => exact (hexc hk).1
  | true =>
    rw [hk, hstate] at hst
    cases hst

theorem undoTo (hs : s.Poised c) (h : Session.undoTo mode limit s = .ok () s') : s'.Poised c := by
  induction limit generalizing s with
  | zero =>
    cases h
    exact hs
  | succ limit ih =>
    obtain ⟨kind, r, hundo, h⟩ := bind_eq_ok.1 h
    have hr := hs.toPrepared.undo hundo
    rw [get_bind] at h
    split at h
    · exact ih hr h
    · cases h
      exact hr

theorem turn {turn : Turn} (hc : c.IsRead) (hh : ∀ f ∈ c.host, f.Keeps) (hs : s.Poised c)
    (h : turn.run s = .ok () s') : s'.Poised c := by
  cases turn with
  | forward mode => exact hs.toPrepared.forward hc hh hs.exception_eq h
  | backward mode =>
    have hb := (backward_eq mode s).symm.trans h
    split at hb
    · cases hb
    · exact hs.undoTo hb

/-- A session that is not at its end stands at a stop that can be kept. -/
theorem exists_save (hs : s.Poised c) (hend : s.isLast = false) :
    s.state = .started ∧ s.exception = none ∧ s.stepper.isFinished = false ∧
      s.stepper.kept.last = s.stepper.last ∧
      ∃ snapshot, s.stepper.save = .ok snapshot ∧ snapshot.kind.isFinal = false := by
  obtain ⟨stop, hlast, hstate, hexc⟩ := hs.stop
  cases hk : stop.kind.isFinal with
  | true =>
    rw [hk] at hstate
    simp [isLast, hstate] at hend
  | false =>
    rw [hk] at hstate
    obtain ⟨hnone, hplain⟩ := hexc hk
    refine ⟨hstate, hnone, ?_, ?_, ?_⟩
    · simp [Stepper.isFinished, hlast, hk]
    · show Option.map _ s.stepper.last = _
      rw [hlast, Option.map_some, ← hplain]
    · exact ⟨_, by rw [Stepper.save, hlast], hk⟩

/-- A small step forward that fails has met a fault of the machine, and going back gives the session before it: only
anchors that had left the stack are forgotten, and what the host did to its own state stays. -/
theorem backward_of_error (hs : s.Poised c)
    (hlogs : ∀ f ∈ c.host, ∀ call h (world : World σ), world.console.Extends (f.run call h world).2.2.console)
    (hend : s.isLast = false) (hfit : s.stepper.machine.Fits) (h : Session.forward .micro s = .error e t) :
    (∃ f, e = .forward (.fault f)) ∧
      Session.backward .micro t = .ok () { s with stepper := s.stepper.kept, world.host := t.world.host } := by
  obtain ⟨hstate, hexc, hgoes, -, snapshot, hsave, hk⟩ := hs.exists_save hend
  obtain ⟨limit, hlimit⟩ := Nat.exists_eq_succ_of_ne_zero (show Machine.endless ≠ 0 by decide)
  have ha := forward_eq_error hstate hsave hk h
  rw [hlimit] at ha
  obtain ⟨e', stepper, world, hstep, rfl, rfl⟩ := advance_eq_error (advanceTo_micro_eq_error ha)
  obtain ⟨f, rfl⟩ := Stepper.fault_of_step hgoes hstep
  refine ⟨⟨f, rfl⟩, ?_⟩
  -- the newest bin is the one that the step has opened
  have hdrop : world.console.drop? = some s.world.console := by
    have hx := Stepper.world_step (R := fun w w' : World σ => w.console.Extends w'.console)
      (fun w => .refl w.console) (fun h h' => h.trans h') hlogs s.stepper
      { s.world with console := s.world.console.open_ }
    rw [← hs.setting] at hx
    have hstep : s.stepper.step s.setting { s.world with console := s.world.console.open_ } = _ := hstep
    rw [hstep] at hx
    exact hx.drop?_eq
  -- the newest entry of the history is the stop that the step has kept
  have hpop : (s.remember snapshot).history.pop s.scheme = .ok (snapshot.machine,
      { snapshot.toBookmark with exception := s.exception, state := s.state }, s.history) :=
    History.pop_push hs.scheme hs.history.tidy _ _
  have hrestore : Stepper.restore s.setting snapshot = .ok s.stepper.kept := by
    rw [hs.setting]
    rcases Stepper.restore_save hs.stepper hsave with h | ⟨-, h⟩
    · exact h
    · exact absurd hfit h
  refine (backward_eq .micro _).trans ?_
  rw [if_neg (by simp [isFirst, ready, remember, History.push, History.isEmpty])]
  obtain ⟨stops, hstops⟩ : ∃ stops, (s.remember snapshot).history.size = stops + 1 := ⟨s.history.size, rfl⟩
  show Session.undoTo .micro (s.remember snapshot).history.size _ = _
  rw [hstops]
  exact undoTo_micro.2 ⟨_, undo_eq_ok.2 ⟨_, _, _, _, _, hdrop, hpop, hrestore, rfl, rfl⟩⟩

end Poised

/-- Every session that is reached stands at a stop and can go back. -/
theorem Reached.poised {source text : String} {scheme : DeltaScheme String δ} {functions : List (SessionFunction σ)}
    {host : σ} {draws : Nat → Float} {first : Session σ δ} (hd : scheme.Exact)
    (h : startOver (Library.read text) scheme source functions host draws = .ok first) (hs : Reached first s) :
    s.Poised s.setting ∧
      ∀ f ∈ s.setting.host, ∀ call h (world : World σ), world.console.Extends (f.run call h world).2.2.console := by
  obtain ⟨program, stepper, hp, hstart, hforward⟩ := startOver_eq_ok h
  generalize hset : Setting.ofPrograms (Library.read text) program
    ((SessionFunction.table functions).map SessionFunction.toHost) Setting.defaultDepth draws = c at hstart hforward
  have hc : c.IsRead := hset ▸ Setting.isRead_ofPrograms hp text _ _ _
  have hhost : ∀ f ∈ c.host, ∃ g : SessionFunction σ, g.toHost = f := by
    subst hset
    intro f hf
    obtain ⟨g, -, hg⟩ := List.mem_map.1 hf
    exact ⟨g, hg⟩
  have hh : ∀ f ∈ c.host, f.Keeps := by
    intro f hf
    obtain ⟨g, rfl⟩ := hhost f hf
    exact g.keeps_toHost
  have hlogs : ∀ f ∈ c.host, ∀ call h (world : World σ), world.console.Extends (f.run call h world).2.2.console := by
    intro f hf
    obtain ⟨g, rfl⟩ := hhost f hf
    exact g.extends_toHost
  have hpoised : s.Poised c := by
    clear h
    induction hs with
    | first =>
      exact Prepared.forward hc hh ⟨rfl, hd, Stepper.ready_start hc hstart, .empty⟩ Execution.noConfusion hforward
    | turn _ ht ih => exact ih.turn hc hh ht
  rw [hpoised.setting]
  exact ⟨hpoised, hlogs⟩

/-- A small step forward that fails can be undone. It fails for a fault of the machine, and one small step backward
gives the session before it: the same machine, the same stepper without the anchors that have left the stack, the same
description and status, the same history and the same bins. What the host did to its own state stays. -/
theorem failure_undone {source text : String} {scheme : DeltaScheme String δ} {functions : List (SessionFunction σ)}
    {host : σ} {draws : Nat → Float} {first : Session σ δ} (hd : scheme.Exact)
    (h : startOver (Library.read text) scheme source functions host draws = .ok first) (hs : Reached first s)
    (hend : s.isLast = false) (hfit : s.stepper.machine.Fits) (hfail : forward .micro s = .error e t) :
    (∃ f, e = .forward (.fault f)) ∧ ∃ r, backward .micro t = .ok () r ∧
      r.stepper.machine = s.stepper.machine ∧
      r.stepper = { s.stepper with anchors := s.stepper.anchors.filter (·.isOn s.stepper.machine.stack) } ∧
      r.collect = s.collect ∧ r.status = s.status ∧ r.history.size = s.history.size ∧
      r.world.console = s.world.console ∧
      r = { s with stepper := r.stepper, world.host := t.world.host } := by
  obtain ⟨hpoised, hlogs⟩ := hs.poised hd h
  obtain ⟨hfault, hback⟩ := hpoised.backward_of_error hlogs hend hfit hfail
  obtain ⟨-, -, -, hlast, -⟩ := hpoised.exists_save hend
  refine ⟨hfault, _, hback, rfl, ?_, rfl, rfl, rfl, rfl, rfl⟩
  rw [← hpoised.stepper.anchors.liveAnchors_eq_filter]
  show s.stepper.kept = _
  unfold Stepper.kept at hlast ⊢
  dsimp only at hlast
  rw [hlast]

/-- The host has no answer to the only call of a program. The step has kept a stop and opened a bin by then. -/
theorem failure_undone_input :
    ∃ (first s t r : Session Unit String) (e : SessionError),
      startOver (Library.read "") (.whole String) "input();" [SessionFunction.input fun _ u => (.error "closed", u)]
          () Setting.zeros = .ok first ∧ Reached first s ∧ s.isLast = false ∧ forward .micro s = .error e t ∧
        e.message = "step forward: interpreter fault: host function input: closed" ∧
        t.history.size = s.history.size + 1 ∧ t.world.console.size = s.world.console.size + 1 ∧
        backward .micro t = .ok () r ∧ r.stepper.machine = s.stepper.machine ∧ r.collect = s.collect ∧
        r.history.size = s.history.size ∧ r.world.console = s.world.console := by
  have hrun : (startOver (Library.read "") (.whole String) "input();"
      [SessionFunction.input fun _ (u : Unit) => (.error "closed", u)] () Setting.zeros).toOption.any fun first =>
        (first.walk? 1).any fun s => s.failure?.any fun failed =>
          s.isLast = false ∧ s.stepper.machine.Fits ∧
            failed.1.message = "step forward: interpreter fault: host function input: closed" ∧
            failed.2.history.size = s.history.size + 1 ∧ failed.2.world.console.size = s.world.console.size + 1 := by
    decide +kernel
  obtain ⟨first, hfirst, hrun⟩ := (Option.any_eq_true _ _).1 hrun
  obtain ⟨s, hw, hrun⟩ := (Option.any_eq_true _ _).1 hrun
  obtain ⟨⟨e, t⟩, hfail, hrun⟩ := (Option.any_eq_true _ _).1 hrun
  obtain ⟨hend, hfit, hmessage, hhistory, hbins⟩ := of_decide_eq_true hrun
  have hstart := eq_ok_of_toOption hfirst
  have hfail := failure?_eq_some.1 hfail
  obtain ⟨-, r, hback, hmachine, -, hcollect, -, hsize, hconsole, -⟩ :=
    failure_undone (fun _ _ => rfl) hstart (reached_walk? hw) hend hfit hfail
  exact ⟨first, s, t, r, e, hstart, reached_walk? hw, hend, hfail, hmessage, hhistory, hbins, hback, hmachine, hcollect,
    hsize, hconsole⟩

end Session

end Stepwise

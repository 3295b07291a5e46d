import Stepwise.Proofs.Session.Cursor

/-!
# What lasts through a session

* `Session.Reached`: the sessions that steps forward and backward lead to.
* `Machine.Lasts`: a property of machines that a program starts with and that every step keeps, unless it faults.
  `Console.Lasts`: a property of consoles that such steps keep.
* `Session.Reached.within`: such properties hold of the machine and the console of every session that is reached,
  because going back restores a machine of an earlier stop and drops what was logged since.
* `Session.Stands`: a session that is reached stands outside the library's own code, unless a value was thrown.
-/

namespace Stepwise

variable {σ δ α β μ ω : Type}

/-! ### Histories -/

/-- A history whose entries all have a property, together with what was remarked on them. -/
inductive History.Holds (d : DeltaScheme α δ) (Q : α → μ → Prop) : History α δ μ → Prop where
  | empty : Holds d Q {}
  | push {h : History α δ μ} {a : α} {remark : μ} (hh : Holds d Q h) (ha : Q a remark) :
    Holds d Q (h.push d a remark)

namespace History.Holds

variable {d : DeltaScheme α δ} {Q : α → μ → Prop} {h h' : History α δ μ}

theorem tidy (hh : h.Holds d Q) : h.entries.Tidy := by
  cases hh with
  | empty => exact fun _ => rfl
  | push => exact DeltaStack.tidy_push d _ _

/-- What going back finds has the property, and so has what is left. -/
theorem pop {a : α} {remark : μ} (hd : d.Exact) (hh : h.Holds d Q) (hp : h.pop d = .ok (a, remark, h')) :
    Q a remark ∧ h'.Holds d Q := by
  cases hh with
  | empty => cases hp
  | push hh ha =>
    rw [History.pop_push hd hh.tidy] at hp
    cases hp
    exact ⟨ha, hh⟩

end History.Holds

/-! ### Machines and consoles -/

/-- A property that the machine has at the start of a program and that every step keeps, unless it faults. -/
structure Machine.Lasts (c : Setting ω) (P : Machine → Prop) : Prop where
  start : ∀ m, Machine.start c = .ok m → P m
  step : ∀ m world, P m → (∀ f, (m.step c world).1 ≠ .fault f) → P (m.step c world).2.1
  sound : ∀ m, P m → m.Sound c

theorem Machine.Lasts.and {c : Setting ω} {P Q : Machine → Prop} (hP : Machine.Lasts c P) (hQ : Machine.Lasts c Q) :
    Machine.Lasts c fun m => P m ∧ Q m where
  start m h := ⟨hP.start m h, hQ.start m h⟩
  step m world h hf := ⟨hP.step m world h.1 hf, hQ.step m world h.2 hf⟩
  sound m h := hP.sound m h.1

/-- A property that the console has as long as nothing is logged, and that the steps of some machines keep. -/
structure Console.Lasts (c : Setting (World σ)) (P : Machine → Prop) (W : Console → Prop) : Prop where
  empty : W {}
  opened : ∀ console, W console → W console.open_
  dropped : ∀ console console' : Console, W console → console.drop? = some console' → W console'
  step : ∀ m world, P m → W world.console → W (m.step c world).2.2.console

/-- Nothing is asked of the console. -/
theorem Console.Lasts.trivial (c : Setting (World σ)) (P : Machine → Prop) : Console.Lasts c P fun _ => True :=
  ⟨True.intro, fun _ _ => True.intro, fun _ _ _ _ => True.intro, fun _ _ _ _ => True.intro⟩

variable {P : Machine → Prop} {W : Console → Prop}

/-! ### Sessions -/

namespace Session

open SessionM

/-- The sessions that steps forward and backward lead to. -/
inductive Reached (first : Session σ δ) : Session σ δ → Prop where
  | first : Reached first first
  | turn {s s' : Session σ δ} {turn : Turn} (h : Reached first s) (ht : turn.run s = .ok () s') : Reached first s'

theorem reached_walk? {first t : Session σ δ} {k : Nat} (h : first.walk? k = some t) : Reached first t := by
  induction k generalizing t with
  | zero =>
    cases h
    exact .first
  | succ k ih =>
    obtain ⟨r, hr, hnext⟩ := Option.bind_eq_some_iff.1 h
    exact .turn (ih hr) (show Turn.run (.forward .micro) r = .ok () t from next?_eq_some.1 hnext)

/-- Where a session stands: outside the library's own code while the program is running; and once it has ended, a
value was thrown or there is nothing left to do. -/
def Stands (s : Session σ δ) : Prop :=
  match s.state with
  | .notStarted => False
  | .started => s.stepper.machine.IsOutside
  | .finished => s.exception.isSome ∨ s.stepper.machine.isEnded

/-- A session of a setting whose machine and console have properties, as have the machines that it keeps of earlier
stops. -/
structure Within (c : Setting (World σ)) (P : Machine → Prop) (W : Console → Prop) (s : Session σ δ) : Prop where
  setting : s.setting = c
  scheme : s.scheme.Exact
  machine : P s.stepper.machine
  console : W s.world.console
  history : s.history.Holds s.scheme fun text saved =>
    saved.state = .started ∧ ∃ m : Machine, P m ∧ m.IsOutside ∧ text = m.serialize

variable {c : Setting (World σ)} {s s' : Session σ δ} {stop : Stop} {mode : Mode} {limit : Nat}

namespace Within

theorem of_eq {t : Session σ δ} (hs : s.Within c P W) (hsetting : t.setting = s.setting)
    (hscheme : t.scheme = s.scheme) (hstepper : t.stepper = s.stepper) (hhistory : t.history = s.history)
    (hconsole : W t.world.console) : t.Within c P W := by
  refine ⟨hsetting.trans hs.setting, hscheme ▸ hs.scheme, hstepper ▸ hs.machine, hconsole, ?_⟩
  rw [hhistory, hscheme]
  exact hs.history

theorem remember {snapshot : Snapshot} (hs : s.Within c P W) (hstarted : s.state = .started)
    (hout : s.stepper.machine.IsOutside) (h : s.stepper.save = .ok snapshot) :
    (s.remember snapshot).Within c P W := by
  refine ⟨hs.setting, hs.scheme, hs.machine, hs.console,
    .push hs.history ⟨hstarted, s.stepper.machine, hs.machine, hout, ?_⟩⟩
  unfold Stepper.save at h
  split at h
  · cases h
  · cases h
    rfl

/-- The next stop of the stepper. -/
theorem advance (hP : Machine.Lasts c P) (hW : Console.Lasts c P W) (hs : s.Within c P W)
    (h : Session.advance s = .ok stop s') : s'.Within c P W ∧ s'.state = s.state ∧
      (stop.kind.isFinal = false → s'.stepper.machine.IsOutside) ∧
      (stop.kind = .ended → s'.stepper.machine.isEnded) := by
  obtain ⟨stepper, world, hstep, rfl⟩ := advance_eq_ok.1 h
  rw [hs.setting] at hstep
  have hleads := Stepper.leads_of_step hstep
  obtain ⟨hm, hc⟩ := hleads.keeps (I := fun m world => P m ∧ W world.console)
    (fun m world hi hf => ⟨hP.step m world hi.1 hf, hW.step m world hi.1 hi.2⟩) ⟨hs.machine, hs.console⟩
  exact ⟨⟨hs.setting, hs.scheme, hm, hc, hs.history⟩, rfl, hleads.stands⟩

theorem advanceTo (hP : Machine.Lasts c P) (hW : Console.Lasts c P W) (hs : s.Within c P W)
    (hstarted : s.state = .started) (h : Session.advanceTo mode limit s = .ok stop s') :
    s'.Within c P W ∧ s'.state = .started ∧ (stop.kind.isFinal = false → s'.stepper.machine.IsOutside) ∧
      (stop.kind = .ended → s'.stepper.machine.isEnded) := by
  induction limit generalizing s with
  | zero => cases h
  | succ limit ih =>
    cases mode with
    | micro =>
      obtain ⟨hs', hstate, hstands⟩ := hs.advance hP hW (advanceTo_micro.1 h)
      exact ⟨hs', hstate.trans hstarted, hstands⟩
    | coarse =>
      rcases advanceTo_coarse h with ⟨-, ha⟩ | ⟨stop', t, snapshot, hk, ha, hsave, h⟩
      · obtain ⟨hs', hstate, hstands⟩ := hs.advance hP hW ha
        exact ⟨hs', hstate.trans hstarted, hstands⟩
      · obtain ⟨ht, hstate, hout, -⟩ := hs.advance hP hW ha
        have hstate : t.state = .started := hstate.trans hstarted
        have hr := ht.remember hstate (hout (by rw [hk]; rfl)) hsave
        have hopen : Within c P W { t.remember snapshot with world.console := t.world.console.open_ } :=
          hr.of_eq rfl rfl rfl rfl (hW.opened _ ht.console)
        exact ih hopen hstate h

theorem finish (hs : s.Within c P W) (hstarted : s.state = .started)
    (hout : stop.kind.isFinal = false → s.stepper.machine.IsOutside)
    (hend : stop.kind = .ended → s.stepper.machine.isEnded) :
    (s.finish stop).Within c P W ∧ (s.finish stop).Stands := by
  obtain ⟨hsetting, hscheme, hstepper, hhistory, hworld⟩ := finish_frame s stop
  refine ⟨hs.of_eq hsetting hscheme hstepper hhistory (hworld ▸ hs.console), ?_⟩
  unfold Stands
  rw [hstepper, state_finish hstarted]
  cases hkind : stop.kind with
  | micro | coarse => exact hout (by rw [hkind]; rfl)
  | ended => exact .inr (hend hkind)
  | uncaught =>
    refine .inl ?_
    unfold Session.finish
    rw [hkind]
    rfl

theorem forward (hP : Machine.Lasts c P) (hW : Console.Lasts c P W) (hs : s.Within c P W)
    (hout : s.state = .started → s.stepper.machine.IsOutside) (h : Session.forward mode s = .ok () s') :
    s'.Within c P W ∧ s'.Stands := by
  have seek {r t : Session σ δ} {stop : Stop} (hr : r.Within c P W)
      (ha : Session.advanceTo mode Machine.endless r.ready = .ok stop t) :
      (t.finish stop).Within c P W ∧ (t.finish stop).Stands := by
    have hready : r.ready.Within c P W := hr.of_eq rfl rfl rfl rfl (hW.opened _ hr.console)
    obtain ⟨ht, hstate, hout, hend⟩ := hready.advanceTo hP hW rfl ha
    exact ht.finish hstate hout hend
  cases hstate : s.state with
  | notStarted =>
    obtain ⟨stop, t, ha, rfl⟩ := forward_first hstate h
    exact seek hs ha
  | started =>
    obtain ⟨snapshot, hsave, -, stop, t, ha, rfl⟩ := (forward_eq_ok hstate).1 h
    exact seek (hs.remember hstate (hout hstate) hsave) ha
  | finished =>
    rw [forward_last hstate] at h
    cases h

theorem undo {kind : StopKind} (hP : Machine.Lasts c P) (hW : Console.Lasts c P W) (hs : s.Within c P W)
    (h : Session.undo s = .ok kind s') : s'.Within c P W ∧ s'.Stands := by
  obtain ⟨console, text, saved, history, stepper, hdrop, hpop, hrestore, -, rfl⟩ := undo_eq_ok.1 h
  obtain ⟨⟨hstate, m, hm, hout, rfl⟩, hhistory⟩ := hs.history.pop hs.scheme hpop
  -- the machine that is restored is the one that was kept
  have hmachine : stepper.machine = m := by
    rw [hs.setting] at hrestore
    unfold Stepper.restore at hrestore
    cases hm' : Machine.restore? c m.serialize with
    | none =>
      rw [show Machine.restore? c _ = _ from hm'] at hrestore
      cases hrestore
    | some m' =>
      rw [show Machine.restore? c _ = _ from hm'] at hrestore
      dsimp only at hrestore
      split at hrestore
      · cases hrestore
      · cases hrestore
        exact (Machine.decodes_restore? (hP.sound m hm)).sound m' hm'
  subst hmachine
  refine ⟨⟨hs.setting, hs.scheme, hm, hW.dropped _ _ hs.console hdrop, hhistory⟩, ?_⟩
  unfold Stands
  dsimp only
  rw [hstate]
  exact hout

theorem undoTo (hP : Machine.Lasts c P) (hW : Console.Lasts c P W) (hs : s.Within c P W) (hst : s.Stands)
    (h : Session.undoTo mode limit s = .ok () s') : s'.Within c P W ∧ s'.Stands := by
  induction limit generalizing s with
  | zero =>
    cases h
    exact ⟨hs, hst⟩
  | succ limit ih =>
    obtain ⟨kind, r, hundo, h⟩ := bind_eq_ok.1 h
    obtain ⟨hr, hrst⟩ := hs.undo hP hW hundo
    rw [get_bind] at h
    split at h
    · exact ih hr hrst h
    · cases h
      exact ⟨hr, hrst⟩

theorem turn {turn : Turn} (hP : Machine.Lasts c P) (hW : Console.Lasts c P W) (hs : s.Within c P W)
    (hst : s.Stands) (h : turn.run s = .ok () s') : s'.Within c P W ∧ s'.Stands := by
  cases turn with
  | forward mode =>
    refine hs.forward hP hW (fun hstate => ?_) h
    unfold Stands at hst
    rw [hstate] at hst
    exact hst
  | backward mode =>
    have hb := (backward_eq mode s).symm.trans h
    split at hb
    · cases hb
    · exact hs.undoTo hP hW hst hb

end Within

/-- What lasts holds of the machine and the console of every session that is reached. -/
theorem Reached.within {library : Program} {source : String} {scheme : DeltaScheme String δ}
    {functions : List (SessionFunction σ)} {host : σ} {draws : Nat → Float} {first : Session σ δ} (hd : scheme.Exact)
    (h : startOver library scheme source functions host draws = .ok first) (hs : Reached first s) :
    ∃ program, Program.ofSource source = .ok program ∧
      let c := Setting.ofPrograms library program
        ((SessionFunction.table functions).map SessionFunction.toHost) Setting.defaultDepth draws
      ∀ P W, Machine.Lasts c P → Console.Lasts c P W → s.Within c P W ∧ s.Stands := by
  obtain ⟨program, stepper, hp, hstart, hforward⟩ := startOver_eq_ok h
  refine ⟨program, hp, fun P W hP hW => ?_⟩
  have hmachine : P stepper.machine := by
    unfold Stepper.start at hstart
    generalize Setting.ofPrograms library program _ _ _ = c at hstart hP
    cases hm : Machine.start c with
    | error f =>
      rw [hm] at hstart
      cases hstart
    | ok m =>
      rw [hm] at hstart
      cases hstart
      exact hP.start m hm
  have hfirst : first.Within (Setting.ofPrograms library program
      ((SessionFunction.table functions).map SessionFunction.toHost) Setting.defaultDepth draws) P W ∧ first.Stands :=
    Within.forward hP hW ⟨rfl, hd, hmachine, hW.empty, .empty⟩ Execution.noConfusion hforward
  clear h
  induction hs with
  | first => exact hfirst
  | turn _ ht ih => exact ih.1.turn hP hW ih.2 ht

/-- What lasts holds of the machine of every session that is reached. -/
theorem Reached.machine {library : Program} {source : String} {scheme : DeltaScheme String δ}
    {functions : List (SessionFunction σ)} {host : σ} {draws : Nat → Float} {first : Session σ δ} (hd : scheme.Exact)
    (h : startOver library scheme source functions host draws = .ok first) (hs : Reached first s) :
    ∃ program, Program.ofSource source = .ok program ∧
      let c := Setting.ofPrograms library program
        ((SessionFunction.table functions).map SessionFunction.toHost) Setting.defaultDepth draws
      ∀ P, Machine.Lasts c P → s.setting = c ∧ P s.stepper.machine := by
  obtain ⟨program, hp, hall⟩ := hs.within hd h
  exact ⟨program, hp, fun P hP => ⟨(hall P _ hP (.trivial _ P)).1.setting, (hall P _ hP (.trivial _ P)).1.machine⟩⟩

end Session

end Stepwise

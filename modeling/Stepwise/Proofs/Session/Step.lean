import Stepwise.Proofs.History.Stack
import Stepwise.Proofs.Session.Function
import Stepwise.Proofs.Stepper.Restore
import Stepwise.Session.Basic

/-!
# The steps of a session

* `Session.forward_micro`: what a small step forward does to a session that stands at a stop.
* `Session.Alike`: sessions that differ only in what nothing later shows. Small steps keep them alike.
* `Session.Alike.undo`: going back after a small step gives a session like the one before it.
-/

namespace Stepwise

variable {σ δ α β : Type}

/-! ### Steppers -/

namespace Stepper

variable {ω : Type} {c : Setting ω} {s t : Stepper}

/-- The world after a step is related to the one before if every call of the host relates them. -/
theorem world_step {R : ω → ω → Prop} (hrefl : ∀ w, R w w) (htrans : ∀ {u v w}, R u v → R v w → R u w)
    (hR : ∀ f ∈ c.host, ∀ call h world, R world (f.run call h world).2.2) (s : Stepper) (world : ω) :
    R world (s.step c world).2.2 := by
  have advance (limit : Nat) (s : Stepper) (world : ω) : R world (s.advance c limit world).2.2 := by
    induction limit generalizing s world with
    | zero => exact hrefl world
    | succ limit ih =>
      have hm := Machine.world_step hrefl htrans hR s.machine world
      unfold Stepper.advance
      generalize s.machine.step c world = r at hm
      obtain ⟨outcome, m, world'⟩ := r
      dsimp only at hm ⊢
      cases outcome with
      | ended | exception | fault => exact hm
      | advanced =>
        dsimp only
        split
        · exact hm
        · split
          · exact hm
          · exact htrans hm (ih _ world')
  unfold step
  split
  · exact hrefl world
  · exact advance _ s world

/-- Steppers that are alike have the same snapshot. -/
theorem Alike.save_eq (h : s.Alike t) : t.save = s.save := by
  have hk := h.kind
  unfold save
  rw [h.prev, h.anchors, h.machine]
  cases hs : s.last with
  | none =>
    rw [hs] at hk
    rw [Option.map_eq_none_iff.1 hk]
  | some stop =>
    rw [hs] at hk
    obtain ⟨stop', ht, he⟩ := Option.map_eq_some_iff.1 hk
    rw [ht]
    dsimp only
    rw [he]

theorem Alike.symm (h : s.Alike t) : t.Alike s := ⟨h.machine.symm, h.prev.symm, h.anchors.symm, h.kind.symm⟩

theorem Alike.trans {r : Stepper} (h : s.Alike t) (h' : t.Alike r) : s.Alike r :=
  ⟨h'.machine.trans h.machine, h'.prev.trans h.prev, h'.anchors.trans h.anchors, h'.kind.trans h.kind⟩

/-- A snapshot knows the kind of the latest stop. -/
theorem kind_of_save {snapshot : Snapshot} (h : s.save = .ok snapshot) :
    s.last.map Stop.kind = some snapshot.kind := by
  unfold save at h
  split at h
  · cases h
  · rename_i stop hl
    cases h
    rw [hl]
    rfl

end Stepper

/-- A setting whose host keeps the heap, answers by arguments alone, and logs into the newest bin. -/
structure Setting.Steady (c : Setting (World σ)) : Prop where
  isRead : c.IsRead
  keeps : ∀ f ∈ c.host, f.Keeps
  respects : ∀ f ∈ c.host, f.Respects World.Alike
  logs : ∀ f ∈ c.host, ∀ call h (world : World σ), world.console.Extends (f.run call h world).2.2.console

/-- Whatever a step does, the bins of earlier steps stay as they are. -/
theorem Setting.Steady.extends_step {c : Setting (World σ)} (hc : c.Steady) (s : Stepper) (world : World σ) :
    world.console.Extends (s.step c world).2.2.console :=
  Stepper.world_step (R := fun w w' => w.console.Extends w'.console) (fun w => .refl w.console)
    (fun h h' => h.trans h') hc.logs s world

/-! ### The parts of a step -/

/-- What happens in sequence succeeds if each of its parts does. -/
theorem SessionM.bind_eq_ok {x : SessionM σ δ α} {f : α → SessionM σ δ β} {s s' : Session σ δ} {b : β} :
    (x >>= f) s = .ok b s' ↔ ∃ a t, x s = .ok a t ∧ f a t = .ok b s' := by
  show EStateM.bind x f s = _ ↔ _
  unfold EStateM.bind
  cases x s <;> simp

theorem SessionM.get_bind (f : Session σ δ → SessionM σ δ β) (s : Session σ δ) : (get >>= f) s = f s s := rfl

namespace Session

open SessionM

variable {s s' t t' : Session σ δ} {mode : Mode} {stop : Stop} {limit : Nat}

/-- The session with its current stop kept. -/
def remember (s : Session σ δ) (snapshot : Snapshot) : Session σ δ :=
  { s with
    history := s.history.push s.scheme snapshot.machine
      { snapshot.toBookmark with exception := s.exception, state := s.state } }

/-- The session from which the next stop is looked for. -/
def ready (s : Session σ δ) : Session σ δ :=
  { s with world.console := s.world.console.open_, state := .started, exception := none }

/-- The session with what a stop says about the program. -/
def finish (s : Session σ δ) (stop : Stop) : Session σ δ :=
  match stop.kind with
  | .ended => { s with state := .finished }
  | .uncaught => { s with state := .finished, exception := some stop.exception }
  | .micro | .coarse => s

theorem save_eq_ok : save s = .ok () s' ↔
    ∃ snapshot, s.stepper.save = .ok snapshot ∧ snapshot.kind.isFinal = false ∧ s' = s.remember snapshot := by
  unfold save
  rw [get_bind]
  cases hsave : s.stepper.save with
  | error e =>
    constructor
    · intro h
      cases h
    · rintro ⟨snapshot, h, -⟩
      cases h
  | ok snapshot =>
    dsimp only
    cases hk : snapshot.kind.isFinal with
    | true =>
      constructor
      · intro h
        cases h
      · rintro ⟨snapshot', h, hk', -⟩
        cases h
        rw [hk] at hk'
        cases hk'
    | false =>
      constructor
      · intro h
        cases h
        exact ⟨snapshot, rfl, hk, rfl⟩
      · rintro ⟨snapshot', h, -, rfl⟩
        cases h
        rfl

theorem advance_eq_ok : advance s = .ok stop s' ↔
    ∃ stepper world, s.stepper.step s.setting s.world = (.ok stop, stepper, world) ∧
      s' = { s with stepper, world } := by
  unfold advance
  rw [get_bind]
  rcases hr : s.stepper.step s.setting s.world with ⟨_ | stop', stepper, world⟩
  · constructor
    · intro h
      cases h
    · rintro ⟨stepper', world', h, -⟩
      cases h
  · constructor
    · intro h
      cases h
      exact ⟨stepper, world, rfl, rfl⟩
    · rintro ⟨stepper', world', h, rfl⟩
      cases h
      rfl

theorem advanceTo_micro : advanceTo .micro (limit + 1) s = .ok stop s' ↔ advance s = .ok stop s' := by
  unfold advanceTo
  rw [bind_eq_ok]
  constructor
  · rintro ⟨stop', t, h, hr⟩
    cases hr
    exact h
  · intro h
    exact ⟨stop, s', h, rfl⟩

/-- A coarse step goes on at a small stop, which it keeps. -/
theorem advanceTo_coarse (h : advanceTo .coarse (limit + 1) s = .ok stop s') :
    (stop.kind ≠ .micro ∧ advance s = .ok stop s') ∨
      ∃ stop' t snapshot, stop'.kind = .micro ∧ advance s = .ok stop' t ∧ t.stepper.save = .ok snapshot ∧
        advanceTo .coarse limit
          { t.remember snapshot with world.console := t.world.console.open_ } = .ok stop s' := by
  unfold advanceTo at h
  obtain ⟨stop', t, ha, h⟩ := bind_eq_ok.1 h
  by_cases hk : stop'.kind = .micro
  · rw [if_pos ⟨rfl, hk⟩] at h
    obtain ⟨⟨⟩, r, hsave, h⟩ := bind_eq_ok.1 h
    obtain ⟨snapshot, hsnap, -, rfl⟩ := save_eq_ok.1 hsave
    obtain ⟨⟨⟩, r, ho, h⟩ := bind_eq_ok.1 h
    cases ho
    exact .inr ⟨stop', t, snapshot, hk, ha, hsnap, h⟩
  · rw [if_neg fun hc => hk hc.2] at h
    cases h
    exact .inl ⟨hk, ha⟩

/-- A step forward of a session that has started keeps its stop, looks for the next one and takes note of it. -/
theorem forward_eq_ok (hs : s.state = .started) : forward mode s = .ok () s' ↔
    ∃ snapshot, s.stepper.save = .ok snapshot ∧ snapshot.kind.isFinal = false ∧
      ∃ stop t, advanceTo mode Machine.endless (s.remember snapshot).ready = .ok stop t ∧ s' = t.finish stop := by
  have hl : s.isLast = false := by simp [isLast, hs]
  unfold forward
  rw [get_bind, hl, if_neg Bool.false_ne_true]
  dsimp only
  rw [get_bind, if_pos hs, bind_eq_ok]
  constructor
  · rintro ⟨⟨⟩, r, hsave, h⟩
    obtain ⟨snapshot, hsnap, hk, rfl⟩ := save_eq_ok.1 hsave
    obtain ⟨⟨⟩, r, ho, h⟩ := bind_eq_ok.1 h
    cases ho
    obtain ⟨⟨⟩, r, hm, h⟩ := bind_eq_ok.1 h
    cases hm
    obtain ⟨stop, t, hstop, h⟩ := bind_eq_ok.1 h
    refine ⟨snapshot, hsnap, hk, stop, t, hstop, ?_⟩
    unfold finish
    cases hkind : stop.kind <;> rw [hkind] at h <;> cases h <;> rfl
  · rintro ⟨snapshot, hsnap, hk, stop, t, hstop, rfl⟩
    refine ⟨(), _, save_eq_ok.2 ⟨snapshot, hsnap, hk, rfl⟩, ?_⟩
    refine bind_eq_ok.2 ⟨(), _, rfl, bind_eq_ok.2 ⟨(), _, rfl, bind_eq_ok.2 ⟨stop, t, hstop, ?_⟩⟩⟩
    unfold finish
    cases hkind : stop.kind <;> rfl

/-- The first step forward only looks for a stop and takes note of it. -/
theorem forward_first (hs : s.state = .notStarted) (h : forward mode s = .ok () s') :
    ∃ stop t, advanceTo mode Machine.endless s.ready = .ok stop t ∧ s' = t.finish stop := by
  have hl : s.isLast = false := by simp [isLast, hs]
  unfold forward at h
  rw [get_bind, hl, if_neg Bool.false_ne_true] at h
  dsimp only at h
  rw [get_bind, if_neg (by simp [hs])] at h
  obtain ⟨⟨⟩, r, ho, h⟩ := bind_eq_ok.1 h
  cases ho
  obtain ⟨⟨⟩, r, hm, h⟩ := bind_eq_ok.1 h
  cases hm
  obtain ⟨stop, t, hstop, h⟩ := bind_eq_ok.1 h
  refine ⟨stop, t, hstop, ?_⟩
  unfold finish
  cases hkind : stop.kind <;> rw [hkind] at h <;> cases h <;> rfl

theorem forward_last (hs : s.state = .finished) : forward mode s = .error .lastStep s := by
  have hl : s.isLast = true := by simp [isLast, hs]
  unfold forward
  rw [get_bind, hl, if_pos rfl]
  rfl

/-- Going back takes the newest entry of the history, and restores its stepper. -/
theorem undo_eq_ok {kind : StopKind} : undo s = .ok kind s' ↔
    ∃ console machine saved history stepper, s.world.console.drop? = some console ∧
      s.history.pop s.scheme = .ok (machine, saved, history) ∧
      Stepper.restore s.setting { saved.toBookmark with machine } = .ok stepper ∧ kind = saved.kind ∧
      s' = { s with
        world.console := console, history, stepper, exception := saved.exception, state := saved.state } := by
  unfold undo
  rw [get_bind]
  constructor
  · intro h
    cases hc : s.world.console.drop? with
    | none =>
      rw [hc] at h
      cases h
    | some console =>
      rw [hc] at h
      obtain ⟨⟨⟩, t, hset, h⟩ := bind_eq_ok.1 h
      cases hset
      rcases hp : s.history.pop s.scheme with e | ⟨machine, saved, history⟩
      · rw [show History.pop s.scheme s.history = _ from hp] at h
        cases h
      · rw [show History.pop s.scheme s.history = _ from hp] at h
        obtain ⟨⟨⟩, t, hset, h⟩ := bind_eq_ok.1 h
        cases hset
        cases hr : Stepper.restore s.setting { saved.toBookmark with machine } with
        | error e =>
          rw [hr] at h
          cases h
        | ok stepper =>
          rw [hr] at h
          cases h
          exact ⟨console, machine, saved, history, stepper, rfl, rfl, hr, rfl, rfl⟩
  · rintro ⟨console, machine, saved, history, stepper, hc, hp, hr, rfl, rfl⟩
    rw [hc]
    refine bind_eq_ok.2 ⟨(), _, rfl, ?_⟩
    rw [show History.pop s.scheme s.history = _ from hp]
    refine bind_eq_ok.2 ⟨(), _, rfl, ?_⟩
    rw [show Stepper.restore s.setting _ = _ from hr]
    rfl

/-! ### One small step -/

/-- What all sessions that stand at a stop have in common. -/
structure Sound (s : Session σ δ) : Prop where
  setting : s.setting.Steady
  scheme : s.scheme.Exact
  stepper : s.stepper.Ready s.setting
  history : s.history.entries.Tidy
  stop : ∃ stop, s.stepper.last = some stop ∧ s.state = (if stop.kind.isFinal then .finished else .started) ∧
    (stop.kind.isFinal = false → s.exception = none)

/-- Two sessions that differ only in what nothing later shows: anchors that have left the stack, and the state of
the host. -/
structure Alike (s t : Session σ δ) : Prop where
  setting : t.setting = s.setting
  scheme : t.scheme = s.scheme
  stepper : s.stepper.Alike t.stepper
  exception : t.exception = s.exception
  state : t.state = s.state
  history : t.history = s.history
  console : t.world.console = s.world.console

theorem Alike.symm (h : s.Alike t) : t.Alike s :=
  ⟨h.setting.symm, h.scheme.symm, h.stepper.symm, h.exception.symm, h.state.symm, h.history.symm, h.console.symm⟩

@[refl] theorem Alike.refl (s : Session σ δ) : s.Alike s := ⟨rfl, rfl, .refl _, rfl, rfl, rfl, rfl⟩

/-- The session after one small step forward. -/
def next? (s : Session σ δ) : Option (Session σ δ) :=
  match forward .micro s with
  | .ok _ s' => some s'
  | .error .. => none

theorem next?_eq_some : s.next? = some s' ↔ forward .micro s = .ok () s' := by
  unfold next?
  cases forward .micro s <;> simp

/-- A session is running or it has come to its end. -/
theorem Sound.state_eq (hs : s.Sound) : s.state = .started ∨ s.state = .finished := by
  obtain ⟨stop, -, hstate, -⟩ := hs.stop
  rw [hstate]
  cases stop.kind.isFinal <;> simp

/-- What one small step forward does. -/
theorem forward_micro (hs : s.Sound) : forward .micro s = .ok () s' ↔
    s.state = .started ∧ ∃ snapshot stop stepper world, s.stepper.save = .ok snapshot ∧
      snapshot.kind.isFinal = false ∧
      s.stepper.step s.setting { s.world with console := s.world.console.open_ } = (.ok stop, stepper, world) ∧
      s' = finish { (s.remember snapshot).ready with stepper, world } stop := by
  rcases hs.state_eq with hstate | hstate
  · obtain ⟨limit, hlimit⟩ := Nat.exists_eq_succ_of_ne_zero (show Machine.endless ≠ 0 by decide)
    rw [forward_eq_ok hstate, hlimit]
    constructor
    · rintro ⟨snapshot, hsave, hk, stop, t, ha, rfl⟩
      obtain ⟨stepper, world, hstep, rfl⟩ := advance_eq_ok.1 (advanceTo_micro.1 ha)
      exact ⟨hstate, snapshot, stop, stepper, world, hsave, hk, hstep, rfl⟩
    · rintro ⟨-, snapshot, stop, stepper, world, hsave, hk, hstep, rfl⟩
      exact ⟨snapshot, hsave, hk, stop, _, advanceTo_micro.2 (advance_eq_ok.2 ⟨stepper, world, hstep, rfl⟩), rfl⟩
  · rw [forward_last hstate]
    constructor
    · intro h
      cases h
    · rintro ⟨h, -⟩
      rw [hstate] at h
      cases h

theorem finish_frame (s : Session σ δ) (stop : Stop) :
    (s.finish stop).setting = s.setting ∧ (s.finish stop).scheme = s.scheme ∧
      (s.finish stop).stepper = s.stepper ∧ (s.finish stop).history = s.history ∧
      (s.finish stop).world = s.world := by
  unfold finish
  split <;> exact ⟨rfl, rfl, rfl, rfl, rfl⟩

theorem state_finish (hs : s.state = .started) (stop : Stop) :
    (s.finish stop).state = if stop.kind.isFinal then .finished else .started := by
  unfold finish
  cases stop.kind <;> simp [StopKind.isFinal, hs]

theorem exception_finish (s : Session σ δ) (h : stop.kind.isFinal = false) :
    (s.finish stop).exception = s.exception := by
  unfold finish
  cases hk : stop.kind with
  | micro | coarse | ended => rfl
  | uncaught =>
    rw [hk] at h
    cases h

/-- A session that has found a stop stands at it. -/
theorem sound_finish {stepper stepper' : Stepper} {world world' : World σ} (hc : s.setting.Steady)
    (hd : s.scheme.Exact) (hr : stepper.Ready s.setting) (hh : s.history.entries.Tidy) (hs : s.state = .started)
    (he : s.exception = none) (hstep : stepper.step s.setting world = (.ok stop, stepper', world')) :
    (finish { s with stepper := stepper', world := world' } stop).Sound := by
  obtain ⟨hsetting, hscheme, hstepper, hhistory, -⟩ :=
    finish_frame { s with stepper := stepper', world := world' } stop
  have hready := Stepper.ready_step hc.isRead hc.keeps hr world
  rw [hstep] at hready
  refine ⟨?_, ?_, ?_, ?_, stop, ?_,
    state_finish (s := { s with stepper := stepper', world := world' }) hs stop,
    fun hk => (exception_finish _ hk).trans he⟩
  · rw [hsetting]
    exact hc
  · rw [hscheme]
    exact hd
  · rw [hsetting, hstepper]
    exact hready
  · rw [hhistory]
    exact hh
  · rw [hstepper]
    exact (Stepper.leads_of_step hstep).last

/-- A small step leads to a stop again. -/
theorem Sound.next (hs : s.Sound) (h : s.next? = some s') : s'.Sound := by
  obtain ⟨-, snapshot, stop, stepper, world, -, -, hstep, rfl⟩ := (forward_micro hs).1 (next?_eq_some.1 h)
  exact sound_finish (s := (s.remember snapshot).ready) hs.setting hs.scheme hs.stepper
    (DeltaStack.tidy_push _ _ _) rfl rfl hstep

/-- Sessions that are alike step to sessions that are alike. -/
theorem Alike.next (hs : s.Sound) (ht : t.Sound) (ha : s.Alike t) (h : s.next? = some s') :
    ∃ t', t.next? = some t' ∧ s'.Alike t' := by
  obtain ⟨hstate, snapshot, stop, stepper, world, hsave, hk, hstep, rfl⟩ :=
    (forward_micro hs).1 (next?_eq_some.1 h)
  have hready := ht.stepper
  rw [ha.setting] at hready
  -- the worlds differ in the state of the host alone
  have hw : World.Alike { s.world with console := s.world.console.open_ }
      { t.world with console := t.world.console.open_ } := by
    show s.world.console.open_ = t.world.console.open_
    rw [ha.console]
  obtain ⟨hstop, hstepper, hworld⟩ := Stepper.alike_step hs.setting.isRead hs.setting.keeps hs.setting.respects
    hs.stepper hready ha.stepper hw
  rw [hstep] at hstop hstepper hworld
  rcases hr : t.stepper.step s.setting { t.world with console := t.world.console.open_ } with ⟨stop', stepper', world'⟩
  rw [hr] at hstop hstepper hworld
  dsimp only at hstop hstepper hworld
  subst hstop
  refine ⟨finish { (t.remember snapshot).ready with stepper := stepper', world := world' } stop,
    next?_eq_some.2 ((forward_micro ht).2 ?_), ?_⟩
  · refine ⟨ha.state.trans hstate, snapshot, stop, stepper', world', ?_, hk, ?_, rfl⟩
    · rw [ha.stepper.save_eq, hsave]
    · rw [ha.setting, hr]
  · have hhistory : (t.remember snapshot).history = (s.remember snapshot).history := by
      unfold remember
      dsimp only
      rw [ha.history, ha.scheme, ha.exception, ha.state]
    unfold finish
    split
    all_goals exact ⟨ha.setting, ha.scheme, hstepper, rfl, rfl, hhistory, hworld.symm⟩

/-- What going back finds after a small step of a session that was alike: the bins before it, and what was kept
of the stop before it. -/
theorem Alike.pop_next (ht : t.Sound) (hnext : t.next? = some t') (ha : s.Alike t') :
    ∃ snapshot, t.stepper.save = .ok snapshot ∧ t.setting = s.setting ∧ t.scheme = s.scheme ∧
      s.world.console.drop? = some t.world.console ∧
      s.history.pop s.scheme = .ok (snapshot.machine,
        { snapshot.toBookmark with exception := t.exception, state := t.state }, t.history) := by
  obtain ⟨hstate, snapshot, stop, stepper, world, hsave, hk, hstep, rfl⟩ :=
    (forward_micro ht).1 (next?_eq_some.1 hnext)
  obtain ⟨hsetting, hscheme, -, hhistory, hworld⟩ :=
    finish_frame { (t.remember snapshot).ready with stepper, world } stop
  have hset : t.setting = s.setting := hsetting.symm.trans ha.setting
  have hsch : t.scheme = s.scheme := hscheme.symm.trans ha.scheme
  refine ⟨snapshot, hsave, hset, hsch, ?_, ?_⟩
  · -- the step has logged into its own bin only
    have hx := ht.setting.extends_step t.stepper { t.world with console := t.world.console.open_ }
    rw [hstep] at hx
    rw [← ha.console, hworld]
    exact hx.drop?_eq
  · have hpush : s.history = t.history.push t.scheme snapshot.machine
        { snapshot.toBookmark with exception := t.exception, state := t.state } := ha.history.symm.trans hhistory
    rw [hpush, ← hsch]
    exact History.pop_push ht.scheme ht.history _ _

/-- Going back after a small step gives the session before it, as far as anything later shows. -/
theorem Alike.undo {kind : StopKind} (ht : t.Sound) (hnext : t.next? = some t') (hs : s.Sound) (ha : s.Alike t')
    (h : undo s = .ok kind s') : s'.Alike t ∧ s'.Sound ∧ t.stepper.last.map Stop.kind = some kind := by
  obtain ⟨snapshot, hsave, hset, hsch, hdrop, hpop⟩ := ha.pop_next ht hnext
  obtain ⟨console, machine, saved, history, stepper, hdrop', hpop', hrestore, rfl, rfl⟩ := undo_eq_ok.1 h
  cases hdrop.symm.trans hdrop'
  cases hpop.symm.trans hpop'
  -- its stepper is the one before, without what no later stop depends on
  have hkept : stepper = t.stepper.kept := by
    rw [← hset] at hrestore
    rcases Stepper.restore_save ht.stepper hsave with hr | ⟨hr, -⟩
    · exact Except.ok.inj (hrestore.symm.trans hr)
    · cases hrestore.symm.trans hr
  subst hkept
  refine ⟨⟨hset, hsch, (Stepper.alike_kept t.stepper).symm, rfl, rfl, rfl, rfl⟩, ?_, Stepper.kind_of_save hsave⟩
  obtain ⟨last, hlast, hstate, hexc⟩ := ht.stop
  refine ⟨hs.setting, hs.scheme, ?_, ht.history, { kind := last.kind }, ?_, hstate, hexc⟩
  · have hready := Stepper.ready_kept ht.stepper
    rw [hset] at hready
    exact hready
  · show Option.map _ t.stepper.last = _
    rw [hlast]
    rfl

/-- There is a way back unless an integer has more than 64 bits. -/
theorem Alike.exists_undo (ht : t.Sound) (hnext : t.next? = some t') (ha : s.Alike t')
    (hfit : t.stepper.machine.Fits) : ∃ kind r, Session.undo s = .ok kind r := by
  obtain ⟨snapshot, hsave, hset, -, hdrop, hpop⟩ := ha.pop_next ht hnext
  rcases Stepper.restore_save ht.stepper hsave with hr | ⟨-, hnot⟩
  · rw [hset] at hr
    exact ⟨_, _, undo_eq_ok.2 ⟨_, _, _, _, _, hdrop, hpop, hr, rfl, rfl⟩⟩
  · exact absurd hfit hnot

end Session

end Stepwise

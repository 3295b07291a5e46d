import Stepwise.Proofs.Session.Step

/-!
# Sessions as cursors

A session moves over the stops that a fresh session reaches by small steps, one after the other.

* `Session.walk?`: the session after some small steps forward.
* `Session.At`: a session that does not differ from a fresh one at some position, as far as anything later shows.
* `Turn.Moves`: where a turn forward or backward takes the position.
* `Session.turns_at`: whatever turns were taken, the session is at the position that they lead to.
-/

namespace Stepwise

variable {σ δ α β : Type}

namespace Session

open SessionM

variable {s s' t : Session σ δ} {stop : Stop} {limit : Nat}

/-! ### The trace of small steps -/

/-- The session after some small steps forward. -/
def walk? : Nat → Session σ δ → Option (Session σ δ)
  | 0, s => some s
  | n + 1, s => (s.walk? n).bind next?

/-- The kind of the stop after some small steps. -/
def kindAt (first : Session σ δ) (k : Nat) : Option StopKind :=
  (first.walk? k).bind fun s => s.stepper.last.map Stop.kind

theorem walk?_succ_of_next? (h : s.next? = some t) (n : Nat) : s.walk? (n + 1) = t.walk? n := by
  induction n with
  | zero => exact h
  | succ n ih =>
    show (s.walk? (n + 1)).bind next? = (t.walk? n).bind next?
    rw [ih]

/-- A session at a position of the trace of another. -/
def At (first : Session σ δ) (k : Nat) (s : Session σ δ) : Prop :=
  ∃ t, first.walk? k = some t ∧ t.Sound ∧ s.Sound ∧ s.Alike t

variable {first : Session σ δ} {k : Nat}

theorem At.kindAt (h : At first k s) : first.kindAt k = s.stepper.last.map Stop.kind := by
  obtain ⟨t, hw, -, -, ha⟩ := h
  unfold Session.kindAt
  rw [hw]
  exact ha.stepper.kind

theorem At.next (h : At first k s) (hn : s.next? = some s') : At first (k + 1) s' := by
  obtain ⟨t, hw, ht, hs, ha⟩ := h
  obtain ⟨t', hn', ha'⟩ := ha.next hs ht hn
  refine ⟨t', ?_, ht.next hn', hs.next hn, ha'⟩
  show (first.walk? k).bind next? = some t'
  rw [hw]
  exact hn'

theorem At.walk? {n : Nat} (h : At first k s) (hn : s.walk? n = some s') : At first (k + n) s' := by
  induction n generalizing s' with
  | zero =>
    cases hn
    exact h
  | succ n ih =>
    obtain ⟨r, hr, hn⟩ := Option.bind_eq_some_iff.1 hn
    exact (ih hr).next hn

/-- The kinds of later stops are those of the trace. -/
theorem At.kindAt_add {n : Nat} {kind : StopKind} (h : At first k s) (hn : s.kindAt n = some kind) :
    first.kindAt (k + n) = some kind := by
  obtain ⟨r, hr, hkind⟩ := Option.bind_eq_some_iff.1 hn
  rw [(h.walk? hr).kindAt, hkind]

theorem Sound.walk? {n : Nat} (hs : s.Sound) (h : s.walk? n = some s') : s'.Sound := by
  induction n generalizing s' with
  | zero =>
    cases h
    exact hs
  | succ n ih =>
    obtain ⟨r, hr, hn⟩ := Option.bind_eq_some_iff.1 h
    exact (ih hr).next hn

theorem At.undo {kind : StopKind} (hf : first.Sound) (h : At first (k + 1) s) (hu : undo s = .ok kind s') :
    At first k s' ∧ first.kindAt k = some kind := by
  obtain ⟨t', hw, -, hs, ha⟩ := h
  obtain ⟨t, hw, hnext⟩ := Option.bind_eq_some_iff.1 hw
  have ht := hf.walk? hw
  obtain ⟨ha', hs', hkind⟩ := ha.undo ht hnext hs hu
  refine ⟨⟨t, hw, ht, hs', ha'⟩, ?_⟩
  unfold Session.kindAt
  rw [hw]
  exact hkind

/-! ### Positions -/

theorem size_next (hs : s.Sound) (h : s.next? = some s') :
    s'.history.size = s.history.size + 1 ∧ s'.world.console.size = s.world.console.size + 1 := by
  obtain ⟨-, snapshot, stop, stepper, world, -, -, hstep, rfl⟩ := (forward_micro hs).1 (next?_eq_some.1 h)
  obtain ⟨-, -, -, hhistory, hworld⟩ := finish_frame { (s.remember snapshot).ready with stepper, world } stop
  rw [hhistory, hworld]
  refine ⟨rfl, ?_⟩
  have hx := hs.setting.extends_step s.stepper { s.world with console := s.world.console.open_ }
  rw [hstep] at hx
  exact hx.size_eq

/-- A session whose trace starts with it: nothing is kept yet, and one bin is open. -/
structure Fresh (s : Session σ δ) : Prop where
  sound : s.Sound
  history : s.history.size = 0
  console : s.world.console.size = 1

theorem Fresh.at_zero (hf : first.Fresh) : At first 0 first := ⟨first, rfl, hf.sound, hf.sound, .refl first⟩

/-- Every small step keeps one stop and opens one bin. -/
theorem Fresh.size_walk? (hf : first.Fresh) (h : first.walk? k = some t) :
    t.history.size = k ∧ t.world.console.size = k + 1 := by
  induction k generalizing t with
  | zero =>
    cases h
    exact ⟨hf.history, hf.console⟩
  | succ k ih =>
    obtain ⟨r, hr, hn⟩ := Option.bind_eq_some_iff.1 h
    obtain ⟨hhistory, hconsole⟩ := size_next (hf.sound.walk? hr) hn
    obtain ⟨hk, hb⟩ := ih hr
    omega

theorem At.size (hf : first.Fresh) (h : At first k s) : s.history.size = k ∧ s.world.console.size = k + 1 := by
  obtain ⟨t, hw, -, -, ha⟩ := h
  rw [← ha.history, ← ha.console]
  exact hf.size_walk? hw

theorem At.isFirst (hf : first.Fresh) (h : At first k s) : s.isFirst ↔ k = 0 := by
  obtain ⟨hsize, -⟩ := h.size hf
  unfold Session.isFirst History.isEmpty
  rw [List.isEmpty_iff, ← List.length_eq_zero_iff]
  exact hsize ▸ Iff.rfl

/-! ### Coarse steps -/

theorem finish_of_micro (s : Session σ δ) (h : stop.kind = .micro) : s.finish stop = s := by
  unfold finish
  rw [h]

/-- A coarse step forward is a number of small steps, and stops at the first stop that is not a small one. -/
theorem walk?_of_coarse {snapshot : Snapshot} (hs : s.Sound) (hstate : s.state = .started)
    (hsave : s.stepper.save = .ok snapshot) (hk : snapshot.kind.isFinal = false)
    (h : advanceTo .coarse limit (s.remember snapshot).ready = .ok stop t) :
    ∃ n, s.walk? (n + 1) = some (t.finish stop) ∧ t.stepper.last = some stop ∧ stop.kind ≠ .micro ∧
      ∀ j, 0 < j → j ≤ n → s.kindAt j = some .micro := by
  induction limit generalizing s snapshot with
  | zero => cases h
  | succ limit ih =>
    rcases advanceTo_coarse h with ⟨hkind, ha⟩ | ⟨stop', r, snapshot', hkind, ha, hsave', h⟩
    · obtain ⟨stepper, world, hstep, rfl⟩ := advance_eq_ok.1 ha
      refine ⟨0, next?_eq_some.2 ((forward_micro hs).2 ?_), (Stepper.leads_of_step hstep).last, hkind,
        fun j h0 hn => by omega⟩
      exact ⟨hstate, snapshot, stop, stepper, world, hsave, hk, hstep, rfl⟩
    · obtain ⟨stepper, world, hstep, rfl⟩ := advance_eq_ok.1 ha
      have hnext : s.next? = some { (s.remember snapshot).ready with stepper, world } := by
        refine next?_eq_some.2 ((forward_micro hs).2 ?_)
        exact ⟨hstate, snapshot, stop', stepper, world, hsave, hk, hstep, (finish_of_micro _ hkind).symm⟩
      have hlast : stepper.last.map Stop.kind = some .micro := by
        rw [(Stepper.leads_of_step hstep).last, Option.map_some, hkind]
      have hk' : snapshot'.kind.isFinal = false := by
        have he := Stepper.kind_of_save hsave'
        rw [hlast] at he
        rw [← Option.some.inj he]
        rfl
      obtain ⟨n, hw, hlast', hstop, hskip⟩ := ih (hs.next hnext) rfl hsave' hk' h
      refine ⟨n + 1, ?_, hlast', hstop, fun j h0 hn => ?_⟩
      · rw [walk?_succ_of_next? hnext]
        exact hw
      · obtain ⟨i, rfl⟩ := Nat.exists_eq_succ_of_ne_zero (Nat.ne_of_gt h0)
        unfold Session.kindAt
        rw [walk?_succ_of_next? hnext]
        cases i with
        | zero => exact hlast
        | succ i => exact hskip (i + 1) (by omega) (by omega)

/-- A coarse step backward goes to the last earlier stop that is a coarse one, or to the first stop. -/
theorem At.undoTo_coarse (hf : first.Fresh) (hk : 0 < k) (h : At first k s) (hu : undoTo .coarse k s = .ok () s') :
    ∃ j < k, At first j s' ∧ (j = 0 ∨ first.kindAt j = some .coarse) ∧
      ∀ i, j < i → i < k → first.kindAt i ≠ some .coarse := by
  induction k generalizing s with
  | zero => omega
  | succ k ih =>
    unfold undoTo at hu
    obtain ⟨kind, r, hundo, hu⟩ := bind_eq_ok.1 hu
    obtain ⟨hr, hkind⟩ := h.undo hf.sound hundo
    rw [get_bind] at hu
    by_cases hstop : k = 0 ∨ kind = .coarse
    · have hneg : ¬(Mode.coarse = .coarse ∧ (!r.isFirst) = true ∧ kind ≠ .coarse) := by
        rintro ⟨-, hfirst, hne⟩
        rcases hstop with h0 | hc
        · rw [(hr.isFirst hf).2 h0] at hfirst
          cases hfirst
        · exact hne hc
      rw [if_neg hneg] at hu
      cases hu
      refine ⟨k, by omega, hr, ?_, fun i hi hik => by omega⟩
      rw [hkind]
      exact hstop.imp_right fun hc => by rw [hc]
    · obtain ⟨h0, hne⟩ := not_or.1 hstop
      have hpos : Mode.coarse = .coarse ∧ (!r.isFirst) = true ∧ kind ≠ .coarse := by
        refine ⟨rfl, ?_, hne⟩
        cases hfirst : r.isFirst with
        | false => rfl
        | true => exact absurd ((hr.isFirst hf).1 hfirst) h0
      rw [if_pos hpos] at hu
      obtain ⟨j, hj, hat, hend, hskip⟩ := ih (by omega) hr hu
      refine ⟨j, by omega, hat, hend, fun i hi hik => ?_⟩
      by_cases he : i = k
      · rw [he, hkind]
        simpa using hne
      · exact hskip i hi (by omega)

theorem undoTo_micro : undoTo .micro (k + 1) s = .ok () s' ↔ ∃ kind, undo s = .ok kind s' := by
  unfold undoTo
  rw [bind_eq_ok]
  constructor
  · rintro ⟨kind, r, hundo, h⟩
    cases h
    exact ⟨kind, hundo⟩
  · rintro ⟨kind, hundo⟩
    exact ⟨kind, s', hundo, rfl⟩

theorem backward_eq (mode : Mode) (s : Session σ δ) :
    backward mode s = if s.isFirst then .error .firstStep s else undoTo mode s.history.size s := by
  unfold backward
  rw [get_bind]
  split <;> rfl

end Session

/-! ### Turns -/

/-- A step forward or backward. -/
inductive Turn where
  | forward (mode : Mode)
  | backward (mode : Mode)

namespace Turn

/-- What a turn does to a session. -/
def run : Turn → SessionM σ δ Unit
  | forward mode => Session.forward mode
  | backward mode => Session.backward mode

/-- Where a turn takes a position on a trace whose stops have the given kinds. -/
inductive Moves (kindAt : Nat → Option StopKind) : Turn → Nat → Nat → Prop where
  | last {mode : Mode} {k : Nat} (h : (kindAt k).any StopKind.isFinal) : Moves kindAt (forward mode) k k
  | forwardMicro {k : Nat} (h : ¬(kindAt k).any StopKind.isFinal) : Moves kindAt (forward .micro) k (k + 1)
  | forwardCoarse {k k' : Nat} {kind : StopKind} (h : ¬(kindAt k).any StopKind.isFinal) (hlt : k < k')
    (hkind : kindAt k' = some kind) (hne : kind ≠ .micro) (hskip : ∀ j, k < j → j < k' → kindAt j = some .micro) :
    Moves kindAt (forward .coarse) k k'
  | first {mode : Mode} : Moves kindAt (backward mode) 0 0
  | backwardMicro {k : Nat} : Moves kindAt (backward .micro) (k + 1) k
  | backwardCoarse {k k' : Nat} (hlt : k' < k) (hkind : k' = 0 ∨ kindAt k' = some .coarse)
    (hskip : ∀ j, k' < j → j < k → kindAt j ≠ some .coarse) : Moves kindAt (backward .coarse) k k'

/-- Where turns one after the other take a position. -/
def Leads (kindAt : Nat → Option StopKind) : Nat → List Turn → Nat → Prop
  | k, [], k' => k' = k
  | k, turn :: turns, k' => ∃ j, Moves kindAt turn k j ∧ Leads kindAt j turns k'

variable {kindAt : Nat → Option StopKind} {turn : Turn} {k i j : Nat}

/-- A turn takes a position to one place only. -/
theorem Moves.unique (hi : Moves kindAt turn k i) (hj : Moves kindAt turn k j) : i = j := by
  cases hi with
  | last h =>
    cases hj with
    | last => rfl
    | forwardMicro h' => exact absurd h h'
    | forwardCoarse h' => exact absurd h h'
  | forwardMicro h =>
    cases hj with
    | last h' => exact absurd h' h
    | forwardMicro => rfl
  | forwardCoarse h hlt hkind hne hskip =>
    cases hj with
    | last h' => exact absurd h' h
    | forwardCoarse h' hlt' hkind' hne' hskip' =>
      rcases Nat.lt_trichotomy i j with hij | hij | hij
      · have he := hkind.symm.trans (hskip' i hlt hij)
        exact absurd (Option.some.inj he) hne
      · exact hij
      · have he := hkind'.symm.trans (hskip j hlt' hij)
        exact absurd (Option.some.inj he) hne'
  | first =>
    cases hj with
    | first => rfl
    | backwardCoarse hlt => omega
  | backwardMicro =>
    cases hj with
    | backwardMicro => rfl
  | backwardCoarse hlt hkind hskip =>
    cases hj with
    | first => omega
    | backwardCoarse hlt' hkind' hskip' =>
      rcases Nat.lt_trichotomy i j with hij | hij | hij
      · exact absurd (hkind'.resolve_left (by omega)) (hskip j hij hlt')
      · exact hij
      · exact absurd (hkind.resolve_left (by omega)) (hskip' i hij hlt)

theorem Leads.unique {turns : List Turn} (hi : Leads kindAt k turns i) (hj : Leads kindAt k turns j) : i = j := by
  induction turns generalizing k with
  | nil => exact hi.trans hj.symm
  | cons turn turns ih =>
    obtain ⟨i', hmi, hi⟩ := hi
    obtain ⟨j', hmj, hj⟩ := hj
    rw [hmi.unique hmj] at hi
    exact ih hi hj

end Turn

namespace Session

open SessionM

variable {s s' first : Session σ δ} {k : Nat} {turn : Turn}

/-- The session after a turn that succeeds, or that is refused because there is no such step. -/
def turn? (s : Session σ δ) (turn : Turn) : Option (Session σ δ) :=
  match turn.run s with
  | .ok _ s' => some s'
  | .error .lastStep s' | .error .firstStep s' => some s'
  | .error .. => none

/-- The session has come to its end exactly at a final stop. -/
theorem At.final_iff (h : At first k s) : (first.kindAt k).any StopKind.isFinal ↔ s.state = .finished := by
  obtain ⟨-, -, -, hs, -⟩ := id h
  obtain ⟨stop, hlast, hstate, -⟩ := hs.stop
  rw [h.kindAt, hlast, hstate]
  cases hf : stop.kind.isFinal <;> simp [hf]

/-- Something that does not fail for want of a step. -/
def Proceeds (x : SessionM σ δ α) : Prop := ∀ s e t, x s = .error e t → e ≠ .lastStep ∧ e ≠ .firstStep

namespace Proceeds

theorem bind {x : SessionM σ δ α} {f : α → SessionM σ δ β} (hx : Proceeds x) (hf : ∀ a, Proceeds (f a)) :
    Proceeds (x >>= f) := by
  intro s e t h
  change EStateM.bind x f s = _ at h
  unfold EStateM.bind at h
  cases hr : x s with
  | ok a r =>
    rw [hr] at h
    exact hf a r e t h
  | error e' r =>
    rw [hr] at h
    cases h
    exact hx s _ _ hr

theorem pure (a : α) : Proceeds (Pure.pure a : SessionM σ δ α) := by
  intro s e t h
  cases h

theorem get : Proceeds (MonadState.get : SessionM σ δ (Session σ δ)) := by
  intro s e t h
  cases h

theorem set (s : Session σ δ) : Proceeds (MonadStateOf.set s : SessionM σ δ PUnit) := by
  intro s e t h
  cases h

theorem modify (f : Session σ δ → Session σ δ) : Proceeds (modify f : SessionM σ δ PUnit) := by
  intro s e t h
  cases h

theorem throw {e : SessionError} (hl : e ≠ .lastStep) (hf : e ≠ .firstStep) :
    Proceeds (MonadExcept.throw e : SessionM σ δ α) := by
  intro s e t h
  cases h
  exact ⟨hl, hf⟩

theorem save : Proceeds (Session.save : SessionM σ δ Unit) := by
  refine .bind .get fun s => ?_
  split
  · exact .throw (by simp) (by simp)
  · split
    · exact .bind (.throw (by simp) (by simp)) fun _ => .set _
    · exact .set _

theorem advance : Proceeds (Session.advance : SessionM σ δ Stop) := by
  refine .bind .get fun s => ?_
  refine .bind (.set _) fun _ => ?_
  split
  · exact .pure _
  · exact .throw (by simp) (by simp)

theorem advanceTo (mode : Mode) (limit : Nat) : Proceeds (Session.advanceTo mode limit : SessionM σ δ Stop) := by
  induction limit with
  | zero => exact .throw (by simp) (by simp)
  | succ limit ih =>
    refine .bind advance fun stop => ?_
    split
    · exact .bind save fun _ => .bind (.modify _) fun _ => ih
    · exact .pure _

theorem undo : Proceeds (Session.undo : SessionM σ δ StopKind) := by
  refine .bind .get fun s => ?_
  split
  · exact .throw (by simp) (by simp)
  · refine .bind (.set _) fun _ => ?_
    split
    · exact .throw (by simp) (by simp)
    · refine .bind (.set _) fun _ => ?_
      split
      · exact .throw (by simp) (by simp)
      · exact .bind (.set _) fun _ => .pure _

theorem undoTo (mode : Mode) (stops : Nat) : Proceeds (Session.undoTo mode stops : SessionM σ δ Unit) := by
  induction stops with
  | zero => exact .pure _
  | succ stops ih =>
    refine .bind undo fun kind => .bind .get fun s => ?_
    split
    · exact ih
    · exact .pure _

/-- A session that has not come to its end can step forward, unless something else goes wrong. -/
theorem forward {e : SessionError} {t : Session σ δ} {mode : Mode} (hs : s.state = .started)
    (h : Session.forward mode s = .error e t) : e ≠ .lastStep ∧ e ≠ .firstStep := by
  have hl : s.isLast = false := by simp [isLast, hs]
  unfold Session.forward at h
  rw [get_bind, hl, if_neg Bool.false_ne_true] at h
  dsimp only at h
  rw [get_bind, if_pos hs] at h
  refine Proceeds.bind save (fun _ => .bind (.modify _) fun _ => .bind (.modify _) fun _ => ?_) s e t h
  refine .bind (advanceTo mode _) fun stop => ?_
  split
  · exact .modify _
  · exact .modify _
  · exact .pure _
  · exact .pure _

end Proceeds

theorem turn?_eq_some (h : s.turn? turn = some s') :
    turn.run s = .ok () s' ∨ turn.run s = .error .lastStep s' ∨ turn.run s = .error .firstStep s' := by
  unfold turn? at h
  split at h
  · cases h
    exact .inl ‹_›
  · cases h
    exact .inr (.inl ‹_›)
  · cases h
    exact .inr (.inr ‹_›)
  · cases h

theorem At.forward {mode : Mode} (h : At first k s) (ht : s.turn? (.forward mode) = some s') :
    ∃ k', Turn.Moves first.kindAt (.forward mode) k k' ∧ At first k' s' := by
  obtain ⟨-, -, -, hs, -⟩ := id h
  have hrun : Turn.run (.forward mode) s = Session.forward mode s := rfl
  rcases hs.state_eq with hstate | hstate
  · have hfinal : ¬(first.kindAt k).any StopKind.isFinal := by
      rw [h.final_iff, hstate]
      simp
    have hok : Session.forward mode s = .ok () s' := by
      rcases turn?_eq_some ht with hr | hr | hr
      · exact hr
      · exact absurd rfl (Proceeds.forward hstate hr).1
      · exact absurd rfl (Proceeds.forward hstate hr).2
    cases mode with
    | micro => exact ⟨k + 1, .forwardMicro hfinal, h.next (next?_eq_some.2 hok)⟩
    | coarse =>
      obtain ⟨snapshot, hsave, hk, stop, t, ha, rfl⟩ := (forward_eq_ok hstate).1 hok
      obtain ⟨n, hw, hlast, hkind, hskip⟩ := walk?_of_coarse hs hstate hsave hk ha
      have hat := h.walk? hw
      refine ⟨k + (n + 1), .forwardCoarse hfinal (by omega) ?_ hkind fun j hj hj' => ?_, hat⟩
      · rw [hat.kindAt, (finish_frame t stop).2.2.1, hlast]
        rfl
      · have hmicro := h.kindAt_add (hskip (j - k) (by omega) (by omega))
        rwa [Nat.add_sub_of_le (by omega)] at hmicro
  · rw [forward_last hstate] at hrun
    have he : s' = s := by
      rcases turn?_eq_some ht with hr | hr | hr
      all_goals
        rw [hrun] at hr
        cases hr
      rfl
    rw [he]
    exact ⟨k, .last (h.final_iff.2 hstate), h⟩

theorem At.backward {mode : Mode} (hf : first.Fresh) (h : At first k s) (ht : s.turn? (.backward mode) = some s') :
    ∃ k', Turn.Moves first.kindAt (.backward mode) k k' ∧ At first k' s' := by
  have hrun : Turn.run (.backward mode) s = _ := backward_eq mode s
  rw [(h.size hf).1] at hrun
  cases k with
  | zero =>
    rw [if_pos ((h.isFirst hf).2 rfl)] at hrun
    have he : s' = s := by
      rcases turn?_eq_some ht with hr | hr | hr
      all_goals
        rw [hrun] at hr
        cases hr
      rfl
    rw [he]
    exact ⟨0, .first, h⟩
  | succ k =>
    rw [if_neg fun hfirst => Nat.succ_ne_zero k ((h.isFirst hf).1 hfirst)] at hrun
    have hok : undoTo mode (k + 1) s = .ok () s' := by
      rcases turn?_eq_some ht with hr | hr | hr
      · exact hrun.symm.trans hr
      · exact absurd rfl (Proceeds.undoTo mode (k + 1) s _ _ (hrun.symm.trans hr)).1
      · exact absurd rfl (Proceeds.undoTo mode (k + 1) s _ _ (hrun.symm.trans hr)).2
    cases mode with
    | micro =>
      obtain ⟨kind, hundo⟩ := undoTo_micro.1 hok
      exact ⟨k, .backwardMicro, (h.undo hf.sound hundo).1⟩
    | coarse =>
      obtain ⟨j, hj, hat, hend, hskip⟩ := h.undoTo_coarse hf (by omega) hok
      exact ⟨j, .backwardCoarse hj hend hskip, hat⟩

/-- Every turn moves the session along its trace. -/
theorem At.turn? (hf : first.Fresh) (h : At first k s) (ht : s.turn? turn = some s') :
    ∃ k', Turn.Moves first.kindAt turn k k' ∧ At first k' s' := by
  cases turn with
  | forward mode => exact h.forward ht
  | backward mode => exact h.backward hf ht

theorem At.turns {turns : List Turn} (hf : first.Fresh) (h : At first k s) (ht : turns.foldlM Session.turn? s = some s') :
    ∃ k', Turn.Leads first.kindAt k turns k' ∧ At first k' s' := by
  induction turns generalizing k s with
  | nil =>
    cases ht
    exact ⟨k, rfl, h⟩
  | cons turn turns ih =>
    obtain ⟨r, hr, ht⟩ := Option.bind_eq_some_iff.1 ht
    obtain ⟨j, hmoves, hj⟩ := h.turn? hf hr
    obtain ⟨k', hleads, hk'⟩ := ih hj ht
    exact ⟨k', ⟨j, hmoves, hleads⟩, hk'⟩

/-! ### The start -/

theorem mem_of_mem_table {functions : List (SessionFunction σ)} {f : SessionFunction σ}
    (h : f ∈ SessionFunction.table functions) : f ∈ functions := by
  have hfold (kept : List (SessionFunction σ)) (fs : List (SessionFunction σ))
      (h : f ∈ fs.foldl (fun kept f => kept.filter (·.name != f.name) ++ [f]) kept) : f ∈ kept ∨ f ∈ fs := by
    induction fs generalizing kept with
    | nil => exact .inl h
    | cons g fs ih =>
      rcases ih _ h with h | h
      · rcases List.mem_append.1 h with h | h
        · exact .inl (List.mem_filter.1 h).1
        · exact .inr (by simp_all)
      · exact .inr (List.mem_cons_of_mem g h)
  rcases hfold [] functions h with h | h
  · cases h
  · exact h

/-- Functions that answer by their arguments alone make a setting that does. -/
theorem steady_ofPrograms {source : String} {program : Program} {functions : List (SessionFunction σ)}
    (hp : Program.ofSource source = .ok program) (hf : ∀ f ∈ functions, f.Steady) (text : String)
    (maxDepth : Nat) (draws : Nat → Float) :
    (Setting.ofPrograms (Library.read text) program
      ((SessionFunction.table functions).map SessionFunction.toHost) maxDepth draws).Steady := by
  refine ⟨Setting.isRead_ofPrograms hp text _ maxDepth draws, ?_, ?_, ?_⟩
  · intro f hmem
    obtain ⟨g, -, rfl⟩ := List.mem_map.1 hmem
    exact g.keeps_toHost
  · intro f hmem
    obtain ⟨g, hg, rfl⟩ := List.mem_map.1 hmem
    exact (hf g (mem_of_mem_table hg)).respects
  · intro f hmem
    obtain ⟨g, -, rfl⟩ := List.mem_map.1 hmem
    exact g.extends_toHost

/-- The first step of a session has no stop to keep. -/
theorem forward_notStarted (hs : s.state = .notStarted) (h : Session.forward .micro s = .ok () s') :
    ∃ stop stepper world,
      s.stepper.step s.setting { s.world with console := s.world.console.open_ } = (.ok stop, stepper, world) ∧
      s' = finish { s.ready with stepper, world } stop := by
  have hl : s.isLast = false := by simp [isLast, hs]
  obtain ⟨limit, hlimit⟩ := Nat.exists_eq_succ_of_ne_zero (show Machine.endless ≠ 0 by decide)
  unfold Session.forward at h
  rw [get_bind, hl, if_neg Bool.false_ne_true] at h
  dsimp only at h
  rw [get_bind, if_neg (by simp [hs]), hlimit] at h
  obtain ⟨⟨⟩, r, ho, h⟩ := bind_eq_ok.1 h
  cases ho
  obtain ⟨⟨⟩, r, hm, h⟩ := bind_eq_ok.1 h
  cases hm
  obtain ⟨stop, t, hstop, h⟩ := bind_eq_ok.1 h
  obtain ⟨stepper, world, hstep, rfl⟩ := advance_eq_ok.1 (advanceTo_micro.1 hstop)
  refine ⟨stop, stepper, world, hstep, ?_⟩
  unfold finish
  cases hkind : stop.kind <;> rw [hkind] at h <;> cases h <;> rfl

theorem startOver_eq_ok {library : Program} {source : String} {scheme : DeltaScheme String δ}
    {functions : List (SessionFunction σ)} {host : σ} {draws : Nat → Float}
    (h : startOver library scheme source functions host draws = .ok first) :
    ∃ program stepper, Program.ofSource source = .ok program ∧
      Stepper.start (Setting.ofPrograms library program
        ((SessionFunction.table functions).map SessionFunction.toHost) Setting.defaultDepth draws) = .ok stepper ∧
      Session.forward .micro
        { source
          setting := Setting.ofPrograms library program
            ((SessionFunction.table functions).map SessionFunction.toHost) Setting.defaultDepth draws
          stepper
          scheme
          world := ⟨{}, host⟩ } = .ok () first := by
  unfold startOver at h
  cases hnames : functions.any (·.name.isEmpty) with
  | true =>
    rw [hnames] at h
    cases h
  | false =>
    rw [hnames, if_neg Bool.false_ne_true] at h
    cases hp : Program.ofSource source with
    | error e =>
      rw [hp] at h
      cases h
    | ok program =>
      rw [hp] at h
      change (Except.bind (Except.ok program) _ : Except SessionError (Session σ δ)) = _ at h
      unfold Except.bind at h
      dsimp only at h
      split at h
      · cases h
      · cases hs : Stepper.start (Setting.ofPrograms library program
            ((SessionFunction.table functions).map SessionFunction.toHost) Setting.defaultDepth draws) with
        | error f =>
          rw [hs] at h
          cases h
        | ok stepper =>
          rw [hs] at h
          change (Except.bind (Except.ok stepper) _ : Except SessionError (Session σ δ)) = _ at h
          unfold Except.bind at h
          dsimp only at h
          split at h
          · rename_i hr
            cases h
            exact ⟨program, stepper, rfl, hs, hr⟩
          · cases h

theorem fresh_startOver {source text : String} {scheme : DeltaScheme String δ} {functions : List (SessionFunction σ)}
    {host : σ} {draws : Nat → Float} (hd : scheme.Exact) (hf : ∀ f ∈ functions, f.Steady)
    (h : startOver (Library.read text) scheme source functions host draws = .ok first) : first.Fresh := by
  obtain ⟨program, stepper, hp, hstart, hforward⟩ := startOver_eq_ok h
  have hc := steady_ofPrograms hp hf text Setting.defaultDepth draws
  have hready := Stepper.ready_start hc.isRead hstart
  obtain ⟨stop, stepper', world, hstep, rfl⟩ := forward_notStarted rfl hforward
  dsimp only at hstep
  have hx := hc.extends_step stepper { console := Console.open_ {}, host }
  rw [hstep] at hx
  refine ⟨sound_finish hc hd hready (fun _ => rfl) rfl rfl hstep, ?_, ?_⟩
  · rw [(finish_frame _ stop).2.2.2.1]
    rfl
  · rw [(finish_frame _ stop).2.2.2.2]
    exact hx.size_eq

/-- A session is a cursor on the trace of small steps. Whatever turns were taken, it shows what a fresh session
shows after as many small steps as its position says, it has kept as many stops, and one more bin is open. -/
theorem turns_at {source text : String} {scheme : DeltaScheme String δ} {functions : List (SessionFunction σ)}
    {host : σ} {draws : Nat → Float} {turns : List Turn} (hd : scheme.Exact) (hf : ∀ f ∈ functions, f.Steady)
    (h : startOver (Library.read text) scheme source functions host draws = .ok first)
    (ht : turns.foldlM Session.turn? first = some s) :
    ∃ k t, (∀ j, Turn.Leads first.kindAt 0 turns j ↔ j = k) ∧ first.walk? k = some t ∧
      s.stepper.machine = t.stepper.machine ∧ s.stepper.Alike t.stepper ∧ s.exception = t.exception ∧
      s.state = t.state ∧ s.status = t.status ∧ s.collect = t.collect ∧ s.history.size = k ∧
      s.world.console.size = k + 1 := by
  have hfresh := fresh_startOver hd hf h
  obtain ⟨k, hleads, hat⟩ := hfresh.at_zero.turns hfresh ht
  obtain ⟨hsize, hbins⟩ := hat.size hfresh
  obtain ⟨t, hw, -, -, ha⟩ := hat
  refine ⟨k, t, fun j => ⟨fun hj => hj.unique hleads, ?_⟩, hw, ha.stepper.machine.symm, ha.stepper,
    ha.exception.symm, ha.state.symm, ?_, ?_, hsize, hbins⟩
  · rintro rfl
    exact hleads
  · unfold status isLast
    rw [ha.state, ha.exception, ha.stepper.machine]
  · unfold collect
    rw [ha.setting, ha.console, ha.exception, ha.stepper.machine]

/-- To the end of a program that logs a line, one small step back, and forward again. -/
theorem turns_at_output :
    ∃ first s t : Session Unit String,
      startOver (Library.read "") (.whole String) "output(1);" [SessionFunction.output] () Setting.zeros = .ok first ∧
        [Turn.forward .coarse, .backward .micro, .forward .micro].foldlM turn? first = some s ∧
        first.walk? 3 = some t ∧ s.stepper.machine = t.stepper.machine ∧ s.status = .ended ∧
        s.collect = t.collect ∧ s.history.size = 3 ∧ s.world.console.size = 4 := by
  have hrun : (startOver (Library.read "") (.whole String) "output(1);"
      [SessionFunction.output (σ := Unit)] () Setting.zeros).toOption.any fun first =>
        (first.turn? (.forward .coarse)).isSome ∧ (first.walk? 2).any (fun t => t.stepper.machine.Fits) ∧
        (first.walk? 3).any (fun t => t.status = .ended) ∧
        (List.range 4).map first.kindAt = [some .coarse, some .micro, some .micro, some .ended] := by
    decide +kernel
  have hf : ∀ f ∈ [SessionFunction.output (σ := Unit)], f.Steady := by
    intro f hmem
    cases List.mem_singleton.1 hmem
    exact fun _ _ _ => ⟨rfl, rfl⟩
  have hd : (DeltaScheme.whole String).Exact := fun _ _ => rfl
  obtain ⟨first, hfirst, hrun⟩ := (Option.any_eq_true _ _).1 hrun
  obtain ⟨hturn, hfit, hended, hkinds⟩ := of_decide_eq_true hrun
  have hstart : startOver (Library.read "") (.whole String) "output(1);" [SessionFunction.output]
      () Setting.zeros = .ok first := by
    cases hs : startOver (Library.read "") (.whole String) "output(1);" [SessionFunction.output (σ := Unit)]
      () Setting.zeros with
    | error e =>
      rw [hs] at hfirst
      cases hfirst
    | ok s =>
      rw [hs] at hfirst
      rw [Option.some.inj hfirst]
  have hfresh := fresh_startOver hd hf hstart
  obtain ⟨r, hr⟩ := Option.isSome_iff_exists.1 hturn
  obtain ⟨t₂, hw₂, hfit⟩ := (Option.any_eq_true _ _).1 hfit
  obtain ⟨t, hw, hended⟩ := (Option.any_eq_true _ _).1 hended
  obtain ⟨h0, h1, h2, h3⟩ : first.kindAt 0 = some .coarse ∧ first.kindAt 1 = some .micro ∧
      first.kindAt 2 = some .micro ∧ first.kindAt 3 = some .ended := by
    simpa [List.range_succ] using hkinds
  -- the coarse step leads to the end
  have hmoves : Turn.Moves first.kindAt (.forward .coarse) 0 3 := by
    refine .forwardCoarse (by simp [h0, StopKind.isFinal]) (by omega) h3 (by simp) fun j hj hj' => ?_
    obtain rfl | rfl : j = 1 ∨ j = 2 := by omega
    · exact h1
    · exact h2
  obtain ⟨k, hk, hat⟩ := hfresh.at_zero.forward hr
  cases hk.unique hmoves
  obtain ⟨hsize, -⟩ := hat.size hfresh
  obtain ⟨t', hw', -, hsound, ha⟩ := id hat
  cases hw.symm.trans hw'
  -- the small step back and forward again
  have hnext : t₂.next? = some t := by
    obtain ⟨t', hw', hn⟩ := Option.bind_eq_some_iff.1 hw
    cases hw₂.symm.trans hw'
    exact hn
  have hsound₂ := hfresh.sound.walk? hw₂
  obtain ⟨kind, r₂, hundo⟩ := ha.exists_undo hsound₂ hnext (of_decide_eq_true hfit)
  obtain ⟨ha₂, hr₂, -⟩ := ha.undo hsound₂ hnext hsound hundo
  obtain ⟨s, hs, -⟩ := ha₂.symm.next hsound₂ hr₂ hnext
  have hback : r.turn? (.backward .micro) = some r₂ := by
    have hrun : Turn.run (.backward .micro) r = .ok () r₂ := by
      refine (backward_eq .micro r).trans ?_
      rw [if_neg (by rw [hat.isFirst hfresh]; omega), hsize]
      exact undoTo_micro.2 ⟨kind, hundo⟩
    unfold turn?
    rw [hrun]
  have hforth : r₂.turn? (.forward .micro) = some s := by
    unfold turn?
    rw [show Turn.run (.forward .micro) r₂ = _ from next?_eq_some.1 hs]
  have ht : [Turn.forward .coarse, .backward .micro, .forward .micro].foldlM turn? first = some s := by
    simp [List.foldlM, hr, hback, hforth]
  obtain ⟨k, t', hleads, hw', hm, -, -, -, hstatus, hcollect, hsize, hbins⟩ := turns_at hd hf hstart ht
  have hlead : Turn.Leads first.kindAt 0 [.forward .coarse, .backward .micro, .forward .micro] 3 :=
    ⟨3, hmoves, 2, .backwardMicro, 3, .forwardMicro (by simp [h2, StopKind.isFinal]), rfl⟩
  cases (hleads 3).1 hlead
  cases hw.symm.trans hw'
  exact ⟨first, s, t, hstart, ht, hw, hm, hstatus.trans (of_decide_eq_true hended), hcollect, hsize, hbins⟩

end Session

end Stepwise

import Mathlib.Data.List.DropRight
import Stepwise.Proofs.Machine.Codec
import Stepwise.Proofs.Stepper.Step

/-!
# Steppers restored from snapshots

* `Stepper.kept`: the stepper that a snapshot describes. It differs from the original only in what no later stop
  depends on.
* `Stepper.restore_save`: restoring gives this stepper, or the snapshot has integers of more than 64 bits.
* `Stepper.restored_reports`: it reports the same stops, if what is outside of snapshots answers it in the same way.
-/

namespace Stepwise

variable {ω : Type}

namespace Stepper

variable {c : Setting ω} {s t : Stepper}

/-- What a snapshot keeps of a stepper: the anchors on the stack, and the kind of the latest stop. -/
def kept (s : Stepper) : Stepper :=
  { s with
    anchors := liveAnchors s.anchors s.machine.stack
    last := s.last.map fun stop => { kind := stop.kind } }

theorem ready_kept (hs : s.Ready c) : s.kept.Ready c :=
  ⟨hs.machine, hs.anchors.suffix (List.dropWhile_suffix _)⟩

theorem liveAnchors_liveAnchors (anchors : List Anchor) (stack : List State) :
    liveAnchors (liveAnchors anchors stack) stack = liveAnchors anchors stack := List.dropWhile_idempotent _ _

theorem alike_kept (s : Stepper) : s.Alike s.kept := by
  refine ⟨rfl, rfl, liveAnchors_liveAnchors _ _, ?_⟩
  unfold kept
  rw [Option.map_map]
  rfl

theorem anchors_of_save {snapshot : Snapshot} (h : s.save = .ok snapshot) :
    snapshot.anchors = liveAnchors s.anchors s.machine.stack := by
  unfold save at h
  split at h
  · cases h
  · cases h
    rfl

theorem exists_save (h : s.isStarted) : ∃ snapshot, s.save = .ok snapshot := by
  obtain ⟨stop, hl⟩ := Option.isSome_iff_exists.1 h
  exact ⟨_, by rw [save, hl]⟩

/-- Restoring fails only if an integer has more than 64 bits. -/
theorem restore_save (hs : s.Ready c) {snapshot : Snapshot} (h : s.save = .ok snapshot) :
    restore c snapshot = .ok s.kept ∨ restore c snapshot = .error .corrupt ∧ ¬ s.machine.Fits := by
  have hd := Machine.decodes_restore? hs.machine
  unfold save at h
  cases hl : s.last with
  | none => rw [hl] at h; cases h
  | some stop =>
    rw [hl] at h
    cases h
    unfold restore
    cases hm : Machine.restore? c s.machine.serialize with
    | none => exact .inr ⟨rfl, fun hf => by rw [hd.complete hf] at hm; cases hm⟩
    | some m =>
      obtain rfl := hd.sound m hm
      have hon : (liveAnchors s.anchors s.machine.stack).reverse.find? (!·.isOn s.machine.stack) = none := by
        rw [List.find?_eq_none]
        intro a ha
        rw [List.mem_reverse, hs.anchors.liveAnchors_eq_filter] at ha
        simpa using (List.mem_filter.1 ha).2
      left
      dsimp only
      rw [liveAnchors_liveAnchors, hon, kept, hl]
      rfl

/-- What some steps report: each stop or error, and the state on top of the stack after it. -/
def reports (c : Setting ω) : Nat → Stepper → ω → List (Except StepperError Stop × Option State)
  | 0, _, _ => []
  | n + 1, s, world =>
    let r := s.step c world
    (r.1, r.2.1.machine.stack.head?) :: r.2.1.reports c n r.2.2

theorem reports_alike (hc : c.IsRead) (hh : ∀ f ∈ c.host, f.Keeps) (hs : s.Ready c) (ht : t.Ready c)
    (h : s.Alike t) (n : Nat) (world : ω) : t.reports c n world = s.reports c n world := by
  induction n generalizing s t world with
  | zero => rfl
  | succ n ih =>
    have hR : ∀ f ∈ c.host, f.Respects Eq := fun f _ call h world world' hw => by
      rw [hw]
      exact ⟨rfl, rfl, rfl⟩
    obtain ⟨hstop, ha, hworld⟩ := alike_step hc hh hR hs ht h (Eq.refl world)
    unfold reports
    dsimp only
    rw [hstop, ha.machine, ← hworld, ih (ready_step hc hh hs world) (ready_step hc hh ht world) ha]

/-- The indices of the anchors grow, each depth is the next number, and the anchors on the stack come first. A
snapshot keeps those alone, so it is never refused for them, and what is restored reports the same stops as long as the
host and the source of random numbers, which no snapshot holds, answer it in the same way. -/
theorem restored_reports {source text : String} {program : Program} {host : List (HostFunction ω)} {maxDepth : Nat}
    {draws : Nat → Float} {world : ω} (hp : Program.ofSource source = .ok program) (hh : ∀ f ∈ host, f.Keeps)
    (hr : s.Reachable (Setting.ofPrograms (Library.read text) program host maxDepth draws) world) :
    s.anchors.reverse.Pairwise (fun a b => a.index < b.index) ∧
      (∀ a ∈ s.anchors, a.depth = a.index + 1) ∧
      (∃ live stale, s.anchors.reverse = live ++ stale ∧ (∀ a ∈ live, a.isOn s.machine.stack) ∧
        ∀ a ∈ stale, ¬ a.isOn s.machine.stack) ∧
      (s.isStarted → ∃ snapshot, s.save = .ok snapshot) ∧
      ∀ snapshot, s.save = .ok snapshot →
        snapshot.anchors = s.anchors.filter (·.isOn s.machine.stack) ∧
        (∀ index, restore (Setting.ofPrograms (Library.read text) program host maxDepth draws) snapshot ≠
          .error (.anchorMismatch index)) ∧
        (s.machine.Fits → ∃ t, restore (Setting.ofPrograms (Library.read text) program host maxDepth draws) snapshot = .ok t) ∧
        ∀ t, restore (Setting.ofPrograms (Library.read text) program host maxDepth draws) snapshot = .ok t →
          ∀ n, t.reports (Setting.ofPrograms (Library.read text) program host maxDepth draws) n world =
            s.reports (Setting.ofPrograms (Library.read text) program host maxDepth draws) n world := by
  have hc := Setting.isRead_ofPrograms hp text host maxDepth draws
  have hs := hr.ready hc hh
  refine ⟨?_, hs.anchors.depth_eq, ?_, ?_, fun snapshot h => ?_⟩
  · rw [List.pairwise_reverse]
    exact hs.anchors.ordered.imp And.left
  · refine ⟨(liveAnchors s.anchors s.machine.stack).reverse,
      (s.anchors.takeWhile (!·.isOn s.machine.stack)).reverse, ?_, fun a ha => ?_, fun a ha => ?_⟩
    · rw [← List.reverse_append, liveAnchors, List.takeWhile_append_dropWhile]
    · rw [List.mem_reverse, hs.anchors.liveAnchors_eq_filter] at ha
      exact (List.mem_filter.1 ha).2
    · have hoff := List.mem_takeWhile_imp (List.mem_reverse.1 ha)
      simpa using hoff
  · exact exists_save
  · refine ⟨(anchors_of_save h).trans hs.anchors.liveAnchors_eq_filter, ?_⟩
    rcases restore_save hs h with hk | ⟨hk, hfit⟩
    · refine ⟨fun index => by rw [hk]; nofun, fun _ => ⟨_, hk⟩, fun t ht n => ?_⟩
      obtain rfl := Except.ok.inj (hk.symm.trans ht)
      exact reports_alike hc hh hs (ready_kept hs) (alike_kept s) n world
    · refine ⟨fun index => by rw [hk]; nofun, fun hf => absurd hf hfit, fun t ht => ?_⟩
      rw [hk] at ht
      cases ht

/-- The stepper after some steps, if all of them lead to stops. -/
def ahead? (c : Setting ω) : Nat → Stepper → ω → Option (Stepper × ω)
  | 0, s, world => some (s, world)
  | n + 1, s, world =>
    match s.step c world with
    | (.ok _, s, world) => s.ahead? c n world
    | _ => none

theorem reachable_ahead? {n : Nat} {world world' : ω} (hs : s.Reachable c world)
    (h : s.ahead? c n world = some (t, world')) : t.Reachable c world' := by
  induction n generalizing s world with
  | zero =>
    cases h
    exact hs
  | succ n ih =>
    unfold ahead? at h
    split at h
    · rename_i hstep
      exact ih (hs.step hstep) h
    · cases h

theorem start_of_isSome (h : (Machine.start c).toOption.isSome) :
    Stepper.start c = .ok { machine := (Machine.start c).toOption.getD default } := by
  unfold start
  rw [eq_ok_of_isSome h]
  rfl

theorem reachable_getD_ahead? {first : Stepper} {world : ω} (hfirst : Stepper.start c = .ok first) {n : Nat}
    (h : (first.ahead? c n world).isSome) :
    ((first.ahead? c n world).getD (first, world)).1.Reachable c ((first.ahead? c n world).getD (first, world)).2 := by
  obtain ⟨x, hx⟩ := Option.isSome_iff_exists.1 h
  rw [hx]
  exact reachable_ahead? (.start hfirst world) hx

/-- The stop at the end of a `return`. The anchor of its argument has left the stack. -/
theorem restored_reports_return :
    ∃ (program : Program) (s t : Stepper) (snapshot : Snapshot),
      let c : Setting Unit := Setting.ofPrograms (Library.read "") program [] Setting.defaultDepth Setting.zeros
      Program.ofSource "(function () { return !0; })();" = .ok program ∧ s.Reachable c () ∧
        s.anchors.map Anchor.index = [5, 4, 2] ∧ s.save = .ok snapshot ∧
        snapshot.anchors.map Anchor.index = [4, 2] ∧ restore c snapshot = .ok t ∧
        ∀ n, t.reports c n () = s.reports c n () := by
  let program := (Program.ofSource "(function () { return !0; })();").toOption.getD default
  let c : Setting Unit := Setting.ofPrograms (Library.read "") program [] Setting.defaultDepth Setting.zeros
  let first : Stepper := { machine := (Machine.start c).toOption.getD default }
  let s := ((first.ahead? c 7 ()).getD (first, ())).1
  have hp : Program.ofSource "(function () { return !0; })();" = .ok program := eq_ok_of_isSome (by decide +kernel)
  have hrun : (Machine.start c).toOption.isSome ∧ (first.ahead? c 7 ()).isSome ∧ s.isStarted ∧ s.machine.Fits ∧
      s.anchors.map Anchor.index = [5, 4, 2] ∧
      (s.anchors.filter (·.isOn s.machine.stack)).map Anchor.index = [4, 2] := by
    decide +kernel
  obtain ⟨hstart, hahead, hstarted, hfit, hindex, hlive⟩ := hrun
  have hs : s.Reachable c () := reachable_getD_ahead? (start_of_isSome hstart) hahead
  obtain ⟨-, -, -, hsave, hall⟩ := restored_reports hp (by simp) hs
  obtain ⟨snapshot, hsnap⟩ := hsave hstarted
  obtain ⟨hanchors, -, hrestore, hreports⟩ := hall snapshot hsnap
  obtain ⟨t, ht⟩ := hrestore hfit
  exact ⟨program, s, t, snapshot, hp, hs, hindex, hsnap, by rw [hanchors, hlive], ht, hreports t ht⟩

/-- What the source of random numbers gives is not in a snapshot: the stepper that is restored may take the other
branch, and report an exception where the original reports the end. -/
theorem restored_redraws_branch :
    ∃ (program : Program) (s t : Stepper) (snapshot : Snapshot),
      let c := Setting.ofPrograms (ω := Unit) (Library.read "") program [] Setting.defaultDepth
      let kinds (draws : Nat → Float) (s : Stepper) := (s.reports (c draws) 12 ()).filterMap fun r =>
        (r.1.toOption.map Stop.kind).filter StopKind.isFinal
      Program.ofSource "if (Math.random() < 0.5) \x7b 1; \x7d else \x7b throw 2; \x7d" = .ok program ∧
        s.Reachable (c Setting.zeros) () ∧ s.save = .ok snapshot ∧ restore (c Setting.zeros) snapshot = .ok t ∧
        kinds Setting.zeros s = [.ended] ∧ kinds (fun _ => 0.5) t = [.uncaught] := by
  let source := "if (Math.random() < 0.5) \x7b 1; \x7d else \x7b throw 2; \x7d"
  let program := (Program.ofSource source).toOption.getD default
  let c := Setting.ofPrograms (ω := Unit) (Library.read "") program [] Setting.defaultDepth
  let kinds (draws : Nat → Float) (s : Stepper) := (s.reports (c draws) 12 ()).filterMap fun r =>
    (r.1.toOption.map Stop.kind).filter StopKind.isFinal
  let first : Stepper := { machine := (Machine.start (c Setting.zeros)).toOption.getD default }
  let s := ((first.ahead? (c Setting.zeros) 2 ()).getD (first, ())).1
  have hp : Program.ofSource source = .ok program := eq_ok_of_isSome (by decide +kernel)
  have hrun : (Machine.start (c Setting.zeros)).toOption.isSome ∧ (first.ahead? (c Setting.zeros) 2 ()).isSome ∧
      s.isStarted ∧ s.machine.Fits ∧ kinds Setting.zeros s = [.ended] ∧ kinds (fun _ => 0.5) s.kept = [.uncaught] := by
    decide +kernel
  obtain ⟨hstart, hahead, hstarted, hfit, hends, hthrows⟩ := hrun
  have hs : s.Reachable (c Setting.zeros) () := reachable_getD_ahead? (start_of_isSome hstart) hahead
  obtain ⟨snapshot, hsnap⟩ := exists_save hstarted
  have hc := Setting.isRead_ofPrograms hp "" ([] : List (HostFunction Unit)) Setting.defaultDepth Setting.zeros
  have hrestore := (restore_save (hs.ready hc (List.forall_mem_nil _)) hsnap).resolve_right fun h => h.2 hfit
  exact ⟨program, s, s.kept, snapshot, hp, hs, hsnap, hrestore, hends, hthrows⟩

end Stepper

end Stepwise

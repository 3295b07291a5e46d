import Stepwise.History.Basic

/-!
# Histories as stacks

* `DeltaScheme.text_exact`: a text is rebuilt from its difference from any other text.
* `History.pop_push`: a history gives back what was added last, and is then what it was before.
* `History.ofEntries`: the history that entries lead to when they are added one after the other. Whatever is done to a
  history, it is one of these.
* `History.pop_run`: so a history gives back the newest entry that is left, and fails only if there is none.
-/

namespace Stepwise

variable {α δ μ : Type}

/-! ### Differences of texts -/

namespace TextDelta

theorem common_le (as bs : List Char) : common as bs ≤ as.length ∧ common as bs ≤ bs.length := by
  fun_induction common as bs with
  | case1 as b bs ih =>
    simp only [List.length_cons]
    omega
  | case2 => exact ⟨Nat.zero_le _, Nat.zero_le _⟩
  | case3 => exact ⟨Nat.zero_le _, Nat.zero_le _⟩

theorem take_common (as bs : List Char) : as.take (common as bs) = bs.take (common as bs) := by
  fun_induction common as bs with
  | case1 as b bs ih => rw [List.take_succ_cons, List.take_succ_cons, ih]
  | case2 => rfl
  | case3 => rfl

/-- What two texts have in common at their ends is the same at both ends. -/
theorem drop_common_reverse (as bs : List Char) :
    as.drop (as.length - common as.reverse bs.reverse) = bs.drop (bs.length - common as.reverse bs.reverse) := by
  have h := take_common as.reverse bs.reverse
  rwa [List.take_reverse, List.take_reverse, List.reverse_inj] at h

theorem patch?_between (newer older : List Char) : patch? newer (between newer older) = some older := by
  let start := common newer older
  let stop := common (newer.drop start).reverse (older.drop start).reverse
  let middle := (older.drop start).take ((older.drop start).length - stop)
  show (if start + stop ≤ newer.length then some (newer.take start ++ middle ++ newer.drop (newer.length - stop))
    else none) = some older
  have hstart : start ≤ newer.length := (common_le newer older).1
  have hstop : stop ≤ newer.length - start := by
    have h := (common_le (newer.drop start).reverse (older.drop start).reverse).1
    rwa [List.length_reverse, List.length_drop] at h
  -- the common end does not reach into the common start
  have hend : newer.drop (newer.length - stop) = (older.drop start).drop ((older.drop start).length - stop) := by
    rw [← drop_common_reverse, List.drop_drop, List.length_drop]
    congr 1
    omega
  rw [if_pos (by omega), take_common newer older, hend, List.append_assoc, List.take_append_drop,
    List.take_append_drop]

end TextDelta

/-- A text is rebuilt from its difference from any other text. -/
theorem DeltaScheme.text_exact : DeltaScheme.text.Exact := by
  intro newer older
  show (TextDelta.patch? newer.toList (.between newer.toList older.toList)).map String.ofList = some older
  rw [TextDelta.patch?_between, Option.map_some, String.ofList_toList]

/-! ### Adding and taking -/

/-- A stack without a newest entry holds no differences either. -/
def DeltaStack.Tidy (s : DeltaStack α δ) : Prop := s.newest = none → s.deltas = []

theorem DeltaStack.tidy_push (d : DeltaScheme α δ) (s : DeltaStack α δ) (a : α) : (s.push d a).Tidy := by
  unfold push
  split <;> simp [Tidy]

theorem DeltaStack.pop_push {d : DeltaScheme α δ} (hd : d.Exact) {s : DeltaStack α δ} (hs : s.Tidy) (a : α) :
    (s.push d a).pop d = .ok (a, s) := by
  obtain ⟨newest, deltas⟩ := s
  cases newest with
  | none =>
    have h : deltas = [] := hs rfl
    rw [h]
    rfl
  | some b =>
    unfold push pop
    dsimp only
    rw [hd a b]

theorem DeltaStack.size_push (d : DeltaScheme α δ) {s : DeltaStack α δ} (hs : s.Tidy) (a : α) :
    (s.push d a).size = s.size + 1 := by
  obtain ⟨newest, deltas⟩ := s
  cases newest with
  | none =>
    have h : deltas = [] := hs rfl
    rw [h]
    rfl
  | some b => rfl

namespace History

/-- Going back gives what was kept last. -/
theorem pop_push {d : DeltaScheme α δ} (hd : d.Exact) {h : History α δ μ} (hh : h.entries.Tidy) (a : α)
    (remark : μ) : (h.push d a remark).pop d = .ok (a, remark, h) := by
  unfold push pop
  dsimp only
  rw [DeltaStack.pop_push hd hh a]
  rfl

end History

/-! ### Runs of moves -/

/-- What is done to a stack. -/
inductive StackMove (α μ : Type) where
  | push (a : α) (remark : μ)
  | pop

/-- The entries after a move, the newest first. -/
def StackMove.apply (entries : List (α × μ)) : StackMove α μ → List (α × μ)
  | push a remark => (a, remark) :: entries
  | pop => entries.tail

/-- The entries that were added and not yet taken after some moves, the newest first. -/
def StackMove.left (moves : List (StackMove α μ)) : List (α × μ) := moves.foldl apply []

namespace History

/-- The history after a move. Where there is nothing to take, it stays as it is. -/
def after (d : DeltaScheme α δ) (h : History α δ μ) : StackMove α μ → History α δ μ
  | .push a remark => h.push d a remark
  | .pop =>
    match h.pop d with
    | .ok (_, _, h') => h'
    | .error _ => h

/-- The history after some moves. -/
def run (d : DeltaScheme α δ) (moves : List (StackMove α μ)) : History α δ μ := moves.foldl (after d) {}

/-- The history of some entries, the newest first. -/
def ofEntries (d : DeltaScheme α δ) : List (α × μ) → History α δ μ
  | [] => {}
  | (a, remark) :: entries => (ofEntries d entries).push d a remark

variable {d : DeltaScheme α δ}

theorem tidy_ofEntries (entries : List (α × μ)) : (ofEntries d entries).entries.Tidy := by
  cases entries with
  | nil => exact fun _ => rfl
  | cons e entries => exact DeltaStack.tidy_push d _ _

theorem size_ofEntries (entries : List (α × μ)) :
    (ofEntries d entries).entries.size = entries.length ∧ (ofEntries d entries).size = entries.length := by
  induction entries with
  | nil => exact ⟨rfl, rfl⟩
  | cons e entries ih =>
    obtain ⟨hsize, hremarks⟩ := ih
    refine ⟨?_, congrArg Nat.succ hremarks⟩
    rw [List.length_cons, ← hsize]
    exact DeltaStack.size_push d (tidy_ofEntries entries) _

theorem pop_ofEntries (hd : d.Exact) (a : α) (remark : μ) (entries : List (α × μ)) :
    (ofEntries d ((a, remark) :: entries)).pop d = .ok (a, remark, ofEntries d entries) :=
  pop_push hd (tidy_ofEntries entries) a remark

theorem after_ofEntries (hd : d.Exact) (entries : List (α × μ)) (move : StackMove α μ) :
    after d (ofEntries d entries) move = ofEntries d (move.apply entries) := by
  cases move with
  | push a remark => rfl
  | pop =>
    unfold after
    cases entries with
    | nil => rfl
    | cons e entries =>
      dsimp only
      rw [pop_ofEntries hd]
      rfl

theorem run_eq (hd : d.Exact) (moves : List (StackMove α μ)) : run d moves = ofEntries d (StackMove.left moves) := by
  show moves.foldl (after d) (ofEntries d []) = ofEntries d (moves.foldl StackMove.apply [])
  exact List.foldl_hom (ofEntries d) fun entries move => after_ofEntries hd entries move

/-- After any moves, a history gives back the newest entry that is left, with its remark, and goes on as the history
without it. It fails if nothing is left, says so, and stays as it is. No difference ever misses its entry, and there are
as many remarks as entries. -/
theorem pop_run (hd : d.Exact) (moves : List (StackMove α μ)) :
    let h := run d moves
    let entries := StackMove.left moves
    (∀ a remark older, entries = (a, remark) :: older → h.pop d = .ok (a, remark, run d (moves ++ [.pop]))) ∧
      (h.pop d = .error .empty ↔ entries = []) ∧ (entries = [] → run d (moves ++ [.pop]) = h) ∧
      h.pop d ≠ .error .damaged ∧ h.entries.size = entries.length ∧ h.size = entries.length := by
  intro h entries
  have hrun : h = ofEntries d entries := run_eq hd moves
  have hnext : run d (moves ++ [.pop]) = ofEntries d entries.tail := by
    rw [run_eq hd, StackMove.left, List.foldl_append]
    rfl
  rw [hnext, hrun]
  cases entries with
  | nil => exact ⟨nofun, iff_of_true rfl rfl, fun _ => rfl, nofun, size_ofEntries _⟩
  | cons e older =>
    obtain ⟨a, remark⟩ := e
    rw [pop_ofEntries hd]
    refine ⟨?_, iff_of_false nofun nofun, nofun, nofun, size_ofEntries _⟩
    rintro _ _ _ ⟨⟩
    rfl

/-- Texts, an empty one among them, after a move that found nothing. -/
theorem pop_run_texts :
    let moves : List (StackMove String Nat) := [.pop, .push "let a;" 1, .push "" 2, .push "let b;" 3, .pop]
    DeltaScheme.text.Exact ∧ StackMove.left moves = [("", 2), ("let a;", 1)] ∧
      (run .text moves).pop .text = .ok ("", 2, run .text (moves ++ [.pop])) :=
  ⟨DeltaScheme.text_exact, rfl, (pop_run DeltaScheme.text_exact _).1 "" 2 [("let a;", 1)] rfl⟩

end History

end Stepwise

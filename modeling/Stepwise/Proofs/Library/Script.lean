import Stepwise.Proofs.Lint.FreeName
import Stepwise.Proofs.Machine.Effect

/-!
# What the library's own code is made of

* `Node.fold_eq_of_foldWithin`: a walk that counts how deep it goes can be evaluated.
* `Library.isPlain_script`: the library's own code has no syntax that is refused, deletes nothing, catches nothing and
  jumps to no label.
* `Library.freeNames_script`: it uses four of the names that are bound before it runs.

The last two are read off its tree, which is evaluated once.
-/

namespace Stepwise

/-! ### Walks of limited depth -/

namespace Node

/-- The result for a node from the results for its children, if the node is no deeper than `depth`. -/
def foldWithin {β : Type} (f : Node → List β → β) : (depth : Nat) → Node → Option β
  | 0, _ => none
  | depth + 1, n => (n.children.mapM (foldWithin f depth)).map (f n)

theorem fold_eq_of_foldWithin {β : Type} {f : Node → List β → β} {depth : Nat} {n : Node} {b : β}
    (h : n.foldWithin f depth = some b) : n.fold f = b := by
  induction depth generalizing n b with
  | zero => cases h
  | succ depth ih =>
    obtain ⟨results, hresults, rfl⟩ := Option.map_eq_some_iff.1 h
    rw [fold_eq]
    congr 1
    clear h
    generalize n.children = children at hresults
    induction children generalizing results with
    | nil =>
      cases hresults
      rfl
    | cons c children ihc =>
      rw [List.mapM_cons] at hresults
      obtain ⟨first, hfirst, hbind⟩ := Option.bind_eq_some_iff.1 hresults
      obtain ⟨rest, hrest, hcons⟩ := Option.bind_eq_some_iff.1 hbind
      cases hcons
      rw [List.map_cons, ih hfirst, ihc rest hrest]

/-- What a walk finds of all nodes holds of each. -/
theorem forall_of_fold {p : Node → Bool} {n : Node} {b : Bool} (hb : b)
    (h : n.fold (fun n parts => p n && parts.all (·)) = b) : ∀ m ∈ n.nodes, p m := by
  induction n using children_induction generalizing b with
  | _ n ih =>
    rw [fold_eq] at h
    obtain ⟨hn, hparts⟩ := Bool.and_eq_true_iff.1 (h.trans hb)
    intro m hm
    rw [nodes_eq] at hm
    rcases List.mem_cons.1 hm with rfl | hm
    · exact hn
    · obtain ⟨c, hc, hm⟩ := List.mem_flatMap.1 hm
      exact ih c hc rfl (List.all_eq_true.1 hparts _ (List.mem_map_of_mem hc)) m hm

end Node

/-! ### The tree of the library -/

/-- A program without refused syntax, `delete`, handlers and labels of jumps. -/
structure Program.IsPlain (p : Program) : Prop where
  refuses : ∀ n ∈ p.nodes, n.isRefused = false
  deletes : ∀ n ∈ p.nodes, n.isDelete = false
  handlers : ∀ k, .catchClause k ∉ p.nodes
  labels : ∀ n ∈ p.nodes, ∀ label isContinue, n.jump? = some (label, isContinue) → label = none

namespace Library

/-- The names that the library's own code uses without binding them. -/
def scriptNames : List String := ["Array", "TypeError", "String", "undefined"]

/-- Whether a node is plain. -/
def isPlainNode (n : Node) : Bool :=
  !n.isRefused && !n.isDelete && !(n matches .catchClause _) && n.jump?.all (·.1.isNone)

/-- Whether a tree is made of plain nodes and uses only the library's names. Trees that are deep fail. -/
def isChecked (n : Node) : Bool :=
  (n.foldWithin (fun n parts => isPlainNode n && parts.all (·)) 30).any (·) &&
    (n.foldWithin (fun n parts => n.uses ++ parts.flatten.filter (!n.binds ·)) 30).any (·.all (scriptNames.contains ·))

theorem isPlainNode_of_isChecked {n : Node} (h : isChecked n) : ∀ m ∈ n.nodes, isPlainNode m := by
  obtain ⟨h, -⟩ := Bool.and_eq_true_iff.1 h
  obtain ⟨b, hb, htrue⟩ := (Option.any_eq_true _ _).1 h
  exact Node.forall_of_fold htrue (Node.fold_eq_of_foldWithin hb)

theorem freeNames_of_isChecked {n : Node} (h : isChecked n) : n.freeNames ⊆ scriptNames := by
  obtain ⟨-, h⟩ := Bool.and_eq_true_iff.1 h
  obtain ⟨names, hnames, hall⟩ := (Option.any_eq_true _ _).1 h
  intro x hx
  have he : n.freeNames = names := Node.fold_eq_of_foldWithin hnames
  exact List.contains_iff_mem.1 (List.all_eq_true.1 hall x (he ▸ hx))

theorem cons_eq_map {l : List Char} {ls : List (List Char)} {texts : List String} (h : texts = ls.map String.ofList) :
    String.ofList l :: texts = (l :: ls).map String.ofList := by
  rw [h]
  rfl

/-- The characters of the lines, spelled out, because those of a text are slow to come by. -/
def characters : { lines : List (List Char) // scriptLines = lines.map String.ofList } := by
  apply Subtype.mk
  unfold scriptLines
  dsimp only
  repeat apply cons_eq_map
  exact List.map_nil.symm

/-- The program that characters are read as. -/
def readCharacters (text : List Char) : Program :=
  let tokens := tokensFrom true false (text.length + 1) ⟨text, .start⟩
  match (readProgram (.nested tokens.length)).run (.ofTokens tokens) with
  | some ((body, stop), s) =>
    if s.errors.isEmpty then (Program.mk (.span .start stop) body (String.ofList text)).number scriptFirst scriptName
    else default
  | none => default

theorem read_eq (text : String) : read text = readCharacters text.toList := by
  unfold read Program.parse readSource tokenize Cursor.ofString readCharacters
  dsimp only
  rw [String.ofList_toList]
  generalize tokensFrom true false _ _ = tokens
  cases (readProgram (.nested tokens.length)).run (.ofTokens tokens) with
  | none => rfl
  | some r =>
    obtain ⟨⟨body, stop⟩, s⟩ := r
    dsimp only
    cases s.errors <;> rfl

theorem toList_intercalate_newline {texts : List String} {lines : List (List Char)}
    (h : texts = lines.map String.ofList) : (String.intercalate "\n" texts).toList = ['\n'].intercalate lines := by
  have hid : String.toList ∘ String.ofList = id := funext fun _ => String.toList_ofList
  rw [String.toList_intercalate, h, List.map_map, hid, List.map_id]
  rfl

/-- The library's own code, in a form that can be evaluated. -/
theorem script_eq : script = readCharacters (['\n'].intercalate characters.1) := by
  unfold script scriptText
  rw [read_eq, toList_intercalate_newline characters.2]

theorem isPlain_of_isChecked {p : Program} (h : isChecked (.program p)) : p.IsPlain := by
  have hall : ∀ n ∈ p.nodes, isPlainNode n := isPlainNode_of_isChecked h
  refine ⟨fun n hn => ?_, fun n hn => ?_, fun k hk => ?_, fun n hn label isContinue hj => ?_⟩
  · have := hall n hn
    simp_all [isPlainNode]
  · have := hall n hn
    simp_all [isPlainNode]
  · have := hall _ hk
    simp [isPlainNode] at this
  · have := hall n hn
    simp_all [isPlainNode]

theorem script_checked : isChecked (.program script) := by
  rw [script_eq]
  decide +kernel

theorem isPlain_script : script.IsPlain := isPlain_of_isChecked script_checked

theorem freeNames_script : (Node.program script).freeNames ⊆ scriptNames := freeNames_of_isChecked script_checked

end Library

end Stepwise

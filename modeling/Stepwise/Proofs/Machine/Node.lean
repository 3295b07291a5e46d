import Mathlib.Algebra.Group.Int.Defs
import Mathlib.Algebra.Group.Nat.Defs
import Stepwise.Machine.Start
import Stepwise.Proofs.Machine.Rule
import Stepwise.Proofs.Tree.Preorder

/-!
# Finding nodes by their numbers

A machine keeps nodes of a program that was read, over a library that was read. The numbers of the library
lie above those of all but huge programs.

* `Setting.node?_part`: whatever the machine finds under the number of a part of a node, it finds again.
* `Setting.node?_eq_some_iff`: unless the program is huge, that is the part itself.
* `Setting.IsRead.isInternal_part`: the parts of the library's own nodes are the library's own.
* `Program.number_preorder`: a program is numbered in the order of its nodes, all of them, and unless it is huge the
  machine finds each of its nodes, and each of the library's, under its number.
-/

namespace Stepwise

variable {ω : Type}

/-- A result that is there. -/
theorem eq_ok_of_isSome {ε α : Type} [Inhabited α] {r : Except ε α} (h : r.toOption.isSome) :
    r = .ok (r.toOption.getD default) := by
  cases r with
  | error => cases h
  | ok a => rfl

theorem eq_ok_of_toOption {ε α : Type} {r : Except ε α} {a : α} (h : r.toOption = some a) : r = .ok a := by
  cases r with
  | error => cases h
  | ok => exact congrArg Except.ok (Option.some.inj h)

/-- A parsed program is numbered from the number it was parsed with. -/
theorem Program.consecutive_of_parse {source name : String} {first : Int} {p : Program}
    (h : Program.parse source first name = .ok p) : ∃ next, Consecutive first p.nodes next := by
  obtain ⟨body, stop, s, -, rfl⟩ := Program.exists_read_of_parse h
  exact Program.numbered_number _ _ _

/-- All nodes of a parsed program carry the name that it was parsed with. -/
theorem Program.source_of_parse {source name : String} {first : Int} {p : Program}
    (h : Program.parse source first name = .ok p) {n : Node} (hn : n ∈ p.nodes) : n.loc.source = name := by
  obtain ⟨body, stop, s, -, rfl⟩ := Program.exists_read_of_parse h
  exact Program.source_number hn

/-- The numbers of a library's nodes lie above those of a program; an empty library has the number 0. -/
theorem Library.consecutive_read (text : String) :
    ∃ first next, Consecutive first (Library.read text).nodes next ∧
      (first = scriptFirst ∨ first = 0 ∧ next = 1) := by
  unfold Library.read
  cases hp : Program.parse text scriptFirst scriptName with
  | ok p =>
    obtain ⟨next, hc⟩ := Program.consecutive_of_parse hp
    exact ⟨scriptFirst, next, hc, .inl rfl⟩
  | error e =>
    have hd : (default : Program).nodes = [.program default] := by
      unfold Program.nodes
      rw [Node.nodes_eq]
      rfl
    refine ⟨0, 1, ?_, .inr ⟨rfl, rfl⟩⟩
    show Consecutive 0 (default : Program).nodes 1
    rw [hd]
    exact ⟨rfl, rfl⟩

/-- All nodes of a library carry the same name. -/
theorem Library.source_read (text : String) : ∃ name, ∀ n ∈ (Library.read text).nodes, n.loc.source = name := by
  unfold Library.read
  cases hp : Program.parse text scriptFirst scriptName with
  | ok p => exact ⟨_, fun n hn => Program.source_of_parse hp hn⟩
  | error e =>
    refine ⟨(default : Program).loc.source, fun n hn => ?_⟩
    change n ∈ (Node.program default).nodes at hn
    rw [Node.nodes_eq] at hn
    cases List.mem_singleton.1 hn
    rfl

/-- The nodes of a node are closed under its parts. -/
theorem Node.mem_nodes_of_part {whole n part : Node} (hn : n ∈ whole.nodes) (hp : n.Part part) :
    part ∈ whole.nodes := by
  rcases hp with hp | ⟨joint, hj, -, hp⟩
  · exact mem_nodes_of_mem_children hn hp
  · exact mem_nodes_of_mem_children (mem_nodes_of_mem_children hn hj) hp

namespace Setting

/-- A setting of a program and a library that were read. -/
structure IsRead (c : Setting ω) : Prop where
  program : ∃ source, Program.ofSource source = .ok c.program
  library : ∃ text, c.library = Library.read text
  nodes : c.nodes = c.program.index
  libraryNodes : c.libraryNodes = c.library.index

theorem isRead_ofPrograms {source : String} {program : Program} (h : Program.ofSource source = .ok program)
    (text : String) (host : List (HostFunction ω)) (maxDepth : Nat) (draws : Nat → Float) :
    (ofPrograms (Library.read text) program host maxDepth draws).IsRead :=
  ⟨⟨source, h⟩, ⟨text, rfl⟩, rfl, rfl⟩

variable {c : Setting ω} {n part : Node} {id : Int}

theorem libraryNodes_eq_none {text : String} (hl : c.library = Library.read text)
    (hi : c.libraryNodes = c.library.index) (h0 : id ≠ 0) (h1 : id < Library.scriptFirst) : c.libraryNodes[id]? = none := by
  rw [hi, hl]
  cases hn : (Library.read text).index[id]? with
  | none => rfl
  | some n =>
    obtain ⟨hm, he⟩ := Program.mem_of_index hn
    obtain ⟨first, next, hcons, hfirst⟩ := Library.consecutive_read text
    have := hcons.le_id hm
    omega

/-- If the numbers of a program lie below those of the library, every node is found under its own number, and nothing
else is found. -/
theorem node?_eq_some_iff {text : String} {first next : Int} (hl : c.library = Library.read text)
    (hi : c.libraryNodes = c.library.index) (hn : c.nodes = c.program.index)
    (hp : Consecutive first c.program.nodes next) (h0 : 0 < first) (h1 : next ≤ Library.scriptFirst) :
    c.node? id = some n ↔ (n ∈ c.library.nodes ∨ n ∈ c.program.nodes) ∧ n.id = id := by
  unfold node?
  rw [hn]
  constructor
  · intro h
    rw [Option.or_eq_some_iff, hi] at h
    rcases h with h | ⟨-, h⟩
    · obtain ⟨hm, he⟩ := Program.mem_of_index h
      exact ⟨.inl hm, he⟩
    · obtain ⟨hm, he⟩ := Program.mem_of_index h
      exact ⟨.inr hm, he⟩
  · rintro ⟨h | h, rfl⟩
    · obtain ⟨first, next, hcons, -⟩ := Library.consecutive_read text
      rw [← hl] at hcons
      rw [hi, Program.index_of_mem hcons h, Option.some_or]
    · have hid := hp.le_id h
      rw [libraryNodes_eq_none hl hi (by omega) (by omega), Option.none_or, Program.index_of_mem hp h]

namespace IsRead

theorem consecutive (hc : c.IsRead) : ∃ next, Consecutive 1 c.program.nodes next :=
  have ⟨_, h⟩ := hc.program
  Program.consecutive_of_parse h

/-- The program itself is found under its number. -/
theorem node?_program (hc : c.IsRead) : c.node? (Node.program c.program).id = some (.program c.program) := by
  obtain ⟨next, hcons⟩ := hc.consecutive
  have hmem : Node.program c.program ∈ c.program.nodes := Node.mem_nodes_self _
  have hid : (Node.program c.program).id = 1 := by
    unfold Program.nodes at hcons
    rw [Node.nodes_eq] at hcons
    exact hcons.1
  obtain ⟨text, hl⟩ := hc.library
  unfold node?
  rw [libraryNodes_eq_none hl hc.libraryNodes (by omega) (by rw [hid]; decide), Option.none_or, hc.nodes]
  exact Program.index_of_mem hcons hmem

/-- What is found under a number has this number, and its parts are found too. -/
theorem mem_of_node? (hc : c.IsRead) (h : c.node? id = some n) :
    (n ∈ c.library.nodes ∨ n ∈ c.program.nodes) ∧ n.id = id := by
  unfold node? at h
  rw [Option.or_eq_some_iff] at h
  rcases h with h | ⟨-, h⟩
  · rw [hc.libraryNodes] at h
    obtain ⟨hm, he⟩ := Program.mem_of_index h
    exact ⟨.inl hm, he⟩
  · rw [hc.nodes] at h
    obtain ⟨hm, he⟩ := Program.mem_of_index h
    exact ⟨.inr hm, he⟩

theorem isSome_node? (hc : c.IsRead) (h : n ∈ c.library.nodes ∨ n ∈ c.program.nodes) :
    (c.node? n.id).isSome := by
  unfold node?
  rw [Option.isSome_or, hc.libraryNodes, hc.nodes, Bool.or_eq_true]
  exact h.imp Program.isSome_index Program.isSome_index

theorem mem_of_part (h : n ∈ c.library.nodes ∨ n ∈ c.program.nodes) (hp : n.Part part) :
    part ∈ c.library.nodes ∨ part ∈ c.program.nodes :=
  h.imp (Node.mem_nodes_of_part · hp) (Node.mem_nodes_of_part · hp)

theorem node?_resolve (hc : c.IsRead) (h : n ∈ c.library.nodes ∨ n ∈ c.program.nodes) :
    c.node? (c.resolve n).id = some (c.resolve n) := by
  obtain ⟨m, hm⟩ := Option.isSome_iff_exists.1 (hc.isSome_node? h)
  unfold resolve
  rw [hm, Option.getD_some, (hc.mem_of_node? hm).2, hm]

/-- What stands for a part of a node that the machine finds is found again. -/
theorem node?_part (hc : c.IsRead) (h : c.node? id = some n) (hp : n.Part part) :
    c.node? (c.resolve part).id = some (c.resolve part) :=
  hc.node?_resolve (mem_of_part (hc.mem_of_node? h).1 hp)

/-- The body of a function that the machine finds is a part of it. -/
theorem part_of_callable {callable : Callable} (h : n.callable? = some callable) :
    n.Part (.stmt (.block callable.body)) := by
  unfold Node.callable? at h
  split at h <;> cases h <;> exact .inl (by simp [Node.children])

/-- The nodes of the program are not the library's own. -/
theorem not_isInternal (hc : c.IsRead) (h : n ∈ c.program.nodes) : ¬n.isInternal := by
  obtain ⟨source, hp⟩ := hc.program
  unfold Node.isInternal
  rw [Program.source_of_parse hp h]
  decide

/-- The parts of the library's own nodes are the library's own, and no others. -/
theorem isInternal_part (hc : c.IsRead) (h : c.node? id = some n) (hp : n.Part part) :
    part.isInternal = n.isInternal := by
  have hsame {p : Program} {name : String} (hname : ∀ n ∈ p.nodes, n.loc.source = name) (hn : n ∈ p.nodes)
      (hpart : part ∈ p.nodes) : part.isInternal = n.isInternal := by
    unfold Node.isInternal
    rw [hname n hn, hname part hpart]
  rcases (hc.mem_of_node? h).1 with hn | hn
  · obtain ⟨text, hl⟩ := hc.library
    obtain ⟨name, hname⟩ := Library.source_read text
    rw [← hl] at hname
    exact hsame hname hn (Node.mem_nodes_of_part hn hp)
  · obtain ⟨source, hsource⟩ := hc.program
    exact hsame (fun _ => Program.source_of_parse hsource) hn (Node.mem_nodes_of_part hn hp)

/-- Unless the program is huge, every node is found under its number. -/
theorem node?_of_mem (hc : c.IsRead) (hsize : c.program.nodes.length < 2 ^ 24)
    (h : n ∈ c.library.nodes ∨ n ∈ c.program.nodes) : c.node? n.id = some n := by
  obtain ⟨text, hl⟩ := hc.library
  obtain ⟨next, hcons⟩ := hc.consecutive
  have hnext : next ≤ Library.scriptFirst := by
    have heq := hcons.next_eq
    show next ≤ ((2 ^ 24 : Nat) : Int)
    omega
  exact (node?_eq_some_iff hl hc.libraryNodes hc.nodes hcons Int.one_pos hnext).2 ⟨h, rfl⟩

theorem resolve_of_mem (hc : c.IsRead) (hsize : c.program.nodes.length < 2 ^ 24)
    (h : n ∈ c.library.nodes ∨ n ∈ c.program.nodes) : c.resolve n = n := by
  unfold resolve
  rw [hc.node?_of_mem hsize h, Option.getD_some]

end IsRead

end Setting

/-! ### All nodes of a program -/

namespace Program

theorem length_nodes_number (p : Program) (first : Int) (source : String) :
    (p.number first source).nodes.length = p.nodes.length := by
  have h := congrArg List.length (Node.map_outline_nodes (p.outline_number first source))
  rwa [List.length_map, List.length_map] at h

/-- The nodes of a numbered program carry consecutive numbers, with every node before its parts and the parts in source
order, and the name of its source. Each node of the tree is there once, and is otherwise the old one. If the numbers lie
below those of the library, the machine finds each node of the program and of the library under its number, and nothing
else. -/
theorem number_preorder {ω : Type} (p : Program) (first : Int) (source : String) :
    (∀ (i : ℕ) n, (p.number first source).nodes[i]? = some n → n.id = first + i ∧ n.loc.source = source) ∧
      (Node.program (p.number first source)).IsPreorder (p.number first source).nodes ∧
      (p.number first source).nodes.map Node.loc = (p.number first source).locs ∧
      (p.number first source).nodes.map Node.outline = p.nodes.map Node.outline ∧
      (0 < first → first + p.nodes.length ≤ 2 ^ 24 →
        ∀ (text : String) (host : List (HostFunction ω)) (maxDepth : Nat) (draws : Nat → Float) (id : Int) (n : Node),
          (Setting.ofPrograms (Library.read text) (p.number first source) host maxDepth draws).node? id = some n ↔
            (n ∈ (Library.read text).nodes ∨ n ∈ (p.number first source).nodes) ∧ n.id = id) := by
  obtain ⟨next, hnumbered⟩ := p.numbered_number first source
  refine ⟨fun i n hn => ?_, Node.isPreorder_nodes _, map_loc_nodes _,
    Node.map_outline_nodes (p.outline_number first source), fun hfirst hsize text host maxDepth draws id n => ?_⟩
  · exact ⟨hnumbered.id_eq hn, Program.source_number (List.mem_of_getElem? hn)⟩
  · have hnext : next ≤ Library.scriptFirst := by
      have heq := hnumbered.next_eq
      rw [length_nodes_number] at heq
      show next ≤ ((2 ^ 24 : Nat) : Int)
      omega
    exact Setting.node?_eq_some_iff rfl rfl rfl hnumbered hfirst hnext

/-- The element behind the hole of an array is the eighth node. -/
theorem number_preorder_hole : ∃ (p : Program) (n : Node),
    Program.ofSource "for (var k in [1, , o]) f(k);" = .ok p ∧ (p.number 1 "").nodes[7]? = some n ∧
      n.kind = .identifier ∧ (1 : Int) + p.nodes.length ≤ 2 ^ 24 ∧ n.id = 8 ∧ n.loc.source = "" ∧
      (Setting.ofPrograms (Library.read "") (p.number 1 "") ([] : List (HostFunction Unit)) 100
        Setting.zeros).node? 8 = some n := by
  have hread : (Program.ofSource "for (var k in [1, , o]) f(k);").toOption.any fun p =>
      (p.number 1 "").nodes[7]?.any (·.kind = .identifier) && p.nodes.length < 100 := by
    decide +kernel
  obtain ⟨p, hp, hread⟩ := (Option.any_eq_true _ _).1 hread
  obtain ⟨hkind, hsize⟩ := Bool.and_eq_true_iff.1 hread
  obtain ⟨n, hn, hkind⟩ := (Option.any_eq_true _ _).1 hkind
  have hsize : (1 : Int) + p.nodes.length ≤ 2 ^ 24 := by
    have := of_decide_eq_true hsize
    omega
  obtain ⟨hnumbers, -, -, -, hindex⟩ := number_preorder (ω := Unit) p 1 ""
  obtain ⟨hid, hsource⟩ := hnumbers 7 n hn
  refine ⟨p, n, eq_ok_of_toOption hp, hn, of_decide_eq_true hkind, hsize, hid, hsource, ?_⟩
  exact (hindex Int.one_pos hsize "" [] 100 Setting.zeros 8 n).2 ⟨.inr (List.mem_of_getElem? hn), hid⟩

end Program

end Stepwise

import Stepwise.Proofs.Parse.SpelledProgram

/-!
# Where the nodes of a program stand and what is quoted of them

* `Node.Spans`: a node stands in a source, around its parts, which follow each other.
* `Program.spans_of_parse`: all nodes of a program that is read from a source do.
* `Program.nonempty_of_parse`: no node below such a program is empty.
* `Program.text_isSlice`: the text of a node is what stands in its span.
* `Node.tokens`: the tokens in the span of a node.
* `Program.Quotes`: the tokens that are quoted for a node are complete, but for parentheses that are missing in front of
  a property access.
* `Program.quotes_of_parse`: what is quoted for the nodes of a program that is read from a source is of this kind.
-/

namespace Stepwise

variable {source name : String} {first : Int} {words : List Token} {last : Token}

/-- A node stands in a source: it starts and ends at positions with the line and the column of their offsets, its span
holds those of its parts, and these follow each other. -/
structure Node.Spans (source : String) (n : Node) : Prop where
  start : n.loc.start.IsIn source
  stop : n.loc.stop.IsIn source
  within : n.loc.stop.offset ≤ byteLength source.toList
  nested : n.IsNested

theorem Node.spans_of_outline {n m : Node} (h : n.outline = m.outline) (hm : m.Spans source) : n.Spans source := by
  obtain ⟨hstart, hstop, hwithin, hnested⟩ := hm
  rw [← start_of_outline h] at hstart
  rw [← stop_of_outline h] at hstop hwithin
  exact ⟨hstart, hstop, hwithin, isNested_of_outline h hnested⟩

namespace Program.Spelled

variable {p : Program} (h : Spelled source words last p)

include h

theorem tiles : Tiles source 0 true (words ++ [last]) := by
  rw [← h.tokens]
  exact tiles_tokensFrom (Cursor.stands_ofString source) (Nat.lt_succ_self _) false

theorem areOrdered : AreOrdered (words ++ [last]) :=
  .of_isChain (fun t ht => (h.tiles.lies t ht).ordered) (h.tiles.chain.imp fun _ _ hf => hf.start)

/-- The last token is the only end mark. -/
theorem kind_last : last.kind = .eof ∧ ∀ t ∈ words, t.kind ≠ .eof := by
  obtain ⟨words', last', heq, hlast, hwords, -⟩ := h.tiles.ends
  obtain ⟨rfl, hsame⟩ := List.append_inj' heq rfl
  cases hsame
  exact ⟨hlast, hwords⟩

theorem isIn {t : Token} (ht : t ∈ words ++ [last]) : t.IsIn source := by
  rw [← h.tokens] at ht
  exact tokenize_isIn h.legal t ht

/-- The nodes below the program are spelled by some of its tokens. -/
theorem exists_spells {n : Node} (hn : n ∈ p.nodes) : n = .program p ∨ ∃ ts, ts <:+: words ∧ Spells ts n := by
  unfold nodes at hn
  rw [Node.nodes_eq] at hn
  rcases List.mem_cons.1 hn with rfl | hn
  · exact .inl rfl
  · obtain ⟨c, hc, hn⟩ := List.mem_flatMap.1 hn
    obtain ⟨us, hus, spelled⟩ := h.parts.exists_spells hc
    obtain ⟨ts, hts, hs⟩ := spelled.exists_spells hn
    exact .inr ⟨ts, hts.trans hus, hs⟩

theorem spans_program : (Node.program p).Spans source := by
  have hstart : (Node.program p).loc.start = .start := congrArg Loc.start h.loc
  have hstop : (Node.program p).loc.stop = last.stop := congrArg Loc.stop h.loc
  have hlast : last ∈ words ++ [last] := List.mem_append_right words (List.mem_singleton_self last)
  have hin := (h.isIn hlast).stop
  rw [← hstop] at hin
  refine ⟨hstart ▸ Position.isIn_start source, hin, hin.offset_le, ?_, fun c hc => ?_, h.parts.apart h.areOrdered.left⟩
  · rw [hstart]
    exact Nat.zero_le _
  · obtain ⟨t, ht, hc⟩ := (h.parts.among hc).stop
    rw [hstart, hstop, hc]
    refine ⟨Nat.zero_le _, h.areOrdered.le_getLast ?_ (List.mem_append_left [last] ht)⟩
    exact List.getLast?_concat

theorem spans_part {n : Node} {ts : List Token} (hts : ts <:+: words) (hn : Spells ts n) : n.Spans source := by
  have hsub : ts ⊆ words ++ [last] := List.subset_append_of_subset_left [last] hts.subset
  obtain ⟨⟨t, ht, hstart⟩, u, hu, hstop⟩ := hn.among
  have hin := (h.isIn (hsub hu)).stop
  rw [← hstop] at hin
  refine ⟨?_, hin, hin.offset_le, hn.isNested (h.areOrdered.left.sublist hts.sublist)⟩
  rw [hstart]
  exact (h.isIn (hsub ht)).start

theorem spans {n : Node} (hn : n ∈ p.nodes) : n.Spans source := by
  rcases h.exists_spells hn with rfl | ⟨ts, hts, hs⟩
  · exact h.spans_program
  · exact h.spans_part hts hs

/-- Only a program can be empty. -/
theorem nonempty {n : Node} (hn : n ∈ p.nodes) (hk : n.kind ≠ .program) :
    n.loc.start.offset < n.loc.stop.offset := by
  rcases h.exists_spells hn with rfl | ⟨ts, hts, hs⟩
  · exact absurd rfl hk
  · obtain ⟨outer, missing, inner, rest, cut⟩ := hs.exists_cut
    have hinner : inner <:+: words := by
      refine List.IsInfix.trans ?_ hts
      rw [cut.eq]
      exact List.infix_append (outer ++ missing) inner rest
    have hhead := hinner.subset (List.head_mem cut.ne)
    have hlt := (h.tiles.lies _ (List.mem_append_left [last] hhead)).nonempty (h.kind_last.2 _ hhead)
    have hle := (h.areOrdered.left.sublist hinner.sublist).le_getLast (List.getLast_mem_getLast? cut.ne)
      (List.head_mem cut.ne)
    rw [cut.start _ (List.head_mem_head? cut.ne), cut.stop _ (List.getLast_mem_getLast? cut.ne)]
    omega

end Program.Spelled

theorem Program.spans_node {p : Program} (h : Program.parse source first name = .ok p) {n : Node} (hn : n ∈ p.nodes) :
    n.Spans source := by
  obtain ⟨words, last, q, hq, -, hpq⟩ := Program.exists_spelled_of_parse h
  obtain ⟨m, hm, hnm⟩ := Node.exists_mem_nodes_of_outline hpq hn
  exact Node.spans_of_outline hnm (hq.spans hm)

/-- The nodes of a program that is read from a source stand in it: their ends are positions of the source, each with the
line and the column of its offset, no node ends before it starts, it holds its parts, and these follow each other in the
order in which a node lists them. -/
theorem Program.spans_of_parse {p : Program} (h : Program.parse source first name = .ok p) :
    ∀ n ∈ p.nodes, n.Spans source := fun _ hn => spans_node h hn

/-- No node below a program that is read from a source is empty. -/
theorem Program.nonempty_of_parse {p : Program} (h : Program.parse source first name = .ok p) {n : Node}
    (hn : n ∈ p.nodes) (hk : n.kind ≠ .program) : n.loc.start.offset < n.loc.stop.offset := by
  obtain ⟨words, last, q, hq, -, hpq⟩ := Program.exists_spelled_of_parse h
  obtain ⟨m, hm, hnm⟩ := Node.exists_mem_nodes_of_outline hpq hn
  rw [Node.start_of_outline hnm, Node.stop_of_outline hnm]
  exact hq.nonempty hm (Node.kind_of_outline hnm ▸ hk)

/-- A property of an expression in parentheses, a function and a loop on three lines. On the last line, offsets count bytes
and columns characters. -/
theorem Program.spans_of_parse_lines :
    ∃ p, Program.parse "(a.b)[0] = function (c) \x7b\x7d;\nfor (var i in a)\n  b(i, \"ü\");" 1 "" = .ok p ∧
      (p.nodes.drop 17).map (fun n => (n.kind, n.loc.start, n.loc.stop)) =
        [(.callExpression, ⟨47, 3, 2⟩, ⟨57, 3, 11⟩), (.identifier, ⟨47, 3, 2⟩, ⟨48, 3, 3⟩),
          (.identifier, ⟨49, 3, 4⟩, ⟨50, 3, 5⟩), (.stringLiteral, ⟨52, 3, 7⟩, ⟨56, 3, 10⟩)] ∧
      ∀ n ∈ p.nodes, n.Spans "(a.b)[0] = function (c) \x7b\x7d;\nfor (var i in a)\n  b(i, \"ü\");" := by
  have hok : (Program.parse "(a.b)[0] = function (c) \x7b\x7d;\nfor (var i in a)\n  b(i, \"ü\");" 1 "").toOption.any
      fun p => (p.nodes.drop 17).map (fun n => (n.kind, n.loc.start, n.loc.stop)) =
        [(.callExpression, ⟨47, 3, 2⟩, ⟨57, 3, 11⟩), (.identifier, ⟨47, 3, 2⟩, ⟨48, 3, 3⟩),
          (.identifier, ⟨49, 3, 4⟩, ⟨50, 3, 5⟩), (.stringLiteral, ⟨52, 3, 7⟩, ⟨56, 3, 10⟩)] := by
    decide +kernel
  obtain ⟨p, hp, hcall⟩ := Program.exists_of_any_parse hok
  exact ⟨p, hp, of_decide_eq_true hcall, Program.spans_of_parse hp⟩

/-! ### Text -/

/-- Of two positions of a source, the one with the smaller offset stands before the other. -/
theorem Position.exists_isSlice {p q : Position} (hp : p.IsIn source) (hq : q.IsIn source) (h : p.offset ≤ q.offset) :
    ∃ before cs after, source.toList = before ++ cs ++ after ∧ byteLength before = p.offset ∧
      byteLength (before ++ cs) = q.offset := by
  obtain ⟨before, after, hsource, hoffset, -⟩ := hp
  obtain ⟨before', after', hsource', hoffset', -⟩ := hq
  have hprefix : before <+: source.toList := ⟨after, hsource.symm⟩
  have hprefix' : before' <+: source.toList := ⟨after', hsource'.symm⟩
  rcases List.prefix_or_prefix_of_prefix hprefix hprefix' with ⟨cs, rfl⟩ | ⟨cs, rfl⟩
  · exact ⟨before, cs, after', hsource', hoffset.symm, hoffset'.symm⟩
  · -- what lies between them has no bytes
    have hcs : cs = [] := by
      by_contra hne
      have := byteLength_pos hne
      rw [byteLength_append] at hoffset
      omega
    subst hcs
    rw [List.append_nil] at hsource hoffset
    exact ⟨before', [], after, by rw [hsource, List.append_nil], hoffset.symm, by rw [List.append_nil, hoffset']⟩

/-- The text of a node is what stands in its span. -/
theorem Program.text_isSlice {p : Program} {n : Node} (hp : p.code = source) (hn : n.Spans source) :
    IsSlice source n.loc.start.offset n.loc.stop.offset (p.text n).toList := by
  obtain ⟨before, cs, after, hsource, hstart, hstop⟩ := Position.exists_isSlice hn.start hn.stop hn.nested.ordered
  have hlength : n.loc.stop.offset - n.loc.start.offset = byteLength cs := by
    rw [← hstart, ← hstop, byteLength_append, Nat.add_sub_cancel_left]
  have htext : (p.text n).toList = cs := by
    unfold text
    rw [hlength, ← hstart, hp, hsource, List.append_assoc, dropBytes_append, takeBytes_append, String.toList_ofList]
  rw [htext]
  exact ⟨before, after, hsource, hstart, hstop⟩

/-! ### Tokens -/

/-- Whether a token stands in the span of a node. -/
def Node.holds (n : Node) (t : Token) : Bool :=
  n.loc.start.offset ≤ t.start.offset && t.stop.offset ≤ n.loc.stop.offset

/-- The tokens of a source in the span of a node, without the end mark. -/
def Node.tokens (source : String) (n : Node) : List Token :=
  (tokenize source).filter fun t => n.holds t && t.kind != .eof

theorem Node.tokens_of_outline {n m : Node} (h : n.outline = m.outline) : n.tokens source = m.tokens source := by
  unfold tokens holds
  rw [start_of_outline h, stop_of_outline h]

namespace Program.Spelled

variable {p : Program} (h : Spelled source words last p)

include h

theorem tokens_eq_filter (n : Node) : n.tokens source = words.filter n.holds := by
  obtain ⟨hlast, hwords⟩ := h.kind_last
  unfold Node.tokens
  rw [h.tokens, List.filter_append, List.filter_singleton, hlast]
  have hplain : words.filter (fun t => n.holds t && t.kind != .eof) = words.filter n.holds := by
    refine List.filter_congr fun t ht => ?_
    rw [bne_iff_ne.2 (hwords t ht), Bool.and_true]
  simp [hplain]

/-- A node that goes from the first to the last of some tokens in a row has these in its span. -/
theorem tokens_eq {n : Node} {inner : List Token} (hinner : inner <:+: words) (hne : inner ≠ [])
    (hstart : ∀ t ∈ inner.head?, n.loc.start = t.start) (hstop : ∀ t ∈ inner.getLast?, n.loc.stop = t.stop) :
    n.tokens source = inner := by
  obtain ⟨before, after, rfl⟩ := hinner
  have hordered := h.areOrdered.left
  have hnonempty (t : Token) (ht : t ∈ before ++ inner ++ after) : t.start.offset < t.stop.offset :=
    (h.tiles.lies t (List.mem_append_left _ ht)).nonempty (h.kind_last.2 t ht)
  have hstart := hstart _ (List.head_mem_head? hne)
  have hstop := hstop _ (List.getLast_mem_getLast? hne)
  have hbefore : before.filter n.holds = [] := by
    refine List.filter_eq_nil_iff.2 fun t ht hholds => ?_
    have hlt := hnonempty t (by simp [ht])
    have hle := (List.pairwise_append.1 hordered.left.pairwise).2.2 t ht _ (List.head_mem hne)
    simp only [Node.holds, hstart, Bool.and_eq_true, decide_eq_true_eq] at hholds
    omega
  have hafter : after.filter n.holds = [] := by
    refine List.filter_eq_nil_iff.2 fun t ht hholds => ?_
    have hlt := hnonempty t (by simp [ht])
    have hmem : inner.getLast hne ∈ before ++ inner := List.mem_append_right before (List.getLast_mem hne)
    have hle := (List.pairwise_append.1 hordered.pairwise).2.2 _ hmem t ht
    simp only [Node.holds, hstop, Bool.and_eq_true, decide_eq_true_eq] at hholds
    omega
  have hinner : inner.filter n.holds = inner := by
    refine List.filter_eq_self.2 fun t ht => ?_
    have hhead := hordered.left.right.head_le (List.head_mem_head? hne) ht
    have hlast := hordered.left.right.le_getLast (List.getLast_mem_getLast? hne) ht
    simp only [Node.holds, hstart, hstop, Bool.and_eq_true, decide_eq_true_eq]
    exact ⟨hhead, hlast⟩
  rw [h.tokens_eq_filter, List.filter_append, List.filter_append, hbefore, hinner, hafter, List.nil_append,
    List.append_nil]

theorem tokens_program : (Node.program p).tokens source = words := by
  rw [h.tokens_eq_filter]
  refine List.filter_eq_self.2 fun t ht => ?_
  have hstart : (Node.program p).loc.start = .start := congrArg Loc.start h.loc
  have hstop : (Node.program p).loc.stop = last.stop := congrArg Loc.stop h.loc
  have hlast := h.areOrdered.le_getLast List.getLast?_concat (List.mem_append_left [last] ht)
  simp only [Node.holds, hstart, hstop, Bool.and_eq_true, decide_eq_true_eq]
  exact ⟨Nat.zero_le _, hlast⟩

end Program.Spelled

/-! ### Completeness -/

/-- The brackets among the tokens in the span of a node match, with the opening parentheses `missing` in front of them.
There are none unless the node is a property access. -/
structure Node.LacksOnly (source : String) (n : Node) (missing : List Token) : Prop where
  inFront : missing ++ n.tokens source <:+: tokenize source
  parens : ∀ t ∈ missing, t.kind = .punctuator .leftParen
  balanced : areBalanced (missing ++ n.tokens source)
  complete : n.kind ≠ .memberExpression → missing = []

theorem Node.lacksOnly_of_outline {n m : Node} (h : n.outline = m.outline) {missing : List Token}
    (hm : m.LacksOnly source missing) : n.LacksOnly source missing := by
  obtain ⟨hfront, hparens, hbalanced, hcomplete⟩ := hm
  rw [← tokens_of_outline h] at hfront hbalanced
  rw [← kind_of_outline h] at hcomplete
  exact ⟨hfront, hparens, hbalanced, hcomplete⟩

theorem Program.Spelled.exists_lacksOnly {p : Program} (h : Spelled source words last p) {n : Node} (hn : n ∈ p.nodes) :
    ∃ missing, n.LacksOnly source missing := by
  have hwords : words <:+: tokenize source := by
    rw [h.tokens]
    exact (List.prefix_append words [last]).isInfix
  rcases h.exists_spells hn with rfl | ⟨ts, hts, spelled⟩
  · refine ⟨[], ?_, List.forall_mem_nil _, ?_, fun _ => rfl⟩
    · rw [h.tokens_program]
      exact hwords
    · rw [h.tokens_program]
      exact h.parts.balanced
  · obtain ⟨outer, missing, inner, rest, cut⟩ := spelled.exists_cut
    have hcut : missing ++ inner <:+: ts := by
      rw [cut.eq, List.append_assoc outer missing inner]
      exact List.infix_append outer (missing ++ inner) rest
    have hinner : inner <:+: ts := (List.suffix_append missing inner).isInfix.trans hcut
    have htokens := h.tokens_eq (hinner.trans hts) cut.ne cut.start cut.stop
    refine ⟨missing, ?_, fun t ht => cut.parens t (List.mem_append_right outer ht), ?_, cut.complete⟩
    · rw [htokens]
      exact hcut.trans (hts.trans hwords)
    · rw [htokens]
      exact cut.balanced

/-- What is quoted for the nodes of a program that is read from a source: the text of a node is what stands in its span,
and the brackets in it match if the node is no property access. The text of a property access may lack the parentheses
that its object starts with, and nothing else. -/
theorem Program.quotes_of_parse {p : Program} (h : Program.parse source first name = .ok p) :
    ∀ n ∈ p.nodes, IsSlice source n.loc.start.offset n.loc.stop.offset (p.text n).toList ∧
      ∃ missing, n.LacksOnly source missing := by
  intro n hn
  obtain ⟨words, last, q, hq, hcode, hpq⟩ := Program.exists_spelled_of_parse h
  obtain ⟨m, hm, hnm⟩ := Node.exists_mem_nodes_of_outline hpq hn
  obtain ⟨missing, hlacks⟩ := hq.exists_lacksOnly hm
  refine ⟨text_isSlice hcode (Node.spans_of_outline hnm (hq.spans hm)), missing, ?_⟩
  exact Node.lacksOnly_of_outline hnm hlacks

/-- Expressions in parentheses and brackets, with the texts of all nodes from the assignment on. -/
theorem Program.quotes_of_parse_group :
    ∃ p, Program.parse "x = ((a).b).c[(0)];" 1 "" = .ok p ∧
      (p.nodes.drop 2).map p.text =
        ["x = ((a).b).c[(0)]", "x", "a).b).c[(0)]", "a).b).c", "a).b", "a", "b", "c", "0"] ∧
      ∀ n ∈ p.nodes, IsSlice "x = ((a).b).c[(0)];" n.loc.start.offset n.loc.stop.offset (p.text n).toList ∧
        ∃ missing, n.LacksOnly "x = ((a).b).c[(0)];" missing := by
  have hok : (Program.parse "x = ((a).b).c[(0)];" 1 "").toOption.any fun p => (p.nodes.drop 2).map p.text =
      ["x = ((a).b).c[(0)]", "x", "a).b).c[(0)]", "a).b).c", "a).b", "a", "b", "c", "0"] := by
    decide +kernel
  obtain ⟨p, hp, htexts⟩ := Program.exists_of_any_parse hok
  exact ⟨p, hp, of_decide_eq_true htexts, Program.quotes_of_parse hp⟩

/-- The text of a property access lacks the parenthesis that its object starts with, but not the one behind it. -/
theorem Program.text_unbalanced :
    ∃ p, Program.parse "(a).b;" 1 "" = .ok p ∧
      ∃ n ∈ p.nodes, p.text n = "a).b" ∧ areBalanced (n.tokens "(a).b;") = false := by
  have hany : (Program.parse "(a).b;" 1 "").toOption.any fun p => p.nodes.any fun n =>
      p.text n = "a).b" ∧ areBalanced (n.tokens "(a).b;") = false := by
    decide +kernel
  obtain ⟨p, hp, hany⟩ := Program.exists_of_any_parse hany
  obtain ⟨n, hn, hany⟩ := List.any_eq_true.1 hany
  exact ⟨p, hp, n, hn, of_decide_eq_true hany⟩

end Stepwise

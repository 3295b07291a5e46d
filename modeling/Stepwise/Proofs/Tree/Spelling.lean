import Mathlib.Data.List.Chain
import Mathlib.Data.List.Infix
import Stepwise.Proofs.Tree.Outline
import Stepwise.Token.Basic

/-!
# How tokens spell a tree

* `areBalanced`: every closing mark among some tokens closes the last one that was opened, and none is left open.
* `Spells`: some tokens are those of a node, with parentheses around it if it is an expression.
* `SpellParts`: some tokens are those of nodes one after the other, with words and matching brackets around them.
* `Spells.balanced`: the brackets of such tokens match.
* `Spells.exists_cut`: the tokens in the span of a node. Only in front of a property access may opening parentheses
  be missing: it starts with its object, but parentheses around the object do not belong to the object.
* `Spells.isNested`: the span of a node holds those of its parts, which follow each other.
-/

namespace Stepwise

/-! ### Matching brackets -/

namespace Punctuator

/-- The mark that closes an opening one. -/
def closing? : Punctuator → Option Punctuator
  | leftParen => some rightParen
  | leftBrace => some rightBrace
  | leftBracket => some rightBracket
  | _ => none

/-- Whether a mark closes another one. -/
def isClosing : Punctuator → Bool
  | rightParen | rightBrace | rightBracket => true
  | _ => false

end Punctuator

/-- The closing marks that are due behind a token, given those that are due before it, the next one first. -/
def dueAfter (due : List Punctuator) (t : Token) : Option (List Punctuator) :=
  match t.kind with
  | .punctuator p =>
    match p.closing? with
    | some q => some (q :: due)
    | none =>
      if p.isClosing then
        match due with
        | q :: due => if p = q then some due else none
        | [] => none
      else some due
  | _ => some due

/-- Whether the brackets among tokens match. -/
def areBalanced (ts : List Token) : Bool := ts.foldlM dueAfter [] == some []

/-- Whether a token is a bracket. -/
def TokenKind.isBracket : TokenKind → Bool
  | punctuator p => p.closing?.isSome || p.isClosing
  | _ => false

/-- Marks that are due further out do not matter. -/
private theorem dueAfter_frame {due due' : List Punctuator} {t : Token} (h : dueAfter due t = some due')
    (outer : List Punctuator) : dueAfter (due ++ outer) t = some (due' ++ outer) := by
  unfold dueAfter at h ⊢
  split at h
  · split at h
    · cases h
      rfl
    · split at h
      · rename_i hclosing
        rw [if_pos hclosing]
        split at h
        · split at h
          · rename_i heq
            cases h
            exact if_pos heq
          · cases h
        · cases h
      · rename_i hclosing
        cases h
        exact if_neg hclosing
  · cases h
    rfl

private theorem foldlM_frame {due due' : List Punctuator} {ts : List Token} (h : ts.foldlM dueAfter due = some due')
    (outer : List Punctuator) : ts.foldlM dueAfter (due ++ outer) = some (due' ++ outer) := by
  induction ts generalizing due with
  | nil =>
    cases h
    rfl
  | cons t ts ih =>
    rw [List.foldlM_cons] at h ⊢
    obtain ⟨between, ht, hts⟩ := Option.bind_eq_some_iff.1 h
    exact Option.bind_eq_some_iff.2 ⟨_, dueAfter_frame ht outer, ih hts⟩

/-- Balanced tokens leave what is due as it is. -/
theorem areBalanced_iff {ts : List Token} : areBalanced ts ↔ ∀ due, ts.foldlM dueAfter due = some due := by
  unfold areBalanced
  rw [beq_iff_eq]
  exact ⟨fun h due => foldlM_frame h due, fun h => h []⟩

theorem areBalanced_nil : areBalanced [] := rfl

theorem areBalanced_append {ts us : List Token} (ht : areBalanced ts) (hu : areBalanced us) :
    areBalanced (ts ++ us) := by
  refine areBalanced_iff.2 fun due => ?_
  rw [List.foldlM_append, areBalanced_iff.1 ht due]
  exact areBalanced_iff.1 hu due

theorem areBalanced_singleton {t : Token} (h : ¬t.kind.isBracket) : areBalanced [t] := by
  have hkeeps (due : List Punctuator) : dueAfter due t = some due := by
    unfold dueAfter
    cases hk : t.kind with
    | punctuator p =>
      rw [hk] at h
      cases p <;> first | rfl | exact absurd rfl h
    | _ => rfl
  refine areBalanced_iff.2 fun due => ?_
  rw [List.foldlM_cons, hkeeps]
  rfl

/-- Balanced tokens between an opening mark and the one that closes it. -/
theorem areBalanced_enclosed {l r : Token} {p q : Punctuator} {ts : List Token} (hl : l.kind = .punctuator p)
    (hr : r.kind = .punctuator q) (hpq : p.closing? = some q) (hts : areBalanced ts) :
    areBalanced (l :: (ts ++ [r])) := by
  have hopen (due : List Punctuator) : dueAfter due l = some (q :: due) := by
    unfold dueAfter
    rw [hl]
    dsimp only
    rw [hpq]
  have hclose (due : List Punctuator) : dueAfter (q :: due) r = some due := by
    unfold dueAfter
    rw [hr]
    cases p <;> cases hpq <;> rfl
  refine areBalanced_iff.2 fun due => ?_
  rw [List.foldlM_cons, hopen, Option.bind_eq_bind, Option.bind_some, List.foldlM_append, areBalanced_iff.1 hts]
  rw [Option.bind_eq_bind, Option.bind_some, List.foldlM_cons, hclose]
  rfl

/-! ### Spelling -/

mutual

/-- The tokens are those of the node. -/
inductive Spells : List Token → Node → Prop where
  /-- A node from its first token to its last one. -/
  | node {ts : List Token} {n : Node} (ne : ts ≠ []) (start : ∀ t ∈ ts.head?, n.loc.start = t.start)
      (stop : ∀ t ∈ ts.getLast?, n.loc.stop = t.stop) (regular : n.isRegular) (parts : SpellParts ts n.children) :
      Spells ts n
  /-- A property access, which starts where its object does. -/
  | access {ts us : List Token} {n object : Node} {rest : List Node} (kind : n.kind = .memberExpression)
      (children : n.children = object :: rest) (ne : us ≠ []) (start : n.loc.start = object.loc.start)
      (stop : ∀ t ∈ us.getLast?, n.loc.stop = t.stop) (regular : n.isRegular) (spelled : Spells ts object)
      (parts : SpellParts us rest) : Spells (ts ++ us) n
  /-- An expression in parentheses, which do not belong to it. -/
  | group {l r : Token} {ts : List Token} {e : Expr} (left : l.kind = .punctuator .leftParen)
      (right : r.kind = .punctuator .rightParen) (spelled : Spells ts (.expr e)) : Spells (l :: (ts ++ [r])) (.expr e)

/-- The tokens are those of the nodes, with words and matching brackets before, between and behind them. -/
inductive SpellParts : List Token → List Node → Prop where
  | nil : SpellParts [] []
  | word {t : Token} {ts : List Token} {ns : List Node} (word : ¬t.kind.isBracket) (rest : SpellParts ts ns) :
      SpellParts (t :: ts) ns
  | node {ts us : List Token} {n : Node} {ns : List Node} (spelled : Spells ts n) (rest : SpellParts us ns) :
      SpellParts (ts ++ us) (n :: ns)
  | enclosed {l r : Token} {p q : Punctuator} {ts us : List Token} {ns ms : List Node}
      (left : l.kind = .punctuator p) (right : r.kind = .punctuator q) (closes : p.closing? = some q)
      (inner : SpellParts ts ns) (rest : SpellParts us ms) : SpellParts (l :: (ts ++ [r]) ++ us) (ns ++ ms)

end

namespace SpellParts

theorem append {ts us : List Token} {ns ms : List Node} (h : SpellParts ts ns) (h' : SpellParts us ms) :
    SpellParts (ts ++ us) (ns ++ ms) := by
  match h with
  | .nil => exact h'
  | .word hw hr => exact .word hw (hr.append h')
  | .node hs hr =>
    rw [List.append_assoc]
    exact .node hs (hr.append h')
  | .enclosed hl hr hc hi hrest =>
    rw [List.append_assoc, List.append_assoc]
    exact .enclosed hl hr hc hi (hrest.append h')

theorem of_word {t : Token} (h : ¬t.kind.isBracket) : SpellParts [t] [] := .word h .nil

theorem of_node {ts : List Token} {n : Node} (h : Spells ts n) : SpellParts ts [n] := by
  rw [← ts.append_nil]
  exact .node h .nil

end SpellParts

/-! ### Brackets -/

mutual

theorem Spells.balanced {ts : List Token} {n : Node} : Spells ts n → areBalanced ts
  | .node _ _ _ _ parts => parts.balanced
  | .access _ _ _ _ _ _ spelled parts => areBalanced_append spelled.balanced parts.balanced
  | .group left right spelled => areBalanced_enclosed left right rfl spelled.balanced

theorem SpellParts.balanced {ts : List Token} {ns : List Node} : SpellParts ts ns → areBalanced ts
  | .nil => areBalanced_nil
  | .word hw rest => areBalanced_append (areBalanced_singleton hw) rest.balanced
  | .node spelled rest => areBalanced_append spelled.balanced rest.balanced
  | .enclosed left right closes inner rest =>
    areBalanced_append (areBalanced_enclosed left right closes inner.balanced) rest.balanced

end

/-! ### Parts -/

namespace Spells

theorem ne_nil {ts : List Token} {n : Node} (h : Spells ts n) : ts ≠ [] := by
  cases h with
  | node ne => exact ne
  | access _ _ ne => exact List.append_ne_nil_of_right_ne_nil _ ne
  | group => exact List.cons_ne_nil _ _

theorem isRegular {ts : List Token} {n : Node} (h : Spells ts n) : n.isRegular := by
  match h with
  | .node _ _ _ regular _ => exact regular
  | .access _ _ _ _ _ regular _ _ => exact regular
  | .group _ _ spelled => exact spelled.isRegular

/-- The parts of a node are spelled within its tokens. -/
theorem exists_parts {ts : List Token} {n : Node} (h : Spells ts n) : ∃ us, us <:+: ts ∧ SpellParts us n.children := by
  match h with
  | .node _ _ _ _ parts => exact ⟨ts, List.infix_rfl, parts⟩
  | @Spells.access ts us _ _ _ _ children _ _ _ _ spelled parts =>
    rw [children]
    exact ⟨ts ++ us, List.infix_rfl, .node spelled parts⟩
  | @Spells.group l r _ _ _ _ spelled =>
    obtain ⟨us, hus, parts⟩ := spelled.exists_parts
    exact ⟨us, hus.trans ⟨[l], [r], by simp⟩, parts⟩

end Spells

theorem SpellParts.exists_spells {ts : List Token} {ns : List Node} (h : SpellParts ts ns) {n : Node} (hn : n ∈ ns) :
    ∃ us, us <:+: ts ∧ Spells us n := by
  match h with
  | @SpellParts.word t ts _ _ rest =>
    obtain ⟨us, hus, hs⟩ := rest.exists_spells hn
    exact ⟨us, hus.trans (List.suffix_cons t ts).isInfix, hs⟩
  | @SpellParts.node ts us _ _ spelled rest =>
    rcases List.mem_cons.1 hn with rfl | hn
    · exact ⟨ts, (List.prefix_append ts us).isInfix, spelled⟩
    · obtain ⟨vs, hvs, hs⟩ := rest.exists_spells hn
      exact ⟨vs, hvs.trans (List.suffix_append ts us).isInfix, hs⟩
  | @SpellParts.enclosed l r _ _ _ us _ _ _ _ _ inner rest =>
    rcases List.mem_append.1 hn with hn | hn
    · obtain ⟨vs, hvs, hs⟩ := inner.exists_spells hn
      exact ⟨vs, hvs.trans ⟨[l], r :: us, by simp⟩, hs⟩
    · obtain ⟨vs, hvs, hs⟩ := rest.exists_spells hn
      exact ⟨vs, hvs.trans (List.suffix_append _ us).isInfix, hs⟩

/-- So are the nodes below it. -/
theorem Spells.exists_spells {ts : List Token} {n m : Node} (h : Spells ts n) (hm : m ∈ n.nodes) :
    ∃ us, us <:+: ts ∧ Spells us m := by
  rw [Node.nodes_eq] at hm
  rcases List.mem_cons.1 hm with rfl | hm
  · exact ⟨ts, List.infix_rfl, h⟩
  · obtain ⟨c, hc, hm⟩ := List.mem_flatMap.1 hm
    obtain ⟨us, hus, parts⟩ := h.exists_parts
    obtain ⟨vs, hvs, spelled⟩ := parts.exists_spells hc
    obtain ⟨ws, hws, hs⟩ := spelled.exists_spells hm
    exact ⟨ws, hws.trans (hvs.trans hus), hs⟩
termination_by sizeOf n
decreasing_by exact Node.sizeOf_lt_of_mem_children hc

/-! ### Spans -/

/-- A node goes from the start of one of the tokens to the end of one. -/
structure Node.Among (ts : List Token) (n : Node) : Prop where
  start : ∃ t ∈ ts, n.loc.start = t.start
  stop : ∃ t ∈ ts, n.loc.stop = t.stop

theorem Node.Among.mono {ts us : List Token} {n : Node} (h : n.Among ts) (hs : ts ⊆ us) : n.Among us := by
  obtain ⟨⟨t, ht, hstart⟩, u, hu, hstop⟩ := h
  exact ⟨⟨t, hs ht, hstart⟩, u, hs hu, hstop⟩

/-- The tokens in the span of a node are `inner`. With the parentheses `missing` in front of them, of which there are
none unless the node is a property access, their brackets match; outside there are only parentheses around the node. -/
structure Node.Cut (ts : List Token) (n : Node) (outer missing inner rest : List Token) : Prop where
  eq : ts = outer ++ missing ++ inner ++ rest
  parens : ∀ t ∈ outer ++ missing, t.kind = .punctuator .leftParen
  ne : inner ≠ []
  start : ∀ t ∈ inner.head?, n.loc.start = t.start
  stop : ∀ t ∈ inner.getLast?, n.loc.stop = t.stop
  balanced : areBalanced (missing ++ inner)
  complete : n.kind ≠ .memberExpression → missing = []

theorem Spells.exists_cut {ts : List Token} {n : Node} (h : Spells ts n) :
    ∃ outer missing inner rest, n.Cut ts outer missing inner rest := by
  match h with
  | .node ne start stop _ parts =>
    exact ⟨[], [], ts, [], ⟨by simp, by simp, ne, start, stop, parts.balanced, fun _ => rfl⟩⟩
  | @Spells.access ts us _ _ _ kind _ ne start stop _ spelled parts =>
    obtain ⟨outer, missing, inner, rest, cut⟩ := spelled.exists_cut
    have hall : ts ++ us = [] ++ (outer ++ missing) ++ (inner ++ (rest ++ us)) ++ [] := by simp [cut.eq]
    refine ⟨[], outer ++ missing, inner ++ (rest ++ us), [], hall, cut.parens, ?_, ?_, ?_, ?_, ?_⟩
    · exact List.append_ne_nil_of_left_ne_nil cut.ne _
    · intro t ht
      rw [start]
      rw [List.head?_append_of_ne_nil _ cut.ne] at ht
      exact cut.start t ht
    · intro t ht
      rw [← List.append_assoc, List.getLast?_append_of_ne_nil _ ne] at ht
      exact stop t ht
    · have heq : outer ++ missing ++ (inner ++ (rest ++ us)) = ts ++ us := by simp [cut.eq]
      rw [heq]
      exact areBalanced_append spelled.balanced parts.balanced
    · exact fun h => absurd kind h
  | @Spells.group l r ts _ left _ spelled =>
    obtain ⟨outer, missing, inner, rest, cut⟩ := spelled.exists_cut
    have hall : l :: (ts ++ [r]) = l :: outer ++ missing ++ inner ++ (rest ++ [r]) := by simp [cut.eq]
    refine ⟨l :: outer, missing, inner, rest ++ [r], hall, ?_, cut.ne, cut.start, cut.stop, cut.balanced, cut.complete⟩
    exact List.forall_mem_cons.2 ⟨left, cut.parens⟩

theorem Spells.among {ts : List Token} {n : Node} (h : Spells ts n) : n.Among ts := by
  obtain ⟨outer, missing, inner, rest, cut⟩ := h.exists_cut
  have hsub : inner ⊆ ts := by
    rw [cut.eq]
    exact (List.infix_append (outer ++ missing) inner rest).subset
  refine ⟨⟨inner.head cut.ne, hsub (List.head_mem _), cut.start _ (List.head_mem_head? cut.ne)⟩, ?_⟩
  exact ⟨inner.getLast cut.ne, hsub (List.getLast_mem _), cut.stop _ (List.getLast_mem_getLast? cut.ne)⟩

/-- Tokens that follow each other. -/
structure AreOrdered (ts : List Token) : Prop where
  ordered : ∀ t ∈ ts, t.start.offset ≤ t.stop.offset
  pairwise : ts.Pairwise fun t u => t.stop.offset ≤ u.start.offset

namespace AreOrdered

variable {ts us : List Token} {t u : Token}

theorem sublist (h : AreOrdered us) (hs : ts.Sublist us) : AreOrdered ts :=
  ⟨fun t ht => h.ordered t (hs.subset ht), h.pairwise.sublist hs⟩

theorem left (h : AreOrdered (ts ++ us)) : AreOrdered ts := h.sublist (List.sublist_append_left ts us)

theorem right (h : AreOrdered (ts ++ us)) : AreOrdered us := h.sublist (List.sublist_append_right ts us)

/-- No token starts before the first one. -/
theorem head_le (h : AreOrdered ts) (ht : t ∈ ts.head?) (hu : u ∈ ts) : t.start.offset ≤ u.start.offset := by
  obtain ⟨us, rfl⟩ := List.head?_eq_some_iff.1 ht
  rcases List.mem_cons.1 hu with rfl | hu
  · exact Nat.le_refl _
  · have hnext := (List.pairwise_cons.1 h.pairwise).1 u hu
    exact (h.ordered t List.mem_cons_self).trans hnext

/-- No token ends behind the last one. -/
theorem le_getLast (h : AreOrdered ts) (ht : t ∈ ts.getLast?) (hu : u ∈ ts) : u.stop.offset ≤ t.stop.offset := by
  obtain ⟨us, rfl⟩ := List.getLast?_eq_some_iff.1 ht
  have hlast := h.ordered t (List.mem_append_right _ (List.mem_singleton_self t))
  rcases List.mem_append.1 hu with hu | hu
  · have hnext := (List.pairwise_append.1 h.pairwise).2.2 u hu t (List.mem_singleton_self t)
    exact hnext.trans hlast
  · cases List.mem_singleton.1 hu
    exact Nat.le_refl _

theorem of_isChain (hl : ∀ t ∈ ts, t.start.offset ≤ t.stop.offset)
    (hc : ts.IsChain fun s t => s.stop.offset ≤ t.start.offset) : AreOrdered ts := by
  refine ⟨hl, ?_⟩
  induction ts with
  | nil => exact .nil
  | cons t ts ih =>
    obtain ⟨hnext, hc⟩ := List.isChain_cons.1 hc
    have hts : AreOrdered ts := ⟨fun u hu => hl u (List.mem_cons_of_mem t hu),
      ih (fun u hu => hl u (List.mem_cons_of_mem t hu)) hc⟩
    refine .cons (fun u hu => ?_) hts.pairwise
    have hne : ts ≠ [] := List.ne_nil_of_mem hu
    exact (hnext _ (List.head_mem_head? hne)).trans (hts.head_le (List.head_mem_head? hne) hu)

/-- Nodes among tokens that follow each other do so, too. -/
theorem stop_le_start (h : AreOrdered (ts ++ us)) {n m : Node} (hn : n.Among ts) (hm : m.Among us) :
    n.loc.stop.offset ≤ m.loc.start.offset := by
  obtain ⟨t, ht, hstop⟩ := hn.stop
  obtain ⟨u, hu, hstart⟩ := hm.start
  rw [hstop, hstart]
  exact (List.pairwise_append.1 h.pairwise).2.2 t ht u hu

end AreOrdered

/-- The span of a node holds those of its parts, which follow each other. -/
structure Node.IsNested (n : Node) : Prop where
  ordered : n.loc.start.offset ≤ n.loc.stop.offset
  within : ∀ c ∈ n.children, n.loc.start.offset ≤ c.loc.start.offset ∧ c.loc.stop.offset ≤ n.loc.stop.offset
  apart : n.children.Pairwise fun c d => c.loc.stop.offset ≤ d.loc.start.offset

theorem Node.isNested_of_outline {n m : Node} (h : n.outline = m.outline) (hm : m.IsNested) : n.IsNested := by
  have hface {c : Node} : c.loc.stop = c.outline.face.stop ∧ c.loc.start = c.outline.face.start := by
    rw [face_outline]
    exact ⟨rfl, rfl⟩
  refine ⟨?_, fun c hc => ?_, ?_⟩
  · rw [start_of_outline h, stop_of_outline h]
    exact hm.ordered
  · obtain ⟨d, hd, he⟩ := exists_mem_children_of_outline h hc
    rw [start_of_outline h, stop_of_outline h, start_of_outline he, stop_of_outline he]
    exact hm.within d hd
  · have happart := hm.apart
    simp only [hface] at happart ⊢
    rw [← List.pairwise_map (R := fun o o' : Outline => o.face.stop.offset ≤ o'.face.start.offset)] at happart ⊢
    rwa [children_of_outline h]

theorem SpellParts.among {ts : List Token} {ns : List Node} (h : SpellParts ts ns) {n : Node} (hn : n ∈ ns) :
    n.Among ts := by
  obtain ⟨us, hus, spelled⟩ := h.exists_spells hn
  exact spelled.among.mono hus.subset

/-- Parts follow each other if the tokens do. -/
theorem SpellParts.apart {ts : List Token} {ns : List Node} (h : SpellParts ts ns) (ho : AreOrdered ts) :
    ns.Pairwise fun c d => c.loc.stop.offset ≤ d.loc.start.offset := by
  match h with
  | .nil => exact .nil
  | @SpellParts.word t _ _ _ rest => exact rest.apart (ho.sublist (List.sublist_cons_self t _))
  | .node spelled rest =>
    exact .cons (fun d hd => ho.stop_le_start spelled.among (rest.among hd)) (rest.apart ho.right)
  | @SpellParts.enclosed l r _ _ ts _ _ _ _ _ _ inner rest =>
    have hsub : ts.Sublist (l :: (ts ++ [r])) := (List.sublist_append_left ts [r]).cons l
    refine List.pairwise_append.2 ⟨inner.apart (ho.left.sublist hsub), rest.apart ho.right, fun c hc d hd => ?_⟩
    exact ho.stop_le_start ((inner.among hc).mono hsub.subset) (rest.among hd)

/-- A node that tokens in order spell. -/
theorem Spells.ordered {ts : List Token} {n : Node} (h : Spells ts n) (ho : AreOrdered ts) :
    n.loc.start.offset ≤ n.loc.stop.offset := by
  obtain ⟨outer, missing, inner, rest, cut⟩ := h.exists_cut
  have hinner : AreOrdered inner := by
    rw [cut.eq] at ho
    exact ho.left.right
  have hhead := inner.head_mem cut.ne
  rw [cut.start _ (List.head_mem_head? cut.ne), cut.stop _ (List.getLast_mem_getLast? cut.ne)]
  exact (hinner.ordered _ hhead).trans (hinner.le_getLast (List.getLast_mem_getLast? cut.ne) hhead)

theorem Spells.isNested {ts : List Token} {n : Node} (h : Spells ts n) (ho : AreOrdered ts) : n.IsNested := by
  have hordered := h.ordered ho
  match h with
  | .node ne start stop regular parts =>
    refine ⟨hordered, fun c hc => ?_, parts.apart ho⟩
    obtain ⟨⟨t, ht, hstart⟩, u, hu, hstop⟩ := parts.among hc
    rw [start _ (List.head_mem_head? ne), stop _ (List.getLast_mem_getLast? ne), hstart, hstop]
    exact ⟨ho.head_le (List.head_mem_head? ne) ht, ho.le_getLast (List.getLast_mem_getLast? ne) hu⟩
  | @Spells.access ts us _ object rest kind children ne start stop regular spelled parts =>
    have hlast : (ts ++ us).getLast? = us.getLast? := List.getLast?_append_of_ne_nil _ ne
    have hobject : object.Among (ts ++ us) := spelled.among.mono (List.subset_append_left ts us)
    have hbehind (c : Node) (hc : c ∈ rest) : object.loc.stop.offset ≤ c.loc.start.offset :=
      ho.stop_le_start spelled.among (parts.among hc)
    have hstop {c : Node} (hc : c.Among (ts ++ us)) : c.loc.stop.offset ≤ n.loc.stop.offset := by
      obtain ⟨u, hu, hstop⟩ := hc.stop
      rw [stop _ (List.getLast_mem_getLast? ne), hstop]
      exact ho.le_getLast (hlast ▸ List.getLast_mem_getLast? ne) hu
    refine ⟨hordered, ?_, ?_⟩
    · rw [children, start]
      refine List.forall_mem_cons.2 ⟨⟨Nat.le_refl _, hstop hobject⟩, fun c hc => ⟨?_, ?_⟩⟩
      · exact (spelled.ordered ho.left).trans (hbehind c hc)
      · exact hstop ((parts.among hc).mono (List.subset_append_right ts us))
    · rw [children]
      exact .cons hbehind (parts.apart ho.right)
  | @Spells.group l r ts _ _ _ spelled =>
    have hsub : ts.Sublist (l :: (ts ++ [r])) := (List.sublist_append_left ts [r]).cons l
    exact spelled.isNested (ho.sublist hsub)

end Stepwise

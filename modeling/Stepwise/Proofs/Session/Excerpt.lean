import Mathlib.Data.List.DropRight
import Stepwise.Proofs.Parse.Span
import Stepwise.Proofs.Text.Bytes
import Stepwise.Session.Excerpt

/-!
# Excerpts of the spans of nodes

* `markedBytes`: what is marked of the lines of an excerpt.
* `Position.lead`: what stands in front of a position on its line.
* `Position.cut`: the offset at which a line is cut for a position, as a column counts characters and a cut bytes.
* `Program.excerpt_of_parse`: the excerpt of the span of a node has all lines of the node, complete, and what is marked
  of them is what stands between the cuts; this is the text of the node if each character in front of it and of its end
  on their lines has one byte.
-/

namespace Stepwise

/-! ### Pieces of a text -/

theorem splitFrom_singleton (c : Char) (piece cs : List Char) :
    splitFrom [c] 0 piece cs = cs.splitOnPPrepend (· == c) piece := by
  induction cs generalizing piece with
  | nil => rfl
  | cons d cs ih =>
    have hd : [c].isPrefixOf (d :: cs) = (d == c) := by
      rw [List.isPrefixOf, List.isPrefixOf, Bool.and_true, BEq.comm]
    rw [splitFrom, hd, List.splitOnPPrepend_cons_eq_if]
    split
    · exact congrArg _ (ih [])
    · exact ih (d :: piece)

theorem splitText_singleton (c : Char) (cs : List Char) : splitText [c] cs = cs.splitOn c :=
  splitFrom_singleton c [] cs

section

variable (c : Char)

theorem length_splitOn (cs : List Char) : (cs.splitOn c).length = cs.count c + 1 := by
  induction cs with
  | nil => rfl
  | cons d cs ih =>
    rw [List.splitOn_cons_eq_if_modifyHead, List.count_cons]
    split
    · rw [List.length_cons, ih]
    · rw [List.length_modifyHead, ih]

theorem not_mem_rtakeWhile (cs : List Char) : c ∉ cs.rtakeWhile (· ≠ c) := by
  intro h
  have := List.mem_rtakeWhile_imp h
  simp at this

theorem not_mem_takeWhile (cs : List Char) : c ∉ cs.takeWhile (· ≠ c) := by
  intro h
  have := List.mem_takeWhile_imp h
  simp at this

/-- What stands in front of the last piece of a text is split off, whatever follows it. -/
theorem exists_splitOn_append (before : List Char) :
    ∃ prior, prior.length = before.count c ∧
      ∀ cs, (before ++ cs).splitOn c = prior ++ (before.rtakeWhile (· ≠ c) ++ cs).splitOn c := by
  induction before using List.reverseRecOn with
  | nil => exact ⟨[], rfl, fun cs => rfl⟩
  | append_singleton before d ih =>
    obtain ⟨prior, hlength, hsplit⟩ := ih
    by_cases hd : d = c
    · subst hd
      refine ⟨before.splitOn d, ?_, fun cs => ?_⟩
      · rw [length_splitOn, List.count_append, List.count_singleton_self]
      · rw [List.rtakeWhile_concat_neg _ _ _ (by simp), List.append_assoc, List.singleton_append,
          List.splitOn_append_cons_self, List.nil_append]
    · refine ⟨prior, ?_, fun cs => ?_⟩
      · rw [hlength, List.count_append, List.count_singleton, beq_eq_false_iff_ne.2 hd]
        rfl
      · rw [List.rtakeWhile_concat_pos _ _ _ (by simp [hd]), List.append_assoc, List.append_assoc, hsplit]

/-- What stands behind the rest of the last piece is split off. -/
theorem exists_append_splitOn (cs after : List Char) :
    ∃ rest, (cs ++ after).splitOn c = (cs ++ after.takeWhile (· ≠ c)).splitOn c ++ rest := by
  have hafter := after.takeWhile_append_dropWhile (p := (· ≠ c))
  have hhead := after.head?_dropWhile_not (· ≠ c)
  cases hdrop : after.dropWhile (· ≠ c) with
  | nil =>
    rw [hdrop, List.append_nil] at hafter
    exact ⟨[], by rw [hafter, List.append_nil]⟩
  | cons d after' =>
    rw [hdrop] at hafter hhead
    have hd : d = c := by simpa using hhead
    subst hd
    refine ⟨after'.splitOn d, ?_⟩
    conv_lhs => rw [← hafter, ← List.append_assoc, List.splitOn_append_cons_self]

theorem rtakeWhile_append (before cs : List Char) :
    (before.rtakeWhile (· ≠ c) ++ cs).rtakeWhile (· ≠ c) = (before ++ cs).rtakeWhile (· ≠ c) := by
  induction cs using List.reverseRecOn with
  | nil => rw [List.append_nil, List.append_nil, List.rtakeWhile_idempotent]
  | append_singleton cs d ih =>
    rw [← List.append_assoc, ← List.append_assoc, List.rtakeWhile_concat, List.rtakeWhile_concat, ih]

/-- The first piece of a text starts with what stands in front of the first separator. -/
theorem prefix_of_mem_head?_splitOn (before cs : List Char) (h : c ∉ before) :
    ∀ piece ∈ ((before ++ cs).splitOn c).head?, before <+: piece := by
  induction before with
  | nil => exact fun piece _ => List.nil_prefix
  | cons d before ih =>
    have hd : ¬(d == c) = true := by simpa using (List.ne_of_not_mem_cons h).symm
    intro piece hpiece
    rw [List.cons_append, List.splitOn_cons_eq_if_modifyHead, if_neg hd, List.head?_modifyHead] at hpiece
    obtain ⟨piece', hpiece', rfl⟩ := Option.map_eq_some_iff.1 hpiece
    exact List.cons_prefix_cons.2 ⟨rfl, ih (List.not_mem_of_not_mem_cons h) piece' hpiece'⟩

/-- The last piece of a text is what stands behind the last separator. -/
theorem exists_splitOn_concat (before cs : List Char) (hcs : c ∉ cs) :
    ∃ prior, prior.length = before.count c ∧
      (before ++ cs).splitOn c = prior ++ [before.rtakeWhile (· ≠ c) ++ cs] := by
  obtain ⟨prior, hlength, hsplit⟩ := exists_splitOn_append c before
  refine ⟨prior, hlength, (hsplit cs).trans (congrArg _ (List.splitOn_eq_singleton ?_))⟩
  exact List.not_mem_append (not_mem_rtakeWhile c before) hcs

end

/-! ### Lines and their bytes -/

theorem linesOf_eq_splitOn (s : String) : linesOf s = (s.toList.splitOn '\n').map String.ofList := by
  rw [linesOf, splitText_singleton]

/-- The bytes of lines with line breaks in between. -/
theorem encode_intercalate (lines : List (List Char)) :
    (['\n'].intercalate lines).flatMap String.utf8EncodeChar =
      [10].intercalate (lines.map (·.flatMap String.utf8EncodeChar)) := by
  induction lines with
  | nil => rfl
  | cons line lines ih =>
    cases lines with
    | nil => simp
    | cons next lines =>
      rw [List.intercalate_cons_cons, List.flatMap_append, List.flatMap_append, ih, List.map_cons, List.map_cons,
        List.map_cons, List.intercalate_cons_cons]
      rfl

/-! ### Cuts -/

/-- A complete line is what it is cut into. -/
theorem ExcerptLine.append_cut (number : Nat) (text : List UInt8) (start stop : Nat) :
    (cut number text start stop).before ++ (cut number text start stop).marked ++ (cut number text start stop).after =
      text := by
  let first := min start text.length
  let last := max first (min stop text.length)
  show text.take first ++ (text.take last).drop first ++ text.drop last = text
  have hfirst : text.take first = (text.take last).take first := by
    rw [List.take_take, Nat.min_eq_left (Nat.le_max_left _ _)]
  rw [hfirst, List.take_append_drop, List.take_append_drop]

theorem ExcerptLine.text_false (l : ExcerptLine) :
    l.text false = padded l.number ++ "|" ++ " " ++ decodeBytes (l.before ++ l.marked ++ l.after) := by
  show padded l.number ++ "|" ++ " " ++ decodeBytes (l.before ++ [] ++ l.marked ++ [] ++ l.after) = _
  rw [List.append_nil, List.append_nil]

theorem ExcerptLine.marked_cut {number start stop : Nat} {text : List UInt8} (hstart : start ≤ stop)
    (hstop : stop ≤ text.length) : (cut number text start stop).marked = (text.take stop).drop start := by
  rw [cut, Nat.min_eq_left (Nat.le_trans hstart hstop), Nat.min_eq_left hstop, Nat.max_eq_right hstart]

/-- A line of a span, cut where the span starts and stops. -/
def LineRange.cutLine (r : LineRange) (number : Nat) (text : List UInt8) : ExcerptLine :=
  .cut number text (if number = r.lineStart.toNat then r.colStart.toNat else 0)
    (if number = r.lineEnd.toNat then r.colEnd.toNat else text.length)

theorem excerpt_eq {source : String} {r : LineRange} (hstart : 1 ≤ r.lineStart)
    (hstop : r.lineEnd ≤ (linesOf source).length) (hle : r.lineStart ≤ r.lineEnd) :
    excerpt source r =
      ((((linesOf source).drop (r.lineStart.toNat - 1)).take (r.lineEnd.toNat + 1 - r.lineStart.toNat)).zipIdx
        r.lineStart.toNat).map fun p => r.cutLine p.2 (bytesOf p.1) := by
  rw [excerpt, if_neg (by omega), List.zipIdx_eq_map_add (i := r.lineStart.toNat), List.map_map]
  rfl

/-- What is marked of lines, with line breaks in between. -/
def markedBytes (lines : List ExcerptLine) : List UInt8 := [10].intercalate (lines.map ExcerptLine.marked)

section

variable {r : LineRange} {lines : List (List UInt8)} {final : List UInt8}

theorem markedBytes_cons {line : ExcerptLine} {lines : List ExcerptLine} (h : lines ≠ []) :
    markedBytes (line :: lines) = line.marked ++ [10] ++ markedBytes lines := by
  rw [markedBytes, List.map_cons, List.intercalate_cons_of_ne_nil (by simpa using h), markedBytes]

/-- Behind the first line of a span, all is marked up to where it stops. -/
theorem exists_markedBytes_of_lt {k : Nat} (hk : r.lineStart.toNat < k) (hlast : r.lineEnd.toNat = k + lines.length)
    (hstop : r.colEnd.toNat ≤ final.length) :
    ∃ front, [10].intercalate (lines ++ [final]) = front ++ final ∧
      markedBytes (((lines ++ [final]).zipIdx k).map fun p => r.cutLine p.2 p.1) =
        front ++ final.take r.colEnd.toNat := by
  induction lines generalizing k with
  | nil =>
    refine ⟨[], List.intercalate_singleton, ?_⟩
    have hcut : (r.cutLine k final).marked = final.take r.colEnd.toNat := by
      rw [LineRange.cutLine, if_neg (Nat.ne_of_gt hk), if_pos (show k = _ from hlast.symm),
        ExcerptLine.marked_cut (Nat.zero_le _) hstop]
      rfl
    exact List.intercalate_singleton.trans hcut
  | cons line lines ih =>
    have hlast' : r.lineEnd.toNat = k + 1 + lines.length := by
      rw [hlast, List.length_cons]
      omega
    obtain ⟨front, hfront, hmarked⟩ := ih (Nat.lt_succ_of_lt hk) hlast'
    have hcut : (r.cutLine k line).marked = line := by
      rw [LineRange.cutLine, if_neg (Nat.ne_of_gt hk), if_neg (by omega),
        ExcerptLine.marked_cut (Nat.zero_le _) (Nat.le_refl _),
        List.take_length]
      rfl
    refine ⟨line ++ [10] ++ front, ?_, ?_⟩
    · rw [List.cons_append, List.intercalate_cons_of_ne_nil (by simp), hfront, List.append_assoc _ front]
    · rw [List.cons_append, List.zipIdx_cons, List.map_cons, markedBytes_cons (by simp), hmarked, hcut,
        List.append_assoc _ front]

/-- Of the lines of a span, all is marked from where it starts to where it stops. -/
theorem exists_markedBytes (hlast : r.lineEnd.toNat = r.lineStart.toNat + lines.length)
    (hstart : ∀ line ∈ (lines ++ [final]).head?, r.colStart.toNat ≤ line.length)
    (hstop : r.colEnd.toNat ≤ final.length) (hle : lines = [] → r.colStart.toNat ≤ r.colEnd.toNat) :
    ∃ front, [10].intercalate (lines ++ [final]) = front ++ final ∧
      markedBytes (((lines ++ [final]).zipIdx r.lineStart.toNat).map fun p => r.cutLine p.2 p.1) =
        (front ++ final.take r.colEnd.toNat).drop r.colStart.toNat := by
  cases lines with
  | nil =>
    refine ⟨[], List.intercalate_singleton, ?_⟩
    have hcut : (r.cutLine r.lineStart.toNat final).marked = (final.take r.colEnd.toNat).drop r.colStart.toNat := by
      rw [LineRange.cutLine, if_pos rfl, if_pos (show r.lineStart.toNat = _ from hlast.symm),
        ExcerptLine.marked_cut (hle rfl) hstop]
    exact List.intercalate_singleton.trans hcut
  | cons line lines =>
    have hlast' : r.lineEnd.toNat = r.lineStart.toNat + 1 + lines.length := by
      rw [hlast, List.length_cons]
      omega
    obtain ⟨front, hfront, hmarked⟩ := exists_markedBytes_of_lt (Nat.lt_succ_self _) hlast' hstop
    have hline : r.colStart.toNat ≤ line.length := hstart line rfl
    have hcut : (r.cutLine r.lineStart.toNat line).marked = line.drop r.colStart.toNat := by
      rw [LineRange.cutLine, if_pos rfl, if_neg (by omega), ExcerptLine.marked_cut hline (Nat.le_refl _),
        List.take_length]
    refine ⟨line ++ [10] ++ front, ?_, ?_⟩
    · rw [List.cons_append, List.intercalate_cons_of_ne_nil (by simp), hfront, List.append_assoc _ front]
    · rw [List.cons_append, List.zipIdx_cons, List.map_cons, markedBytes_cons (by simp), hmarked, hcut,
        List.append_assoc, List.append_assoc, List.append_assoc, List.drop_append_of_le_length hline]

end

/-! ### Positions -/

namespace Position

variable {source : String} {p q : Position}

/-- What stands in front of a position on its line. -/
def lead (source : String) (p : Position) : List Char := (takeBytes p.offset source.toList).rtakeWhile (· ≠ '\n')

/-- The offset at which a line is cut for a position: its column, which counts characters, as a number of bytes behind
the start of the line. -/
def cut (source : String) (p : Position) : Nat := p.offset - byteLength (p.lead source) + p.column

theorem lead_eq {before after : List Char} (h : source.toList = before ++ after) (hp : byteLength before = p.offset) :
    p.lead source = before.rtakeWhile (· ≠ '\n') := by
  rw [lead, h, ← hp, takeBytes_append]

theorem IsIn.line_eq (hp : p.IsIn source) {before after : List Char} (h : source.toList = before ++ after)
    (hoffset : byteLength before = p.offset) : p.line = before.count '\n' + 1 := by
  obtain ⟨before', after', hsource, hoffset', hline, -⟩ := hp
  have hbefore : before = before' := by
    rw [← takeBytes_append before after, ← h, hoffset, hoffset', hsource, takeBytes_append]
  rw [hline, hbefore]

theorem IsIn.column_eq (hp : p.IsIn source) : p.column = (p.lead source).length := by
  obtain ⟨before, after, hsource, hoffset, -, hcolumn⟩ := hp
  rw [hcolumn, lead_eq hsource hoffset.symm]

/-- A line is cut at a position itself if all characters in front of it on its line have one byte. -/
theorem IsIn.cut_eq (hp : p.IsIn source) (h : ∀ c ∈ p.lead source, c.utf8Size = 1) : p.cut source = p.offset := by
  have hcolumn : p.column = byteLength (p.lead source) := by rw [hp.column_eq, byteLength_eq_length h]
  have hle : byteLength (p.lead source) ≤ p.offset := by
    obtain ⟨before, after, hsource, hoffset, -⟩ := hp
    rw [lead_eq hsource hoffset.symm, hoffset]
    exact byteLength_le_of_suffix (List.rtakeWhile_suffix _ _)
  rw [cut, hcolumn, Nat.sub_add_cancel hle]

end Position

/-! ### Spans -/

/-- The lines of a source on which a span lies. -/
def Loc.lines (source : String) (l : Loc) : List String :=
  ((linesOf source).drop (l.start.line - 1)).take (l.stop.line + 1 - l.start.line)

/-- A span and its lines: between `above` and `below`, with `text` in the span and `tail` behind it. They are split into
`inner` and the last one. -/
structure Loc.LiesOn (source : String) (l : Loc) (above text tail below : List Char) (inner : List (List Char)) :
    Prop where
  source_eq : source.toList = above ++ (l.start.lead source ++ text ++ tail) ++ below
  start : l.start.offset = byteLength (above ++ l.start.lead source)
  stop : l.stop.offset = byteLength (above ++ l.start.lead source ++ text)
  lead : l.stop.lead source = (l.start.lead source ++ text).rtakeWhile (· ≠ '\n')
  split : (l.start.lead source ++ text ++ tail).splitOn '\n' = inner ++ [l.stop.lead source ++ tail]
  line : l.stop.line = l.start.line + inner.length
  lines : l.lines source = (inner ++ [l.stop.lead source ++ tail]).map String.ofList
  within : 1 ≤ l.start.line ∧ l.stop.line ≤ (linesOf source).length

section

variable {source : String} {l : Loc} {above text tail below : List Char} {inner : List (List Char)}

theorem Loc.exists_liesOn (hp : l.start.IsIn source) (hq : l.stop.IsIn source) (hle : l.start.offset ≤ l.stop.offset) :
    ∃ above text tail below inner, l.LiesOn source above text tail below inner := by
  obtain ⟨before, text, after, hsource, hstart, hstop⟩ := Position.exists_isSlice hp hq hle
  have hsource' : source.toList = before ++ (text ++ after) := by rw [hsource, List.append_assoc]
  have hlead := Position.lead_eq hsource' hstart
  have hlead' : l.stop.lead source = (l.start.lead source ++ text).rtakeWhile (· ≠ '\n') := by
    rw [Position.lead_eq hsource hstop, hlead, rtakeWhile_append]
  have hline := hp.line_eq hsource' hstart
  have hline' := hq.line_eq hsource hstop
  have hnone : (l.start.lead source).count '\n' = 0 := by
    rw [hlead]
    exact List.count_eq_zero.2 (not_mem_rtakeWhile '\n' before)
  obtain ⟨prior, hprior, hsplit⟩ := exists_splitOn_append '\n' before
  obtain ⟨rest, hrest⟩ := exists_append_splitOn '\n' (l.start.lead source ++ text) after
  obtain ⟨inner, hinner, hlines⟩ := exists_splitOn_concat '\n' (l.start.lead source ++ text)
    (after.takeWhile (· ≠ '\n')) (not_mem_takeWhile '\n' after)
  rw [← hlead'] at hlines
  have hall : source.toList.splitOn '\n' =
      prior ++ (inner ++ [l.stop.lead source ++ after.takeWhile (· ≠ '\n')] ++ rest) := by
    rw [hsource', hsplit, ← hlead, ← List.append_assoc, hrest, hlines]
  rw [List.count_append, hnone, Nat.zero_add] at hinner
  rw [List.count_append] at hline'
  refine ⟨before.rdropWhile (· ≠ '\n'), text, after.takeWhile (· ≠ '\n'), after.dropWhile (· ≠ '\n'), inner,
    ⟨?_, ?_, ?_, hlead', hlines, by omega, ?_, by omega, ?_⟩⟩
  · rw [hlead, hsource]
    simp only [← List.append_assoc, List.rdropWhile_append_rtakeWhile]
    rw [List.append_assoc _ (List.takeWhile _ _), List.takeWhile_append_dropWhile]
  · rw [hlead, List.rdropWhile_append_rtakeWhile, hstart]
  · rw [hlead, List.rdropWhile_append_rtakeWhile, hstop]
  · have htake : (inner ++ [l.stop.lead source ++ after.takeWhile (· ≠ '\n')]).length =
        l.stop.line + 1 - l.start.line := by
      rw [List.length_append, List.length_singleton]
      omega
    rw [Loc.lines, linesOf_eq_splitOn, hall, ← List.map_drop, ← List.map_take,
      List.drop_left' (by omega), List.take_left' htake]
  · rw [linesOf_eq_splitOn, hall]
    simp only [List.length_map, List.length_append, List.length_singleton]
    omega

namespace Loc.LiesOn

variable (h : l.LiesOn source above text tail below inner)

include h

theorem length_lines : (l.lines source).length = l.stop.line + 1 - l.start.line := by
  have hline := h.line
  rw [h.lines, List.length_map, List.length_append, List.length_singleton]
  omega

/-- The excerpt of a span has all its lines. -/
theorem excerpt_eq :
    excerpt source (.ofLoc l) = ((l.lines source).zipIdx l.start.line).map fun p =>
      (LineRange.ofLoc l).cutLine p.2 (bytesOf p.1) := by
  have hline := h.line
  obtain ⟨hfirst, hlast⟩ := h.within
  exact Stepwise.excerpt_eq (Int.ofNat_le.2 hfirst) (Int.ofNat_le.2 hlast) (Int.ofNat_le.2 (by omega))

/-- The first line of a span starts with what stands in front of the span. -/
theorem lead_prefix : ∀ line ∈ (inner ++ [l.stop.lead source ++ tail]).head?, l.start.lead source <+: line := by
  rw [← h.split, List.append_assoc]
  exact prefix_of_mem_head?_splitOn '\n' _ _ (not_mem_rtakeWhile '\n' _)

/-- A span on one line ends behind what stands in front of it and its text. -/
theorem lead_of_nil (hinner : inner = []) : l.stop.lead source = l.start.lead source ++ text := by
  have hjoin := congrArg (List.intercalate ['\n']) h.split
  rw [List.intercalate_splitOn, hinner, List.nil_append, List.intercalate_singleton] at hjoin
  exact (List.append_cancel_right hjoin).symm

/-- What is marked of a span is what stands between the cuts for its start and its end. -/
theorem markedBytes_eq (hp : l.start.IsIn source) (hq : l.stop.IsIn source) :
    markedBytes (excerpt source (.ofLoc l)) =
      ((bytesOf source).take (l.stop.cut source)).drop (l.start.cut source) := by
  let encode (cs : List Char) : List UInt8 := cs.flatMap String.utf8EncodeChar
  let last := l.stop.lead source ++ tail
  have hlines : excerpt source (.ofLoc l) = ((inner.map encode ++ [encode last]).zipIdx l.start.line).map fun p =>
      (LineRange.ofLoc l).cutLine p.2 p.1 := by
    have hmap : inner.map encode ++ [encode last] = (inner ++ [last]).map encode := by rw [List.map_append]; rfl
    rw [h.excerpt_eq, h.lines, hmap, List.zipIdx_map, List.zipIdx_map, List.map_map, List.map_map]
    exact List.map_congr_left fun p _ => congrArg _ (bytesOf_ofList p.1)
  have hcolumn : l.stop.column ≤ (encode last).length := by
    have hle := length_le_byteLength (l.stop.lead source)
    rw [hq.column_eq, length_encode, byteLength_append]
    omega
  obtain ⟨front, hfront, hmarked⟩ : ∃ front,
      [10].intercalate (inner.map encode ++ [encode last]) = front ++ encode last ∧
        markedBytes (((inner.map encode ++ [encode last]).zipIdx l.start.line).map fun p =>
        (LineRange.ofLoc l).cutLine p.2 p.1) = (front ++ (encode last).take l.stop.column).drop l.start.column := by
    refine exists_markedBytes (r := .ofLoc l) ?_ ?_ ?_ ?_
    · rw [List.length_map]
      exact h.line
    · intro line hline
      rw [← List.map_singleton (f := encode), ← List.map_append, List.head?_map] at hline
      obtain ⟨first, hfirst, rfl⟩ := Option.map_eq_some_iff.1 hline
      show l.start.column ≤ (encode first).length
      rw [hp.column_eq, length_encode]
      exact Nat.le_trans (h.lead_prefix first hfirst).length_le (length_le_byteLength first)
    · exact hcolumn
    · intro hinner
      show l.start.column ≤ l.stop.column
      rw [hp.column_eq, hq.column_eq, h.lead_of_nil (List.map_eq_nil_iff.1 hinner), List.length_append]
      exact Nat.le_add_right ..
  have hencode : encode (l.start.lead source ++ text ++ tail) = front ++ encode last := by
    rw [← hfront, ← List.map_singleton (f := encode), ← List.map_append, ← encode_intercalate, ← h.split,
      List.intercalate_splitOn]
  have hlength : front.length + byteLength (l.stop.lead source) = byteLength (l.start.lead source ++ text) := by
    have := congrArg List.length hencode
    simp only [encode, last, List.length_append, length_encode, byteLength_append] at this ⊢
    omega
  have hstart : l.start.cut source = (encode above).length + l.start.column := by
    rw [Position.cut, h.start, byteLength_append, Nat.add_sub_cancel, length_encode]
  have hstop : l.stop.cut source = (encode above).length + (front.length + l.stop.column) := by
    rw [Position.cut, h.stop, length_encode, List.append_assoc, byteLength_append, ← hlength]
    omega
  have hsource : bytesOf source = encode above ++ (front ++ (encode last ++ encode below)) := by
    rw [bytesOf_eq_flatMap, h.source_eq, List.flatMap_append, List.flatMap_append]
    exact (congrArg (encode above ++ · ++ encode below) hencode).trans (by simp only [List.append_assoc])
  rw [hlines, hmarked, hsource, hstop, hstart, List.take_length_add_append, List.take_length_add_append,
    List.drop_length_add_append, List.take_append_of_le_length hcolumn]

end Loc.LiesOn

/-- What stands between two offsets has the bytes between them. -/
theorem IsSlice.bytesOf_eq {start stop : Nat} {s : String} (h : IsSlice source start stop s.toList) :
    ((bytesOf source).take stop).drop start = bytesOf s := by
  obtain ⟨before, after, hsource, rfl, rfl⟩ := h
  rw [bytesOf_eq_flatMap, bytesOf_eq_flatMap, hsource, List.flatMap_append,
    ← length_encode (before ++ s.toList), List.take_left, List.flatMap_append, ← length_encode, List.drop_left]

end

/-! ### Nodes -/

variable {source name : String} {first : Int}

/-- The excerpt of a step on a node of a program that is read from a source. It has the lines from the one on which the
node starts to the one on which it stops, with their numbers, and each is complete. What is marked of them, with line
breaks in between, is what stands between the cuts for the start and the end of the node. If each character in front of
these two on their lines has one byte, it is the text of the node. -/
theorem Program.excerpt_of_parse {p : Program} (h : Program.parse source first name = .ok p) {n : Node}
    (hn : n ∈ p.nodes) {step : TraceStep} (hrange : step.range = .ofLoc n.loc) :
    let lines := n.loc.lines source
    let shown := excerpt source step.range
    lines.length = n.loc.stop.line + 1 - n.loc.start.line ∧
    shown.map ExcerptLine.number = List.range' n.loc.start.line lines.length ∧
    shown.map (fun l => l.before ++ l.marked ++ l.after) = lines.map bytesOf ∧
    shown.map (·.text false) = (lines.zipIdx n.loc.start.line).map (fun l => padded l.2 ++ "|" ++ " " ++ l.1) ∧
    markedBytes shown = ((bytesOf source).take (n.loc.stop.cut source)).drop (n.loc.start.cut source) ∧
    ((∀ c ∈ n.loc.start.lead source ++ n.loc.stop.lead source, c.utf8Size = 1) →
      markedBytes shown = bytesOf (p.text n)) := by
  intro lines shown
  have hspans := Program.spans_node h hn
  obtain ⟨above, text, tail, below, inner, hlies⟩ := Loc.exists_liesOn hspans.start hspans.stop hspans.nested.ordered
  have hshown : shown = (lines.zipIdx n.loc.start.line).map fun l =>
      (LineRange.ofLoc n.loc).cutLine l.2 (bytesOf l.1) := by
    rw [← hlies.excerpt_eq, ← hrange]
  have hmarked : markedBytes shown = ((bytesOf source).take (n.loc.stop.cut source)).drop (n.loc.start.cut source) := by
    rw [← hlies.markedBytes_eq hspans.start hspans.stop, ← hrange]
  have hfst : (lines.zipIdx n.loc.start.line).map Prod.fst = lines := List.zipIdx_map_fst _ _
  refine ⟨hlies.length_lines, ?_, ?_, ?_, hmarked, fun hlead => ?_⟩
  · rw [hshown, List.map_map, ← List.zipIdx_map_snd]
    rfl
  · rw [hshown, List.map_map]
    conv_rhs => rw [← hfst, List.map_map]
    exact List.map_congr_left fun l _ => ExcerptLine.append_cut ..
  · rw [hshown, List.map_map]
    refine List.map_congr_left fun l _ => ?_
    rw [Function.comp_apply, ExcerptLine.text_false, LineRange.cutLine, ExcerptLine.append_cut, decodeBytes_bytesOf]
    rfl
  · obtain ⟨hlead, hlead'⟩ := List.forall_mem_append.1 hlead
    obtain ⟨words, last, q, -, hcode, -⟩ := Program.exists_spelled_of_parse h
    rw [hmarked, hspans.start.cut_eq hlead, hspans.stop.cut_eq hlead', (text_isSlice hcode hspans).bytesOf_eq]

/-- A statement on two lines, between lines with longer characters. -/
theorem Program.excerpt_of_parse_lines :
    ∃ p n, Program.parse "x = 'ü';\nif (a)\n  b(c); // ü" 1 "" = .ok p ∧ n ∈ p.nodes ∧
      p.text n = "if (a)\n  b(c);" ∧ n.loc.lines "x = 'ü';\nif (a)\n  b(c); // ü" = ["if (a)", "  b(c); // ü"] ∧
      markedBytes (excerpt "x = 'ü';\nif (a)\n  b(c); // ü" (.ofLoc n.loc)) = bytesOf (p.text n) := by
  let source := "x = 'ü';\nif (a)\n  b(c); // ü"
  have hany : (Program.parse source 1 "").toOption.any fun p => p.nodes.any fun n =>
      p.text n = "if (a)\n  b(c);" ∧ n.loc.lines source = ["if (a)", "  b(c); // ü"] ∧
        (n.loc.start.lead source ++ n.loc.stop.lead source).all (·.utf8Size == 1) := by
    decide +kernel
  obtain ⟨p, hp, hany⟩ := Program.exists_of_any_parse hany
  obtain ⟨n, hn, hany⟩ := List.any_eq_true.1 hany
  obtain ⟨htext, hlines, hlead⟩ := of_decide_eq_true hany
  have hlead : ∀ c ∈ n.loc.start.lead source ++ n.loc.stop.lead source, c.utf8Size = 1 := fun c hc =>
    beq_iff_eq.1 (List.all_eq_true.1 hlead c hc)
  have hrange : ({ range := .ofLoc n.loc } : TraceStep).range = .ofLoc n.loc := rfl
  obtain ⟨-, -, -, -, -, hmarked⟩ := Program.excerpt_of_parse hp hn hrange
  exact ⟨p, n, hp, hn, htext, hlines, hmarked hlead⟩

/-- Behind a character of two bytes, a line is cut one byte too early: the quotation mark that ends the string is not
marked. -/
theorem Program.excerpt_string :
    ∃ p n, Program.parse "'é'; x = 1;" 1 "" = .ok p ∧ n ∈ p.nodes ∧ p.text n = "'é'" ∧
      let marked := markedBytes (excerpt "'é'; x = 1;" (.ofLoc n.loc))
      marked = bytesOf "'é" ∧ marked ≠ bytesOf (p.text n) := by
  have hany : (Program.parse "'é'; x = 1;" 1 "").toOption.any fun p => p.nodes.any fun n =>
      p.text n = "'é'" ∧ markedBytes (excerpt "'é'; x = 1;" (.ofLoc n.loc)) = bytesOf "'é" ∧
        markedBytes (excerpt "'é'; x = 1;" (.ofLoc n.loc)) ≠ bytesOf (p.text n) := by
    decide +kernel
  obtain ⟨p, hp, hany⟩ := Program.exists_of_any_parse hany
  obtain ⟨n, hn, hany⟩ := List.any_eq_true.1 hany
  exact ⟨p, n, hp, hn, of_decide_eq_true hany⟩

end Stepwise

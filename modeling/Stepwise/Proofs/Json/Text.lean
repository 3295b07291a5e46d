import Mathlib.Tactic.IntervalCases
import Std.Data.String.ToInt
import Stepwise.Json.Printer
import Stepwise.Json.Reader
import Stepwise.Proofs.Decimal.Text

/-!
# JSON values read back from their texts

* `Json.Readable`: a value whose numbers are all decimal numerals.
* `Json.Whole`: a value whose numbers are all integers.
* `Json.parse?_compact`: a readable value is read back from its text.
-/

namespace Stepwise

namespace Json

/-- A value whose numbers are all integers. -/
inductive Whole : Json → Prop where
  | null : Whole .null
  | bool (b : Bool) : Whole (.bool b)
  | int (n : Int) : Whole (.int n)
  | str (s : String) : Whole (.str s)
  | arr {items : List Json} (h : ∀ j ∈ items, Whole j) : Whole (.arr items)
  | obj {members : List (String × Json)} (h : ∀ m ∈ members, Whole m.2) : Whole (.obj members)

theorem Whole.nat (n : Nat) : Whole (.nat n) := .int n

/-- A value whose numbers are all decimal numerals. -/
inductive Readable : Json → Prop where
  | null : Readable .null
  | bool (b : Bool) : Readable (.bool b)
  | num {literal : String} (n : DecimalNumeral) (negative : Bool) (h : literal.toList = n.signed negative) :
    Readable (.num literal)
  | str (s : String) : Readable (.str s)
  | arr {items : List Json} (h : ∀ j ∈ items, Readable j) : Readable (.arr items)
  | obj {members : List (String × Json)} (h : ∀ m ∈ members, Readable m.2) : Readable (.obj members)

/-! ### The characters of a text -/

/-- The characters between the quotes of a string. -/
def escaped (s : String) : List Char := s.toList.flatMap escapedChar

mutual

/-- The characters of a value on one line. -/
def chars : Json → List Char
  | .null => ['n', 'u', 'l', 'l']
  | .bool b => if b then ['t', 'r', 'u', 'e'] else ['f', 'a', 'l', 's', 'e']
  | .num literal => literal.toList
  | .str s => '"' :: (escaped s ++ ['"'])
  | .arr items => '[' :: (itemChars true items ++ [']'])
  | .obj members => '\x7b' :: (memberChars true members ++ ['\x7d'])

/-- The characters of items, with a comma before all but the first. -/
def itemChars (first : Bool) : List Json → List Char
  | [] => []
  | j :: rest => (if first then [] else [',']) ++ (chars j ++ itemChars false rest)

/-- The characters of members, with a comma before all but the first. -/
def memberChars (first : Bool) : List (String × Json) → List Char
  | [] => []
  | (name, j) :: rest =>
    (if first then [] else [',']) ++ ('"' :: (escaped name ++ '"' :: ':' :: (chars j ++ memberChars false rest)))

end

theorem toList_foldl_push (cs : List Char) (out : String) : (cs.foldl String.push out).toList = out.toList ++ cs := by
  induction cs generalizing out with
  | nil => simp
  | cons c cs ih => simp [ih]

theorem toList_writeString (out s : String) :
    (writeString out s).toList = out.toList ++ '"' :: (escaped s ++ ['"']) := by
  have h (cs : List Char) (out : String) :
      (cs.foldl (fun out c => (escapedChar c).foldl String.push out) out).toList =
        out.toList ++ cs.flatMap escapedChar := by
    induction cs generalizing out with
    | nil => simp
    | cons c cs ih => simp [ih, toList_foldl_push]
  unfold writeString escaped
  rw [String.toList_push, String.foldl_eq_foldl_toList, h, String.toList_push]
  simp

theorem toList_pushComma (out : String) (first : Bool) :
    (if first then out else out.push ',').toList = out.toList ++ if first then [] else [','] := by
  cases first <;> simp

mutual

theorem toList_write (out : String) (j : Json) : (write out j).toList = out.toList ++ chars j := by
  cases j with
  | null => simp [write, chars]
  | bool b => cases b <;> simp [write, chars]
  | num literal => simp [write, chars]
  | str s => simp [write, chars, toList_writeString]
  | arr items => simp [write, chars, toList_writeItems]
  | obj members => simp [write, chars, toList_writeMembers]

theorem toList_writeItems (out : String) (first : Bool) (items : List Json) :
    (writeItems out first items).toList = out.toList ++ itemChars first items := by
  cases items with
  | nil => simp [writeItems, itemChars]
  | cons j rest => simp [writeItems, itemChars, toList_writeItems, toList_write, toList_pushComma]

theorem toList_writeMembers (out : String) (first : Bool) (members : List (String × Json)) :
    (writeMembers out first members).toList = out.toList ++ memberChars first members := by
  cases members with
  | nil => simp [writeMembers, memberChars]
  | cons m rest =>
    obtain ⟨name, j⟩ := m
    simp [writeMembers, memberChars, toList_writeMembers, toList_write, toList_pushComma, toList_writeString]

end

theorem toList_compact (j : Json) : j.compact.toList = chars j := toList_write "" j

/-! ### Strings -/

/-- Whether a character is written with its number. -/
def isNumbered (n : Nat) : Prop := n < 0x20 ∨ n = 0x3C ∨ n = 0x3E ∨ n = 0x26 ∨ n = 0x2028 ∨ n = 0x2029

theorem hexDigits_of_isNumbered {n : Nat} (hn : isNumbered n) :
    ∃ a b c d, hexDigits 4 n = [a, b, c, d] ∧ hex4? a b c d = some n := by
  rcases hn with h | h | h | h | h | h
  · interval_cases n <;> exact ⟨_, _, _, _, rfl, rfl⟩
  all_goals
    subst h
    exact ⟨_, _, _, _, rfl, rfl⟩

theorem readString?_hexDigits {n : Nat} (hn : isNumbered n) (acc rest : List Char) :
    readString? acc ('\\' :: 'u' :: hexDigits 4 n ++ rest) = readString? (Char.ofNat n :: acc) rest := by
  obtain ⟨a, b, c, d, hd, hv⟩ := hexDigits_of_isNumbered hn
  have hlow : ¬(0xD800 ≤ n ∧ n < 0xDC00) := by
    unfold isNumbered at hn
    omega
  have hhigh : ¬(0xDC00 ≤ n ∧ n < 0xE000) := by
    unfold isNumbered at hn
    omega
  rw [hd]
  show readString? acc ('\\' :: 'u' :: a :: b :: c :: d :: rest) = _
  rw [readString?, hv]
  dsimp only
  rw [if_neg hlow, if_neg hhigh]

theorem readString?_simple {c e : Char} (h : simpleEscape? c = some e) (hu : c ≠ 'u') (acc rest : List Char) :
    readString? acc ('\\' :: c :: rest) = readString? (e :: acc) rest := by
  rw [readString?, h]
  rintro a b c d rest ⟨rfl⟩
  exact absurd rfl hu

theorem readString?_plain {c : Char} (hquote : c ≠ '"') (hslash : c ≠ '\\') (hlt : ¬c.toNat < 0x20)
    (acc rest : List Char) : readString? acc ([c] ++ rest) = readString? (c :: acc) rest := by
  show readString? acc (c :: rest) = _
  rw [readString?, if_neg hlt]
  · exact hquote
  all_goals
    intros
    exact hslash (by assumption)

/-- A character is read back. -/
theorem readString?_escapedChar (c : Char) (acc rest : List Char) :
    readString? acc (escapedChar c ++ rest) = readString? (c :: acc) rest := by
  have hc {n : Nat} (h : c.toNat = n) : c = Char.ofNat n := by rw [← h, Char.ofNat_toNat]
  unfold escapedChar
  split
  all_goals rename_i h
  all_goals try
    rw [hc h]
    exact readString?_simple rfl (by decide) acc rest
  split
  · rename_i hn
    exact (readString?_hexDigits hn acc rest).trans (by rw [Char.ofNat_toNat])
  · rename_i hn
    have hquote : c ≠ '"' := by
      rintro rfl
      simp_all
    have hslash : c ≠ '\\' := by
      rintro rfl
      simp_all
    exact readString?_plain hquote hslash (fun hlt => hn (.inl hlt)) acc rest

/-- A string is read back. -/
theorem readString?_escaped (acc : List Char) (s : String) (rest : List Char) :
    readString? acc (escaped s ++ '"' :: rest) = some (String.ofList (acc.reverse ++ s.toList), rest) := by
  unfold escaped
  induction s.toList generalizing acc with
  | nil => simp [readString?]
  | cons c cs ih => rw [List.flatMap_cons, List.append_assoc, readString?_escapedChar, ih]; simp

/-! ### Numbers -/

/-- What may follow a number. -/
def Ends (rest : List Char) : Prop := ∀ c ∈ rest.head?, c.isDigit = false ∧ c ≠ '.' ∧ c ≠ 'e' ∧ c ≠ 'E'

theorem toList_int (n : Int) :
    (toString n).toList = (if n < 0 then ['-'] else []) ++ Nat.toDigits 10 n.natAbs := by
  rw [Int.toString_eq_repr, Int.repr_eq_if]
  split
  · rw [if_neg (by omega), Nat.toList_repr, show n.toNat = n.natAbs by omega]
    rfl
  · rw [if_pos (by omega), String.toList_append, Nat.toList_repr, show (-n).toNat = n.natAbs by omega]
    rfl

theorem Readable.int (n : Int) : Readable (.int n) := by
  refine .num (.ofNat n.natAbs) (decide (n < 0)) ?_
  rw [toList_int, DecimalNumeral.signed, DecimalNumeral.text_ofNat]
  simp only [decide_eq_true_eq]
  split
  · rfl
  · rfl

theorem Whole.readable {j : Json} (h : j.Whole) : j.Readable := by
  induction h with
  | null => exact .null
  | bool b => exact .bool b
  | int n => exact .int n
  | str s => exact .str s
  | arr h ih => exact .arr ih
  | obj h ih => exact .obj ih

/-- Digits end where something else follows. -/
theorem readDigits?_append {ds rest : List Char} (hd : AllDigits ds) (hne : ds ≠ [])
    (hr : ∀ c ∈ rest.head?, c.isDigit = false) : readDigits? (ds ++ rest) = some (ds, rest) := by
  have hspan : (ds ++ rest).span Char.isDigit = (ds, rest) := by
    rw [List.span_eq_takeWhile_dropWhile, List.takeWhile_append_of_pos hd, List.dropWhile_append_of_pos hd]
    cases rest with
    | nil => simp
    | cons c rest => simp [hr c rfl]
  unfold readDigits?
  rw [hspan]
  simp [hne]

theorem readFraction?_of_ends {rest : List Char} (hr : Ends rest) : readFraction? rest = some ([], rest) := by
  unfold readFraction?
  split
  · exact absurd rfl (hr '.' rfl).2.1
  · rfl

theorem readScale?_of_ends {rest : List Char} (hr : Ends rest) : readScale? rest = some ([], rest) := by
  unfold readScale?
  split
  · rename_i e rest
    obtain ⟨-, -, h1, h2⟩ := hr e rfl
    rw [if_neg (by simp [h1, h2])]
  · rfl

section

variable (n : DecimalNumeral) {rest : List Char}

/-- What follows the digits before the point. -/
theorem isDigit_pointed (hr : Ends rest) :
    ∀ c ∈ (pointed n.fraction ++ (marked n.width n.exponent ++ rest)).head?, c.isDigit = false := by
  intro c hc
  rw [← List.append_assoc, List.head?_append] at hc
  rcases Option.or_eq_some_iff.1 hc with hc | ⟨-, hc⟩
  · rcases head?_pointed n.fraction n.width n.exponent c hc with rfl | rfl <;> rfl
  · exact (hr c hc).1

/-- What follows the digits after the point. -/
theorem isDigit_marked (hr : Ends rest) : ∀ c ∈ (marked n.width n.exponent ++ rest).head?, c.isDigit = false := by
  intro c hc
  rw [List.head?_append] at hc
  rcases Option.or_eq_some_iff.1 hc with hc | ⟨-, hc⟩
  · rw [head?_marked n.width n.exponent c hc]
    rfl
  · exact (hr c hc).1

/-- The digits before the point have no leading zero, or are a zero. -/
theorem readWhole?_whole (hr : ∀ c ∈ rest.head?, c.isDigit = false) :
    readWhole? (n.whole ++ rest) = some (n.whole, rest) := by
  unfold readWhole?
  split
  · rename_i cs heq
    have hzero : n.whole.head? = some '0' := by
      obtain ⟨c, ds, hds⟩ := List.exists_cons_of_ne_nil n.whole_ne_nil
      rw [hds] at heq ⊢
      exact congrArg some (List.cons.inj heq).1
    rw [n.lead hzero] at heq ⊢
    rw [show rest = cs from (List.cons.inj heq).2]
  · exact readDigits?_append n.isDigit_whole n.whole_ne_nil hr

theorem readFraction?_pointed (hr : Ends rest) :
    readFraction? (pointed n.fraction ++ (marked n.width n.exponent ++ rest)) =
      some (pointed n.fraction, marked n.width n.exponent ++ rest) := by
  by_cases h : n.fraction = []
  · rw [h]
    show readFraction? (marked n.width n.exponent ++ rest) = some ([], _)
    cases n.exponent with
    | none => exact readFraction?_of_ends hr
    | some e => rfl
  · rw [pointed_of_ne_nil h]
    show (readDigits? (n.fraction ++ (marked n.width n.exponent ++ rest))).map _ = _
    rw [readDigits?_append n.isDigit_fraction h (isDigit_marked n hr)]
    rfl

theorem readScale?_marked (width : Nat) (e : Option Int) (hr : Ends rest) :
    readScale? (marked width e ++ rest) = some (marked width e, rest) := by
  cases e with
  | none => exact readScale?_of_ends hr
  | some e =>
    obtain ⟨ds, hds, hne, -, htext⟩ := exists_exponentText width e
    have hread := readDigits?_append hds hne fun c hc => (hr c hc).1
    rw [marked, htext]
    split
    · show (readDigits? (ds ++ rest)).map _ = _
      rw [hread]
      rfl
    · show (readDigits? (ds ++ rest)).map _ = _
      rw [hread]
      rfl

theorem readSign_signed (negative : Bool) :
    readSign (n.signed negative ++ rest) = (if negative then ['-'] else [], n.text ++ rest) := by
  cases negative with
  | true => rfl
  | false =>
    obtain ⟨c, cs, hcs, hc⟩ := n.exists_text
    show readSign (n.text ++ rest) = ([], n.text ++ rest)
    rw [hcs]
    unfold readSign
    split
    · rename_i heq
      exact absurd (List.cons.inj heq).1 (ne_of_isDigit hc rfl)
    · rfl

/-- A numeral is read back. -/
theorem readNumber?_signed (negative : Bool) (hr : Ends rest) :
    readNumber? (n.signed negative ++ rest) = some (String.ofList (n.signed negative), rest) := by
  unfold readNumber?
  simp only [readSign_signed, DecimalNumeral.text, List.append_assoc, readWhole?_whole n (isDigit_pointed n hr),
    readFraction?_pointed n hr, readScale?_marked n.width n.exponent hr, Option.bind_eq_bind, Option.bind_some]
  cases negative <;> rfl

end

/-- An integer is decoded from its literal. -/
theorem int?_int (n : Int) : (Json.int n).int? = some n := by
  have hn := toList_int n
  have hall : (Nat.toDigits 10 n.natAbs).all Char.isDigit := List.all_eq_true.2 (AllDigits.toDigits n.natAbs)
  have hnat : (String.ofList (Nat.toDigits 10 n.natAbs)).toNat? = some n.natAbs := by
    rw [← Nat.repr_eq_ofList_toDigits]
    exact Nat.toNat?_repr n.natAbs
  unfold int? Json.int
  dsimp only
  rw [hn]
  split at hn
  · rw [if_pos ‹n < 0›, List.singleton_append]
    simp only [hall, ↓reduceIte, hnat]
    simp [abs_of_neg ‹n < 0›]
  · rw [if_neg ‹¬n < 0›, List.nil_append]
    split
    · rename_i ds heq
      have : '-'.isDigit := AllDigits.toDigits n.natAbs '-' (by rw [heq]; exact List.mem_cons_self)
      cases this
    · rw [if_pos hall, hnat]
      simp
      omega

/-! ### Values -/

theorem skipSpace_cons {c : Char} (h : isSpace c = false) (cs : List Char) : skipSpace (c :: cs) = c :: cs := by
  unfold skipSpace
  rw [List.dropWhile_cons, h]
  rfl

theorem isSpace_of_signed {c : Char} (h : c = '-' ∨ c.isDigit) : isSpace c = false := by
  rcases h with rfl | hc
  · rfl
  · unfold isSpace
    simp [ne_of_isDigit hc (d := ' ') rfl, ne_of_isDigit hc (d := '\t') rfl, ne_of_isDigit hc (d := '\n') rfl,
      ne_of_isDigit hc (d := '\r') rfl]

/-- The first character of a value is no space and no closing bracket. -/
theorem chars_head {j : Json} (h : j.Readable) : ∃ c rest, chars j = c :: rest ∧ isSpace c = false ∧ c ≠ ']' := by
  cases h with
  | null => exact ⟨_, _, rfl, by decide, by decide⟩
  | bool b => cases b <;> exact ⟨_, _, rfl, by decide, by decide⟩
  | num n negative h =>
    obtain ⟨c, cs, hcs, hc⟩ := n.exists_signed negative
    refine ⟨c, cs, by rw [chars, h, hcs], isSpace_of_signed hc, ?_⟩
    rintro rfl
    exact absurd hc (by decide)
  | str s => exact ⟨_, _, by rw [chars], by decide, by decide⟩
  | arr h => exact ⟨_, _, by rw [chars], by decide, by decide⟩
  | obj h => exact ⟨_, _, by rw [chars], by decide, by decide⟩

theorem ends_cons {c : Char} (h : c.isDigit = false ∧ c ≠ '.' ∧ c ≠ 'e' ∧ c ≠ 'E') (rest : List Char) :
    Ends (c :: rest) := by
  rintro d ⟨⟩
  exact h

/-- A numeral is read as a value. -/
theorem readValue?_num {literal : String} (n : DecimalNumeral) (negative : Bool)
    (h : literal.toList = n.signed negative) {rest : List Char} (hr : Ends rest) {depth : Nat} (hd : 0 < depth) :
    readValue? depth (chars (.num literal) ++ rest) = some (.num literal, rest) := by
  obtain ⟨depth, rfl⟩ := Nat.exists_eq_succ_of_ne_zero (Nat.pos_iff_ne_zero.1 hd)
  obtain ⟨c, cs, hcs, hc⟩ := n.exists_signed negative
  have hread := readNumber?_signed n negative hr
  rw [← h, String.ofList_toList, h] at hread
  rw [chars, h]
  rw [hcs, List.cons_append] at hread ⊢
  unfold readValue?
  rw [skipSpace_cons (isSpace_of_signed hc)]
  split
  any_goals
    rename_i heq
    obtain ⟨rfl, -⟩ := List.cons.inj heq
    exact absurd hc (by decide)
  rw [hread]
  rfl

/-- A value that is read back if the nesting bound covers the length of its text. -/
def Reads (j : Json) : Prop :=
  ∀ rest depth, Ends rest → (chars j).length ≤ depth → readValue? depth (chars j ++ rest) = some (j, rest)

theorem itemChars_false_cons (j : Json) (items : List Json) :
    itemChars false (j :: items) = ',' :: itemChars true (j :: items) := by
  simp [itemChars]

theorem memberChars_false_cons (m : String × Json) (members : List (String × Json)) :
    memberChars false (m :: members) = ',' :: memberChars true (m :: members) := by
  simp [memberChars]

/-- Items are read back if each of them is. -/
theorem readItems?_chars {j : Json} {items : List Json} (h : ∀ i ∈ j :: items, Reads i) (rest : List Char)
    {depth : Nat} (hd : (itemChars true (j :: items)).length < depth) :
    readItems? depth (itemChars true (j :: items) ++ ']' :: rest) = some (j :: items, rest) := by
  induction items generalizing j depth with
  | nil =>
    obtain ⟨depth, rfl⟩ := Nat.exists_eq_succ_of_ne_zero (Nat.ne_zero_of_lt hd)
    simp only [itemChars, ↓reduceIte, List.nil_append, List.append_nil] at hd ⊢
    have hj := h j List.mem_cons_self (']' :: rest) depth (ends_cons (by decide) _) (by omega)
    rw [readItems?, hj]
    rfl
  | cons k items ih =>
    obtain ⟨depth, rfl⟩ := Nat.exists_eq_succ_of_ne_zero (Nat.ne_zero_of_lt hd)
    rw [itemChars, itemChars_false_cons] at hd ⊢
    simp only [↓reduceIte, List.nil_append, List.append_assoc, List.cons_append, List.length_append,
      List.length_cons] at hd ⊢
    have hj := h j List.mem_cons_self (',' :: (itemChars true (k :: items) ++ ']' :: rest)) depth
      (ends_cons (by decide) _) (by omega)
    have hk := ih (fun i hi => h i (List.mem_cons_of_mem j hi)) (show _ < depth by omega)
    rw [readItems?, hj]
    show (readItems? depth (itemChars true (k :: items) ++ ']' :: rest)).map _ = _
    rw [hk]
    rfl

/-- Members are read back if each of their values is. -/
theorem readMembers?_chars {m : String × Json} {members : List (String × Json)} (h : ∀ i ∈ m :: members, Reads i.2)
    (rest : List Char) {depth : Nat} (hd : (memberChars true (m :: members)).length < depth) :
    readMembers? depth (memberChars true (m :: members) ++ '\x7d' :: rest) = some (m :: members, rest) := by
  have quote (cs : List Char) : skipSpace ('"' :: cs) = '"' :: cs := skipSpace_cons (by decide) cs
  have colon (cs : List Char) : skipSpace (':' :: cs) = ':' :: cs := skipSpace_cons (by decide) cs
  have comma (cs : List Char) : skipSpace (',' :: cs) = ',' :: cs := skipSpace_cons (by decide) cs
  have brace (cs : List Char) : skipSpace ('\x7d' :: cs) = '\x7d' :: cs := skipSpace_cons (by decide) cs
  induction members generalizing m depth with
  | nil =>
    obtain ⟨depth, rfl⟩ := Nat.exists_eq_succ_of_ne_zero (Nat.ne_zero_of_lt hd)
    obtain ⟨name, j⟩ := m
    simp only [memberChars, ↓reduceIte, List.nil_append, List.append_nil, List.cons_append, List.append_assoc,
      List.length_append, List.length_cons] at hd ⊢
    have hj : readValue? depth (chars j ++ '\x7d' :: rest) = some (j, '\x7d' :: rest) :=
      h (name, j) List.mem_cons_self _ depth (ends_cons (by decide) _) (by dsimp only; omega)
    simp only [readMembers?, quote, colon, brace, readString?_escaped, hj, Option.bind_eq_bind, Option.bind_some,
      List.reverse_nil, List.nil_append, String.ofList_toList]
  | cons k members ih =>
    obtain ⟨depth, rfl⟩ := Nat.exists_eq_succ_of_ne_zero (Nat.ne_zero_of_lt hd)
    obtain ⟨name, j⟩ := m
    rw [memberChars, memberChars_false_cons] at hd ⊢
    simp only [↓reduceIte, List.nil_append, List.cons_append, List.append_assoc, List.length_append,
      List.length_cons] at hd ⊢
    have hj : readValue? depth (chars j ++ ',' :: (memberChars true (k :: members) ++ '\x7d' :: rest)) =
        some (j, ',' :: (memberChars true (k :: members) ++ '\x7d' :: rest)) :=
      h (name, j) List.mem_cons_self _ depth (ends_cons (by decide) _) (by dsimp only; omega)
    have hk := ih (fun i hi => h i (List.mem_cons_of_mem _ hi)) (show _ < depth by omega)
    simp only [readMembers?, quote, colon, comma, readString?_escaped, hj, hk, Option.bind_eq_bind, Option.bind_some,
      List.reverse_nil, List.nil_append, String.ofList_toList, Option.map_some]

theorem reads_arr {items : List Json} (hw : ∀ j ∈ items, j.Readable) (h : ∀ j ∈ items, Reads j) :
    Reads (.arr items) := by
  intro rest depth hr hd
  simp only [chars, List.cons_append, List.append_assoc, List.nil_append, List.length_append,
    List.length_cons, List.length_nil] at hd ⊢
  obtain ⟨depth, rfl⟩ := Nat.exists_eq_succ_of_ne_zero (show depth ≠ 0 by omega)
  rw [readValue?, skipSpace_cons (by decide)]
  cases items with
  | nil => rfl
  | cons j items =>
    obtain ⟨c, cs, hcs, hspace, hc⟩ := chars_head (hw j List.mem_cons_self)
    have hi := readItems?_chars h rest (show _ < depth by omega)
    -- the list is not empty
    have hhead : itemChars true (j :: items) ++ ']' :: rest = c :: (cs ++ itemChars false items ++ ']' :: rest) := by
      simp [itemChars, hcs]
    rw [hhead] at hi ⊢
    simp only [skipSpace_cons hspace]
    split
    · rename_i heq
      exact absurd (List.cons.inj heq).1 hc
    · rw [hi]
      rfl

theorem reads_obj {members : List (String × Json)} (h : ∀ m ∈ members, Reads m.2) : Reads (.obj members) := by
  intro rest depth hr hd
  simp only [chars, List.cons_append, List.append_assoc, List.nil_append, List.length_append,
    List.length_cons, List.length_nil] at hd ⊢
  obtain ⟨depth, rfl⟩ := Nat.exists_eq_succ_of_ne_zero (show depth ≠ 0 by omega)
  rw [readValue?, skipSpace_cons (by decide)]
  cases members with
  | nil => rfl
  | cons m members =>
    have hm := readMembers?_chars h rest (show _ < depth by omega)
    have hhead : ∃ cs, memberChars true (m :: members) ++ '\x7d' :: rest = '"' :: cs := by
      obtain ⟨name, j⟩ := m
      exact ⟨_, by rw [memberChars]; rfl⟩
    obtain ⟨cs, hcs⟩ := hhead
    have hquote : skipSpace ('"' :: cs) = '"' :: cs := skipSpace_cons (by decide) cs
    rw [hcs] at hm ⊢
    simp only [hquote]
    split
    · rename_i heq
      cases heq
    · rw [hm]
      rfl

/-- Every value whose numbers are numerals is read back. -/
theorem Readable.reads {j : Json} (h : j.Readable) : Reads j := by
  induction h with
  | null =>
    rintro rest (_ | depth) hr hd
    · cases hd
    · rfl
  | bool b =>
    rintro rest (_ | depth) hr hd
    · cases b <;> cases hd
    · cases b <;> rfl
  | num n negative h =>
    intro rest depth hr hd
    obtain ⟨c, cs, hcs, -⟩ := chars_head (.num n negative h)
    rw [hcs, List.length_cons] at hd
    exact readValue?_num n negative h hr (by omega)
  | str s =>
    intro rest depth hr hd
    simp only [chars, List.cons_append, List.append_assoc, List.nil_append, List.length_cons] at hd ⊢
    obtain ⟨depth, rfl⟩ := Nat.exists_eq_succ_of_ne_zero (show depth ≠ 0 by omega)
    rw [readValue?, skipSpace_cons (by decide)]
    simp only [readString?_escaped]
    simp
  | arr hw ih => exact reads_arr hw ih
  | obj hw ih => exact reads_obj ih

/-- A value is read back from its text. -/
theorem parse?_compact {j : Json} (h : j.Readable) : parse? j.compact = some j := by
  have hr := h.reads [] (2 * (chars j).length + 2) (by simp [Ends]) (by omega)
  unfold parse?
  rw [List.append_nil] at hr
  dsimp only
  rw [toList_compact, hr]
  rfl

end Json

end Stepwise

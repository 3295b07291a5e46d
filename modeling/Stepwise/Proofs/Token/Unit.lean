import Stepwise.Library.Text
import Stepwise.Proofs.Decimal.Whole
import Stepwise.Proofs.Token.Literal

/-!
# Code units in string literals

* `readUnits`: what the scanner of strings makes of the escapes of units.
* `readUnits_eq_decodeUnits_iff`: it decodes them, if no second half of a pair stands behind an even number of first
  halves.
* `tokenize_units`: a literal of such escapes is one token; its text is the string of the units under the same
  condition.
-/

namespace Stepwise

/-! ### Decoding -/

/-- What the scanner of strings makes of units: the first half of a pair takes the next unit with it, whether or not that
is the second half. -/
def readUnits : List Nat → List Char
  | high :: low :: rest =>
    if isHighSurrogate high then
      (if isLowSurrogate low then [charOfPair high low] else [charOfUnit high, charOfUnit low]) ++ readUnits rest
    else charOfUnit high :: readUnits (low :: rest)
  | [unit] => [charOfUnit unit]
  | [] => []

/-- Whether each second half of a pair has an odd number of first halves right in front of it, or none; `n` first halves
stand in front of the list. -/
def PairsUp (n : Nat) : List Nat → Prop
  | [] => True
  | u :: us => (isLowSurrogate u → n = 0 ∨ Odd n) ∧ PairsUp (if isHighSurrogate u then n + 1 else 0) us

section

variable {n u : Nat} {us : List Nat}

theorem isLowSurrogate_of_high (h : isHighSurrogate u) : isLowSurrogate u = false := by
  simp only [isHighSurrogate, Bool.and_eq_true, decide_eq_true_eq] at h
  simp only [isLowSurrogate, Bool.and_eq_false_imp, decide_eq_true_eq, decide_eq_false_iff_not]
  omega

theorem charOfUnit_of_high (h : isHighSurrogate u) : charOfUnit u = '\uFFFD' := by
  simp only [isHighSurrogate, Bool.and_eq_true, decide_eq_true_eq] at h
  refine if_neg ?_
  rintro (hlt | hlt)
  · omega
  · omega

theorem charOfPair_ne {high low : Nat} (hhigh : isHighSurrogate high) (hlow : isLowSurrogate low) :
    charOfPair high low ≠ '\uFFFD' := by
  simp only [isHighSurrogate, isLowSurrogate, Bool.and_eq_true, decide_eq_true_eq] at hhigh hlow
  intro h
  have hvalid : (0x10000 + (high - 0xD800) * 0x400 + (low - 0xDC00)).isValidChar := .inr ⟨by omega, by omega⟩
  have hnat := congrArg Char.toNat h
  rw [charOfPair, Char.toNat_ofNat, if_pos hvalid, show '\uFFFD'.toNat = 0xFFFD from rfl] at hnat
  omega

theorem decodeUnits_cons (h : isHighSurrogate u → us.head?.any isLowSurrogate = false) :
    decodeUnits (u :: us) = charOfUnit u :: decodeUnits us := by
  cases us with
  | nil => rfl
  | cons v us =>
    rw [decodeUnits]
    refine if_neg fun hboth => ?_
    obtain ⟨hu, hv⟩ := (Bool.and_eq_true ..).mp hboth
    exact Bool.noConfusion (hv.symm.trans (h hu))

theorem pairsUp_cons_high (hu : isHighSurrogate u) : PairsUp n (u :: us) ↔ PairsUp (n + 1) us := by
  rw [PairsUp, if_pos hu, isLowSurrogate_of_high hu]
  exact and_iff_right fun h => nomatch h

theorem pairsUp_cons_low (hu : isLowSurrogate u) : PairsUp n (u :: us) ↔ (n = 0 ∨ Odd n) ∧ PairsUp 0 us := by
  have hhigh : ¬isHighSurrogate u := fun h => Bool.noConfusion (hu.symm.trans (isLowSurrogate_of_high h))
  rw [PairsUp, if_neg hhigh]
  exact and_congr_left' ⟨fun h => h hu, fun h _ => h⟩

theorem pairsUp_cons_other (hhigh : ¬isHighSurrogate u) (hlow : ¬isLowSurrogate u) :
    PairsUp n (u :: us) ↔ PairsUp 0 us := by
  rw [PairsUp, if_neg hhigh]
  exact and_iff_right fun h => absurd h hlow

/-- A pair of first halves in front of others makes no difference. -/
theorem pairsUp_add_two (hn : 0 < n) (us : List Nat) : PairsUp (n + 2) us ↔ PairsUp n us := by
  induction us generalizing n with
  | nil => rfl
  | cons u us ih =>
    have hodd : n + 2 = 0 ∨ Odd (n + 2) ↔ n = 0 ∨ Odd n := by
      rw [Nat.odd_iff, Nat.odd_iff]
      omega
    rw [PairsUp, PairsUp, hodd]
    refine and_congr_right' ?_
    split
    · exact ih n.succ_pos
    · rfl

end

/-- What counts is the run of first halves that ends in front of a second half. -/
theorem pairsUp_iff (before us : List Nat) :
    PairsUp (before.rtakeWhile isHighSurrogate).length us ↔
      ∀ cs low after, us = cs ++ low :: after → isLowSurrogate low →
        ((before ++ cs).rtakeWhile isHighSurrogate).length = 0 ∨ Odd ((before ++ cs).rtakeWhile isHighSurrogate).length := by
  induction us generalizing before with
  | nil => simp [PairsUp]
  | cons u us ih =>
    -- one more unit makes the run of first halves longer, or ends it
    have hrun : (if isHighSurrogate u then (before.rtakeWhile isHighSurrogate).length + 1 else 0) =
        ((before ++ [u]).rtakeWhile isHighSurrogate).length := by
      rw [List.rtakeWhile_concat]
      split <;> simp
    rw [PairsUp, hrun, ih]
    constructor
    · rintro ⟨hu, hus⟩ cs low after heq hlow
      cases cs with
      | nil =>
        obtain ⟨rfl, -⟩ := List.cons.inj heq
        rw [List.append_nil]
        exact hu hlow
      | cons c cs =>
        obtain ⟨rfl, htail⟩ := List.cons.inj heq
        rw [List.append_cons]
        exact hus cs low after htail hlow
    · intro h
      refine ⟨fun hu => ?_, fun cs low after heq hlow => ?_⟩
      · have hempty := h [] u us rfl hu
        rwa [List.append_nil] at hempty
      · have hcons := h (u :: cs) low after (congrArg (u :: ·) heq) hlow
        rwa [List.append_cons] at hcons

/-- What the scanner reads behind a first half that it has taken together with `unit`, which is no second half. -/
theorem readUnits_step {unit : Nat} {rest : List Nat} (hlow : ¬isLowSurrogate unit)
    (ih : readUnits rest = decodeUnits rest ↔ PairsUp 0 rest) :
    charOfUnit unit :: readUnits rest = decodeUnits (unit :: rest) ↔ PairsUp 1 (unit :: rest) := by
  by_cases hhigh : isHighSurrogate unit
  · rw [pairsUp_cons_high hhigh]
    cases rest with
    | nil => exact iff_of_true rfl trivial
    | cons next rest =>
      by_cases hnext : isLowSurrogate next
      · -- decoding finds a pair here, but its first half is taken already
        have hpair : decodeUnits (unit :: next :: rest) = charOfPair unit next :: decodeUnits rest := by
          rw [decodeUnits, hhigh, hnext]
          rfl
        rw [hpair, List.cons.injEq, charOfUnit_of_high hhigh, pairsUp_cons_low hnext]
        refine iff_of_false (fun h => charOfPair_ne hhigh hnext h.1.symm) fun h => ?_
        exact absurd h.1 (by decide)
      · -- the two first halves in front are both lost, and what comes next is read on its own
        have htwo : PairsUp 2 (next :: rest) ↔ PairsUp 0 (next :: rest) := by
          by_cases hhigh : isHighSurrogate next
          · rw [pairsUp_cons_high hhigh, pairsUp_cons_high hhigh, pairsUp_add_two Nat.one_pos]
          · rw [pairsUp_cons_other hhigh hnext, pairsUp_cons_other hhigh hnext]
        rw [decodeUnits_cons fun _ => by simp [hnext], List.cons.injEq, and_iff_right rfl, ih, htwo]
  · rw [decodeUnits_cons fun h => absurd h hhigh, List.cons.injEq, and_iff_right rfl, ih, pairsUp_cons_other hhigh hlow]

/-- The scanner decodes units if and only if no second half stands behind an even number of first halves. -/
theorem readUnits_eq_decodeUnits_iff (us : List Nat) : readUnits us = decodeUnits us ↔ PairsUp 0 us := by
  -- the induction follows the scanner, which takes two units at a time behind a first half
  induction us using readUnits.induct with
  | case1 high low rest hhigh ih =>
    rw [readUnits, if_pos hhigh, pairsUp_cons_high hhigh]
    by_cases hlow : isLowSurrogate low
    · rw [if_pos hlow, decodeUnits, hhigh, hlow, pairsUp_cons_low hlow, and_iff_right (.inr odd_one), ← ih]
      exact List.cons_inj_right _
    · rw [if_neg hlow, decodeUnits_cons fun _ => by simp [hlow]]
      exact (List.cons_inj_right _).trans (readUnits_step hlow ih)
  | case2 high low rest hhigh ih =>
    rw [readUnits, if_neg hhigh, decodeUnits_cons fun h => absurd h hhigh, List.cons_inj_right, ih]
    by_cases hlow : isLowSurrogate high
    · rw [pairsUp_cons_low hlow, and_iff_right (.inl rfl)]
    · rw [pairsUp_cons_other hhigh hlow]
  | case3 unit => exact iff_of_true rfl ⟨fun _ => .inl rfl, trivial⟩
  | case4 => exact iff_of_true rfl trivial

/-! ### Escapes -/

section

variable {ds es : List Char} {n high low : Nat}

theorem lt_of_digitBelow? {base d : Nat} {c : Char} (h : digitBelow? base c = some d) : d < base := by
  obtain ⟨-, hd⟩ := Option.filter_eq_some_iff.1 h
  exact of_decide_eq_true hd

theorem hexFrom_lt (hds : ∀ d ∈ ds, isHexDigit d) (value : Nat) : hexFrom value ds < (value + 1) * 16 ^ ds.length := by
  induction ds generalizing value with
  | nil => exact Nat.lt_of_lt_of_eq value.lt_succ_self (Nat.mul_one _).symm
  | cons d ds ih =>
    obtain ⟨hd, hds⟩ := List.forall_mem_cons.1 hds
    obtain ⟨digit, hdigit⟩ := Option.isSome_iff_exists.1 hd
    have hlt := lt_of_digitBelow? hdigit
    rw [hexFrom_cons hdigit]
    calc hexFrom (value * 16 + digit) ds < (value * 16 + digit + 1) * 16 ^ ds.length := ih hds _
      _ ≤ (value + 1) * 16 * 16 ^ ds.length := Nat.mul_le_mul_right _ (by omega)
      _ = (value + 1) * 16 ^ (d :: ds).length := by rw [List.length_cons, Nat.pow_succ, Nat.mul_assoc, Nat.mul_comm 16]

theorem SpellsUnit.lt (hds : SpellsUnit ds n) : n < 2 ^ 16 := by
  have h := hexFrom_lt hds.digits 0
  rw [hds.length] at h
  exact hds.value ▸ h

theorem digitBelow?_digitChar : ∀ d < 16, digitBelow? 16 (Nat.digitChar d) = some d := by decide

/-- Four digits spell the units of 16 bits. -/
theorem exists_spellsUnit_iff : (∃ ds, SpellsUnit ds n) ↔ n < 2 ^ 16 := by
  refine ⟨fun ⟨ds, hds⟩ => hds.lt, fun hn => ?_⟩
  obtain ⟨parts, hparts⟩ : ∃ parts, parts = [n / 16 ^ 3, n / 16 ^ 2 % 16, n / 16 % 16, n % 16] := ⟨_, rfl⟩
  have hdigits : ∀ d ∈ parts, digitBelow? 16 (Nat.digitChar d) = some d := fun d hd =>
    digitBelow?_digitChar d (by simp [hparts] at hd; omega)
  have hmap : parts.filterMap (digitBelow? 16 ∘ Nat.digitChar) = parts.filterMap some := List.filterMap_congr hdigits
  refine ⟨parts.map Nat.digitChar, by rw [List.length_map, hparts]; rfl, fun c hc => ?_, ?_⟩
  · obtain ⟨d, hd, rfl⟩ := List.mem_map.1 hc
    exact Option.isSome_iff_exists.2 ⟨d, hdigits d hd⟩
  · rw [digitsValue, List.filterMap_map, hmap, List.filterMap_some, hparts]
    simp only [List.foldl_cons, List.foldl_nil]
    omega

theorem readHex_append (hds : ∀ d ∈ ds, isHexDigit d) (value : Nat) (rest : List Char) (pos : Position) :
    ∃ stop, readHex ds.length value ⟨ds ++ rest, pos⟩ = (some (hexFrom value ds), ⟨rest, stop⟩) := by
  induction ds generalizing value pos with
  | nil => exact ⟨pos, rfl⟩
  | cons d ds ih =>
    obtain ⟨hd, hds⟩ := List.forall_mem_cons.1 hds
    obtain ⟨digit, hdigit⟩ := Option.isSome_iff_exists.1 hd
    obtain ⟨stop, hstop⟩ := ih hds (value * 16 + digit) (pos.after d)
    have hpeek : (⟨d :: (ds ++ rest), pos⟩ : Cursor).peek?.bind (digitBelow? 16) = some digit := hdigit
    refine ⟨stop, ?_⟩
    rw [List.length_cons, List.cons_append, readHex, hpeek, hexFrom_cons hdigit]
    exact hstop

theorem SpellsUnit.readHex_eq (hds : SpellsUnit ds n) (rest : List Char) (pos : Position) :
    ∃ stop, readHex 4 0 ⟨ds ++ rest, pos⟩ = (some n, ⟨rest, stop⟩) := by
  obtain ⟨stop, hstop⟩ := readHex_append hds.digits 0 rest pos
  rw [hds.length] at hstop
  exact ⟨stop, hds.value ▸ hstop⟩

theorem SpellsUnit.peek?_ne (hds : SpellsUnit ds n) (rest : List Char) (pos : Position) :
    (⟨ds ++ rest, pos⟩ : Cursor).peek? ≠ some '\x7b' := by
  cases ds with
  | nil => cases hds.length
  | cons d ds => exact fun h => ne_of_isHexDigit (hds.digits d List.mem_cons_self) (by decide) (Option.some.inj h)

/-- A unit that the scanner reads on its own. -/
theorem readUnicodeEscape_single (hds : SpellsUnit ds n) (rest : List Char) (pos : Position)
    (h : isHighSurrogate n → rest.take 2 ≠ ['\\', 'u']) :
    ∃ stop, readUnicodeEscape ⟨ds ++ rest, pos⟩ = (.ok [charOfUnit n], ⟨rest, stop⟩) := by
  obtain ⟨stop, hstop⟩ := hds.readHex_eq rest pos
  refine ⟨stop, ?_⟩
  rw [readUnicodeEscape, if_neg (hds.peek?_ne rest pos), hstop]
  exact if_neg fun hboth => h hboth.1 hboth.2

/-- A first half of a pair is read together with the next unit. -/
theorem readUnicodeEscape_both (hds : SpellsUnit ds high) (hes : SpellsUnit es low) (hhigh : isHighSurrogate high)
    (rest : List Char) (pos : Position) :
    ∃ stop, readUnicodeEscape ⟨ds ++ '\\' :: 'u' :: (es ++ rest), pos⟩ =
      (.ok (if isLowSurrogate low then [charOfPair high low] else [charOfUnit high, charOfUnit low]), ⟨rest, stop⟩) := by
  obtain ⟨first, hfirst⟩ := hds.readHex_eq ('\\' :: 'u' :: (es ++ rest)) pos
  obtain ⟨stop, hstop⟩ := hes.readHex_eq rest ((first.after '\\').after 'u')
  have hskip : (⟨'\\' :: 'u' :: (es ++ rest), first⟩ : Cursor).advanceBy 2 =
      ⟨es ++ rest, (first.after '\\').after 'u'⟩ := rfl
  refine ⟨stop, ?_⟩
  rw [readUnicodeEscape, if_neg (hds.peek?_ne _ pos), hfirst]
  dsimp only
  rw [if_pos ⟨hhigh, rfl⟩, hskip, hstop, charOfUnit_of_high hhigh]
  dsimp only
  split
  · rfl
  · rfl

end

/-! ### Literals -/

/-- The escapes of units that are spelled with these digits. -/
def unitEscapes (spelled : List (List Char)) : List Char := spelled.flatMap fun ds => '\\' :: 'u' :: ds

section

variable {quote : Char} {spelled : List (List Char)} {units : List Nat}

theorem unitEscapes_cons (ds : List Char) (spelled : List (List Char)) (rest : List Char) :
    unitEscapes (ds :: spelled) ++ rest = '\\' :: 'u' :: (ds ++ (unitEscapes spelled ++ rest)) := by
  simp [unitEscapes]

theorem readString_quote (quote : Char) (acc : List Char) (turns : Nat) (pos : Position) :
    readString quote acc (turns + 1) ⟨[quote], pos⟩ = (.ok (String.ofList acc.reverse), ⟨[], pos.after quote⟩) :=
  if_pos rfl

theorem readString_escape (hquote : quote ≠ '\\') {acc tail rest cs : List Char} {turns : Nat}
    {pos stop : Position} (h : readUnicodeEscape ⟨tail, (pos.after '\\').after 'u'⟩ = (.ok cs, ⟨rest, stop⟩)) :
    readString quote acc (turns + 1) ⟨'\\' :: 'u' :: tail, pos⟩ =
      readString quote (cs.reverse ++ acc) turns ⟨rest, stop⟩ := by
  have hread : readEscape ⟨'u' :: tail, pos.after '\\'⟩ = (.ok cs, ⟨rest, stop⟩) := h
  simp [readString, Cursor.advance, hquote.symm, hread]

/-- The scanner of strings reads the escapes of units up to the quote behind them. -/
theorem readString_units (hquote : quote ≠ '\\') (h : List.Forall₂ SpellsUnit spelled units) (acc : List Char)
    {turns : Nat} (hturns : units.length ≤ turns) (pos : Position) :
    ∃ stop, readString quote acc (turns + 1) ⟨unitEscapes spelled ++ [quote], pos⟩ =
      (.ok (String.ofList (acc.reverse ++ readUnits units)), ⟨[], stop⟩) := by
  induction units using readUnits.induct generalizing spelled acc turns pos with
  | case1 high low rest hhigh ih =>
    obtain _ | ⟨hds, _ | ⟨hes, hrest⟩⟩ := h
    obtain ⟨turns, rfl⟩ := Nat.exists_eq_add_one.2 (Nat.zero_lt_of_lt hturns)
    have hlength : rest.length ≤ turns := by
      rw [List.length_cons, List.length_cons] at hturns
      omega
    -- one turn reads the escapes of both units
    rw [unitEscapes_cons, unitEscapes_cons]
    obtain ⟨mid, hmid⟩ := readUnicodeEscape_both hds hes hhigh (unitEscapes _ ++ [quote]) ((pos.after '\\').after 'u')
    obtain ⟨stop, hstop⟩ := ih hrest _ hlength mid
    refine ⟨stop, ?_⟩
    rw [readString_escape hquote hmid, hstop, List.reverse_append, List.reverse_reverse, List.append_assoc, readUnits,
      if_pos hhigh]
  | case2 high low rest hhigh ih =>
    obtain _ | ⟨hds, hrest⟩ := h
    obtain ⟨turns, rfl⟩ := Nat.exists_eq_add_one.2 (Nat.zero_lt_of_lt hturns)
    rw [unitEscapes_cons]
    obtain ⟨mid, hmid⟩ := readUnicodeEscape_single hds (unitEscapes _ ++ [quote]) ((pos.after '\\').after 'u')
      fun h => absurd h hhigh
    obtain ⟨stop, hstop⟩ := ih hrest _ (Nat.le_of_succ_le_succ hturns) mid
    refine ⟨stop, ?_⟩
    rw [readString_escape hquote hmid, hstop, List.reverse_append, List.reverse_reverse, List.append_assoc, readUnits,
      if_neg hhigh]
    rfl
  | case3 unit =>
    obtain _ | ⟨hds, _ | _⟩ := h
    obtain ⟨turns, rfl⟩ := Nat.exists_eq_add_one.2 (Nat.zero_lt_of_lt hturns)
    rw [unitEscapes_cons]
    obtain ⟨mid, hmid⟩ := readUnicodeEscape_single hds [quote] ((pos.after '\\').after 'u') fun _ => by simp
    refine ⟨mid.after quote, (readString_escape hquote hmid).trans ?_⟩
    rw [readString_quote, List.reverse_append, List.reverse_reverse]
    rfl
  | case4 =>
    cases h
    refine ⟨pos.after quote, ?_⟩
    rw [readUnits, List.append_nil]
    exact readString_quote quote acc turns pos

/-- The library decodes units that are given as numbers. -/
theorem fromCharCode_ofNat (hunits : ∀ u ∈ units, u < 2 ^ 16) (receiver : Value) (h : Heap) :
    Library.fromCharCode { this := receiver, args := units.map Value.ofNat } h =
      .ok (.value (.string (String.ofList (decodeUnits units))), h) := by
  have hmap : (units.map Value.ofNat).map (fun v => (toUInt32 (h.toNumber v)).toNat % Nat.pow 2 16) = units := by
    rw [List.map_map]
    refine (List.map_congr_left fun u hu => ?_).trans (List.map_id units)
    have hlt := hunits u hu
    show (toUInt32 (Float.ofNat u)).toNat % 2 ^ 16 = u
    rw [toUInt32_ofNat (by omega), Nat.mod_eq_of_lt hlt]
  show Except.ok (Reply.value (.string (String.ofList (decodeUnits ((units.map Value.ofNat).map _)))), h) = _
  rw [hmap]

theorem lt_of_spelled (h : List.Forall₂ SpellsUnit spelled units) : ∀ u ∈ units, u < 2 ^ 16 := by
  induction h with
  | nil => exact List.forall_mem_nil _
  | cons hds _ ih => exact List.forall_mem_cons.2 ⟨hds.lt, ih⟩

theorem length_le_unitEscapes (spelled : List (List Char)) : spelled.length ≤ (unitEscapes spelled).length := by
  induction spelled with
  | nil => exact Nat.le_refl 0
  | cons ds spelled ih =>
    have hone : 1 ≤ ('\\' :: 'u' :: ds).length := Nat.succ_pos _
    rw [unitEscapes] at ih
    rw [unitEscapes, List.flatMap_cons, List.length_append, List.length_cons]
    omega

/-- A literal of escapes of units is one token. Its text is the string of the units if and only if no second half of a
pair stands behind an even number of first halves. -/
theorem tokenize_units (hquote : quote = '"' ∨ quote = '\x27') (h : List.Forall₂ SpellsUnit spelled units)
    (receiver : Value) (heap : Heap) :
    ∃ s s' : String,
      tokenize (String.ofList (quote :: (unitEscapes spelled ++ [quote]))) =
        [⟨.string, s, .start, Position.start.afterAll (quote :: (unitEscapes spelled ++ [quote])), false⟩,
          ⟨.eof, "", Position.start.afterAll (quote :: (unitEscapes spelled ++ [quote])),
            Position.start.afterAll (quote :: (unitEscapes spelled ++ [quote])), false⟩] ∧
      Library.fromCharCode { this := receiver, args := units.map Value.ofNat } heap =
        .ok (.value (.string s'), heap) ∧
      s' = String.ofList (decodeUnits units) ∧
      (s = s' ↔ ∀ before low after, units = before ++ low :: after → isLowSurrogate low →
        (before.rtakeWhile isHighSurrogate).length = 0 ∨ Odd (before.rtakeWhile isHighSurrogate).length) := by
  have hlength : units.length ≤ (unitEscapes spelled).length + 1 := by
    rw [← h.length_eq]
    exact Nat.le_succ_of_le (length_le_unitEscapes spelled)
  have hunits : ∀ u ∈ units, u < 2 ^ 16 := lt_of_spelled h
  obtain ⟨stop, hstop⟩ := readString_units (isQuote_ne_backslash hquote) h [] hlength (Position.start.after quote)
  refine ⟨_, _, tokenize_literal hquote hstop, fromCharCode_ofNat hunits receiver heap, rfl, ?_⟩
  rw [String.ofList_inj]
  exact (readUnits_eq_decodeUnits_iff units).trans (pairsUp_iff [] units)

/-- A pair behind two more of its first half, in digits of either case. -/
theorem tokenize_units_run :
    List.Forall₂ SpellsUnit [['D', '8', '3', 'D'], ['d', '8', '3', 'd'], ['D', '8', '3', 'D'], ['D', 'e', '0', '0']]
        [0xD83D, 0xD83D, 0xD83D, 0xDE00] ∧
      ∃ s s' : String,
        tokenize "'\\uD83D\\ud83d\\uD83D\\uDe00'" =
          [⟨.string, s, .start, ⟨26, 1, 26⟩, false⟩, ⟨.eof, "", ⟨26, 1, 26⟩, ⟨26, 1, 26⟩, false⟩] ∧
        Library.fromCharCode { this := .undefined, args := [0xD83D, 0xD83D, 0xD83D, 0xDE00].map Value.ofNat } .empty =
          .ok (.value (.string s'), .empty) ∧
        s' = String.ofList (decodeUnits [0xD83D, 0xD83D, 0xD83D, 0xDE00]) ∧
        (s = s' ↔ ∀ before low after, [0xD83D, 0xD83D, 0xD83D, 0xDE00] = before ++ low :: after → isLowSurrogate low →
          (before.rtakeWhile isHighSurrogate).length = 0 ∨ Odd (before.rtakeWhile isHighSurrogate).length) := by
  have hupper : SpellsUnit ['D', '8', '3', 'D'] 0xD83D := ⟨rfl, List.all_eq_true.1 (by decide), by decide⟩
  have hlower : SpellsUnit ['d', '8', '3', 'd'] 0xD83D := ⟨rfl, List.all_eq_true.1 (by decide), by decide⟩
  have hlow : SpellsUnit ['D', 'e', '0', '0'] 0xDE00 := ⟨rfl, List.all_eq_true.1 (by decide), by decide⟩
  have hspelled := List.Forall₂.cons hupper (.cons hlower (.cons hupper (.cons hlow .nil)))
  exact ⟨hspelled, tokenize_units (.inr rfl) hspelled .undefined .empty⟩

end

/-- A pair behind one more of its first half is not read as one. -/
theorem tokenize_units_even :
    ∃ s s' : String,
      tokenize "'\\uD800\\uD800\\uDC00'" =
        [⟨.string, s, .start, ⟨20, 1, 20⟩, false⟩, ⟨.eof, "", ⟨20, 1, 20⟩, ⟨20, 1, 20⟩, false⟩] ∧
      Library.fromCharCode { this := .undefined, args := [0xD800, 0xD800, 0xDC00].map Value.ofNat } .empty =
        .ok (.value (.string s'), .empty) ∧
      s ≠ s' := by
  refine ⟨"\uFFFD\uFFFD\uFFFD", "\uFFFD𐀀", by decide, ?_, by decide⟩
  exact fromCharCode_ofNat (by decide) .undefined .empty

end Stepwise

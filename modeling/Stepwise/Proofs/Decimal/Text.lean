import Stepwise.Decimal.Layout
import Stepwise.Decimal.Numeral
import Stepwise.Proofs.Decimal.Shortest

/-!
# Numbers read back from their texts

* `Written`: a text of digits, with a point and an exponent or without, stands for a fraction.
* `readUnsigned?_of_written`: such a text is read as this fraction.
* `DecimalNumeral`: the parts of such a text. Every style writes digits as a numeral (`DecimalNumeral.exists_layout`).
* `readFloat?_render`: the text of a number in a snapshot is read as the same number.
-/

namespace Stepwise

/-- A sequence of decimal digits. -/
def AllDigits (cs : List Char) : Prop := ∀ c ∈ cs, c.isDigit

/-- A fraction after its point; an empty one has none. -/
def pointed (fraction : List Char) : List Char := if fraction.isEmpty then [] else '.' :: fraction

/-! ### Digits -/

theorem digitBelow?_of_isDigit {c : Char} (h : c.isDigit) : digitBelow? 10 c = some (c.toNat - '0'.toNat) := by
  have h' := Char.isDigit_iff_toNat.1 h
  have hc : '0' ≤ c ∧ c ≤ '9' := by
    rw [Char.le_def, Char.le_def, UInt32.le_iff_toNat_le, UInt32.le_iff_toNat_le]
    exact h'
  have hlt : c.toNat - '0'.toNat < 10 := by
    have h9 : '9'.toNat = 57 := rfl
    have h0 : '0'.toNat = 48 := rfl
    omega
  unfold digitBelow? digitValue?
  rw [if_pos hc, Option.filter_some, if_pos (by simpa using hlt)]

theorem ne_of_isDigit {c d : Char} (h : c.isDigit) (hd : d.isDigit = false) : c ≠ d := by
  rintro rfl
  rw [h] at hd
  cases hd

theorem toLower_of_isDigit {c : Char} (h : c.isDigit) : c.toLower = c := by
  have h' : c.val.toNat ≤ 57 := (Char.isDigit_iff_toNat.1 h).2
  unfold Char.toLower
  rw [dif_neg]
  rintro ⟨hA, -⟩
  have hA : 65 ≤ c.val.toNat := UInt32.le_iff_toNat_le.1 hA
  omega

theorem toDigits_head {n : Nat} (hn : 0 < n) : (Nat.toDigits 10 n).head? ≠ some '0' := by
  induction n using Nat.strongRecOn with
  | ind n ih =>
    by_cases h : n < 10
    · rw [Nat.toDigits_of_lt_base h]
      have hdigit : ∀ m < 10, 0 < m → m.digitChar ≠ '0' := by decide
      simpa using hdigit n h hn
    · rw [Nat.toDigits_of_base_le (by decide) (by omega)]
      have hlt := ih (n / 10) (by omega) (by omega)
      cases hd : Nat.toDigits 10 (n / 10) with
      | nil => exact absurd hd Nat.toDigits_ne_nil
      | cons c cs => simpa [hd] using hlt

namespace AllDigits

variable {cs ds : List Char}

theorem append (hc : AllDigits cs) (hd : AllDigits ds) : AllDigits (cs ++ ds) := fun c h =>
  (List.mem_append.1 h).elim (hc c) (hd c)

theorem replicate (n : Nat) : AllDigits (List.replicate n '0') := fun _ h => (List.eq_of_mem_replicate h) ▸ rfl

theorem toDigits (n : Nat) : AllDigits (Nat.toDigits 10 n) := fun _ h =>
  Nat.isDigit_of_mem_toDigits (by decide) (by decide) h

theorem digitsValue (h : AllDigits cs) : digitsValue 10 cs = Nat.ofDigitChars 10 cs 0 := by
  unfold Stepwise.digitsValue
  rw [Nat.ofDigitChars_eq_foldl]
  generalize 0 = init
  induction cs generalizing init with
  | nil => rfl
  | cons c cs ih =>
    rw [List.filterMap_cons_some (digitBelow?_of_isDigit (h c List.mem_cons_self)), List.foldl_cons,
      List.foldl_cons, ih fun c hc => h c (List.mem_cons_of_mem _ hc), Nat.mul_comm init]

theorem underscoresSeparate (h : AllDigits cs) (afterMark : Bool) : underscoresSeparate 10 afterMark cs := by
  induction cs generalizing afterMark with
  | nil => rfl
  | cons c cs ih =>
    have hc := ne_of_isDigit (h c List.mem_cons_self) (d := '_') rfl
    rw [Stepwise.underscoresSeparate]
    · exact ih (fun c hc => h c (List.mem_cons_of_mem _ hc)) _
    · exact hc

/-- Digits end where something else follows. -/
theorem spanDigits (h : AllDigits cs) {rest : List Char}
    (hr : ∀ c ∈ rest.head?, c ≠ '_' ∧ digitBelow? 10 c = none) : spanDigits 10 (cs ++ rest) = (cs, rest) := by
  have hpos : ∀ c ∈ cs, (c == '_' || (digitBelow? 10 c).isSome) = true := fun c hc => by
    rw [digitBelow?_of_isDigit (h c hc)]
    exact Bool.or_true _
  unfold Stepwise.spanDigits
  rw [List.span_eq_takeWhile_dropWhile, List.takeWhile_append_of_pos hpos, List.dropWhile_append_of_pos hpos]
  cases rest with
  | nil => simp
  | cons c rest =>
    obtain ⟨hc, hd⟩ := hr c rfl
    simp [hc, hd]

theorem lt_pow (h : AllDigits cs) : Nat.ofDigitChars 10 cs 0 < 10 ^ cs.length := by
  induction cs with
  | nil => decide
  | cons c cs ih =>
    have hc := Char.isDigit_iff_toNat.1 (h c List.mem_cons_self)
    have h9 : '9'.toNat = 57 := rfl
    have h0 : '0'.toNat = 48 := rfl
    have hcs := ih fun c hc => h c (List.mem_cons_of_mem _ hc)
    rw [Nat.ofDigitChars_cons, Nat.ofDigitChars_eq_ofDigitChars_zero, List.length_cons, pow_succ]
    have : 10 ^ cs.length * (10 * 0 + (c.toNat - '0'.toNat)) ≤ 10 ^ cs.length * 9 := by
      refine Nat.mul_le_mul_left _ ?_
      omega
    omega

/-- Small exponents are not capped. -/
theorem foldl_exponent (h : AllDigits cs) {init : Nat} (hlt : Nat.ofDigitChars 10 cs init < 10000) :
    cs.foldl (fun e c => if c.isDigit ∧ e < 10000 then e * 10 + (c.toNat - '0'.toNat) else e) init =
      Nat.ofDigitChars 10 cs init := by
  induction cs generalizing init with
  | nil => rfl
  | cons c cs ih =>
    have hinit : init < 10000 := by
      rw [Nat.ofDigitChars_cons, Nat.ofDigitChars_eq_ofDigitChars_zero] at hlt
      have : 10 * init + (c.toNat - '0'.toNat) ≤ 10 ^ cs.length * (10 * init + (c.toNat - '0'.toNat)) :=
        Nat.le_mul_of_pos_left _ (by positivity)
      omega
    rw [Nat.ofDigitChars_cons] at hlt ⊢
    rw [List.foldl_cons, if_pos ⟨h c List.mem_cons_self, hinit⟩, Nat.mul_comm init]
    exact ih (fun c hc => h c (List.mem_cons_of_mem _ hc)) hlt

theorem head? (h : AllDigits cs) (hne : cs ≠ []) : (cs.head?.bind (digitBelow? 10)).isNone = false := by
  cases cs with
  | nil => exact absurd rfl hne
  | cons c cs =>
    rw [List.head?_cons, Option.bind_some, digitBelow?_of_isDigit (h c List.mem_cons_self)]
    rfl

theorem any (h : AllDigits cs) (hne : cs ≠ []) : cs.any (fun c => (digitBelow? 10 c).isSome) := by
  cases cs with
  | nil => exact absurd rfl hne
  | cons c cs =>
    rw [List.any_cons, digitBelow?_of_isDigit (h c List.mem_cons_self)]
    rfl

theorem length_filter (h : AllDigits cs) : (cs.filter fun c => (digitBelow? 10 c).isSome).length = cs.length := by
  rw [List.filter_eq_self.2]
  intro c hc
  rw [digitBelow?_of_isDigit (h c hc)]
  rfl

end AllDigits

/-! ### Texts of fractions -/

/-- An exponent has a sign and digits. -/
theorem exists_exponentText (width : Nat) (e : Int) :
    ∃ ds, AllDigits ds ∧ ds ≠ [] ∧ Nat.ofDigitChars 10 ds 0 = e.natAbs ∧
      exponentText width e = (if e < 0 then '-' else '+') :: ds := by
  refine ⟨List.replicate (width - (Nat.toDigits 10 e.natAbs).length) '0' ++ Nat.toDigits 10 e.natAbs,
    (AllDigits.replicate _).append (.toDigits _), List.append_ne_nil_of_right_ne_nil _ Nat.toDigits_ne_nil, ?_, rfl⟩
  rw [Nat.ofDigitChars_append, Nat.ofDigitChars_replicate_zero, Nat.mul_zero, Nat.ofDigitChars_ten_toDigits]

/-- An exponent is read back. -/
theorem readExponent?_exponentText (width : Nat) {e : Int} (he : e.natAbs < 10000) :
    readExponent? (exponentText width e) = some e := by
  obtain ⟨ds, hds, hne, hval, htext⟩ := exists_exponentText width e
  have hall : ds.all (fun c => c == '_' || c.isDigit) := List.all_eq_true.2 fun c hc => by
    rw [hds c hc, Bool.or_true]
  have hcore (negative : Bool) : (if (ds.head?.bind (digitBelow? 10)).isNone then none
      else if !ds.all (fun c => c == '_' || c.isDigit) then none
      else if !underscoresSeparate 10 false ds then none
      else
        let e := ds.foldl (fun e c => if c.isDigit ∧ e < 10000 then e * 10 + (c.toNat - '0'.toNat) else e) 0
        some (if negative then -(e : Int) else e)) = some (if negative then -(e.natAbs : Int) else e.natAbs) := by
    rw [hds.head? hne, hall, hds.underscoresSeparate false, hds.foldl_exponent (hval ▸ he), hval]
    rfl
  rw [htext]
  split
  · refine (hcore true).trans ?_
    rw [if_pos rfl]
    congr 1
    omega
  · refine (hcore false).trans ?_
    rw [if_neg (by decide)]
    congr 1
    omega

/-- An exponent after its mark, if there is one. -/
def marked (width : Nat) : Option Int → List Char
  | none => []
  | some e => 'e' :: exponentText width e

theorem head?_marked (width : Nat) (e : Option Int) : ∀ c ∈ (marked width e).head?, c = 'e' := by
  cases e with
  | none => simp [marked]
  | some e =>
    rintro c ⟨⟩
    rfl

/-- What may follow the digits before a point. -/
theorem head?_pointed (fraction : List Char) (width : Nat) (e : Option Int) :
    ∀ c ∈ (pointed fraction ++ marked width e).head?, c = '.' ∨ c = 'e' := by
  unfold pointed
  split
  · exact fun c hc => .inr (head?_marked width e c hc)
  · rintro c ⟨⟩
    exact .inl rfl

theorem spanFraction_pointed {fraction : List Char} (hf : AllDigits fraction) (width : Nat) (e : Option Int) :
    spanFraction 10 (pointed fraction ++ marked width e) = (fraction, marked width e) := by
  unfold pointed
  split
  · rename_i h
    rw [List.isEmpty_iff.1 h]
    cases e <;> rfl
  · refine hf.spanDigits fun c hc => ?_
    rw [head?_marked width e c hc]
    decide

/-- Digits with a point and an exponent, or without, are read. -/
theorem readMagnitude?_digits {whole fraction : List Char} {width : Nat} {e : Option Int} (hw : AllDigits whole)
    (hne : whole ≠ []) (hf : AllDigits fraction) (he : ∀ n ∈ e, n.natAbs < 10000) :
    readMagnitude? 10 false (whole ++ (pointed fraction ++ marked width e)) =
      some (Nat.ofDigitChars 10 (whole ++ fraction) 0, fraction.length, e) := by
  have hhead : ∀ c ∈ (pointed fraction ++ marked width e).head?, c ≠ '_' ∧ digitBelow? 10 c = none := by
    intro c hc
    rcases head?_pointed fraction width e c hc with rfl | rfl <;> decide
  unfold readMagnitude?
  rw [hw.spanDigits hhead]
  dsimp only
  rw [spanFraction_pointed hf]
  dsimp only
  rw [hw.any hne, hw.underscoresSeparate, hf.underscoresSeparate, (hw.append hf).digitsValue, hf.length_filter]
  cases e with
  | none => rfl
  | some n =>
    simp [marked, readExponent?_exponentText width (he n rfl)]

/-- A text of digits that stands for a fraction. -/
def Written (cs : List Char) (v : ℚ) : Prop :=
  ∃ whole fraction width, ∃ e : Option Int, AllDigits whole ∧ whole ≠ [] ∧ AllDigits fraction ∧
    (∀ n ∈ e, n.natAbs < 10000) ∧ cs = whole ++ (pointed fraction ++ marked width e) ∧
    (Nat.ofDigitChars 10 (whole ++ fraction) 0 : ℚ) * 10 ^ (e.getD 0 - fraction.length) = v

/-- A written text starts with a digit. -/
theorem Written.head {cs : List Char} {v : ℚ} (h : Written cs v) : ∃ c rest, cs = c :: rest ∧ c.isDigit := by
  obtain ⟨whole, fraction, width, e, hw, hne, -, -, rfl, -⟩ := h
  cases whole with
  | nil => exact absurd rfl hne
  | cons c whole => exact ⟨c, _, rfl, hw c List.mem_cons_self⟩

/-- Digits with a point and an exponent, or without, are read as the fraction they stand for. -/
theorem readUnsigned?_digits (negative : Bool) {whole fraction : List Char} {width : Nat} {e : Option Int}
    (hw : AllDigits whole) (hne : whole ≠ []) (hf : AllDigits fraction) (he : ∀ n ∈ e, n.natAbs < 10000) :
    Numeral.readUnsigned? negative (whole ++ (pointed fraction ++ marked width e)) =
      some (.scaled negative (Nat.ofDigitChars 10 (whole ++ fraction) 0) 10 (e.getD 0 - fraction.length)) := by
  have hdecimal : Numeral.readUnsigned?.decimal negative (whole ++ (pointed fraction ++ marked width e)) =
      some (.scaled negative (Nat.ofDigitChars 10 (whole ++ fraction) 0) 10 (e.getD 0 - fraction.length)) := by
    unfold Numeral.readUnsigned?.decimal
    rw [readMagnitude?_digits hw hne hf he]
    rfl
  unfold Numeral.readUnsigned?
  split
  · rename_i x c rest heq
    -- what follows a first zero is no mark of another base
    have hx : x.toLower ≠ 'x' := by
      obtain ⟨d, ds, rfl⟩ := List.exists_cons_of_ne_nil hne
      cases ds with
      | cons d' ds =>
        simp only [List.cons_append, List.cons.injEq] at heq
        obtain ⟨-, rfl, -⟩ := heq
        have hd : d'.isDigit := hw d' (by simp)
        rw [toLower_of_isDigit hd]
        exact ne_of_isDigit hd rfl
      | nil =>
        have hh : x ∈ (pointed fraction ++ marked width e).head? := by
          rw [show pointed fraction ++ marked width e = x :: c :: rest from (List.cons.inj heq).2]
          rfl
        rcases head?_pointed fraction width e x hh with rfl | rfl <;> decide
    rw [if_neg hx]
    exact hdecimal
  · exact hdecimal

theorem readUnsigned?_of_written {cs : List Char} {v : ℚ} (negative : Bool) (h : Written cs v) :
    ∃ (m : Nat) (k : Int), Numeral.readUnsigned? negative cs = some (.scaled negative m 10 k) ∧ (m * 10 ^ k : ℚ) = v := by
  obtain ⟨whole, fraction, width, e, hw, hne, hf, he, rfl, hv⟩ := h
  exact ⟨_, _, readUnsigned?_digits negative hw hne hf he, hv⟩

theorem pointed_of_ne_nil {fraction : List Char} (h : fraction ≠ []) : pointed fraction = '.' :: fraction := by
  unfold pointed
  rw [if_neg (by simpa using h)]

/-! ### Numerals -/

/-- Digits without a leading zero. -/
structure Significand (ds : List Char) : Prop where
  ne_nil : ds ≠ []
  isDigit : AllDigits ds
  lead : ds.head? ≠ some '0'

/-- The digits of a decimal number have no leading zero, as it would make their number too small. -/
theorem Decimal.Writes.significand {d : Decimal} {v : ℚ} (h : d.Writes v) : Significand d.digits := by
  refine ⟨h.ne_nil, h.isDigit, fun hzero => ?_⟩
  obtain ⟨ds, hds⟩ := List.head?_eq_some_iff.1 hzero
  have hlead := h.lead
  have hall := h.isDigit
  rw [hds] at hlead hall
  have hlt : Nat.ofDigitChars 10 ds 0 < 10 ^ ds.length :=
    AllDigits.lt_pow fun c hc => hall c (List.mem_cons_of_mem _ hc)
  rw [List.length_cons, Nat.add_sub_cancel, Nat.ofDigitChars_cons] at hlead
  exact absurd hlt (Nat.not_lt.2 hlead)

/-- A decimal numeral: digits with a point and an exponent, or without. -/
structure DecimalNumeral where
  whole : List Char
  fraction : List Char
  /-- The least number of digits of the exponent. -/
  width : Nat
  exponent : Option Int
  isDigit_whole : AllDigits whole
  isDigit_fraction : AllDigits fraction
  whole_ne_nil : whole ≠ []
  /-- A zero stands alone before the point. -/
  lead : whole.head? = some '0' → whole = ['0']

namespace DecimalNumeral

/-- The characters of a numeral. -/
def text (n : DecimalNumeral) : List Char := n.whole ++ (pointed n.fraction ++ marked n.width n.exponent)

/-- The fraction that a numeral stands for. -/
def value (n : DecimalNumeral) : ℚ :=
  Nat.ofDigitChars 10 (n.whole ++ n.fraction) 0 * 10 ^ (n.exponent.getD 0 - n.fraction.length)

/-- The digits of a natural number. -/
def ofNat (n : Nat) : DecimalNumeral where
  whole := Nat.toDigits 10 n
  fraction := []
  width := 0
  exponent := none
  isDigit_whole := .toDigits n
  isDigit_fraction := nofun
  whole_ne_nil := Nat.toDigits_ne_nil
  lead h := by
    rcases Nat.eq_zero_or_pos n with rfl | hn
    · rfl
    · exact absurd h (toDigits_head hn)

@[simp] theorem text_ofNat (n : Nat) : (ofNat n).text = Nat.toDigits 10 n := by simp [text, ofNat, pointed, marked]

/-- The characters of a numeral with a sign. -/
def signed (n : DecimalNumeral) (negative : Bool) : List Char := if negative then '-' :: n.text else n.text

/-- A numeral starts with a digit. -/
theorem exists_text (n : DecimalNumeral) : ∃ c rest, n.text = c :: rest ∧ c.isDigit := by
  obtain ⟨c, ds, hds⟩ := List.exists_cons_of_ne_nil n.whole_ne_nil
  exact ⟨c, _, by rw [text, hds, List.cons_append], n.isDigit_whole c (hds ▸ List.mem_cons_self)⟩

/-- With a sign it starts with the sign or a digit. -/
theorem exists_signed (n : DecimalNumeral) (negative : Bool) :
    ∃ c rest, n.signed negative = c :: rest ∧ (c = '-' ∨ c.isDigit) := by
  obtain ⟨c, cs, hcs, hc⟩ := n.exists_text
  cases negative with
  | true => exact ⟨'-', n.text, rfl, .inl rfl⟩
  | false => exact ⟨c, cs, hcs, .inr hc⟩

theorem written (n : DecimalNumeral) (h : ∀ e ∈ n.exponent, e.natAbs < 10000) : Written n.text n.value :=
  ⟨n.whole, n.fraction, n.width, n.exponent, n.isDigit_whole, n.whole_ne_nil, n.isDigit_fraction, h, rfl, rfl⟩

variable {ds : List Char}

/-- Digits with the point among them or beside them. -/
theorem exists_positional (h : Significand ds) (p : Int) :
    ∃ n : DecimalNumeral, n.text = positional ds p ∧
      n.value = Nat.ofDigitChars 10 ds 0 * 10 ^ (p - ds.length) ∧ n.exponent = none := by
  obtain ⟨hne, hd, hlead⟩ := h
  unfold positional
  split
  · rename_i hp
    have hf : AllDigits (List.replicate (-p).toNat '0' ++ ds) := (AllDigits.replicate _).append hd
    refine ⟨⟨['0'], _, 0, none, .replicate 1, hf, by simp, fun _ => rfl⟩, ?_, ?_, rfl⟩
    · rw [text, pointed_of_ne_nil (List.append_ne_nil_of_right_ne_nil _ hne), marked, List.append_nil]
      rfl
    · have hval : Nat.ofDigitChars 10 (['0'] ++ (List.replicate (-p).toNat '0' ++ ds)) 0 =
          Nat.ofDigitChars 10 ds 0 := by
        rw [Nat.ofDigitChars_append, Nat.ofDigitChars_append, Nat.ofDigitChars_replicate_zero]
        rfl
      rw [value, hval]
      congr 2
      simp
      omega
  · rename_i hp
    dsimp only
    split
    · rename_i hlen
      refine ⟨⟨ds ++ List.replicate (p.toNat - ds.length) '0', [], 0, none, AllDigits.append hd (.replicate _), nofun,
        by simp [hne], fun hzero => ?_⟩, ?_, ?_, rfl⟩
      · rw [List.head?_append_of_ne_nil _ hne] at hzero
        exact absurd hzero hlead
      · simp [text, pointed, marked]
      · rw [value, List.append_nil, Nat.ofDigitChars_append, Nat.ofDigitChars_replicate_zero]
        have : p - ds.length = (p.toNat - ds.length : Nat) := by omega
        rw [this, zpow_natCast]
        simp
        ring
    · rename_i hlen
      refine ⟨⟨ds.take p.toNat, ds.drop p.toNat, 0, none, ?_, ?_, ?_, fun hzero => ?_⟩, ?_, ?_, rfl⟩
      · exact fun c hc => hd c (List.mem_of_mem_take hc)
      · exact fun c hc => hd c (List.mem_of_mem_drop hc)
      · intro h
        rcases List.take_eq_nil_iff.1 h with h | h
        · omega
        · exact hne h
      · rw [List.head?_take, if_neg (by omega)] at hzero
        exact absurd hzero hlead
      · have hdrop : ds.drop p.toNat ≠ [] := by
          intro h
          have := List.drop_eq_nil_iff.1 h
          omega
        rw [text, pointed_of_ne_nil hdrop, marked, List.append_nil]
      · rw [value, List.take_append_drop]
        congr 2
        simp
        omega

/-- Digits with the point after the first one and an exponent. -/
theorem exists_scientific (h : Significand ds) (width : Nat) (x : Int) :
    ∃ n : DecimalNumeral, n.text = scientific width ds x ∧
      n.value = Nat.ofDigitChars 10 ds 0 * 10 ^ (x + 1 - ds.length) ∧ n.exponent = some x := by
  obtain ⟨hne, hd, hlead⟩ := h
  unfold scientific
  split
  · exact absurd rfl hne
  · rename_i c
    refine ⟨⟨[c], [], width, some x, hd, nofun, by simp, fun hzero => absurd hzero hlead⟩, rfl, ?_, rfl⟩
    simp [value]
  · rename_i c rest hr
    refine ⟨⟨[c], rest, width, some x, fun y hy => hd y (by simp_all), fun y hy => hd y (by simp [hy]), by simp,
      fun hzero => absurd hzero hlead⟩, ?_, ?_, rfl⟩
    · rw [text, pointed_of_ne_nil hr]
      rfl
    · rw [value]
      congr 2
      simp

/-- Every style writes the digits as a numeral for the same fraction. -/
theorem exists_layout (h : Significand ds) (s : NumberStyle) (p : Int) :
    ∃ n : DecimalNumeral, n.text = s.layout ds p ∧ n.value = Nat.ofDigitChars 10 ds 0 * 10 ^ (p - ds.length) ∧
      ∀ e ∈ n.exponent, e = p - 1 := by
  unfold NumberStyle.layout
  split
  · obtain ⟨n, htext, hvalue, hnone⟩ := exists_positional h p
    exact ⟨n, htext, hvalue, by simp [hnone]⟩
  · obtain ⟨n, htext, hvalue, hsome⟩ := exists_scientific h s.exponentWidth (p - 1)
    rw [sub_add_cancel] at hvalue
    exact ⟨n, htext, hvalue, by simp [hsome]⟩

end DecimalNumeral

theorem written_layout {d : Decimal} {v : ℚ} (h : d.Writes v) (hp : d.point.natAbs < 9999) (style : NumberStyle) :
    Written (style.layout d.digits d.point) v := by
  obtain ⟨n, htext, hvalue, hexponent⟩ := DecimalNumeral.exists_layout h.significand style d.point
  rw [h.value] at hvalue
  rw [← htext, ← hvalue]
  refine n.written fun e he => ?_
  have := hexponent e he
  omega

/-! ### Numbers -/

/-- Fractions that are rounded to a finite number are neither too small nor too large. -/
theorem Rounds.bounds {m : Nat} {e : Int} {v : ℚ} (h : Rounds m e v) (hv : Magnitude.Valid m e) (hm : 0 < m) :
    (10 : ℚ) ^ (-400 : Int) < v ∧ v < 10 ^ (400 : Int) := by
  have hmlt : (m : ℚ) < 2 ^ 53 := by exact_mod_cast hv.lt
  have hm1 : (1 : ℚ) ≤ m := by exact_mod_cast hm
  have hreach := Rounds.reachBelow_le m e
  have hlow := h.lower
  have hhigh := h.upper
  have hpos : (0 : ℚ) < 2 ^ e := by positivity
  have hle : 2 ^ e ≤ 2 * v := by nlinarith
  have hmin : (2 : ℚ) ^ (-1074 : Int) ≤ 2 ^ e := zpow_le_zpow_right₀ (by norm_num) hv.min_le
  have hmax : (2 : ℚ) ^ e ≤ 2 ^ (971 : Int) := zpow_le_zpow_right₀ (by norm_num) hv.le_max
  rw [zpow_neg, zpow_ofNat, inv_le_iff_one_le_mul₀ (by positivity)] at hmin
  rw [zpow_ofNat] at hmax
  constructor
  · have hten : (2 * 2 ^ 1074 : ℚ) < 10 ^ 400 := by exact_mod_cast (by decide +kernel : 2 * 2 ^ 1074 < 10 ^ 400)
    rw [zpow_neg, zpow_ofNat, inv_lt_iff_one_lt_mul₀ (by positivity)]
    calc (1 : ℚ) ≤ 2 ^ e * 2 ^ 1074 := hmin
      _ ≤ 2 * v * 2 ^ 1074 := by gcongr
      _ = v * (2 * 2 ^ 1074) := by rw [mul_comm 2 v, mul_assoc]
      _ < v * 10 ^ 400 := by
        have := h.pos hm
        gcongr
  · have hten : ((2 ^ 53 + 1) * 2 ^ 971 : ℚ) < 10 ^ 400 := by
      exact_mod_cast (by decide +kernel : (2 ^ 53 + 1) * 2 ^ 971 < 10 ^ 400)
    rw [zpow_ofNat]
    calc v ≤ (m + 1) * 2 ^ e := by linarith
      _ ≤ (2 ^ 53 + 1) * 2 ^ 971 := by gcongr
      _ < 10 ^ 400 := hten

/-- The point of a decimal number shows its size. -/
theorem Decimal.Writes.bounds {d : Decimal} {v : ℚ} (h : d.Writes v) :
    (10 : ℚ) ^ (d.point - 1) ≤ v ∧ v < 10 ^ d.point := by
  obtain ⟨ds, p⟩ := d
  obtain ⟨hne, hd, hlead, rfl⟩ := h
  dsimp only at *
  have hten : (0 : ℚ) < 10 ^ (p - ds.length) := by positivity
  have hlen := List.length_pos_iff.2 hne
  have hlead : (10 : ℚ) ^ (ds.length - 1) ≤ Nat.ofDigitChars 10 ds 0 := by exact_mod_cast hlead
  have hmax : (Nat.ofDigitChars 10 ds 0 : ℚ) < 10 ^ ds.length := by exact_mod_cast AllDigits.lt_pow hd
  constructor
  · calc (10 : ℚ) ^ (p - 1) = 10 ^ (ds.length - 1) * 10 ^ (p - ds.length) := by
          rw [← zpow_natCast, ← zpow_add₀ (by norm_num)]
          congr 1
          omega
      _ ≤ Nat.ofDigitChars 10 ds 0 * 10 ^ (p - ds.length) := by gcongr
  · calc (Nat.ofDigitChars 10 ds 0 : ℚ) * 10 ^ (p - ds.length) < 10 ^ ds.length * 10 ^ (p - ds.length) := by gcongr
      _ = 10 ^ p := by
        rw [← zpow_natCast, ← zpow_add₀ (by norm_num)]
        congr 1
        omega

/-- The point of a decimal number follows from its size. -/
theorem Decimal.Writes.point_lt {d : Decimal} {v : ℚ} (h : d.Writes v) (hl : (10 : ℚ) ^ (-400 : Int) < v)
    (hu : v < 10 ^ (400 : Int)) : d.point.natAbs < 9999 := by
  have hmono {a b : Int} (h : (10 : ℚ) ^ a < 10 ^ b) : a < b :=
    (zpow_lt_zpow_iff_right₀ (by norm_num : (1 : ℚ) < 10)).1 h
  obtain ⟨hlower, hupper⟩ := h.bounds
  have hlow := hmono (hl.trans hupper)
  have hhigh := hmono (hlower.trans_lt hu)
  omega

/-- A literal is rounded to the number that its fraction is rounded to. -/
theorem Numeral.round_scaled (negative : Bool) {m n : Nat} {e k : Int} {v : ℚ} (hv : (n * 10 ^ k : ℚ) = v)
    (hr : Rounds m e v) (hm : 0 < m) (hvalid : Magnitude.Valid m e) :
    (Numeral.scaled negative n 10 k).round = (Magnitude.float negative m e, false) := by
  obtain ⟨hl, hu⟩ := hr.bounds hvalid hm
  have hpos := hr.pos hm
  have hn : 0 < n := by
    rcases Nat.eq_zero_or_pos n with rfl | h
    · rw [Nat.cast_zero, zero_mul] at hv
      linarith
    · exact h
  have hn1 : (1 : ℚ) ≤ n := by exact_mod_cast hn
  have hten (k : Int) : (0 : ℚ) < 10 ^ k := by positivity
  have hmono {a b : Int} (h : (10 : ℚ) ^ a < 10 ^ b) : a < b :=
    (zpow_lt_zpow_iff_right₀ (by norm_num : (1 : ℚ) < 10)).1 h
  unfold round
  dsimp only
  rw [if_neg (by omega)]
  split
  · rename_i hk
    -- the exponent is not too large
    have hk' : ¬1100 < k := by
      have : (10 : ℚ) ^ k ≤ n * 10 ^ k := le_mul_of_one_le_left (hten k).le hn1
      have := hmono (this.trans_lt (hv ▸ hu))
      omega
    rw [if_neg hk']
    refine nearestFloat_of_rounds negative (Nat.mul_pos hn (Nat.pow_pos (by decide))) Nat.one_pos hvalid ?_
    have hval : ((n * Nat.pow 10 k.toNat : Nat) : ℚ) / (1 : Nat) = v := by
      obtain ⟨j, rfl⟩ := Int.eq_ofNat_of_zero_le hk
      rw [← hv, zpow_natCast]
      push_cast [Nat.pow_eq]
      rw [div_one]
      rfl
    exact hval ▸ hr
  · rename_i hk
    -- the exponent is not too small
    have hk' : ¬1200 + (n.log2 : Int) < -k := by
      have hlog : (n : ℚ) < 10 ^ ((n.log2 + 1 : Nat) : Int) := by
        rw [zpow_natCast]
        have h2 : n < 2 ^ (n.log2 + 1) := Nat.lt_log2_self
        have h10 : 2 ^ (n.log2 + 1) ≤ 10 ^ (n.log2 + 1) := Nat.pow_le_pow_left (by decide) _
        exact_mod_cast h2.trans_le h10
      have : v < 10 ^ (((n.log2 + 1 : Nat) : Int) + k) := by
        rw [← hv, zpow_add₀ (by norm_num)]
        exact mul_lt_mul_of_pos_right hlog (hten k)
      have := hmono (hl.trans this)
      omega
    rw [if_neg hk']
    refine nearestFloat_of_rounds negative hn (Nat.pow_pos (by decide)) hvalid ?_
    have hval : (n : ℚ) / (Nat.pow 10 (-k).toNat : Nat) = v := by
      obtain ⟨j, hj⟩ := Int.eq_ofNat_of_zero_le (show 0 ≤ -k by omega)
      obtain rfl : k = -(j : Int) := by omega
      rw [← hv, zpow_neg, zpow_natCast, ← div_eq_mul_inv, neg_neg, Int.toNat_natCast]
      push_cast [Nat.pow_eq]
      rfl
    exact hval ▸ hr

/-- A text that starts with a digit is no word. -/
theorem isWord_of_isDigit {word : String} {c : Char} (rest : List Char) (hc : c.isDigit)
    (hw : word.toList.head?.any Char.isDigit = false) : isWord word (c :: rest) = false := by
  unfold isWord
  rw [List.map_cons, toLower_of_isDigit hc, beq_eq_false_iff_ne]
  intro h
  rw [← h] at hw
  cases hc.symm.trans hw

/-- A written text is read with its sign. -/
theorem Numeral.read?_of_written (negative : Bool) {cs : List Char} {v : ℚ} (h : Written cs v) :
    Numeral.read? (String.ofList (if negative then '-' :: cs else cs)) = readUnsigned? negative cs := by
  obtain ⟨c, rest, rfl, hc⟩ := h.head
  have hinf : read?.isInfinity (c :: rest) = false := by
    unfold read?.isInfinity
    rw [isWord_of_isDigit rest hc (by decide), isWord_of_isDigit rest hc (by decide)]
    rfl
  unfold read?
  rw [String.toList_ofList]
  cases negative with
  | true =>
    show (if read?.isInfinity (c :: rest) then _ else _) = _
    rw [hinf]
    rfl
  | false =>
    rw [if_neg (by decide)]
    split
    · rename_i heq
      cases heq
      cases hc
    · rename_i heq
      cases heq
      cases hc
    · rw [hinf, isWord_of_isDigit rest hc (by decide)]
      rfl

/-- A whole number in digits is read as the nearest number, if that is in range. -/
theorem readFloat?_toString (n : Nat) :
    readFloat? (toString n) = if (nearestFloat false n 1).2 then none else some (nearestFloat false n 1).1 := by
  have hdigits := AllDigits.toDigits n
  have hne : Nat.toDigits 10 n ≠ [] := Nat.toDigits_ne_nil
  have htext : Nat.toDigits 10 n = Nat.toDigits 10 n ++ (pointed [] ++ marked 0 none) := by simp [pointed, marked]
  have hwritten : Written (Nat.toDigits 10 n) n :=
    ⟨_, [], 0, none, hdigits, hne, by simp [AllDigits], by simp, htext, by simp [Nat.ofDigitChars_toDigits]⟩
  have hread : Numeral.read? (toString n) = some (.scaled false n 10 0) := by
    refine (Numeral.read?_of_written false hwritten).trans ?_
    rw [htext, readUnsigned?_digits false hdigits hne (by simp [AllDigits]) (by simp)]
    simp [Nat.ofDigitChars_toDigits]
  have hround : (Numeral.scaled false n 10 0).round = nearestFloat false n 1 := by
    unfold Numeral.round
    dsimp only
    split
    · next hn => rw [hn]
    · rw [if_pos (by decide), if_neg (by decide)]
      exact congrArg (nearestFloat false · 1) (Nat.mul_one n)
  unfold readFloat?
  rw [hread]
  dsimp only
  rw [hround]

/-- The text of a finite number is read as this number, if a minus zero shows its sign. -/
theorem readFloat?_render_of_finite {s : NumberStyle} (hs : s.signedZero) {x : Float} {negative : Bool} {m : Nat}
    {e : Int} (h : Magnitude.decode x = .finite negative m e) : readFloat? (s.render x) = some x := by
  obtain ⟨hvalid, hx⟩ := Magnitude.decode_finite h
  unfold NumberStyle.render
  rw [h]
  dsimp only
  subst hx
  split
  · rename_i hm
    have he : e = minExponent := hvalid.normal.resolve_left (by omega)
    subst hm he
    rw [hs]
    cases negative <;> rfl
  · rename_i hm
    obtain ⟨v, hw, hr⟩ := exists_writes_shortestDigits (e := e) (Nat.pos_of_ne_zero hm) hvalid.lt
    obtain ⟨hl, hu⟩ := hr.bounds hvalid (Nat.pos_of_ne_zero hm)
    have htext := written_layout hw (hw.point_lt hl hu) s
    obtain ⟨n, k, hread, hval⟩ := readUnsigned?_of_written negative htext
    unfold readFloat?
    rw [Numeral.read?_of_written negative htext, hread]
    dsimp only
    rw [Numeral.round_scaled negative hval hr (Nat.pos_of_ne_zero hm) hvalid]
    rfl

/-- The text of a number in a snapshot is read as this number. -/
theorem readFloat?_render (x : Float) : readFloat? (NumberStyle.compact.render x) = some x := by
  cases h : Magnitude.decode x with
  | nan =>
    rw [Magnitude.decode_nan h]
    rfl
  | infinite negative =>
    rw [Magnitude.decode_infinite h]
    cases negative <;> rfl
  | finite negative m e => exact readFloat?_render_of_finite rfl h

/-- The text of a finite number is a numeral with its sign. -/
theorem exists_signed_render (s : NumberStyle) {x : Float} {negative : Bool} {m : Nat} {e : Int}
    (h : Magnitude.decode x = .finite negative m e) :
    ∃ (n : DecimalNumeral) (b : Bool), (s.render x).toList = n.signed b := by
  unfold NumberStyle.render
  rw [h]
  dsimp only
  split
  · split
    · exact ⟨.ofNat 0, true, rfl⟩
    · exact ⟨.ofNat 0, false, rfl⟩
  · rename_i hm
    obtain ⟨hvalid, -⟩ := Magnitude.decode_finite h
    obtain ⟨v, hw, -⟩ := exists_writes_shortestDigits (e := e) (Nat.pos_of_ne_zero hm) hvalid.lt
    obtain ⟨n, htext, -⟩ := DecimalNumeral.exists_layout hw.significand s (shortestDigits m e).point
    rw [String.toList_ofList, ← htext]
    exact ⟨n, negative, rfl⟩

end Stepwise

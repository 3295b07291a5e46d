import Stepwise.Proofs.Decimal.Layout

/-!
# The fraction that a text of a number stands for

A decimal numeral is read exactly here, with an exponent of any size and no rounding.

* `decimalValue?`: the fraction of a numeral.
* `DecimalNumeral.decimalValue?_signed`: the digits, the point and the exponent of a numeral make up its fraction.
* `NumberStyle.decimalValue?_script`: wherever a conversion puts the point, the text stands for the digits shifted to
  it, and it has an exponent exactly if the point lies far outside.
-/

namespace Stepwise

/-! ### Reading a numeral -/

/-- The number of one or more digits. -/
def digitsNumber? (cs : List Char) : Option Nat :=
  if cs ≠ [] ∧ cs.all Char.isDigit then some (Nat.ofDigitChars 10 cs 0) else none

/-- The number of an exponent, which follows its mark with a sign or without; without a mark it is zero. -/
def exponentNumber? : List Char → Option Int
  | [] => some 0
  | _ :: '-' :: cs => (digitsNumber? cs).map fun (n : Nat) => -(n : Int)
  | _ :: '+' :: cs => (digitsNumber? cs).map fun (n : Nat) => (n : Int)
  | _ :: cs => (digitsNumber? cs).map fun (n : Nat) => (n : Int)

/-- The fraction of a numeral without sign: what stands before the exponent is cut at its point, and each digit after
the point makes the unit ten times smaller. -/
def unsignedValue? (cs : List Char) : Option ℚ := do
  let (mantissa, scale) := cs.span (· != 'e')
  let (whole, fraction) := mantissa.span (· != '.')
  let n ← digitsNumber? (whole ++ fraction.drop 1)
  let e ← exponentNumber? scale
  return n * 10 ^ (e - (fraction.drop 1).length)

/-- The fraction of a numeral. -/
def decimalValue? : List Char → Option ℚ
  | '-' :: cs => (unsignedValue? cs).map (- ·)
  | cs => unsignedValue? cs

theorem digitsNumber?_of_allDigits {cs : List Char} (h : AllDigits cs) (hne : cs ≠ []) :
    digitsNumber? cs = some (Nat.ofDigitChars 10 cs 0) := if_pos ⟨hne, List.all_eq_true.2 h⟩

theorem exponentNumber?_marked (width : Nat) (e : Option Int) : exponentNumber? (marked width e) = some (e.getD 0) := by
  cases e with
  | none => rfl
  | some e =>
    obtain ⟨ds, hds, hne, hval, htext⟩ := exists_exponentText width e
    have hn := digitsNumber?_of_allDigits hds hne
    rw [hval] at hn
    rw [marked, htext, Option.getD_some]
    split
    · rw [exponentNumber?, hn, Option.map_some]
      exact congrArg some (by omega)
    · rw [exponentNumber?, hn, Option.map_some]
      exact congrArg some (by omega)

/-- A text is cut at the first mark. -/
theorem span_ne_append {mark : Char} {cs rest : List Char} (h : mark ∉ cs) (hr : ∀ c ∈ rest.head?, c = mark) :
    (cs ++ rest).span (· != mark) = (cs, rest) := by
  have hcs : ∀ c ∈ cs, (c != mark) = true := fun c hc => bne_iff_ne.2 fun heq => h (heq ▸ hc)
  rw [List.span_eq_takeWhile_dropWhile, List.takeWhile_append_of_pos hcs, List.dropWhile_append_of_pos hcs]
  cases rest with
  | nil => simp
  | cons c rest => simp [hr c rfl]

theorem AllDigits.notMem {cs : List Char} {c : Char} (h : AllDigits cs) (hc : c.isDigit = false) : c ∉ cs :=
  fun hmem => ne_of_isDigit (h c hmem) hc rfl

namespace DecimalNumeral

/-- Reading undoes writing. -/
theorem unsignedValue?_text (n : DecimalNumeral) : unsignedValue? n.text = some n.value := by
  have hpoint : ∀ c ∈ (pointed n.fraction).head?, c = '.' := by
    unfold pointed
    split
    · nofun
    · rintro c ⟨⟩
      rfl
  have hdrop : (pointed n.fraction).drop 1 = n.fraction := by
    unfold pointed
    split
    · rename_i h
      rw [List.isEmpty_iff.1 h]
      rfl
    · rfl
  have hmark : 'e' ∉ n.whole ++ pointed n.fraction := by
    unfold pointed
    split
    · simpa using n.isDigit_whole.notMem rfl
    · simp [n.isDigit_whole.notMem (c := 'e') rfl, n.isDigit_fraction.notMem (c := 'e') rfl]
  have hdigits := digitsNumber?_of_allDigits (n.isDigit_whole.append n.isDigit_fraction)
    (List.append_ne_nil_of_left_ne_nil n.whole_ne_nil _)
  unfold unsignedValue? text
  rw [← List.append_assoc, span_ne_append hmark (head?_marked n.width n.exponent)]
  dsimp only
  rw [span_ne_append (n.isDigit_whole.notMem rfl) hpoint]
  dsimp only
  rw [hdrop, hdigits, exponentNumber?_marked]
  rfl

theorem decimalValue?_signed (n : DecimalNumeral) (negative : Bool) :
    decimalValue? (n.signed negative) = some (if negative then -n.value else n.value) := by
  cases negative with
  | true =>
    show (unsignedValue? n.text).map _ = _
    rw [n.unsignedValue?_text]
    rfl
  | false =>
    obtain ⟨c, cs, hcs, hc⟩ := n.exists_text
    refine Eq.trans ?_ n.unsignedValue?_text
    rw [signed, if_neg (by decide), hcs]
    unfold decimalValue?
    split
    · rename_i heq
      exact absurd (List.cons.inj heq).1 (ne_of_isDigit hc rfl)
    · rfl

end DecimalNumeral

/-! ### The texts of conversions -/

namespace NumberStyle

/-- Digits with a sign and the point at `point`, in a style. -/
def signed (s : NumberStyle) (negative : Bool) (digits : List Char) (point : Int) : List Char :=
  if negative then '-' :: s.layout digits point else s.layout digits point

variable {ds : List Char}

/-- The text of a number that is not zero is that of its digits. -/
theorem render_eq_signed (s : NumberStyle) {x : Float} {negative : Bool} {m : Nat} {e : Int}
    (h : Magnitude.decode x = .finite negative m e) (hm : m ≠ 0) :
    s.render x = String.ofList (s.signed negative (shortestDigits m e).digits (shortestDigits m e).point) := by
  unfold render
  rw [h]
  exact if_neg hm

/-- Every style keeps the value. -/
theorem decimalValue?_signed (s : NumberStyle) (negative : Bool) (h : Significand ds) (point : Int) :
    decimalValue? (s.signed negative ds point) =
      some ((if negative then -1 else 1 : ℚ) * (Nat.ofDigitChars 10 ds 0 * 10 ^ (point - ds.length))) := by
  obtain ⟨n, htext, hvalue, -⟩ := DecimalNumeral.exists_layout h s point
  have hsigned : s.signed negative ds point = n.signed negative := by
    rw [signed, ← htext]
    rfl
  rw [hsigned, n.decimalValue?_signed, hvalue]
  cases negative <;> simp

/-- The text of digits has an exponent where the style asks for one. -/
theorem mem_signed_iff (s : NumberStyle) (negative : Bool) (h : Significand ds) (point : Int) :
    'e' ∈ s.signed negative ds point ↔ s.limit < point ∨ point ≤ s.least := by
  have hlayout : 'e' ∈ s.layout ds point ↔ s.limit < point ∨ point ≤ s.least := by
    unfold layout
    split
    · exact iff_of_false (notMem_positional h.isDigit) (by omega)
    · exact iff_of_true (mem_scientific h.ne_nil) (by omega)
  cases negative with
  | true =>
    rw [← hlayout]
    simp [signed]
  | false => exact hlayout

/-- The text of a conversion stands for the digits shifted to their point, and has an exponent exactly if the point lies
beyond 21 places or at most at -6. The digits that are found for a number are written so. -/
theorem decimalValue?_script (negative : Bool) (h : Significand ds) (exponent : Int) :
    decimalValue? (script.signed negative ds (exponent + 1)) =
        some ((if negative then -1 else 1 : ℚ) * (Nat.ofDigitChars 10 ds 0 * 10 ^ (exponent + 1 - ds.length))) ∧
      ('e' ∈ script.signed negative ds (exponent + 1) ↔ 21 < exponent + 1 ∨ exponent + 1 ≤ -6) ∧
      ∀ (x : Float) (m : Nat) (e : Int), Magnitude.decode x = .finite negative m e → m ≠ 0 →
        shortestDigits m e = ⟨ds, exponent + 1⟩ →
          script.render x = String.ofList (script.signed negative ds (exponent + 1)) := by
  refine ⟨script.decimalValue?_signed negative h _, script.mem_signed_iff negative h _, fun x m e hx hm hd => ?_⟩
  rw [script.render_eq_signed hx hm, hd]

/-- The point lies just too far on the left to be written without an exponent. -/
theorem decimalValue?_script_small :
    Significand ['1', '2', '3', '4', '5'] ∧
      script.signed true ['1', '2', '3', '4', '5'] (-6) = "-1.2345e-7".toList ∧
      decimalValue? "-1.2345e-7".toList = some (-(12345 / 10 ^ 11)) := by
  have hds : Significand ['1', '2', '3', '4', '5'] := ⟨by decide, List.all_eq_true.1 (by decide), by decide⟩
  have htext : script.signed true ['1', '2', '3', '4', '5'] (-6) = "-1.2345e-7".toList := by decide
  have hvalue := (decimalValue?_script true hds (-7)).1
  have hdigits : Nat.ofDigitChars 10 ['1', '2', '3', '4', '5'] 0 = 12345 := by decide
  rw [show (-7 : Int) + 1 = -6 from rfl, htext, hdigits] at hvalue
  refine ⟨hds, htext, hvalue.trans ?_⟩
  norm_num

end NumberStyle

end Stepwise

import Stepwise.Proofs.Decimal.Text

/-!
# Numbers in two styles

Property names and conversions write the same digits, and differ in the place of the point and in the exponent. Where
they change depends on the size of a number, as rounding keeps the order.

* `Rounds.lt_of_lt`: a fraction that is rounded to a smaller number is smaller.
* `lt_point_shortestDigits_iff`: so the digits of a number have their point beyond a power of ten exactly if the number
  is at least as large as this power.
* `NumberStyle.layout_compact_eq_script_iff`: the points at which the two styles write the same text.
* `NumberStyle.render_compact_eq_script_iff`: the numbers that they write alike.
-/

namespace Stepwise

variable {m m' width width' : Nat} {e e' x p k : Int} {v v' : ℚ} {ds : List Char}

/-! ### The order of numbers -/

/-- Each exponent is at least twice as large as the next smaller one. -/
theorem two_mul_zpow_le (h : e < e') : 2 * (2 : ℚ) ^ e ≤ 2 ^ e' := by
  rw [← zpow_one_add₀ two_ne_zero]
  exact zpow_le_zpow_right₀ one_le_two (by omega)

theorem Magnitude.Valid.lt_of_exponent_lt (hv : Valid m e) (hv' : Valid m' e') (h : e < e') :
    (m * 2 ^ e : ℚ) < m' * 2 ^ e' := by
  have he : (0 : ℚ) < 2 ^ e := by positivity
  have hm : (m : ℚ) < 2 ^ 53 := by exact_mod_cast hv.lt
  have hm' : (2 ^ 52 : ℚ) ≤ m' := by
    have := hv.min_le
    exact_mod_cast hv'.normal.resolve_right (by omega)
  calc (m * 2 ^ e : ℚ) < 2 ^ 53 * 2 ^ e := by gcongr
    _ = 2 ^ 52 * (2 * 2 ^ e) := by ring
    _ ≤ 2 ^ 52 * 2 ^ e' := by gcongr; exact two_mul_zpow_le h
    _ ≤ m' * 2 ^ e' := by gcongr

/-- A number has one mantissa and one exponent. -/
theorem Magnitude.Valid.eq_of_eq (hv : Valid m e) (hv' : Valid m' e') (h : (m * 2 ^ e : ℚ) = m' * 2 ^ e') :
    m = m' ∧ e = e' := by
  rcases lt_trichotomy e e' with hlt | rfl | hlt
  · exact absurd h (hv.lt_of_exponent_lt hv' hlt).ne
  · have he : (2 : ℚ) ^ e ≠ 0 := by positivity
    exact ⟨by exact_mod_cast mul_right_cancel₀ he h, rfl⟩
  · exact absurd h.symm (hv'.lt_of_exponent_lt hv hlt).ne

/-- A fraction that is rounded to a smaller number is smaller. -/
theorem Rounds.lt_of_lt (hv : Magnitude.Valid m e) (hv' : Magnitude.Valid m' e') (hr : Rounds m e v)
    (hr' : Rounds m' e' v') (hlt : (m * 2 ^ e : ℚ) < m' * 2 ^ e') : v < v' := by
  have he : (0 : ℚ) < 2 ^ e := by positivity
  have hmlt := hv.lt
  -- at a tie, the one of the two mantissas that is odd decides
  suffices h : (4 * m + 2) * 2 ^ e ≤ (4 * m' - reachBelow m' e') * (2 : ℚ) ^ e' ∧
      (m % 2 = 0 → m' % 2 = 1 ∨ (4 * m + 2) * 2 ^ e < (4 * m' - reachBelow m' e') * (2 : ℚ) ^ e') by
    have hupper := hr.upper
    have hlower := hr'.lower
    rcases Nat.mod_two_eq_zero_or_one m with heven | hodd
    · rcases h.2 heven with hodd | hstrict
      · have := (hr'.odd hodd).1
        linarith
      · linarith
    · have := (hr.odd hodd).2
      linarith
  have hreach := Rounds.reachBelow_le m' e'
  rcases lt_trichotomy e e' with hexp | rfl | hexp
  · have htwo := two_mul_zpow_le hexp
    have hmin := hv.min_le
    have hnormal := hv'.normal.resolve_right (by omega)
    have hm : (4 * m + 2 : ℚ) ≤ 2 ^ 55 - 2 := by
      have : (m : ℚ) + 1 ≤ 2 ^ 53 := by exact_mod_cast hmlt
      linarith
    by_cases hpow : m' = 2 ^ 52
    · rw [show reachBelow m' e' = 1 from if_pos ⟨hpow, by omega⟩, hpow]
      push_cast
      refine ⟨by nlinarith, fun heven => .inr ?_⟩
      have : (m : ℚ) + 2 ≤ 2 ^ 53 := by exact_mod_cast (show m + 2 ≤ 2 ^ 53 by omega)
      nlinarith
    · have hm' : (2 ^ 52 + 1 : ℚ) ≤ m' := by exact_mod_cast (show 2 ^ 52 + 1 ≤ m' by omega)
      have hstrict : (4 * m + 2) * 2 ^ e < (4 * m' - reachBelow m' e') * (2 : ℚ) ^ e' := by nlinarith
      exact ⟨hstrict.le, fun _ => .inr hstrict⟩
  · have hm : m < m' := by exact_mod_cast (mul_lt_mul_iff_left₀ he).1 hlt
    have hm' : (m : ℚ) + 1 ≤ m' := by exact_mod_cast hm
    refine ⟨by nlinarith, fun heven => ?_⟩
    by_cases hnext : m' = m + 1
    · exact .inl (by omega)
    · have : (m : ℚ) + 2 ≤ m' := by exact_mod_cast (show m + 2 ≤ m' by omega)
      exact .inr (by nlinarith)
  · exact absurd hlt (hv'.lt_of_exponent_lt hv hexp).not_gt

/-- The fractions between a number and one that is rounded to it are rounded to it. -/
theorem Rounds.of_le_of_le {w : ℚ} (hr : Rounds m e v) (hl : v ≤ w) (hu : w ≤ m * 2 ^ e) : Rounds m e w := by
  have hself := Rounds.self m e
  refine ⟨?_, ?_, fun ho => ⟨?_, ?_⟩⟩
  · exact hr.lower.trans (by linarith)
  · exact le_trans (by linarith) hself.upper
  · exact (hr.odd ho).1.trans_le (by linarith)
  · exact lt_of_le_of_lt (by linarith) (hself.odd ho).2

/-! ### The point of the digits of a number -/

/-- If a power of ten is rounded to a number that is not smaller, and this number has the digits of the power, then the
numbers with larger digits are the larger numbers. -/
theorem lt_point_shortestDigits_iff {k : Int} (hv : Magnitude.Valid m e) (hm : 0 < m) (hv' : Magnitude.Valid m' e')
    (hr' : Rounds m' e' (10 ^ k)) (hle : (10 : ℚ) ^ k ≤ m' * 2 ^ e') (hpoint : (shortestDigits m' e').point = k + 1) :
    k < (shortestDigits m e).point ↔ (10 : ℚ) ^ k ≤ m * 2 ^ e := by
  obtain ⟨v, hw, hr⟩ := exists_writes_shortestDigits (e := e) hm hv.lt
  obtain ⟨hlower, hupper⟩ := hw.bounds
  constructor
  · intro hk
    by_contra hnot
    have hten : (10 : ℚ) ^ k ≤ 10 ^ ((shortestDigits m e).point - 1) :=
      zpow_le_zpow_right₀ (by norm_num) (by omega)
    have hlt := hr.lt_of_lt hv hv' hr' (by linarith)
    linarith
  · intro hk
    rcases lt_trichotomy (m * 2 ^ e : ℚ) (m' * 2 ^ e') with hlt | heq | hgt
    · -- there is no number between the power and what it is rounded to
      exact absurd ((Rounds.self m e).lt_of_lt hv hv' (hr'.of_le_of_le hk hlt.le) hlt) (lt_irrefl _)
    · obtain ⟨rfl, rfl⟩ := hv.eq_of_eq hv' heq
      omega
    · have hlt := hr'.lt_of_lt hv' hv hr hgt
      exact (zpow_lt_zpow_iff_right₀ (by norm_num : (1 : ℚ) < 10)).1 (hlt.trans hupper)

/-! ### Points at which two styles agree -/

theorem length_decimalDigits_le_one_iff {n : Nat} : (decimalDigits n).length ≤ 1 ↔ n < 10 :=
  Nat.length_toDigits_le_iff (by decide) Nat.one_pos

/-- Padding an exponent to two digits makes a difference if it has one. -/
theorem exponentText_two_eq_one_iff : exponentText 2 x = exponentText 1 x ↔ 10 ≤ x.natAbs := by
  have hpos : 0 < (decimalDigits x.natAbs).length := Nat.length_toDigits_pos
  have hone := length_decimalDigits_le_one_iff (n := x.natAbs)
  constructor
  · intro heq
    by_contra hnot
    have hlength := congrArg List.length heq
    simp only [exponentText, List.length_cons, List.length_append, List.length_replicate] at hlength
    omega
  · intro hle
    unfold exponentText
    dsimp only
    rw [Nat.sub_eq_zero_of_le (by omega), Nat.sub_eq_zero_of_le (by omega)]

theorem scientific_eq_iff (hne : ds ≠ []) :
    scientific width ds x = scientific width' ds x ↔ exponentText width x = exponentText width' x := by
  unfold scientific
  split
  · exact absurd rfl hne
  · simp
  · simp

theorem mem_scientific (hne : ds ≠ []) : 'e' ∈ scientific width ds x := by
  unfold scientific
  split
  · exact absurd rfl hne
  · simp
  · simp

theorem notMem_positional (hd : AllDigits ds) : 'e' ∉ positional ds p := by
  have hnot {cs : List Char} (hc : AllDigits cs) : 'e' ∉ cs := fun he => absurd (hc _ he) (by decide)
  have hz (n : Nat) : 'e' ∉ List.replicate n '0' := hnot (.replicate n)
  unfold positional
  split
  · simp [hz, hnot hd]
  · dsimp only
    split
    · simp [hz, hnot hd]
    · have htake : 'e' ∉ ds.take p.toNat := fun he => hnot hd (List.mem_of_mem_take he)
      have hdrop : 'e' ∉ ds.drop p.toNat := fun he => hnot hd (List.mem_of_mem_drop he)
      simp [htake, hdrop]

/-- Where one style writes an exponent and the other one does not, the texts differ. Where both write one, they differ
if it has one digit. -/
theorem NumberStyle.layout_compact_eq_script_iff (hd : AllDigits ds) (hne : ds ≠ []) :
    compact.layout ds p = script.layout ds p ↔ p ≤ -9 ∨ (-4 < p ∧ p ≤ 6) ∨ 21 < p := by
  change (if -4 ≤ p - 1 ∧ p - 1 < 6 then positional ds p else scientific 2 ds (p - 1)) =
    (if -6 ≤ p - 1 ∧ p - 1 < 21 then positional ds p else scientific 1 ds (p - 1)) ↔ _
  by_cases hcompact : -4 ≤ p - 1 ∧ p - 1 < 6
  · rw [if_pos hcompact, if_pos (by omega)]
    exact iff_of_true rfl (by omega)
  · rw [if_neg hcompact]
    by_cases hscript : -6 ≤ p - 1 ∧ p - 1 < 21
    · rw [if_pos hscript]
      exact iff_of_false (fun heq => notMem_positional hd (heq ▸ mem_scientific hne)) (by omega)
    · rw [if_neg hscript, scientific_eq_iff hne, exponentText_two_eq_one_iff]
      omega

/-! ### Numbers that two styles write alike -/

/-- The powers of ten at which the texts change. None of them is rounded down, and each number that one of them is
rounded to has its digits. -/
theorem exists_rounds_pow {k : Int} (hk : k ∈ ([-9, -4, 6, 21] : List Int)) :
    ∃ m e, Magnitude.Valid m e ∧ Rounds m e (10 ^ k) ∧ (10 : ℚ) ^ k ≤ m * 2 ^ e ∧
      (shortestDigits m e).point = k + 1 := by
  have hrounds {m : Nat} {e : Int} (hm : m ≠ 2 ^ 52) (hlower : (4 * m - 2) * 2 ^ e < (4 * 10 ^ k : ℚ))
      (hupper : (4 * 10 ^ k : ℚ) < (4 * m + 2) * 2 ^ e) : Rounds m e (10 ^ k) := by
    have hreach : reachBelow m e = 2 := if_neg fun h => hm h.1
    have hlower' : (4 * m - reachBelow m e) * 2 ^ e < (4 * 10 ^ k : ℚ) := by
      rw [hreach]
      exact_mod_cast hlower
    exact ⟨hlower'.le, hupper.le, fun _ => ⟨hlower', hupper⟩⟩
  fin_cases hk
  · refine ⟨4835703278458517, -82, ⟨by decide, .inl (by decide), by decide, by decide⟩, hrounds (by decide) ?_ ?_, ?_,
      by decide +kernel⟩ <;> norm_num
  · refine ⟨7378697629483821, -66, ⟨by decide, .inl (by decide), by decide, by decide⟩, hrounds (by decide) ?_ ?_, ?_,
      by decide +kernel⟩ <;> norm_num
  · refine ⟨8589934592000000, -33, ⟨by decide, .inl (by decide), by decide, by decide⟩, hrounds (by decide) ?_ ?_, ?_,
      by decide +kernel⟩ <;> norm_num
  · refine ⟨7629394531250000, 17, ⟨by decide, .inl (by decide), by decide, by decide⟩, hrounds (by decide) ?_ ?_, ?_,
      by decide +kernel⟩ <;> norm_num

/-- The sizes that both styles write alike. -/
def NumberStyle.WritesAlike (size : ℚ) : Prop :=
  size < 10 ^ (-9 : Int) ∨ (10 ^ (-4 : Int) ≤ size ∧ size < 10 ^ (6 : Int)) ∨ 10 ^ (21 : Int) ≤ size

theorem lt_point_iff {m : Nat} {e k : Int} (hv : Magnitude.Valid m e) (hm : 0 < m)
    (hk : k ∈ ([-9, -4, 6, 21] : List Int)) : k < (shortestDigits m e).point ↔ (10 : ℚ) ^ k ≤ m * 2 ^ e := by
  obtain ⟨m', e', hv', hr', hle, hpoint⟩ := exists_rounds_pow hk
  exact lt_point_shortestDigits_iff hv hm hv' hr' hle hpoint

theorem NumberStyle.layout_shortestDigits_iff {m : Nat} {e : Int} (hv : Magnitude.Valid m e) (hm : 0 < m) :
    compact.layout (shortestDigits m e).digits (shortestDigits m e).point =
      script.layout (shortestDigits m e).digits (shortestDigits m e).point ↔ WritesAlike (m * 2 ^ e) := by
  obtain ⟨v, hw, -⟩ := exists_writes_shortestDigits (e := e) hm hv.lt
  have hpoint {k : Int} (hk : k ∈ ([-9, -4, 6, 21] : List Int)) := lt_point_iff hv hm hk
  have hsmall : (m * 2 ^ e : ℚ) < 10 ^ (-9 : Int) ↔ (shortestDigits m e).point ≤ -9 := by
    rw [← not_le, ← hpoint (by decide), not_lt]
  have hsix : (m * 2 ^ e : ℚ) < 10 ^ (6 : Int) ↔ (shortestDigits m e).point ≤ 6 := by
    rw [← not_le, ← hpoint (by decide), not_lt]
  rw [layout_compact_eq_script_iff hw.isDigit hw.ne_nil, WritesAlike, hsmall, hsix, ← hpoint (by decide),
    ← hpoint (by decide)]

/-- Property names and conversions write a finite number alike if its size is among those, and it is not minus zero. -/
theorem NumberStyle.render_compact_eq_script_iff {n : Float} {negative : Bool} {m : Nat} {e : Int}
    (hn : Magnitude.decode n = .finite negative m e) :
    compact.render n = script.render n ↔ ¬(m = 0 ∧ negative) ∧ WritesAlike (m * 2 ^ e) := by
  obtain ⟨hv, -⟩ := Magnitude.decode_finite hn
  unfold render
  rw [hn]
  dsimp only
  rcases Nat.eq_zero_or_pos m with rfl | hm
  · have hzero : WritesAlike ((0 : Nat) * 2 ^ e) := .inl (by norm_num)
    rw [if_pos rfl, if_pos rfl, and_iff_left hzero]
    cases negative <;> simp [compact, script]
  · rw [if_neg hm.ne', if_neg hm.ne', ← layout_shortestDigits_iff hv hm, and_iff_right fun h => hm.ne' h.1,
      String.ofList_inj]
    cases negative <;> simp

end Stepwise

import Mathlib.Data.List.TakeWhile
import Stepwise.Proofs.Decimal.Binary64

/-!
# Decimal digits that read back

* `Decimal.Writes`: the digits and the point of a decimal number stand for a fraction.
* `shortestDigits_writes`: the digits that are found for a number stand for a fraction that is rounded to it.
  Seventeen digits are always enough.
-/

namespace Stepwise

/-- The digits and the point stand for a fraction. -/
structure Decimal.Writes (d : Decimal) (v : ℚ) : Prop where
  ne_nil : d.digits ≠ []
  isDigit : ∀ c ∈ d.digits, c.isDigit
  lead : 10 ^ (d.digits.length - 1) ≤ Nat.ofDigitChars 10 d.digits 0
  value : (Nat.ofDigitChars 10 d.digits 0 : ℚ) * 10 ^ (d.point - d.digits.length) = v

/-- Trailing zeros count as powers of ten. -/
theorem ofDigitChars_dropZeros (cs : List Char) :
    ∃ zeros, cs = (cs.reverse.dropWhile (· == '0')).reverse ++ List.replicate zeros '0' := by
  have h := List.takeWhile_append_dropWhile (p := (· == '0')) (l := cs.reverse)
  refine ⟨(cs.reverse.takeWhile (· == '0')).length, ?_⟩
  have hz : cs.reverse.takeWhile (· == '0') = List.replicate (cs.reverse.takeWhile (· == '0')).length '0' := by
    refine List.eq_replicate_of_mem fun c hc => ?_
    simpa using List.mem_takeWhile_imp hc
  have hr := congrArg List.reverse h
  rw [List.reverse_append, List.reverse_reverse, hz, List.reverse_replicate] at hr
  exact hr.symm

theorem toDigits_bounds {n : Nat} (hn : 0 < n) :
    10 ^ ((Nat.toDigits 10 n).length - 1) ≤ n ∧ n < 10 ^ (Nat.toDigits 10 n).length := by
  have hlen := Nat.length_toDigits_pos (b := 10) (n := n)
  refine ⟨?_, (Nat.length_toDigits_le_iff (by decide) hlen).1 (Nat.le_refl _)⟩
  rcases Nat.lt_or_ge 1 (Nat.toDigits 10 n).length with h | h
  · have := mt (Nat.length_toDigits_le_iff (b := 10) (n := n) (by decide) (Nat.sub_pos_of_lt h)).2
    omega
  · rw [Nat.sub_eq_zero_of_le h]
    exact hn

theorem Decimal.writes_ofScaled {c : Nat} (hc : 0 < c) (k : Int) : (ofScaled c k).Writes (c * 10 ^ k) := by
  unfold ofScaled
  rw [if_neg (by omega)]
  unfold decimalDigits
  dsimp only
  obtain ⟨zeros, hz⟩ := ofDigitChars_dropZeros (Nat.toDigits 10 c)
  have hval : Nat.ofDigitChars 10 (Nat.toDigits 10 c) 0 = c := Nat.ofDigitChars_ten_toDigits
  have hdigit (d : Char) (hd : d ∈ Nat.toDigits 10 c) : d.isDigit :=
    Nat.isDigit_of_mem_toDigits (by decide) (by decide) hd
  have hlead := (toDigits_bounds hc).1
  generalize ((Nat.toDigits 10 c).reverse.dropWhile (· == '0')).reverse = ds at *
  rw [hz, Nat.ofDigitChars_append, Nat.ofDigitChars_replicate_zero] at hval
  have hne : ds ≠ [] := by
    rintro rfl
    simp at hval
    omega
  refine ⟨hne, fun d hd => hdigit d (by rw [hz]; exact List.mem_append_left _ hd), ?_, ?_⟩
  · have hlen := List.length_pos_iff.2 hne
    rw [hz, List.length_append, List.length_replicate, Nat.sub_add_comm hlen, pow_add, ← hval, mul_comm] at hlead
    exact Nat.le_of_mul_le_mul_left hlead (by positivity)
  · rw [hz]
    have : ((ds ++ List.replicate zeros '0').length + k - ds.length : Int) = zeros + k := by
      simp
      omega
    dsimp only
    rw [this, ← hval, zpow_add₀ (by norm_num), zpow_natCast]
    push_cast
    ring

theorem scaleByTen_pos (n : Nat) (k : Int) : 0 < (scaleByTen n k).2 := by
  unfold scaleByTen
  split
  · exact Nat.one_pos
  · exact Nat.pow_pos (by decide)

theorem scaleByTen_eq (n : Nat) (k : Int) : ((scaleByTen n k).1 : ℚ) = n * 10 ^ k * (scaleByTen n k).2 := by
  unfold scaleByTen
  split
  · rename_i k
    simp only [Nat.pow_eq, Int.ofNat_eq_natCast, zpow_natCast]
    push_cast
    ring
  · rename_i k
    simp only [Nat.pow_eq, zpow_negSucc]
    push_cast
    field_simp

/-- The decimal exponent of a fraction is not too large. -/
theorem pow_decimalExponent_le {n d : Nat} (hn : 0 < n) (hd : 0 < d) :
    (10 : ℚ) ^ decimalExponent n d ≤ n / d := by
  have hnq : (0 : ℚ) < n := by exact_mod_cast hn
  have hdq : (0 : ℚ) < d := by exact_mod_cast hd
  unfold decimalExponent decimalDigits
  split
  · rename_i h
    have hdiv : 0 < n / d := Nat.div_pos h hd
    have hlen := Nat.length_toDigits_pos (b := 10) (n := n / d)
    rw [show ((Nat.toDigits 10 (n / d)).length : Int) - 1 = ((Nat.toDigits 10 (n / d)).length - 1 : Nat) by omega,
      zpow_natCast, le_div_iff₀ hdq]
    have := Nat.mul_le_of_le_div d _ n (toDigits_bounds hdiv).1
    exact_mod_cast this
  · rename_i h
    have hdiv : 0 < d / n := Nat.div_pos (by omega) hn
    have hlt := (Nat.div_lt_iff_lt_mul hn).1 (toDigits_bounds hdiv).2
    rw [zpow_neg, zpow_natCast, inv_eq_one_div, div_le_div_iff₀ (by positivity) hdq]
    have : (d : ℚ) ≤ n * 10 ^ (Nat.toDigits 10 (d / n)).length := by
      rw [mul_comm]
      exact_mod_cast hlt.le
    linarith

/-! ### Fractions in the interval of a number -/

/-- A rounded quotient is at most a half away. -/
theorem roundQuotient_near (a : Nat) {b : Nat} (hb : 0 < b) :
    2 * (b * roundQuotient a b) ≤ 2 * a + b ∧ 2 * a ≤ 2 * (b * roundQuotient a b) + b := by
  have ha := Nat.div_add_mod a b
  have hr := Nat.mod_lt a hb
  have hsucc : b * (a / b + 1) = b * (a / b) + b := by ring
  simp only [roundQuotient]
  split
  · omega
  · split
    · omega
    · split <;> omega

namespace RoundingInterval

variable {m : Nat} {e : Int}

theorem denominator_pos (m : Nat) (e : Int) : 0 < (RoundingInterval.of m e).denominator := scaleByTwo_pos 1 (e - 2)

/-- The interval is about the number itself. -/
theorem value_eq (m : Nat) (e : Int) :
    ((RoundingInterval.of m e).value : ℚ) / (RoundingInterval.of m e).denominator = m * 2 ^ e := by
  have hpos := scaleByTwo_pos 1 (e - 2)
  have hs := scaleByTwo_eq 1 (e - 2)
  have hpos' : (0 : ℚ) < (scaleByTwo 1 (e - 2)).2 := by exact_mod_cast hpos
  show ((4 * m * (scaleByTwo 1 (e - 2)).1 : Nat) : ℚ) / (scaleByTwo 1 (e - 2)).2 = _
  push_cast
  rw [hs, zpow_sub₀ two_ne_zero]
  field_simp
  ring

/-- The fractions of the interval are rounded to the number. -/
theorem rounds_of_contains (hm : 0 < m) {n d : Nat} (hd : 0 < d) (h : (RoundingInterval.of m e).contains n d) :
    Rounds m e (n / d) := by
  have hunit := scaleByTwo_eq 1 (e - 2)
  have hpos := scaleByTwo_pos 1 (e - 2)
  have hbelow : (if m = Nat.pow 2 52 ∧ minExponent < e then 1 else 2) = reachBelow m e := rfl
  have hle : reachBelow m e ≤ 4 * m := by
    unfold reachBelow
    split <;> omega
  simp only [contains, of, hbelow] at h
  generalize (scaleByTwo 1 (e - 2)).1 = unit at *
  generalize (scaleByTwo 1 (e - 2)).2 = denominator at *
  have hdq : (0 : ℚ) < d := by exact_mod_cast hd
  have hpq : (0 : ℚ) < denominator := by exact_mod_cast hpos
  rw [zpow_sub₀ two_ne_zero] at hunit
  norm_num at hunit
  -- compare with the ends of the interval, over the common denominator
  have hend (x : Nat) : ((x * unit * d : Nat) : ℚ) = x * 2 ^ e / 4 * (d * denominator) := by
    push_cast
    rw [hunit]
    ring
  have hval : ((n * denominator : Nat) : ℚ) = 4 * (n / d) / 4 * (d * denominator) := by
    push_cast
    field_simp
  have below (x : Nat) : x * unit * d ≤ n * denominator ↔ (x * 2 ^ e : ℚ) ≤ 4 * (n / d) := by
    rw [← Nat.cast_le (α := ℚ), hend, hval, mul_le_mul_iff_left₀ (mul_pos hdq hpq),
      div_le_div_iff_of_pos_right (by norm_num)]
  have above (x : Nat) : n * denominator ≤ x * unit * d ↔ (4 * (n / d) : ℚ) ≤ x * 2 ^ e := by
    rw [← Nat.cast_le (α := ℚ), hend, hval, mul_le_mul_iff_left₀ (mul_pos hdq hpq),
      div_le_div_iff_of_pos_right (by norm_num)]
  have hlow : ((4 * m - reachBelow m e : Nat) : ℚ) = 4 * m - reachBelow m e := by
    push_cast [hle]
    rfl
  have hhigh : ((4 * m + 2 : Nat) : ℚ) = 4 * m + 2 := by
    push_cast
    rfl
  split at h <;> rename_i heven <;> rw [Bool.and_eq_true, decide_eq_true_eq, decide_eq_true_eq] at h
  · refine ⟨?_, ?_, fun ho => ?_⟩
    · rw [← hlow]
      exact (below _).1 h.1
    · rw [← hhigh]
      exact (above _).1 h.2
    · rw [decide_eq_true_eq] at heven
      omega
  · have hl : ((4 * m - reachBelow m e : Nat) * 2 ^ e : ℚ) < 4 * (n / d) := not_le.1 fun h' =>
      absurd ((above _).2 h') (not_le.2 h.1)
    have hu : (4 * (n / d) : ℚ) < (4 * m + 2 : Nat) * 2 ^ e := not_le.1 fun h' =>
      absurd ((below _).2 h') (not_le.2 h.2)
    rw [hlow] at hl
    rw [hhigh] at hu
    exact ⟨hl.le, hu.le, fun _ => ⟨hl, hu⟩⟩

/-- A multiple that is found lies in the interval. -/
theorem rounds_of_multiple? (hm : 0 < m) {place : Int} {c : Nat}
    (h : (RoundingInterval.of m e).multiple? place = some c) : Rounds m e (c * 10 ^ place) := by
  have inside {n : Nat} (h : (RoundingInterval.of m e).contains (scaleByTen n place).1 (scaleByTen n place).2) :
      Rounds m e (n * 10 ^ place) := by
    have hpos := scaleByTen_pos n place
    have hr := rounds_of_contains hm hpos h
    have hpq : (0 : ℚ) < (scaleByTen n place).2 := by exact_mod_cast hpos
    rw [scaleByTen_eq, mul_div_assoc, div_self hpq.ne', mul_one] at hr
    exact hr
  simp only [multiple?] at h
  split at h
  · rename_i h1 h2
    split at h
    · cases h
      exact inside h1
    · split at h
      · cases h
        exact inside h2
      · split at h <;> cases h
        · exact inside h1
        · exact inside h2
  · rename_i h1 _
    cases h
    exact inside h1
  · rename_i _ h2
    cases h
    exact inside h2
  · cases h

end RoundingInterval

theorem Rounds.pos {m : Nat} {e : Int} {v : ℚ} (hm : 0 < m) (h : Rounds m e v) : 0 < v := by
  have he : (0 : ℚ) < 2 ^ e := by positivity
  have hm : (1 : ℚ) ≤ m := by exact_mod_cast hm
  have := h.lower
  have := Rounds.reachBelow_le m e
  nlinarith

/-- A number is rounded to itself. -/
theorem Rounds.self (m : Nat) (e : Int) : Rounds m e (m * 2 ^ e) := by
  have he : (0 : ℚ) < 2 ^ e := by positivity
  have hreach : (1 : ℚ) ≤ reachBelow m e := by
    unfold reachBelow
    split <;> norm_num
  exact ⟨by nlinarith, by nlinarith, fun _ => ⟨by nlinarith, by nlinarith⟩⟩

/-- Seventeen digits are enough. -/
theorem rounds_of_near {m : Nat} {e : Int} {v : ℚ} (hm : m < 2 ^ 53)
    (hl : m * 2 ^ e - m * 2 ^ e / (2 * 10 ^ 16) ≤ v) (hu : v ≤ m * 2 ^ e + m * 2 ^ e / (2 * 10 ^ 16)) :
    Rounds m e v := by
  have he : (0 : ℚ) < 2 ^ e := by positivity
  have hmq : (m : ℚ) < 2 ^ 53 := by exact_mod_cast hm
  have hreach : (m : ℚ) / (2 * 10 ^ 16) < reachBelow m e / 4 := by
    unfold reachBelow
    split
    · rename_i h
      rw [h.1]
      norm_num
    · push_cast
      linarith
  have h2 : (reachBelow m e : ℚ) ≤ 2 := Rounds.reachBelow_le m e
  have hlow : (4 * m - reachBelow m e) * 2 ^ e < 4 * v := by nlinarith
  have hhigh : 4 * v < (4 * m + 2) * 2 ^ e := by nlinarith
  exact ⟨hlow.le, hhigh.le, fun _ => ⟨hlow, hhigh⟩⟩

/-- A fraction that is rounded at a place is at most half a unit away. -/
theorem roundQuotient_scaleByTen (n : Nat) {d : Nat} (hd : 0 < d) (place : Int) :
    let c := roundQuotient (scaleByTen n (-place)).1 (d * (scaleByTen n (-place)).2)
    (2 * (c * 10 ^ place) : ℚ) ≤ 2 * (n / d) + 10 ^ place ∧
      (2 * (n / d) : ℚ) ≤ 2 * (c * 10 ^ place) + 10 ^ place := by
  intro c
  have hq := scaleByTen_pos n (-place)
  have hs := scaleByTen_eq n (-place)
  obtain ⟨hl, hu⟩ := roundQuotient_near (scaleByTen n (-place)).1 (Nat.mul_pos hd hq)
  change 2 * (d * (scaleByTen n (-place)).2 * c) ≤ _ at hl
  change _ ≤ 2 * (d * (scaleByTen n (-place)).2 * c) + _ at hu
  generalize (scaleByTen n (-place)).1 = p at *
  generalize (scaleByTen n (-place)).2 = q at *
  have hten : (0 : ℚ) < 10 ^ place := by positivity
  have hdq : (0 : ℚ) < d := by exact_mod_cast hd
  have hqq : (0 : ℚ) < q := by exact_mod_cast hq
  have hb : (0 : ℚ) < d * q / 10 ^ place := div_pos (mul_pos hdq hqq) hten
  have hl' : (2 * (d * q * c) : ℚ) ≤ 2 * p + d * q := by exact_mod_cast hl
  have hu' : (2 * p : ℚ) ≤ 2 * (d * q * c) + d * q := by exact_mod_cast hu
  -- all terms have the common factor `d * q / 10 ^ place`
  have hc : (2 * (d * q * c) : ℚ) = 2 * (c * 10 ^ place) * (d * q / 10 ^ place) := by field_simp
  have hp : (2 * p : ℚ) = 2 * (n / d) * (d * q / 10 ^ place) := by
    rw [hs, zpow_neg]
    field_simp
  have h1 : (d * q : ℚ) = 10 ^ place * (d * q / 10 ^ place) := by field_simp
  rw [hc, hp] at hl' hu'
  constructor
  · refine le_of_mul_le_mul_right ?_ hb
    linarith
  · refine le_of_mul_le_mul_right ?_ hb
    linarith

/-- The place of the seventeenth digit is small enough. -/
theorem exists_writes_roundAtPlace {m : Nat} {e : Int} (hm : 0 < m) (hlt : m < 2 ^ 53) :
    let i := RoundingInterval.of m e
    ∃ v, (roundAtPlace i.value i.denominator (decimalExponent i.value i.denominator + 1 - 17)).Writes v ∧
      Rounds m e v := by
  intro i
  have hd : 0 < i.denominator := RoundingInterval.denominator_pos m e
  have hv : (i.value / i.denominator : ℚ) = m * 2 ^ e := RoundingInterval.value_eq m e
  have hmpos : (0 : ℚ) < m * 2 ^ e := by positivity
  have hn : 0 < i.value := by
    rcases Nat.eq_zero_or_pos i.value with h | h
    · rw [h, Nat.cast_zero, zero_div] at hv
      linarith
    · exact h
  have hexp := pow_decimalExponent_le hn hd
  rw [hv] at hexp
  unfold roundAtPlace
  obtain ⟨place, hplace⟩ : ∃ p, p = decimalExponent i.value i.denominator + 1 - 17 := ⟨_, rfl⟩
  rw [← hplace]
  have hten : (10 : ℚ) ^ place ≤ m * 2 ^ e / 10 ^ 16 := by
    have : (10 : ℚ) ^ place = 10 ^ decimalExponent i.value i.denominator / 10 ^ 16 := by
      rw [hplace, show decimalExponent i.value i.denominator + 1 - 17 =
        decimalExponent i.value i.denominator - (16 : Nat) by push_cast; ring, zpow_sub₀ (by norm_num), zpow_natCast]
    rw [this]
    gcongr
  have hnear := roundQuotient_scaleByTen i.value hd place
  dsimp only at hnear ⊢
  generalize roundQuotient _ _ = c at hnear ⊢
  rw [hv] at hnear
  have hr : Rounds m e (c * 10 ^ place) := by
    refine rounds_of_near hlt ?_ ?_ <;> linarith
  have hpos : 0 < c := by
    rcases Nat.eq_zero_or_pos c with rfl | h
    · simpa using hr.pos hm
    · exact h
  exact ⟨_, Decimal.writes_ofScaled hpos place, hr⟩

/-- The search for digits ends with digits that read back. -/
theorem RoundingInterval.exists_writes_search {m : Nat} {e : Int} (hm : 0 < m) (hlt : m < 2 ^ 53)
    (tries count : Nat) (h : count + tries = 17) :
    let i := RoundingInterval.of m e
    ∃ v, (i.search (decimalExponent i.value i.denominator) count tries).Writes v ∧ Rounds m e v := by
  induction tries generalizing count with
  | zero =>
    obtain rfl : count = 17 := h
    exact exists_writes_roundAtPlace hm hlt
  | succ tries ih =>
    intro i
    unfold search
    dsimp only
    split
    · rename_i c hc
      have hr := rounds_of_multiple? hm hc
      have hpos : 0 < c := by
        rcases Nat.eq_zero_or_pos c with rfl | h
        · simpa using hr.pos hm
        · exact h
      exact ⟨_, Decimal.writes_ofScaled hpos _, hr⟩
    · exact ih (count + 1) (by omega)

/-- The digits of a number stand for a fraction that is rounded to it. -/
theorem exists_writes_shortestDigits {m : Nat} {e : Int} (hm : 0 < m) (hlt : m < 2 ^ 53) :
    ∃ v, (shortestDigits m e).Writes v ∧ Rounds m e v := by
  unfold shortestDigits
  rw [if_neg (by omega)]
  dsimp only
  split
  · rename_i h
    have hq := scaleByTwo_pos m e
    have hs := scaleByTwo_eq m e
    have hqq : (0 : ℚ) < (scaleByTwo m e).2 := by exact_mod_cast hq
    have hp : ((scaleByTwo m e).1 : ℚ) = ((scaleByTwo m e).1 / (scaleByTwo m e).2 : Nat) * (scaleByTwo m e).2 := by
      exact_mod_cast (Nat.div_mul_cancel (Nat.dvd_of_mod_eq_zero h.1)).symm
    have hval : (((scaleByTwo m e).1 / (scaleByTwo m e).2 : Nat) : ℚ) * 10 ^ (0 : Int) = m * 2 ^ e := by
      rw [zpow_zero, mul_one]
      refine mul_right_cancel₀ hqq.ne' ?_
      rw [← hp, hs]
    have hmpos : (0 : ℚ) < m * 2 ^ e := by positivity
    have hpos : 0 < (scaleByTwo m e).1 / (scaleByTwo m e).2 := by
      rcases Nat.eq_zero_or_pos ((scaleByTwo m e).1 / (scaleByTwo m e).2) with h0 | h0
      · rw [h0, Nat.cast_zero, zero_mul] at hval
        linarith
      · exact h0
    exact ⟨_, Decimal.writes_ofScaled hpos 0, hval ▸ Rounds.self m e⟩
  · exact RoundingInterval.exists_writes_search hm hlt 16 1 rfl

end Stepwise

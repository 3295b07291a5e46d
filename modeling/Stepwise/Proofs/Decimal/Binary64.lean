import Mathlib
import Stepwise.Decimal.Shortest

/-!
# Rounding to binary floating-point numbers

* `Float.ofBits_toBits`: a number is determined by its bits.
* `Magnitude.decode_finite`: the mantissa and the exponent of a finite number determine it.
* `Rounds`: the fractions that are nearer to a number than to all others, a tie going to the even mantissa.
* `nearestFloat_of_rounds`: `nearestFloat` takes each of them to this number.
-/

namespace Stepwise

/-! ### Bits -/

section Bits

open Float.Model Float.Model.UnpackedFloat

variable {b : BitVec Format.binary64.numBits}

/-- A bit pattern is put together from its parts. -/
private theorem eq_packComponents (b : BitVec Format.binary64.numBits) :
    b = packComponents .binary64 (Sign.ofBitVec (unpackSign b)) (unpackExponent b) (unpackMantissa b) := by
  have hs : (Sign.ofBitVec (unpackSign b)).toBitVec = unpackSign b := by
    generalize unpackSign b = s
    revert s
    decide
  rw [packComponents, hs, unpackSign, unpackExponent, unpackMantissa]
  ext i hi
  simp only [BitVec.extractLsb]
  grind

/-- The mantissa of a normal number has 53 bits. -/
theorem log2_normal {f : Nat} (hf : f < 2 ^ 52) : (2 ^ 52 + f).log2 = 52 := by
  rw [Nat.log2_eq_iff (by omega)]
  omega

theorem pack_normal (sign : Sign) {exponent : BitVec 11} (f : BitVec 52) {m : Nat} {e : Int} (h : 0 < m)
    (hm : m = 2 ^ 52 + f.toNat) (he : e + 1023 + 52 = exponent.toNat) (h1 : exponent.toNat ≠ 2047) :
    pack .binary64 (.finite sign m e h) = packComponents .binary64 sign exponent f := by
  have hb : (e + Format.binary64.exponentBias + (52 : Nat)).toNat = exponent.toNat := by
    rw [show Format.binary64.exponentBias = 1023 from rfl]
    omega
  have hf : BitVec.ofNat 52 m = f := by
    rw [hm, ← BitVec.toNat_inj, BitVec.toNat_ofNat, Nat.add_mod_left, Nat.mod_eq_of_lt f.isLt]
  have hlt : exponent.toNat < 2 ^ 11 := exponent.isLt
  have hlog : m.log2 + 1 = Format.binary64.mantissaBits := by
    rw [hm, log2_normal f.isLt]
    rfl
  unfold UnpackedFloat.pack
  dsimp only
  rw [hb, if_neg (by omega), if_pos hlog, BitVec.ofNat_toNat, BitVec.setWidth_eq, hf]

private theorem pack_subnormal (sign : Sign) (f : BitVec 52) {m : Nat} {e : Int} (h : 0 < m)
    (hm : m = f.toNat) (he : e = -1074) :
    pack .binary64 (.finite sign m e h) = packComponents .binary64 sign 0#11 f := by
  have hb : (e + Format.binary64.exponentBias + (52 : Nat)).toNat = 1 := by
    rw [he, show Format.binary64.exponentBias = 1023 from rfl]
    rfl
  have hlog : ¬m.log2 + 1 = Format.binary64.mantissaBits := by
    have : m.log2 < 52 := (Nat.log2_lt (by omega)).2 (hm ▸ f.isLt)
    rw [show Format.binary64.mantissaBits = 53 from rfl]
    omega
  unfold UnpackedFloat.pack
  dsimp only
  rw [hb, if_neg (by decide), if_neg hlog, hm, BitVec.ofNat_toNat, BitVec.setWidth_eq]

private theorem pack_unpack (hv : Format.binary64.Valid b) : pack .binary64 (unpack .binary64 b) = b := by
  have hb := eq_packComponents b
  have hbias : Format.binary64.exponentBias = 1023 := rfl
  unfold UnpackedFloat.unpack
  dsimp only
  split
  · rename_i he
    split
    · rename_i hm
      rw [he, hm] at hb
      exact hb.symm
    · rename_i hm
      exact (hv.eq_packedNaN he hm).symm
  · rename_i he
    split
    · rename_i h0
      split
      · rename_i hm
        rw [h0, hm] at hb
        exact hb.symm
      · rename_i hm
        rw [pack_subnormal _ (unpackMantissa b) _ rfl (by rw [h0, hbias]; rfl)]
        rw [h0] at hb
        exact hb.symm
    · rename_i h0
      refine (pack_normal _ (unpackMantissa b) _ ?_ ?_ ?_).trans hb.symm
      · show 2 ^ 52 ||| (unpackMantissa b).toNat = _
        rw [Nat.or_comm, Nat.or_two_pow_eq_add_of_lt (unpackMantissa b).isLt, Nat.add_comm]
      · rw [hbias]
        omega
      · intro h
        exact he (BitVec.eq_of_toNat_eq h)

/-- All patterns that are no numbers are the same. -/
private theorem eq_packedNaN (hv : Format.binary64.Valid b) (he : b.toNat / 2 ^ 52 % 2 ^ 11 = 2047)
    (hm : b.toNat % 2 ^ 52 ≠ 0) : b = packedNaN .binary64 := by
  refine hv.eq_packedNaN ?_ ?_
  · rw [← BitVec.toNat_inj]
    simp only [unpackExponent, BitVec.toNat_cast, BitVec.extractLsb_toNat, Nat.shiftRight_eq_div_pow]
    exact he
  · rw [ne_eq, ← BitVec.toNat_inj]
    simp only [unpackMantissa, BitVec.toNat_cast, BitVec.extractLsb_toNat]
    exact hm

end Bits

/-- A number is determined by its bits. -/
theorem ofBits_toBits (x : Float) : Float.ofBits x.toBits = x := by
  obtain ⟨bits, hv⟩ := x
  have h := pack_unpack hv
  simp only [Float.ofBits, Float.toBits, Float.Model.ofBits, Float.Model.pack]
  congr

/-- The number of a sign, a mantissa and an exponent. -/
def Magnitude.float (negative : Bool) (mantissa : Nat) (exponent : Int) : Float :=
  Float.ofBits (UInt64.ofNat ((if negative then 2 ^ 63 else 0) +
    ((exponent - minExponent).toNat * 2 ^ 52 + mantissa)))

/-- The mantissa and the exponent of a finite number. -/
structure Magnitude.Valid (mantissa : Nat) (exponent : Int) : Prop where
  lt : mantissa < 2 ^ 53
  normal : 2 ^ 52 ≤ mantissa ∨ exponent = minExponent
  min_le : minExponent ≤ exponent
  le_max : exponent ≤ 971

namespace Magnitude

/-- A number is determined by its parts. -/
private theorem eq_ofBits (x : Float) {bits : Nat} (h : x.toBits.toNat = bits) :
    x = Float.ofBits (UInt64.ofNat bits) := by
  rw [← h, UInt64.ofNat_toNat, ofBits_toBits]

theorem decode_nan {x : Float} (h : decode x = .nan) : x = notANumber := by
  simp only [decode, Nat.pow_eq] at h
  split at h
  · rename_i he
    split at h
    · cases h
    · rename_i hm
      obtain ⟨bits, hv⟩ := x
      have hb : bits.toBitVec = _ := eq_packedNaN hv he hm
      have hn : (⟨bits, hv⟩ : Float.Model) = Float.Model.ofBits 0x7FF8000000000001 := by
        rw [Float.Model.mk.injEq, UInt64.toBitVec_inj.symm, hb]
        decide
      rw [hn]
      rfl
  · split at h <;> cases h

theorem decode_infinite {x : Float} {negative : Bool} (h : decode x = .infinite negative) :
    x = if negative then -infinity else infinity := by
  have hlt : x.toBits.toNat < 2 ^ 64 := x.toBits.toNat_lt
  simp only [decode, Nat.pow_eq] at h
  split at h
  · rename_i he
    split at h
    · rename_i hm
      cases h
      split
      · rename_i hs
        simp only [decide_eq_true_eq] at hs
        rw [eq_ofBits x (show _ = 0xFFF0000000000000 by omega)]
        decide
      · rename_i hs
        simp only [decide_eq_true_eq] at hs
        rw [eq_ofBits x (show _ = 0x7FF0000000000000 by omega)]
        rfl
    · cases h
  · split at h <;> cases h

theorem decode_finite {x : Float} {negative : Bool} {mantissa : Nat} {exponent : Int}
    (h : decode x = .finite negative mantissa exponent) :
    Valid mantissa exponent ∧ x = float negative mantissa exponent := by
  have hlt : x.toBits.toNat < 2 ^ 64 := x.toBits.toNat_lt
  simp only [decode, Nat.pow_eq] at h
  split at h
  · split at h <;> cases h
  · rename_i he
    split at h
    · rename_i h0
      cases h
      refine ⟨⟨by omega, .inr rfl, by decide, by decide⟩, eq_ofBits x ?_⟩
      simp only [decide_eq_true_eq]
      split <;> simp <;> omega
    · rename_i h0
      cases h
      refine ⟨⟨by omega, .inl (by omega), by unfold minExponent; omega, by unfold minExponent; omega⟩,
        eq_ofBits x ?_⟩
      simp only [decide_eq_true_eq, minExponent]
      split <;> omega

end Magnitude

/-! ### Rounding -/

/-- Rounding a quotient gives the integer that is at most a half away, if a tie is even. -/
theorem roundQuotient_eq {a b m : Nat} (hb : 0 < b) (hl : 2 * (b * m) ≤ 2 * a + b) (hu : 2 * a ≤ 2 * (b * m) + b)
    (hodd : m % 2 = 1 → 2 * (b * m) < 2 * a + b ∧ 2 * a < 2 * (b * m) + b) : roundQuotient a b = m := by
  have ha := Nat.div_add_mod a b
  have hr := Nat.mod_lt a hb
  have hsucc (n : Nat) : b * (n + 1) = b * n + b := by ring
  simp only [roundQuotient]
  generalize a / b = q at *
  generalize a % b = r at *
  -- the quotient lies at most one below
  have hm : m ≤ q + 1 := by
    have : b * m < b * (q + 2) := by
      have : b * (q + 2) = b * q + 2 * b := by ring
      omega
    have := Nat.lt_of_mul_lt_mul_left this
    omega
  have hq : q ≤ m := by
    have : b * q < b * (m + 1) := by
      have := hsucc m
      omega
    have := Nat.lt_of_mul_lt_mul_left this
    omega
  have hcases : m = q ∨ m = q + 1 := by omega
  rcases hcases with rfl | rfl
  · split
    · rfl
    · split
      · omega
      · split <;> omega
  · have := hsucc q
    split
    · omega
    · split
      · rfl
      · split <;> omega

theorem scaleByTwo_pos (n : Nat) (e : Int) : 0 < (scaleByTwo n e).2 := by
  unfold scaleByTwo
  split
  · exact Nat.one_pos
  · exact Nat.two_pow_pos _

theorem scaleByTwo_eq (n : Nat) (e : Int) :
    ((scaleByTwo n e).1 : ℚ) = n * 2 ^ e * (scaleByTwo n e).2 := by
  unfold scaleByTwo
  split
  · rename_i k
    simp only [Nat.pow_eq, Int.ofNat_eq_natCast, zpow_natCast]
    push_cast
    ring
  · rename_i k
    simp only [Nat.pow_eq, zpow_negSucc]
    push_cast
    field_simp

/-- A number lies between two powers of two. -/
private theorem log2_bounds {n : Nat} (hn : 0 < n) : (2 : ℚ) ^ n.log2 ≤ n ∧ (n : ℚ) < 2 ^ (n.log2 + 1) := by
  refine ⟨?_, ?_⟩
  · exact_mod_cast Nat.log2_self_le (by omega)
  · exact_mod_cast Nat.lt_log2_self

/-- The exponent at which a fraction is rounded is the one that gives the mantissa 53 bits, or the least. -/
theorem roundingExponent_eq {n d : Nat} (hn : 0 < n) (hd : 0 < d) :
    ∃ k : Int, roundingExponent n d = max k minExponent ∧ 2 ^ 52 * 2 ^ k ≤ (n / d : ℚ) ∧
      (n / d : ℚ) < 2 ^ 53 * 2 ^ k := by
  have hdq : (0 : ℚ) < d := by exact_mod_cast hd
  have htwo (e : Int) : (0 : ℚ) < 2 ^ e := by positivity
  obtain ⟨e, he⟩ : ∃ e : Int, e = (n.log2 : Int) - d.log2 - 53 := ⟨_, rfl⟩
  -- by the sizes of its parts, the fraction has 53 or 54 bits above this exponent
  have hpow : (2 : ℚ) ^ e * (2 ^ 53 * 2 ^ d.log2) = 2 ^ n.log2 := by
    rw [← zpow_natCast, ← zpow_natCast, ← zpow_natCast, ← zpow_add₀ two_ne_zero, ← zpow_add₀ two_ne_zero]
    congr 1
    push_cast
    omega
  obtain ⟨hn1, hn2⟩ := log2_bounds hn
  obtain ⟨hd1, hd2⟩ := log2_bounds hd
  rw [pow_succ] at hn2 hd2
  have he0 := htwo e
  have hlow : 2 ^ 52 * 2 ^ e ≤ (n / d : ℚ) := by
    rw [le_div_iff₀ hdq]
    nlinarith
  have hhigh : (n / d : ℚ) < 2 ^ 54 * 2 ^ e := by
    rw [div_lt_iff₀ hdq]
    nlinarith
  have hcond : Nat.pow 2 53 ≤ (scaleByTwo n (-e)).1 / (d * (scaleByTwo n (-e)).2) ↔
      2 ^ 53 * 2 ^ e ≤ (n / d : ℚ) := by
    have hq := scaleByTwo_pos n (-e)
    have hqq : (0 : ℚ) < (scaleByTwo n (-e)).2 := by exact_mod_cast hq
    rw [Nat.le_div_iff_mul_le (Nat.mul_pos hd hq), ← Nat.cast_le (α := ℚ), scaleByTwo_eq, le_div_iff₀ hdq, zpow_neg,
      ← div_eq_mul_inv]
    push_cast [Nat.pow_eq]
    rw [← mul_assoc, mul_le_mul_iff_left₀ hqq, le_div_iff₀ he0, mul_right_comm]
    norm_num
  unfold roundingExponent
  rw [← he]
  dsimp only
  split
  · rename_i h
    have hle := hcond.1 h
    refine ⟨e + 1, rfl, ?_, ?_⟩
    · rw [zpow_add_one₀ two_ne_zero]
      linarith
    · rw [zpow_add_one₀ two_ne_zero]
      linarith
  · rename_i h
    exact ⟨e, rfl, hlow, not_le.1 fun h' => h (hcond.2 h')⟩

/-- How far below a number the fractions that are rounded to it reach, in quarters of its last place: below a
power of two, numbers lie twice as close. -/
def reachBelow (mantissa : Nat) (exponent : Int) : Nat :=
  if mantissa = 2 ^ 52 ∧ minExponent < exponent then 1 else 2

/-- The fractions that are rounded to a number. Those that lie halfway count if the mantissa is even. -/
structure Rounds (mantissa : Nat) (exponent : Int) (v : ℚ) : Prop where
  lower : (4 * mantissa - reachBelow mantissa exponent) * 2 ^ exponent ≤ 4 * v
  upper : 4 * v ≤ (4 * mantissa + 2) * 2 ^ exponent
  odd : mantissa % 2 = 1 → (4 * mantissa - reachBelow mantissa exponent) * 2 ^ exponent < 4 * v ∧
    4 * v < (4 * mantissa + 2) * 2 ^ exponent

/-- Rounding at an exponent gives the mantissa that is at most a half away. -/
theorem roundQuotient_scaled {n d m : Nat} {e : Int} (hd : 0 < d) (hl : (2 * m - 1) * 2 ^ e ≤ (2 * (n / d) : ℚ))
    (hu : 2 * (n / d) ≤ ((2 * m + 1) * 2 ^ e : ℚ))
    (hodd : m % 2 = 1 → (2 * m - 1) * 2 ^ e < (2 * (n / d) : ℚ) ∧ 2 * (n / d) < ((2 * m + 1) * 2 ^ e : ℚ)) :
    roundQuotient (scaleByTwo n (-e)).1 (d * (scaleByTwo n (-e)).2) = m := by
  have hq := scaleByTwo_pos n (-e)
  have hs := scaleByTwo_eq n (-e)
  generalize (scaleByTwo n (-e)).1 = p at *
  generalize (scaleByTwo n (-e)).2 = q at *
  have hdq : (0 : ℚ) < d := by exact_mod_cast hd
  have hqq : (0 : ℚ) < q := by exact_mod_cast hq
  have he : (0 : ℚ) < 2 ^ e := by positivity
  have hb : (0 : ℚ) < d * q := mul_pos hdq hqq
  have hp : (2 * p : ℚ) = 2 * (n / d) / 2 ^ e * (d * q) := by
    rw [hs, zpow_neg]
    field_simp
  -- multiply the bounds by the denominator
  have below {x : ℚ} (h : x * 2 ^ e ≤ 2 * (n / d)) : x * (d * q) ≤ 2 * p := by
    rw [hp]
    exact mul_le_mul_of_nonneg_right ((le_div_iff₀ he).2 h) hb.le
  have above {x : ℚ} (h : 2 * (n / d) ≤ x * 2 ^ e) : 2 * p ≤ x * (d * q) := by
    rw [hp]
    exact mul_le_mul_of_nonneg_right ((div_le_iff₀ he).2 h) hb.le
  have below' {x : ℚ} (h : x * 2 ^ e < 2 * (n / d)) : x * (d * q) < 2 * p := by
    rw [hp]
    exact mul_lt_mul_of_pos_right ((lt_div_iff₀ he).2 h) hb
  have above' {x : ℚ} (h : 2 * (n / d) < x * 2 ^ e) : 2 * p < x * (d * q) := by
    rw [hp]
    exact mul_lt_mul_of_pos_right ((div_lt_iff₀ he).2 h) hb
  refine roundQuotient_eq (Nat.mul_pos hd hq) ?_ ?_ fun ho => ⟨?_, ?_⟩
  · have := below hl
    exact_mod_cast (by push_cast; linarith : ((2 * (d * q * m) : ℕ) : ℚ) ≤ (2 * p + d * q : ℕ))
  · have := above hu
    exact_mod_cast (by push_cast; linarith : ((2 * p : ℕ) : ℚ) ≤ (2 * (d * q * m) + d * q : ℕ))
  · have := below' (hodd ho).1
    exact_mod_cast (by push_cast; linarith : ((2 * (d * q * m) : ℕ) : ℚ) < (2 * p + d * q : ℕ))
  · have := above' (hodd ho).2
    exact_mod_cast (by push_cast; linarith : ((2 * p : ℕ) : ℚ) < (2 * (d * q * m) + d * q : ℕ))

namespace Rounds

variable {n d m : Nat} {e : Int}

theorem reachBelow_le (m : Nat) (e : Int) : (reachBelow m e : ℚ) ≤ 2 := by
  unfold reachBelow
  split <;> norm_num

/-- At its own exponent, the mantissa is at most a half away. -/
theorem roundQuotient (hd : 0 < d) (hr : Rounds m e (n / d)) :
    roundQuotient (scaleByTwo n (-e)).1 (d * (scaleByTwo n (-e)).2) = m := by
  have he : (0 : ℚ) < 2 ^ e := by positivity
  have hreach := reachBelow_le m e
  refine roundQuotient_scaled hd ?_ ?_ fun ho => ?_
  · have := hr.lower
    nlinarith
  · have := hr.upper
    linarith
  · obtain ⟨hl, hu⟩ := hr.odd ho
    exact ⟨by nlinarith, by linarith⟩

/-- A power of two is also reached from below, where the exponent is smaller. -/
theorem roundQuotient_pow (hd : 0 < d) (hm : m = 2 ^ 52) (hmin : minExponent < e) (hr : Rounds m e (n / d))
    (hlt : (n / d : ℚ) < 2 ^ 52 * 2 ^ e) :
    Stepwise.roundQuotient (scaleByTwo n (-(e - 1))).1 (d * (scaleByTwo n (-(e - 1))).2) = 2 ^ 53 := by
  have he : (2 : ℚ) ^ e = 2 * 2 ^ (e - 1) := by
    rw [zpow_sub_one₀ two_ne_zero]
    field_simp
  have hpos : (0 : ℚ) < 2 ^ (e - 1) := by positivity
  have hl := hr.lower
  rw [reachBelow, if_pos ⟨hm, hmin⟩, hm, he] at hl
  rw [he] at hlt
  push_cast at hl
  refine roundQuotient_scaled hd ?_ ?_ fun ho => absurd ho (by decide)
  · push_cast
    linarith
  · push_cast
    linarith

end Rounds

/-- Every fraction that is rounded to a number is rounded to it by `nearestFloat`. -/
theorem nearestFloat_of_rounds (negative : Bool) {n d m : Nat} {e : Int} (hn : 0 < n) (hd : 0 < d)
    (hv : Magnitude.Valid m e) (hr : Rounds m e (n / d)) :
    nearestFloat negative n d = (Magnitude.float negative m e, false) := by
  obtain ⟨k, hk, hlow, hhigh⟩ := roundingExponent_eq hn hd
  have he : (0 : ℚ) < 2 ^ e := by positivity
  have hmono {a b : Int} (h : (2 : ℚ) ^ a < 2 ^ b) : a < b :=
    (zpow_lt_zpow_iff_right₀ (by norm_num : (1 : ℚ) < 2)).1 h
  have hmlt : (m : ℚ) + 1 ≤ 2 ^ 53 := by exact_mod_cast hv.lt
  -- the exponent is not too large, as the mantissa has at most 53 bits
  have hke : k ≤ e := by
    have : (2 : ℚ) ^ k < 2 ^ (e + 1) := by
      rw [zpow_add_one₀ two_ne_zero]
      have := hr.upper
      nlinarith
    have := hmono this
    omega
  have hbits : (roundingExponent n d - minExponent).toNat * 2 ^ 52 +
      roundQuotient (scaleByTwo n (-roundingExponent n d)).1 (d * (scaleByTwo n (-roundingExponent n d)).2) =
      (e - minExponent).toNat * 2 ^ 52 + m := by
    by_cases hre : roundingExponent n d = e
    · rw [hre, hr.roundQuotient hd]
    · -- then the number is a power of two, and the fraction lies below it
      have hmin : minExponent < e := by
        have := hv.min_le
        omega
      have hm := hv.normal.resolve_right (by omega)
      have hlt : (n / d : ℚ) < 2 ^ 52 * 2 ^ e := by
        have : (2 : ℚ) ^ k ≤ 2 ^ (e - 1) := zpow_le_zpow_right₀ (by norm_num) (by omega)
        rw [zpow_sub_one₀ two_ne_zero] at this
        linarith
      have hreach := Rounds.reachBelow_le m e
      have hlower := hr.lower
      have hm : m = 2 ^ 52 := by
        have : (m : ℚ) < 2 ^ 52 + 1 := by nlinarith
        have : m < 2 ^ 52 + 1 := by exact_mod_cast this
        omega
      have hk1 : k = e - 1 := by
        have : (2 : ℚ) ^ (e - 2) < 2 ^ k := by
          rw [zpow_sub₀ two_ne_zero]
          have : (m : ℚ) = 2 ^ 52 := by exact_mod_cast hm
          rw [this] at hlower
          norm_num at hlower hhigh ⊢
          nlinarith
        have := hmono this
        omega
      have hre : roundingExponent n d = e - 1 := by omega
      rw [hre, hr.roundQuotient_pow hd hm hmin hlt]
      omega
  have hlargest : ¬(Nat.pow 2 11 - 1) * 2 ^ 52 ≤ (e - minExponent).toNat * 2 ^ 52 + m := by
    have := hv.lt
    have := hv.le_max
    simp only [Nat.pow_eq, minExponent]
    omega
  unfold nearestFloat
  rw [if_neg (by omega)]
  dsimp only
  rw [show Nat.pow 2 52 = 2 ^ 52 from rfl, hbits, if_neg hlargest]
  rfl

end Stepwise

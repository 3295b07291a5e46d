import Stepwise.Proofs.Decimal.Binary64
import Stepwise.Value.Number

/-!
# Whole numbers as floating-point numbers

* `roundWithAccuracy_normal`: rounding keeps a mantissa of 53 bits, whatever zeros are behind it.
* `unpack_pack_normal`, `Magnitude.decode_of_unpack`: such a mantissa and its exponent come back from the bits.
* `truncateToInt_ofNat`: so does every whole number of at most 53 bits.
* `toUInt32_ofNat`: a number of 32 bits is its own word.
-/

namespace Stepwise

open Float.Model Float.Model.UnpackedFloat

/-! ### Rounding -/

theorem log2_mul_two_pow {m : Nat} (hm : m ≠ 0) (k : Nat) : (m * 2 ^ k).log2 = m.log2 + k := by
  have hpos : m * 2 ^ k ≠ 0 := Nat.mul_ne_zero hm (Nat.two_pow_pos k).ne'
  rw [Nat.log2_eq_iff hpos, Nat.pow_add, Nat.add_right_comm, Nat.pow_add]
  exact ⟨Nat.mul_le_mul_right _ (Nat.log2_self_le hm), Nat.mul_lt_mul_of_pos_right Nat.lt_log2_self (Nat.two_pow_pos k)⟩

/-- Nothing is lost with zeros. -/
theorem shiftRight_exact (m k : Nat) : (⟨m * 2 ^ k, false, false⟩ : ExtendedMantissa) >>> k = ⟨m, false, false⟩ := by
  show Nat.repeat ExtendedMantissa.shiftRightOne k _ = _
  induction k generalizing m with
  | zero =>
    rw [Nat.pow_zero, Nat.mul_one]
    rfl
  | succ k ih =>
    have heven : m * 2 ^ (k + 1) = (m * 2) * 2 ^ k := by ring
    rw [Nat.repeat, heven, ih]
    simp [ExtendedMantissa.shiftRightOne]

section

variable {m : Nat} {e : Int}

theorem shiftToTargetExponent_normal (k : Nat) (h : 0 < m) (hm : m.log2 = 52) (he : minExponent ≤ e) :
    shiftToTargetExponent .binary64 (m * 2 ^ k) (e - k) .exact = (⟨m, false, false⟩, e) := by
  have htarget : Format.binary64.targetExponent (totalExponent (m * 2 ^ k) (e - k)) = e := by
    have hmin : Format.binary64.minExponent = minExponent := by decide
    have hbits : Format.binary64.mantissaBits = 53 := rfl
    rw [Format.targetExponent, totalExponent, log2_mul_two_pow h.ne', hm, hmin, hbits]
    omega
  have hshift : (e - (e - k)).toNat = k := by omega
  rw [shiftToTargetExponent, htarget, shiftToExponent, hshift, ExtendedMantissa.ofMantissaAndAccuracy, shiftRight_exact,
    Int.sub_add_cancel]

/-- Rounding keeps a mantissa of 53 bits with zeros behind it. -/
theorem roundWithAccuracy_normal (sign : Sign) (k : Nat) (h : 0 < m) (hm : m.log2 = 52) (he : minExponent ≤ e) :
    roundWithAccuracy .binary64 sign (m * 2 ^ k) (e - k) .exact = .finite sign m e h := by
  -- there are two shifts, and nothing is left to be dropped by the second one
  have hfirst := shiftToTargetExponent_normal k h hm he
  have hagain := shiftToTargetExponent_normal 0 h hm he
  have hrounded : (⟨m, false, false⟩ : ExtendedMantissa).roundedMantissa = m := rfl
  rw [Nat.pow_zero, Nat.mul_one, Int.natCast_zero, Int.sub_zero] at hagain
  rw [roundWithAccuracy, hfirst]
  dsimp only
  rw [hrounded, hagain]
  exact dif_neg h.ne'

/-- A whole number has its bits at the front of the mantissa. -/
theorem ofNat_normal {n k : Nat} (hn : n.log2 + k = 52) (h : 0 < n * 2 ^ k) :
    UnpackedFloat.ofNat .binary64 n = .finite .positive (n * 2 ^ k) (-k) h := by
  have hpos : 0 < n := Nat.pos_of_mul_pos_right h
  have hsign : compare (n : Int) 0 = .gt := compare_gt_iff_gt.2 (Int.natCast_pos.2 hpos)
  have hlog : (n * 2 ^ k).log2 = 52 := (log2_mul_two_pow hpos.ne' k).trans hn
  have hmin : minExponent ≤ -k := by
    rw [minExponent]
    omega
  have htarget : Format.binary64.targetExponent (totalExponent n 0) = -k := by
    have hleast : Format.binary64.minExponent = minExponent := by decide
    have hbits : Format.binary64.mantissaBits = 53 := rfl
    rw [Format.targetExponent, totalExponent, hleast, hbits]
    omega
  have hshift : (0 - -(k : Int)).toNat = k := by omega
  have hround := roundWithAccuracy_normal .positive 0 h hlog hmin
  rw [Nat.pow_zero, Nat.mul_one, Int.natCast_zero, Int.sub_zero] at hround
  rw [UnpackedFloat.ofNat, UnpackedFloat.ofInt, UnpackedFloat.normalize, hsign]
  dsimp only
  rw [UnpackedFloat.round, Int.toNat_natCast, htarget, decreaseExponent, Nat.shiftLeft_eq, hshift, Int.zero_sub]
  exact hround

end

/-! ### Bits -/

section

variable {m : Nat} {e : Int} (b : BitVec Format.binary64.numBits)

theorem toNat_unpackExponent : (unpackExponent b).toNat = b.toNat / 2 ^ 52 % 2 ^ 11 := by
  simp only [unpackExponent, BitVec.toNat_cast, BitVec.extractLsb_toNat, Nat.shiftRight_eq_div_pow]

theorem toNat_unpackMantissa : (unpackMantissa b).toNat = b.toNat % 2 ^ 52 := by
  simp only [unpackMantissa, BitVec.toNat_cast, BitVec.extractLsb_toNat]
  rfl

theorem toNat_unpackSign : (unpackSign b).toNat = b.toNat / 2 ^ 63 := by
  have hlt : b.toNat < 2 ^ 64 := b.isLt
  simp only [unpackSign, BitVec.toNat_cast, BitVec.extractLsb_toNat, Nat.shiftRight_eq_div_pow]
  show b.toNat / 2 ^ 63 % 2 ^ 1 = b.toNat / 2 ^ 63
  omega

theorem unpackSign_positive_iff : Sign.ofBitVec (unpackSign b) = .positive ↔ b.toNat < 2 ^ 63 := by
  have hsign := toNat_unpackSign b
  have hlt : b.toNat < 2 ^ 64 := b.isLt
  rw [Sign.ofBitVec]
  split
  · next hs =>
    have hzero : (unpackSign b).toNat = 0 := congrArg BitVec.toNat hs
    exact iff_of_true rfl (by omega)
  · next hs =>
    have hone : (unpackSign b).toNat ≠ 0 := fun h => hs (BitVec.eq_of_toNat_eq h)
    exact iff_of_false (fun h => nomatch h) (by omega)

/-- A mantissa behind its first bit. -/
theorem toNat_implicit (f : BitVec 52) : (1#1 ++ f).toNat = 2 ^ 52 + f.toNat := by
  rw [BitVec.toNat_append, ← Nat.shiftLeft_add_eq_or_of_lt f.isLt, Nat.shiftLeft_eq, BitVec.toNat_ofNat]
  norm_num

theorem ofBitVec_toBitVec (sign : Sign) : Sign.ofBitVec sign.toBitVec = sign := by
  cases sign with
  | negative => rfl
  | positive => rfl

theorem unpack_packComponents (spec : Format) (sign : Sign) {x : BitVec spec.exponentBits}
    (f : BitVec spec.mantissaBitsWithoutImplicit) (hnan : x ≠ -1#_) (hzero : x ≠ 0#_)
    (h : 0 < (1#1 ++ f).toNat) :
    UnpackedFloat.unpack spec (packComponents spec sign x f) =
      .finite sign (1#1 ++ f).toNat (x.toNat - (spec.exponentBias + spec.mantissaBitsWithoutImplicit)) h := by
  unfold UnpackedFloat.unpack
  simp only [unpackExponent_packComponents, unpackMantissa_packComponents, unpackSign_packComponents, ofBitVec_toBitVec,
    hnan, hzero, if_false]

/-- A number with a mantissa of 53 bits comes back from its bits. -/
theorem unpack_pack_normal (sign : Sign) (h : 0 < m) (hm : m.log2 = 52) (he : minExponent ≤ e) (hmax : e ≤ 971) :
    UnpackedFloat.unpack .binary64 (UnpackedFloat.pack .binary64 (.finite sign m e h)) = .finite sign m e h := by
  obtain ⟨hlow, hhigh⟩ := (Nat.log2_eq_iff h.ne').1 hm
  rw [minExponent] at he
  obtain ⟨f, hf⟩ : ∃ f : BitVec 52, m = 2 ^ 52 + f.toNat := by
    refine ⟨BitVec.ofNat 52 m, ?_⟩
    rw [BitVec.toNat_ofNat]
    omega
  obtain ⟨x, hx⟩ : ∃ x : BitVec 11, e + 1023 + 52 = x.toNat := by
    refine ⟨BitVec.ofNat 11 (e + 1075).toNat, ?_⟩
    rw [BitVec.toNat_ofNat]
    omega
  have hnan : x ≠ -1#11 := by
    rintro rfl
    have : (-1#11).toNat = 2047 := rfl
    omega
  have hzero : x ≠ 0#11 := by
    rintro rfl
    have : (0#11).toNat = 0 := rfl
    omega
  have himplicit := toNat_implicit f
  have hbias : Format.binary64.exponentBias = 1023 := rfl
  rw [pack_normal sign f h hf hx (fun h => hnan (BitVec.eq_of_toNat_eq h)),
    unpack_packComponents .binary64 sign f hnan hzero (himplicit ▸ by omega), finite.injEq]
  refine ⟨rfl, himplicit.trans hf.symm, ?_⟩
  rw [hbias]
  show (x.toNat : Int) - (1023 + 52) = e
  omega

/-- Taking the bits of a positive number apart gives its mantissa and its exponent. -/
theorem Magnitude.decode_of_unpack {x : Float} {h : 0 < m} (hx : x.toModel.unpack = .finite .positive m e h) :
    decode x = .finite false m e := by
  obtain ⟨b, hb⟩ : ∃ b : BitVec Format.binary64.numBits, x.toModel.toBits.toBitVec = b := ⟨_, rfl⟩
  have hbits : x.toBits.toNat = b.toNat := congrArg BitVec.toNat hb
  have hsign := unpackSign_positive_iff b
  unfold Float.Model.unpack UnpackedFloat.unpack at hx
  rw [hb] at hx
  dsimp only at hx
  unfold decode
  simp only [Nat.pow_eq, hbits]
  rw [← toNat_unpackExponent, ← toNat_unpackMantissa]
  split at hx
  · -- infinities and what is not a number are not finite
    split at hx <;> cases hx
  · next hnan =>
    have hlt : (unpackExponent b).toNat ≠ 2 ^ 11 - 1 := fun h => hnan (BitVec.eq_of_toNat_eq h)
    rw [if_neg hlt]
    split at hx
    · next hzero =>
      have hzero : (unpackExponent b).toNat = 0 := congrArg BitVec.toNat hzero
      rw [if_pos hzero]
      split at hx
      · cases hx
      · -- a number below all normal ones has no implicit bit
        obtain ⟨hs, rfl, rfl⟩ := (UnpackedFloat.finite.injEq ..).mp hx
        rw [hzero, decide_eq_false (Nat.not_le.2 (hsign.1 hs))]
        rfl
    · next hnormal =>
      have hpos : (unpackExponent b).toNat ≠ 0 := fun h => hnormal (BitVec.eq_of_toNat_eq h)
      have hexponent : ((unpackExponent b).toNat : Int) - (Format.binary64.exponentBias + 52) =
          (unpackExponent b).toNat + (minExponent - 1) := by
        rw [show Format.binary64.exponentBias = 1023 from rfl, minExponent]
        omega
      rw [if_neg hpos]
      obtain ⟨hs, rfl, rfl⟩ := (UnpackedFloat.finite.injEq ..).mp hx
      rw [decide_eq_false (Nat.not_le.2 (hsign.1 hs))]
      exact congrArg₂ (Magnitude.finite false) (toNat_implicit _).symm hexponent.symm

end

/-! ### Whole numbers -/

theorem unpack_ofNat {n k : Nat} (hn : n.log2 + k = 52) (h : 0 < n * 2 ^ k) :
    (Float.ofNat n).toModel.unpack = .finite .positive (n * 2 ^ k) (-k) h := by
  have hpos : 0 < n := Nat.pos_of_mul_pos_right h
  have hlt : n < 2 ^ 53 := (Nat.log2_lt hpos.ne').1 (by omega)
  have hlog : (n * 2 ^ k).log2 = 52 := (log2_mul_two_pow hpos.ne' k).trans hn
  have hmin : minExponent ≤ -k := by
    rw [minExponent]
    omega
  have hunpack := unpack_pack_normal .positive h hlog hmin (by omega)
  have hword : n.toUInt64.toFloat.toModel.unpack = .finite .positive (n * 2 ^ k) (-k) h := by
    have hself : n.toUInt64.toNat = n := Nat.mod_eq_of_lt (by omega)
    show UnpackedFloat.unpack .binary64 (UnpackedFloat.pack .binary64 (.ofNat .binary64 n.toUInt64.toNat)) = _
    rw [hself, ofNat_normal hn h, hunpack]
  have hone : (Float.ofBits 0x3FF0000000000000).toModel.unpack = .finite .positive (2 ^ 52) (-52) (by decide) := rfl
  -- a numeral is its digits times a power of ten, which is one here
  have hproduct : Float.ofNat n = n.toUInt64.toFloat * Float.ofBits 0x3FF0000000000000 := dif_pos ⟨hlt, by decide⟩
  have hround := roundWithAccuracy_normal .positive 52 h hlog hmin
  rw [hproduct]
  show UnpackedFloat.unpack .binary64 (UnpackedFloat.pack .binary64
    (UnpackedFloat.mul .binary64 n.toUInt64.toFloat.toModel.unpack (Float.ofBits 0x3FF0000000000000).toModel.unpack)) = _
  rw [hword, hone, UnpackedFloat.mul]
  exact (congrArg (fun x => UnpackedFloat.unpack .binary64 (UnpackedFloat.pack .binary64 x)) hround).trans hunpack

/-- A whole number of at most 53 bits is a floating-point number. -/
theorem truncateToInt_ofNat {n : Nat} (hn : n < 2 ^ 53) : truncateToInt (Float.ofNat n) = n := by
  rcases Nat.eq_zero_or_pos n with rfl | hpos
  · decide +kernel
  · obtain ⟨k, hk⟩ : ∃ k, n.log2 + k = 52 := by
      have hlog : n.log2 < 53 := (Nat.log2_lt hpos.ne').2 hn
      exact ⟨52 - n.log2, by omega⟩
    rw [truncateToInt, Magnitude.decode_of_unpack (unpack_ofNat hk (Nat.mul_pos hpos (Nat.two_pow_pos k)))]
    cases k with
    | zero => simp [scaleByTwo]
    | succ k =>
      show ((n * 2 ^ (k + 1) / Nat.pow 2 (k + 1) : Nat) : Int) = n
      rw [Nat.pow_eq, Nat.mul_div_cancel _ (Nat.two_pow_pos _)]

/-- A whole number of at most 32 bits is its own word. -/
theorem toUInt32_ofNat {n : Nat} (hn : n < 2 ^ 32) : (toUInt32 (Float.ofNat n)).toNat = n := by
  rw [toUInt32, toInt32, truncateToInt_ofNat (by omega)]
  show (BitVec.ofInt 32 n).toNat = n
  rw [BitVec.ofInt_natCast, BitVec.toNat_ofNat, Nat.mod_eq_of_lt hn]

end Stepwise

import Highlight.Number.Convert
import Mathlib.Algebra.Order.Ring.Int

/-! A positive integer becomes a positive double: rounding never takes it to zero. A positive value
of the format has a sign, a filled mantissa of at most 53 bits and an exponent that is not below the
least one. Rounding arrives at such a value, and packing it into bits keeps it positive. -/

namespace Highlight.Doubles
open Float.Model Float.Model.UnpackedFloat

inductive Positive : UnpackedFloat → Prop
  | infinity : Positive (.infinity .positive)
  | finite {mantissa : Nat} {exponent : Int} (filled : 0 < mantissa) (narrow : mantissa < 2 ^ 53)
      (least : -1074 ≤ exponent) : Positive (.finite .positive mantissa exponent filled)

variable {mantissa : Nat} {exponent : Int}

private theorem mantissa_shiftRight (extended : ExtendedMantissa) (count : Nat) :
    (extended >>> count).mantissa = extended.mantissa / 2 ^ count := by
  induction count with
  | zero => exact (Nat.div_one _).symm
  | succ count ih =>
    have step : (extended >>> (count + 1)).mantissa = (extended >>> count).mantissa / 2 := rfl
    rw [step, ih, Nat.div_div_eq_div_mul, Nat.pow_succ]

private theorem mantissa_ofAccuracy (accuracy : Accuracy) :
    (ExtendedMantissa.ofMantissaAndAccuracy mantissa accuracy).mantissa = mantissa := by
  unfold ExtendedMantissa.ofMantissaAndAccuracy
  split <;> rfl

private theorem mantissa_le_rounded (extended : ExtendedMantissa) : extended.mantissa ≤ extended.roundedMantissa := by
  unfold ExtendedMantissa.roundedMantissa Accuracy.roundToNearestEven
  split <;> omega

private theorem log2_shiftLeft (filled : 0 < mantissa) (count : Nat) :
    (mantissa <<< count).log2 = mantissa.log2 + count := by
  have low := Nat.log2_self_le filled.ne'
  have high : mantissa < 2 ^ (mantissa.log2 + 1) := Nat.lt_log2_self
  have factor := Nat.two_pow_pos count
  rw [Nat.shiftLeft_eq, Nat.log2_eq_iff (Nat.mul_pos filled factor).ne', Nat.add_right_comm, Nat.pow_add, Nat.pow_add]
  exact ⟨Nat.mul_le_mul_right _ low, Nat.mul_lt_mul_of_pos_right high factor⟩

/-- A number that is not below the smallest double keeps its first bit when it is shifted to the
exponent that the format wants, and fits into the format then. -/
theorem shifted (accuracy : Accuracy) (filled : 0 < mantissa) (least : -1074 ≤ exponent + mantissa.log2) :
    0 < (shiftToTargetExponent Format.binary64 mantissa exponent accuracy).1.mantissa ∧
      (shiftToTargetExponent Format.binary64 mantissa exponent accuracy).1.mantissa < 2 ^ 53 ∧
      -1074 ≤ (shiftToTargetExponent Format.binary64 mantissa exponent accuracy).2 := by
  have target : Format.binary64.targetExponent (totalExponent mantissa exponent) =
      max (mantissa.log2 + 1 + exponent - 53) (-1074) := rfl
  simp only [shiftToTargetExponent, shiftToExponent, target, mantissa_shiftRight, mantissa_ofAccuracy]
  generalize count : (max (mantissa.log2 + 1 + exponent - 53) (-1074) - exponent).toNat = shift
  refine ⟨?_, ?_, by omega⟩
  · have fits : 2 ^ shift ≤ mantissa :=
      (Nat.pow_le_pow_right (by decide) (by omega : shift ≤ mantissa.log2)).trans (Nat.log2_self_le filled.ne')
    exact Nat.div_pos fits (Nat.two_pow_pos _)
  · rw [Nat.div_lt_iff_lt_mul (Nat.two_pow_pos _), ← Nat.pow_add]
    exact Nat.lt_log2_self.trans_le (Nat.pow_le_pow_right (by decide) (by omega))

private theorem positive_round (accuracy : Accuracy) (filled : 0 < mantissa) (least : -1074 ≤ exponent + mantissa.log2) :
    Positive (roundWithAccuracy Format.binary64 .positive mantissa exponent accuracy) := by
  obtain ⟨some, -, above⟩ := shifted accuracy filled least
  have rounded := some.trans_le (mantissa_le_rounded _)
  -- Rounding may have carried into one more bit, so the result is shifted once more.
  obtain ⟨kept, narrow, low⟩ := shifted .exact rounded (le_add_of_le_of_nonneg above (Int.natCast_nonneg _))
  unfold roundWithAccuracy
  dsimp only
  rw [dif_neg kept.ne']
  exact .finite kept narrow low

private theorem positive_natural {n : Nat} (some : 0 < n) : Positive (UnpackedFloat.ofNat Format.binary64 n) := by
  have sign : compare (n : Int) 0 = .gt := Int.compare_eq_gt.2 (by omega)
  unfold UnpackedFloat.ofNat UnpackedFloat.ofInt UnpackedFloat.normalize
  rw [sign]
  unfold UnpackedFloat.round decreaseExponent
  dsimp only
  refine positive_round .exact ?_ ?_
  · rw [Nat.shiftLeft_eq]
    exact Nat.mul_pos (by omega) (Nat.two_pow_pos _)
  · rw [log2_shiftLeft (by omega)]
    omega

private theorem mul_finite {second : Nat} {scale : Int} (filled : 0 < mantissa) (secondFilled : 0 < second) :
    UnpackedFloat.mul Format.binary64 (.finite .positive mantissa exponent filled) (.finite .positive second scale secondFilled) =
      roundWithAccuracy Format.binary64 .positive (mantissa * second) (exponent + scale) .exact := rfl

private theorem positive_decimal {n : Nat} (some : 0 < n) : Positive (UnpackedFloat.ofScientific Format.binary64 n 0) := by
  have width : Format.binary64.mantissaBits = 53 := rfl
  have room : Format.binary64.exponentBits = 11 := rfl
  have one : 10 ^ (0 : Int).toNat = 1 := rfl
  have above : ¬ (0 : Int) < -((2 : Int) ^ Format.binary64.exponentBits + n.log2) := by
    rw [room]
    omega
  unfold UnpackedFloat.ofScientific
  rw [dif_neg some.ne', if_neg (by decide), if_neg above, if_pos (by decide), mul_finite]
  refine positive_round .exact ?_ ?_
  · rw [one, Nat.mul_one, Nat.shiftLeft_eq]
    exact Nat.mul_pos some (Nat.two_pow_pos _)
  · rw [one, Nat.mul_one, log2_shiftLeft some, width]
    omega

private theorem positive_mul_one {unpacked : UnpackedFloat} (positive : Positive unpacked) :
    Positive (UnpackedFloat.mul Format.binary64 unpacked (Float.ofBits 0x3FF0000000000000).toModel.unpack) := by
  have one : (Float.ofBits 0x3FF0000000000000).toModel.unpack = .finite .positive (2 ^ 52) (-52) (by decide) := by rfl
  rw [one]
  cases positive with
  | infinity => exact .infinity
  | finite filled narrow least =>
    rw [mul_finite]
    refine positive_round .exact (Nat.mul_pos filled (by decide)) ?_
    rw [← Nat.shiftLeft_eq, log2_shiftLeft filled]
    omega

private theorem unpackSign_packComponents (sign : Sign) (field : BitVec 11) (fraction : BitVec 52) :
    unpackSign (packComponents Format.binary64 sign field fraction) = sign.toBitVec := by
  change (sign.toBitVec ++ field ++ fraction).extractLsb' 63 1 = sign.toBitVec
  rw [BitVec.extractLsb'_append_eq_of_le (by decide), BitVec.extractLsb'_append_eq_of_le (by decide)]
  cases sign <;> rfl

/-- Bits without a sign stand for a positive value unless they are all zero or stand for no number. -/
theorem positive_unpack {field : BitVec 11} {fraction : BitVec 52} (number : field ≠ -1#11 ∨ fraction = 0#52)
    (filled : field ≠ 0#11 ∨ fraction ≠ 0#52) :
    Positive (UnpackedFloat.unpack Format.binary64 (packComponents Format.binary64 .positive field fraction)) := by
  have sign : Sign.ofBitVec Sign.positive.toBitVec = .positive := rfl
  have bias : (Format.binary64.exponentBias : Int) = 1023 := rfl
  have bits : (Format.binary64.mantissaBitsWithoutImplicit : Int) = 52 := rfl
  have signed := unpackSign_packComponents .positive field fraction
  have scale : unpackExponent (packComponents Format.binary64 .positive field fraction) = field := unpackExponent_packComponents
  have significand : unpackMantissa (packComponents Format.binary64 .positive field fraction) = fraction :=
    unpackMantissa_packComponents
  generalize packComponents Format.binary64 .positive field fraction = word at *
  subst scale significand
  unfold UnpackedFloat.unpack
  rw [signed]
  dsimp only
  rw [sign, bias, bits]
  by_cases top : unpackExponent word = -1#11
  · rw [if_pos top, if_pos (number.resolve_left (not_not_intro top))]
    exact .infinity
  rw [if_neg top]
  by_cases zero : unpackExponent word = 0#11
  · rw [if_pos zero, dif_neg (filled.resolve_left (not_not_intro zero))]
    have narrow : (unpackMantissa word).toNat < 2 ^ 52 := (unpackMantissa word).isLt
    have low : (unpackExponent word).toNat = 0 := congrArg BitVec.toNat zero
    exact .finite _ (narrow.trans (by decide)) (by omega)
  · rw [if_neg zero]
    have some : (unpackExponent word).toNat ≠ 0 := fun none => zero (BitVec.eq_of_toNat_eq none)
    exact .finite _ (1#1 ++ unpackMantissa word).isLt (by omega)

private theorem positive_pack {unpacked : UnpackedFloat} (positive : Positive unpacked) :
    Positive (UnpackedFloat.unpack Format.binary64 (UnpackedFloat.pack Format.binary64 unpacked)) := by
  have overflow : Positive (UnpackedFloat.unpack Format.binary64 (packedInfinity Format.binary64 .positive)) :=
    positive_unpack (.inr rfl) (.inl (by decide))
  cases positive with
  | infinity => exact overflow
  | @finite mantissa exponent filled narrow least =>
    have bias : (Format.binary64.exponentBias : Int) = 1023 := rfl
    have bits : (Format.binary64.mantissaBitsWithoutImplicit : Int) = 52 := rfl
    have width : Format.binary64.mantissaBits = 53 := rfl
    unfold UnpackedFloat.pack
    dsimp only
    rw [bias, bits, width]
    split
    next => exact overflow
    next bounded =>
      have field : (BitVec.ofNat 11 (exponent + 1023 + 52).toNat).toNat = (exponent + 1023 + 52).toNat :=
        Nat.mod_eq_of_lt (by omega)
      split
      next =>
        refine positive_unpack (.inl fun top => ?_) (.inl fun zero => ?_)
        · have last : (exponent + 1023 + 52).toNat = 2047 := field.symm.trans (congrArg BitVec.toNat top)
          omega
        · have first : (exponent + 1023 + 52).toNat = 0 := field.symm.trans (congrArg BitVec.toNat zero)
          omega
      next subnormal =>
        have short : mantissa < 2 ^ 52 := by
          have := (Nat.log2_lt filled.ne').2 narrow
          exact (Nat.log2_lt filled.ne').1 (by omega)
        refine positive_unpack (.inl (by decide)) (.inr fun zero => filled.ne' ?_)
        exact (Nat.mod_eq_of_lt short).symm.trans (congrArg BitVec.toNat zero)

private theorem unpack_zero : (0.0 : Float).toModel.unpack = .zero .positive := by rfl

private theorem zero_lt_of_positive {x : Float} (positive : Positive x.toModel.unpack) : 0.0 < x := by
  have before : (0.0 : Float).toModel.unpack.lt x.toModel.unpack = true := by
    rw [unpack_zero]
    generalize x.toModel.unpack = unpacked at positive
    cases positive <;> rfl
  exact decide_eq_true before

private theorem zero_lt_ofNat {n : Nat} (some : 0 < n) : 0.0 < Float.ofNat n := by
  apply zero_lt_of_positive
  change Positive (Float.ofScientific n false 0).toModel.unpack
  unfold Float.ofScientific
  split
  next small =>
    have kept : n.toUInt64.toNat = n := Nat.mod_eq_of_lt (by omega)
    have converted := positive_pack (positive_natural some)
    rw [← kept] at converted
    exact positive_pack (positive_mul_one converted)
  next => exact positive_pack (positive_decimal some)

end Highlight.Doubles

namespace Highlight

theorem zero_lt_doubleOf {n : Int} {x : Float} (positive : 0 < n) (found : doubleOf? n = some x) : 0.0 < x := by
  obtain ⟨size, rfl⟩ := Int.eq_ofNat_of_zero_le positive.le
  unfold doubleOf? at found
  dsimp only at found
  split at found
  next => cases found
  next =>
    obtain rfl := Option.some.inj found
    exact Doubles.zero_lt_ofNat (Int.natCast_pos.mp positive)

theorem not_isNaN_of_zero_le {x : Float} (least : 0.0 ≤ x) : x.isNaN = false := by
  have before : (0.0 : Float).toModel.unpack.le x.toModel.unpack = true := of_decide_eq_true least
  change x.toModel.unpack.isNaN = false
  rw [Doubles.unpack_zero] at before
  generalize x.toModel.unpack = unpacked at before
  cases unpacked with
  | notANumber => cases before
  | infinity | zero | finite => rfl

end Highlight

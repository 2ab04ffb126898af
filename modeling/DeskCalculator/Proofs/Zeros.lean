import DeskCalculator.Proofs.Packing

/-! Sums and differences that are negative zero. Both are rounded from a whole number of units, and what
is not zero before it is rounded is not zero afterwards, since no unit is smaller than the least positive
double. So a zero comes out only where the exact sum is zero, and then it is positive, unless both
operands are negative zeros. -/
namespace DeskCalculator
namespace Binary64

open Float.Model (Format UnpackedFloat)
open Float.Model.UnpackedFloat

/-- A finite value has no more bits in its mantissa than a double has, and no unit below the least
positive double. -/
def Fits : UnpackedFloat → Prop
  | .finite _ m e _ => m < 2 ^ 53 ∧ -1074 ≤ e
  | _ => True

theorem fits_unpack (b : BitVec Format.binary64.numBits) : Fits (unpack Format.binary64 b) := by
  obtain ⟨s, e, m, rfl⟩ := exists_packComponents b
  have hm : m.toNat < 2 ^ 52 := m.isLt
  rw [unpack_packComponents]
  split
  · split <;> trivial
  · split
    · split
      · trivial
      · exact ⟨by omega, by decide⟩
    · rename_i hfirst
      have hpos : e.toNat ≠ 0 := fun h => hfirst (BitVec.eq_of_toNat_eq h)
      refine ⟨?_, by omega⟩
      rw [toNat_implicit, binade_eq]
      omega

theorem pack_finite (s : UnpackedFloat.Sign) {k : Nat} {x : Int} (h : 0 < k) :
    pack Format.binary64 (.finite s k x h) =
    if 2048 ≤ (x + 1075).toNat + 1 then packedInfinity Format.binary64 s
    else if k.log2 + 1 = 53 then
      packComponents Format.binary64 s (.ofNat 11 (x + 1075).toNat) (.ofNat 52 k)
    else packComponents Format.binary64 s 0#11 (.ofNat 52 k) := by
  have hbias : x + (1023 : Nat) + (52 : Nat) = x + 1075 := by omega
  have hpack : pack Format.binary64 (.finite s k x h) =
      if 2048 ≤ (x + (1023 : Nat) + (52 : Nat)).toNat + 1 then packedInfinity Format.binary64 s
      else if k.log2 + 1 = 53 then packComponents Format.binary64 s
        (.ofNat 11 (x + (1023 : Nat) + (52 : Nat)).toNat) (.ofNat 52 k)
      else packComponents Format.binary64 s 0#11 (.ofNat 52 k) := rfl
  rw [hpack, hbias]

/-- A value that fits is packed to the bits of a zero only if it is that zero. -/
theorem eq_zero_of_pack {u : UnpackedFloat} {s : UnpackedFloat.Sign} (hu : Fits u)
    (h : pack Format.binary64 u = packedZero Format.binary64 s) : u = .zero s := by
  have hexponent := congrArg unpackExponent h
  have hmantissa := congrArg unpackMantissa h
  simp only [packedZero, unpackExponent_packComponents, unpackMantissa_packComponents]
    at hexponent hmantissa
  cases u with
  | infinity t => exact absurd ((unpackExponent_packComponents ..).symm.trans hexponent) (by decide)
  | notANumber => exact absurd ((unpackExponent_packComponents ..).symm.trans hexponent) (by decide)
  | zero t =>
    have hback : unpack Format.binary64 (packedZero Format.binary64 t) = _ :=
      congrArg (unpack Format.binary64) h
    rwa [unpack_packedZero, unpack_packedZero] at hback
  | finite t k x hk =>
    obtain ⟨hbits, hx⟩ := hu
    rw [pack_finite] at hexponent hmantissa
    split at hexponent
    · exact absurd hexponent (by simp [packedInfinity])
    · rename_i hrange
      rw [if_neg hrange] at hmantissa
      split at hexponent
      · -- The exponent of a full mantissa is never zero.
        rw [unpackExponent_packComponents] at hexponent
        have hzero : (x + 1075).toNat % 2 ^ 11 = 0 := congrArg BitVec.toNat hexponent
        omega
      · rename_i hfull
        rw [if_neg hfull, unpackMantissa_packComponents] at hmantissa
        have hzero : k % 2 ^ 52 = 0 := congrArg BitVec.toNat hmantissa
        have hlog : k.log2 = 52 := (Nat.log2_eq_iff (by omega)).2 ⟨by omega, by omega⟩
        omega

/-! A mantissa is shifted until it has no more bits than a double. -/

theorem mantissa_shiftRight (a : ExtendedMantissa) (n : Nat) :
    (a >>> n).mantissa = a.mantissa / 2 ^ n := by
  induction n with
  | zero => exact (Nat.div_one _).symm
  | succ n ih =>
    have hstep : (a >>> (n + 1)).mantissa = (a >>> n).mantissa / 2 := rfl
    rw [hstep, ih, Nat.div_div_eq_div_mul, Nat.pow_succ]

theorem mantissa_ofMantissaAndAccuracy (m : Nat) (a : Accuracy) :
    (ExtendedMantissa.ofMantissaAndAccuracy m a).mantissa = m := by
  cases a with
  | exact => rfl
  | inexact o => cases o <;> rfl

theorem mantissa_le_roundedMantissa (a : ExtendedMantissa) : a.mantissa ≤ a.roundedMantissa := by
  obtain ⟨m, r, s⟩ := a
  cases r <;> cases s <;> simp [ExtendedMantissa.roundedMantissa, ExtendedMantissa.accuracy,
    Accuracy.roundToNearestEven]

variable {m : Nat} {e : Int}

theorem targetExponent_eq (m : Nat) (e : Int) :
    Format.binary64.targetExponent (Float.Model.totalExponent m e) =
      max ((m.log2 : Int) + 1 + e - 53) (-1074) := rfl

/-- A mantissa is shifted as far as it has too many bits or its unit is too small. -/
theorem exists_shift (m : Nat) (e : Int) (a : Accuracy) : ∃ k : Nat,
    (k : Int) = max 0 (max ((m.log2 : Int) - 52) (-1074 - e)) ∧
    (shiftToTargetExponent Format.binary64 m e a).1.mantissa = m / 2 ^ k ∧
    (shiftToTargetExponent Format.binary64 m e a).2 = e + k := by
  let k := (Format.binary64.targetExponent (Float.Model.totalExponent m e) - e).toNat
  have hshift := mantissa_shiftRight (ExtendedMantissa.ofMantissaAndAccuracy m a) k
  rw [mantissa_ofMantissaAndAccuracy] at hshift
  refine ⟨k, ?_, hshift, rfl⟩
  simp only [k, targetExponent_eq]
  omega

theorem fits_shift (m : Nat) (e : Int) (a : Accuracy) :
    (shiftToTargetExponent Format.binary64 m e a).1.mantissa < 2 ^ 53 ∧
      -1074 ≤ (shiftToTargetExponent Format.binary64 m e a).2 := by
  obtain ⟨k, hk, hmantissa, hexponent⟩ := exists_shift m e a
  rw [hmantissa, hexponent]
  refine ⟨?_, by omega⟩
  rw [Nat.div_lt_iff_lt_mul (Nat.two_pow_pos k), ← Nat.pow_add]
  exact Nat.lt_of_lt_of_le Nat.lt_log2_self (Nat.pow_le_pow_right (by decide) (by omega))

theorem mantissa_shift_pos (hm : 0 < m) (he : -1074 ≤ e) (a : Accuracy) :
    0 < (shiftToTargetExponent Format.binary64 m e a).1.mantissa := by
  obtain ⟨k, hk, hmantissa, -⟩ := exists_shift m e a
  have hle : 2 ^ k ≤ m :=
    Nat.le_trans (Nat.pow_le_pow_right (by decide) (by omega)) (Nat.log2_self_le (Nat.ne_of_gt hm))
  rw [hmantissa]
  exact Nat.div_pos hle (Nat.two_pow_pos k)

/-! Rounding shifts twice, since what is rounded up can have one bit too many. -/

theorem fits_roundWithAccuracy (s : UnpackedFloat.Sign) (m : Nat) (e : Int) (a : Accuracy) :
    Fits (roundWithAccuracy Format.binary64 s m e a) := by
  simp only [roundWithAccuracy]
  split
  · trivial
  · exact fits_shift _ _ _

theorem roundWithAccuracy_ne_zero (hm : 0 < m) (he : -1074 ≤ e) (s t : UnpackedFloat.Sign)
    (a : Accuracy) : roundWithAccuracy Format.binary64 s m e a ≠ .zero t := by
  have hrounded := Nat.lt_of_lt_of_le (mantissa_shift_pos hm he a) (mantissa_le_roundedMantissa _)
  have hpos := mantissa_shift_pos hrounded (fits_shift m e a).2 .exact
  simp only [roundWithAccuracy]
  rw [dif_neg (Nat.ne_of_gt hpos)]
  exact UnpackedFloat.noConfusion

theorem round_ne_zero (hm : 0 < m) (he : -1074 ≤ e) (s t : UnpackedFloat.Sign) :
    UnpackedFloat.round Format.binary64 s m e ≠ .zero t := by
  simp only [UnpackedFloat.round, decreaseExponent]
  refine roundWithAccuracy_ne_zero ?_ ?_ s t _
  · rw [Nat.shiftLeft_eq]
    exact Nat.mul_pos hm (Nat.two_pow_pos _)
  · rw [targetExponent_eq]
    omega

/-- What is exactly no zero is not rounded to one. -/
theorem normalize_eq_zero {n : Int} {s t : UnpackedFloat.Sign} (he : -1074 ≤ e)
    (h : UnpackedFloat.normalize Format.binary64 n e s = .zero t) : t = s := by
  unfold UnpackedFloat.normalize at h
  split at h
  · rename_i hlt
    have hneg : n < 0 := Std.compare_eq_lt.1 hlt
    exact absurd h (round_ne_zero (by omega) he _ _)
  · cases h
    rfl
  · rename_i hgt
    have hpos : 0 < n := Std.compare_eq_gt.1 hgt
    exact absurd h (round_ne_zero (by omega) he _ _)

theorem fits_normalize (n : Int) (e : Int) (s : UnpackedFloat.Sign) :
    Fits (UnpackedFloat.normalize Format.binary64 n e s) := by
  unfold UnpackedFloat.normalize
  split
  · exact fits_roundWithAccuracy _ _ _ _
  · trivial
  · exact fits_roundWithAccuracy _ _ _ _

variable {u w : UnpackedFloat}

theorem fits_add (hu : Fits u) (hw : Fits w) : Fits (UnpackedFloat.add Format.binary64 u w) := by
  unfold UnpackedFloat.add
  split
  case h_3 | h_6 => split <;> trivial
  case h_7 => exact hw
  case h_8 => exact hu
  case h_9 => exact fits_normalize _ _ _
  all_goals trivial

theorem sub_eq_add_neg (u w : UnpackedFloat) : UnpackedFloat.sub Format.binary64 u w =
    UnpackedFloat.add Format.binary64 u w.neg := by
  cases u with
  | notANumber => rfl
  | infinity s => cases w <;> rfl
  | zero s => cases w <;> rfl
  | finite s m e hm =>
    cases w with
    | finite t k x hk =>
      have hsign (a n : Int) : a - t.apply n = a + (-t).apply n := by
        cases t with
        | negative => exact Int.sub_neg ..
        | positive => exact Int.sub_eq_add_neg
      exact congrArg (UnpackedFloat.normalize Format.binary64 · _ _) (hsign _ _)
    | _ => rfl

theorem fits_neg (hu : Fits u) : Fits u.neg := by
  cases u with
  | finite => exact hu
  | _ => trivial

theorem min_exponent_ge {s t : UnpackedFloat.Sign} {m k : Nat} {e x : Int} {hm : 0 < m} {hk : 0 < k}
    (hu : Fits (.finite s m e hm)) (hw : Fits (.finite t k x hk)) : -1074 ≤ min e x :=
  Int.le_min.2 ⟨hu.2, hw.2⟩

theorem add_eq_negative_zero (hu : Fits u) (hw : Fits w)
    (h : UnpackedFloat.add Format.binary64 u w = .zero .negative) :
    u = .zero .negative ∧ w = .zero .negative := by
  cases u with
  | notANumber => cases h
  | infinity s =>
    cases w with
    | infinity t => cases s <;> cases t <;> cases h
    | _ => cases h
  | zero s =>
    cases w with
    | zero t =>
      cases s <;> cases t
      · exact ⟨rfl, rfl⟩
      all_goals cases h
    | _ => cases h
  | finite s m e hm =>
    cases w with
    | finite t k x hk =>
      -- Opposite values cancel to positive zero.
      exact absurd (normalize_eq_zero (min_exponent_ge hu hw) h) nofun
    | _ => cases h

theorem sub_eq_negative_zero (hu : Fits u) (hw : Fits w)
    (h : UnpackedFloat.sub Format.binary64 u w = .zero .negative) :
    u = .zero .negative ∧ w = .zero .positive := by
  rw [sub_eq_add_neg] at h
  obtain ⟨hleft, hright⟩ := add_eq_negative_zero hu (fits_neg hw) h
  refine ⟨hleft, ?_⟩
  cases w with
  | zero t => cases t <;> first | rfl | cases hright
  | _ => cases hright

/-! What holds of sums and differences of unpacked values holds of doubles. -/

theorem eq_of_unpack {v w : Float} (h : v.toModel.unpack = w.toModel.unpack) : v = w :=
  Float.toBits_inj.1 (UInt64.toBitVec_inj.1
    ((unpack_inj_of_valid v.toModel.valid w.toModel.valid).1 h))

theorem unpack_of_pack {u : UnpackedFloat} (hu : Fits u)
    (h : Float.ofModel (Float.Model.pack u) = -0.0) : u = .zero .negative := by
  have hbits : pack Format.binary64 u = packedZero Format.binary64 .negative :=
    congrArg (fun v => v.toModel.toBits.toBitVec) h
  exact eq_zero_of_pack hu hbits

theorem add_eq_neg_zero {x y : Float} (h : x + y = -0.0) : x = -0.0 ∧ y = -0.0 := by
  have hx := fits_unpack x.toModel.toBits.toBitVec
  have hy := fits_unpack y.toModel.toBits.toBitVec
  obtain ⟨hu, hw⟩ := add_eq_negative_zero hx hy (unpack_of_pack (fits_add hx hy) h)
  exact ⟨eq_of_unpack hu, eq_of_unpack hw⟩

theorem sub_eq_neg_zero {x y : Float} (h : x - y = -0.0) : x = -0.0 ∧ y = 0.0 := by
  have hx := fits_unpack x.toModel.toBits.toBitVec
  have hy := fits_unpack y.toModel.toBits.toBitVec
  have hfits := fits_add hx (fits_neg hy)
  rw [← sub_eq_add_neg] at hfits
  obtain ⟨hu, hw⟩ := sub_eq_negative_zero hx hy (unpack_of_pack hfits h)
  exact ⟨eq_of_unpack hu, eq_of_unpack hw⟩

end Binary64
end DeskCalculator

import DeskCalculator.Proofs.Decimals
import Mathlib

/-! The bits of a double. They are those of its sign, its exponent and its mantissa, and without the sign
they are its place in the grid. So a place and a sign give a value that has them, every value comes from
its own, and subtracting from zero changes the sign alone. -/
namespace DeskCalculator
namespace Binary64

open Float.Model (Format UnpackedFloat)
open Float.Model.UnpackedFloat

theorem signBit_eq : signBit = 2 ^ 63 := rfl

section Fields

variable (s : UnpackedFloat.Sign) (e : BitVec 11) (m : BitVec 52)

theorem toNat_packComponents : (packComponents Format.binary64 s e m).toNat =
    s.toBitVec.toNat * signBit + (e.toNat * binade + m.toNat) := by
  simp only [packComponents, BitVec.toNat_append]
  rw [← Nat.shiftLeft_add_eq_or_of_lt m.isLt, ← Nat.shiftLeft_add_eq_or_of_lt e.isLt]
  simp only [Nat.shiftLeft_eq, signBit_eq, binade_eq]
  omega

theorem exists_packComponents (b : BitVec Format.binary64.numBits) :
    ∃ s e m, b = packComponents Format.binary64 s e m :=
  ⟨_, _, _, (packComponents_unpackSign_unpackExponent_unpackMantissa b).symm⟩

theorem toNat_implicit : (1#1 ++ m).toNat = binade + m.toNat := by
  rw [BitVec.toNat_append, ← Nat.shiftLeft_add_eq_or_of_lt m.isLt]
  simp [Nat.shiftLeft_eq, binade_eq]

theorem implicit_pos : 0 < (1#1 ++ m).toNat := by
  rw [toNat_implicit]
  exact Nat.add_pos_left binade_pos _

/-- What the parts of a pattern stand for. All ones are the exponent of what is not finite, and with
no exponent the bit before the mantissa is missing. -/
theorem unpack_packComponents : unpack Format.binary64 (packComponents Format.binary64 s e m) =
    if e = -1#11 then if m = 0#52 then .infinity s else .notANumber
    else if e = 0#11 then
      if h : m = 0#52 then .zero s
      else .finite s m.toNat (-1074) (by simpa [BitVec.toNat_pos, BitVec.pos_iff_ne_zero])
    else .finite s (1#1 ++ m).toNat (e.toNat - 1075) (implicit_pos m) := by
  unfold unpack
  simp only [unpackExponent_packComponents, unpackMantissa_packComponents,
    unpackSign_packComponents, Sign.ofBitVec_toBitVec]
  split
  · rfl
  · split
    · rename_i he
      split
      · rfl
      · rw [he]
        rfl
    · rfl

theorem unpack_neg : unpack Format.binary64 (packComponents Format.binary64 (-s) e m) =
    (unpack Format.binary64 (packComponents Format.binary64 s e m)).neg := by
  rw [unpack_packComponents, unpack_packComponents]
  split
  · split <;> rfl
  · split
    · split <;> rfl
    · rfl

/-- Up to infinity there is no second pattern for what is no number. -/
theorem valid_packComponents (h : e.toNat * binade + m.toNat ≤ infinity) :
    Format.binary64.Valid (packComponents Format.binary64 s e m) := by
  refine ⟨fun hones hmantissa => ?_⟩
  rw [unpackExponent_packComponents] at hones
  rw [unpackMantissa_packComponents] at hmantissa
  have hfull : e.toNat = 2047 := congrArg BitVec.toNat hones
  have hzero : m.toNat = 0 := by
    rw [hfull, infinity_eq, binade_eq] at h
    omega
  exact absurd (BitVec.eq_of_toNat_eq hzero) hmantissa

theorem isFinite_unpack_iff :
    (unpack Format.binary64 (packComponents Format.binary64 s e m)).isFinite = true ↔
      e.toNat * binade + m.toNat < infinity := by
  have hm : m.toNat < 2 ^ 52 := m.isLt
  have he : e.toNat < 2048 := e.isLt
  have hlt : e.toNat * binade + m.toNat < infinity ↔ e.toNat < 2047 := by
    rw [infinity_eq, binade_eq]
    omega
  rw [hlt, unpack_packComponents]
  by_cases hones : e = -1#11
  · have hfull : e.toNat = 2047 := congrArg BitVec.toNat hones
    rw [if_pos hones]
    split <;> simp [isFinite, hfull]
  · have hbound : e.toNat ≠ 2047 := fun heq => hones (BitVec.eq_of_toNat_eq heq)
    have hrange : e.toNat < 2047 := by omega
    rw [if_neg hones]
    split
    · split <;> simp [isFinite, hrange]
    · simp [isFinite, hrange]

end Fields

def signOf (negative : Bool) : UnpackedFloat.Sign := if negative then .negative else .positive

theorem isNegative_iff {v : Float} : isNegative v = true ↔ signBit ≤ v.toBits.toNat :=
  decide_eq_true_iff

theorem ofPlace_place (v : Float) : ofPlace (isNegative v) (place v) = v := by
  have hb : v.toBits.toNat < 2 ^ 64 := v.toBits.toBitVec.isLt
  have hbits : (if isNegative v then place v + signBit else place v) = v.toBits.toNat := by
    by_cases h : isNegative v
    · rw [if_pos h, place]
      rw [isNegative_iff, signBit_eq] at h
      rw [signBit_eq]
      omega
    · rw [if_neg h, place]
      rw [isNegative_iff, signBit_eq] at h
      rw [signBit_eq]
      omega
  rw [ofPlace, hbits, UInt64.ofNat_toNat, Float.ofBits_toBits]

def ofParts (s : UnpackedFloat.Sign) (e : BitVec 11) (m : BitVec 52) : Float :=
  Float.ofBits (.ofBitVec (packComponents Format.binary64 s e m))

section Parts

variable {e : BitVec 11} {m : BitVec 52} (s : UnpackedFloat.Sign)
  (h : e.toNat * binade + m.toNat ≤ infinity)

include h

theorem toBits_ofParts :
    (ofParts s e m).toBits.toNat = s.toBitVec.toNat * signBit + (e.toNat * binade + m.toNat) :=
  (congrArg BitVec.toNat (pack_unpack_of_valid (valid_packComponents s e m h))).trans
    (toNat_packComponents s e m)

theorem unpack_ofParts : (ofParts s e m).toModel.unpack =
    unpack Format.binary64 (packComponents Format.binary64 s e m) :=
  congrArg (unpack Format.binary64) (pack_unpack_of_valid (valid_packComponents s e m h))

end Parts

variable {n : Nat}

theorem exists_ofParts (h : n < signBit) : ∃ e m, n = e.toNat * binade + m.toNat ∧
    ∀ negative, ofPlace negative n = ofParts (signOf negative) e m := by
  have hn : n = (BitVec.ofNat 11 (n / binade)).toNat * binade + (BitVec.ofNat 52 n).toNat := by
    simp only [BitVec.toNat_ofNat, binade_eq]
    rw [signBit_eq] at h
    omega
  refine ⟨.ofNat 11 (n / binade), .ofNat 52 n, hn, fun negative => congrArg Float.ofBits ?_⟩
  apply UInt64.toNat_inj.1
  rw [UInt64.toNat_ofNat', UInt64.toNat_ofBitVec, toNat_packComponents, ← hn]
  rw [signBit_eq] at h ⊢
  cases negative
  · simp only [signOf, Sign.toBitVec, BitVec.toNat_ofNat, Bool.false_eq_true, if_false]
    omega
  · simp only [signOf, Sign.toBitVec, BitVec.toNat_ofNat, if_true]
    omega

theorem lt_signBit_of_le (h : n ≤ infinity) : n < signBit := by
  rw [infinity_eq, binade_eq] at h
  rw [signBit_eq]
  omega

theorem toBits_ofPlace (h : n ≤ infinity) (negative : Bool) :
    (ofPlace negative n).toBits.toNat = if negative then n + signBit else n := by
  obtain ⟨e, m, hn, hparts⟩ := exists_ofParts (lt_signBit_of_le h)
  rw [hparts, toBits_ofParts _ (hn ▸ h), ← hn]
  cases negative
  · simp [signOf, Sign.toBitVec]
  · simp [signOf, Sign.toBitVec, Nat.add_comm]

theorem isNegative_ofPlace (h : n ≤ infinity) (negative : Bool) :
    isNegative (ofPlace negative n) = negative := by
  have hlt := lt_signBit_of_le h
  rw [isNegative, toBits_ofPlace h]
  cases negative
  · simpa using hlt
  · simp

theorem isFinite_iff (v : Float) : v.isFinite = true ↔ place v < infinity := by
  obtain ⟨s, e, m, hbits⟩ := exists_packComponents v.toBits.toBitVec
  have hm : m.toNat < 2 ^ 52 := m.isLt
  have he : e.toNat < 2 ^ 11 := e.isLt
  have hnat : v.toBits.toNat = s.toBitVec.toNat * signBit + (e.toNat * binade + m.toNat) :=
    (congrArg BitVec.toNat hbits).trans (toNat_packComponents s e m)
  have hlt : e.toNat * binade + m.toNat < signBit := by
    rw [signBit_eq, binade_eq]
    omega
  rw [place, hnat, Nat.mul_add_mod_self_right, Nat.mod_eq_of_lt hlt, ← isFinite_unpack_iff s,
    ← hbits]
  rfl

theorem sub_zero_left {u : UnpackedFloat} (s : UnpackedFloat.Sign) (hu : ∀ s, u ≠ .zero s) :
    UnpackedFloat.sub Format.binary64 (.zero s) u = u.neg := by
  cases u with
  | zero t => exact absurd rfl (hu t)
  | infinity | notANumber | finite => rfl

theorem zero_sub_ofPlace (hpos : 0 < n) (h : n ≤ infinity) :
    0.0 - ofPlace false n = ofPlace true n := by
  obtain ⟨e, m, hn, hparts⟩ := exists_ofParts (lt_signBit_of_le h)
  rw [hn] at h hpos
  have hnonzero : ∀ s, unpack Format.binary64 (packComponents Format.binary64 .positive e m) ≠
      .zero s := by
    intro s hs
    have hbits := (unpack_eq_zero_iff_of_valid (valid_packComponents .positive e m h)).1 hs
    have hnat : 0 * signBit + (e.toNat * binade + m.toNat) = s.toBitVec.toNat * signBit + 0 :=
      (toNat_packComponents .positive e m).symm.trans
        ((congrArg BitVec.toNat hbits).trans (toNat_packComponents s 0 0))
    have hlt := lt_signBit_of_le h
    cases s <;> simp only [Sign.toBitVec, BitVec.toNat_ofNat] at hnat <;> omega
  have hzero : (0.0 : Float).toModel.unpack = .zero .positive := by rfl
  have hsub : (0.0 - ofParts .positive e m : Float) = Float.ofModel (Float.Model.pack
      (UnpackedFloat.sub Format.binary64 (0.0 : Float).toModel.unpack
        (ofParts .positive e m).toModel.unpack)) := rfl
  rw [hparts, hparts]
  simp only [signOf]
  rw [if_neg (by decide), hsub, hzero, unpack_ofParts _ h, sub_zero_left _ hnonzero, ← unpack_neg]
  rfl

end Binary64
end DeskCalculator

import DeskCalculator.Proofs.Literals
import Mathlib.Algebra.Group.Nat.Defs

/-! Decimals that are written out are read back. The digits that are written have the value of the
decimal, they are read without an exponent, and rounding sees nothing but the value. So the text of a
place of the grid, which is the exact decimal if no shorter one reads back, always reads back. -/
namespace DeskCalculator

/-! Rounding to the grid of doubles. A place is nearest to itself, and what lies far outside the grid is
nearest to its ends. -/

namespace Binary64

theorem binade_eq : binade = 2 ^ 52 := rfl

theorem infinity_eq : infinity = 2047 * binade := rfl

theorem binade_pos : 0 < binade := by decide

theorem scale_pos : 0 < scale := by decide +kernel

variable {n d n' d' p : Nat}

theorem nearest_congr (hd : 0 < d) (hd' : 0 < d') (h : n * d' = n' * d) :
    nearest n d = nearest n' d' := by
  rw [← nearest_mul_right n d d' hd', h, Nat.mul_comm d d', nearest_mul_right n' d' d hd]

theorem roundEven_mul_self (hd : 0 < d) : roundEven (n * d) d = n := by
  simp [roundEven, Nat.mul_div_cancel n hd, hd]

theorem roundEven_eq_zero (h : 2 * n < d) : roundEven n d = 0 := by
  have hlt : n < d := by omega
  simp [roundEven, Nat.div_eq_of_lt hlt, Nat.mod_eq_of_lt hlt, h]

theorem nearest_le_infinity (n d : Nat) : nearest n d ≤ infinity :=
  Nat.min_le_right _ _

theorem log2_mantissa {m : Nat} (h : binade ≤ m) (h' : m < binade + binade) (s : Nat) :
    (m * 2 ^ s).log2 = 52 + s := by
  have hpow := Nat.two_pow_pos s
  have hpos : m * 2 ^ s ≠ 0 := Nat.mul_ne_zero (by have := binade_pos; omega) (Nat.ne_of_gt hpow)
  rw [binade_eq] at h h'
  rw [Nat.log2_eq_iff hpos, Nat.add_right_comm, Nat.pow_add, Nat.pow_add]
  exact ⟨Nat.mul_le_mul_right _ h, Nat.mul_lt_mul_of_pos_right (by omega) hpow⟩

/-- The units of a place are so many gaps as wide as the shift. -/
theorem exists_gaps (p : Nat) : ∃ m s, units p = m * 2 ^ s ∧ p = s * binade + m ∧
    Nat.log2 (units p) - 52 = s := by
  by_cases h : p < 2 * binade
  · have hunits : units p = p := if_pos h
    refine ⟨p, 0, by simp [hunits], by simp, ?_⟩
    rw [hunits]
    by_cases hp : p = 0
    · rw [hp]
      rfl
    · have hlog : p.log2 < 53 := (Nat.log2_lt hp).2 h
      omega
  · have hsplit := Nat.div_add_mod p binade
    have hrest := Nat.mod_lt p binade_pos
    have hquot : 2 ≤ p / binade := (Nat.le_div_iff_mul_le binade_pos).2 (Nat.not_lt.1 h)
    have hunits : units p = (binade + p % binade) * 2 ^ (p / binade - 1) := if_neg h
    obtain ⟨s, hs⟩ : ∃ s, p / binade = s + 1 := ⟨p / binade - 1, by omega⟩
    rw [hs, Nat.add_sub_cancel] at hunits
    refine ⟨binade + p % binade, s, hunits, ?_, ?_⟩
    · rw [hs, Nat.mul_succ, Nat.mul_comm] at hsplit
      omega
    · rw [hunits, log2_mantissa (Nat.le_add_right _ _) (Nat.add_lt_add_left hrest _),
        Nat.add_sub_cancel_left]

theorem nearest_units (h : p ≤ infinity) : nearest (units p) scale = p := by
  obtain ⟨m, s, hunits, hp, hlog⟩ := exists_gaps p
  have hround : roundEven (units p * scale) (scale * Nat.pow 2 s) = m := by
    rw [Nat.pow_eq, Nat.mul_comm scale, roundEven_mul_right _ _ _ scale_pos, hunits,
      roundEven_mul_self (Nat.two_pow_pos s)]
  simp only [nearest, Nat.mul_div_cancel _ scale_pos, hlog, hround]
  rw [← hp, Nat.min_eq_left h]

/-- Above the bits of a mantissa there is one bit for each binade of the grid, which 2099 of them are
enough to leave. -/
theorem nearest_eq_infinity {k : Nat} (hk : 2099 ≤ k) (hd : 0 < d) (h : 2 ^ k * d ≤ n * scale) :
    nearest n d = infinity := by
  have hlarge : 2 ^ k ≤ n * scale / d := (Nat.le_div_iff_mul_le hd).2 h
  have hpos : n * scale / d ≠ 0 := Nat.ne_of_gt (Nat.lt_of_lt_of_le (Nat.two_pow_pos k) hlarge)
  have hlog : k ≤ (n * scale / d).log2 := (Nat.le_log2 hpos).2 hlarge
  apply Nat.min_eq_right
  rw [infinity_eq]
  exact Nat.le_add_right_of_le (Nat.mul_le_mul_right _ (by omega))

theorem nearest_eq_zero (h : 2 * (n * scale) < d) : nearest n d = 0 := by
  have hsmall : n * scale / d = 0 := Nat.div_eq_of_lt (by omega)
  have hround : roundEven (n * scale) d = 0 := roundEven_eq_zero h
  simp [nearest, hsmall, hround]

end Binary64

namespace Decimal

open Numeral (takeDigits dropDigits IsMantissa)

theorem all_toDigits (n : Nat) : (Nat.toDigits 10 n).all Char.isDigit = true :=
  List.all_eq_true.2 fun _ hc => Nat.isDigit_of_mem_toDigits (by decide) (by decide) hc

@[simp] theorem ofDigits_toDigits (n : Nat) : ofDigits (Nat.toDigits 10 n) = n :=
  Nat.ofDigitChars_ten_toDigits

theorem ofDigits_append (s t : Text) :
    ofDigits (s ++ t) = ofDigits s * 10 ^ t.length + ofDigits t := by
  rw [ofDigits, Nat.ofDigitChars_append, Nat.ofDigitChars_eq_ofDigitChars_zero, Nat.mul_comm]
  rfl

@[simp] theorem ofDigits_zeros (n : Nat) : ofDigits (List.replicate n '0') = 0 := by
  simp [ofDigits]

theorem exists_zeros (s : Text) : ∃ n, s = dropTrailingZeros s ++ List.replicate n '0' := by
  refine ⟨(s.reverse.takeWhile (· == '0')).length, ?_⟩
  have hzeros : s.reverse.takeWhile (· == '0') =
      List.replicate (s.reverse.takeWhile (· == '0')).length '0' :=
    List.eq_replicate_of_mem fun c hc => by
      simpa using List.all_eq_true.1 List.all_takeWhile c hc
  have hsplit := congrArg List.reverse
    (List.takeWhile_append_dropWhile (p := (· == '0')) (l := s.reverse))
  rw [List.reverse_append, List.reverse_reverse, hzeros, List.reverse_replicate] at hsplit
  exact hsplit.symm

theorem exists_fraction {n k : Nat} (hk : 0 < k) (h : n < 10 ^ k) : ∃ fraction z,
    dropTrailingZeros ((Nat.toDigits 10 n).leftpad k '0') = fraction ∧
    fraction.all Char.isDigit = true ∧ fraction.length + z = k ∧
    ofDigits fraction * 10 ^ z = n := by
  have hlength : (Nat.toDigits 10 n).length ≤ k := (Nat.length_toDigits_le_iff (by decide) hk).2 h
  obtain ⟨z, hz⟩ := exists_zeros ((Nat.toDigits 10 n).leftpad k '0')
  refine ⟨_, z, rfl, ?_, ?_, ?_⟩
  · have hall : ((Nat.toDigits 10 n).leftpad k '0').all Char.isDigit = true := by
      simp [List.leftpad, all_toDigits]
    rw [hz, List.all_append, Bool.and_eq_true] at hall
    exact hall.1
  · have hlen := congrArg List.length hz
    rw [List.length_leftpad, List.length_append, List.length_replicate] at hlen
    omega
  · have hvalue : ofDigits ((Nat.toDigits 10 n).leftpad k '0') = n := by
      simp [List.leftpad, ofDigits_append]
    rwa [hz, ofDigits_append, ofDigits_zeros, List.length_replicate, Nat.add_zero] at hvalue

/-- A decimal is written out as the digits of a whole number and of a fraction, which have its value.
-/
theorem exists_positional (d : Decimal) : ∃ whole fraction,
    d.positional = (if fraction = [] then whole else whole ++ '.' :: fraction) ∧
    whole.all Char.isDigit = true ∧ whole ≠ [] ∧ fraction.all Char.isDigit = true ∧
    ofDigits (whole ++ fraction) * 10 ^ (-d.exponent).toNat =
      d.coefficient * 10 ^ d.exponent.toNat * 10 ^ fraction.length := by
  obtain ⟨c, e⟩ := d
  cases e with
  | ofNat k =>
    refine ⟨Nat.toDigits 10 (c * 10 ^ k), [], rfl, all_toDigits _, Nat.toDigits_ne_nil, rfl, ?_⟩
    simp
  | negSucc j =>
    have hrest : c % 10 ^ (j + 1) < 10 ^ (j + 1) := Nat.mod_lt _ (Nat.pow_pos (by decide))
    obtain ⟨fraction, z, hf, hdigits, hlength, hvalue⟩ := exists_fraction (Nat.succ_pos j) hrest
    refine ⟨Nat.toDigits 10 (c / 10 ^ (j + 1)), fraction, ?_, all_toDigits _, Nat.toDigits_ne_nil,
      hdigits, ?_⟩
    · rw [← hf]
      rfl
    · have hsplit := Nat.div_add_mod c (10 ^ (j + 1))
      rw [ofDigits_append, ofDigits_toDigits]
      show _ * 10 ^ (j + 1) = c * 10 ^ 0 * _
      calc (c / 10 ^ (j + 1) * 10 ^ fraction.length + ofDigits fraction) * 10 ^ (j + 1)
          = (10 ^ (j + 1) * (c / 10 ^ (j + 1)) + ofDigits fraction * 10 ^ z) *
              10 ^ fraction.length := by
            rw [← Nat.succ_eq_add_one, ← hlength, Nat.pow_add]
            grind
        _ = c * 10 ^ 0 * 10 ^ fraction.length := by rw [hvalue, hsplit, Nat.pow_zero, Nat.mul_one]

variable {whole fraction : Text}

theorem takeDigits_of_all (h : whole.all Char.isDigit = true) : takeDigits whole = whole := by
  have hstop : takeDigits [] = [] := rfl
  simpa using Numeral.takeDigits_append h hstop

theorem dropDigits_of_all (h : whole.all Char.isDigit = true) : dropDigits whole = [] := by
  have hstop : takeDigits [] = [] := rfl
  simpa using Numeral.dropDigits_append h hstop

theorem read?_digits (hw : whole.all Char.isDigit = true) (hne : whole ≠ [])
    (hf : fraction.all Char.isDigit = true) :
    read? (if fraction = [] then whole else whole ++ '.' :: fraction) =
      some ⟨ofDigits (whole ++ fraction), -fraction.length⟩ := by
  by_cases h : fraction = []
  · simp [read?, h, hne, takeDigits_of_all hw, dropDigits_of_all hw, splitFraction, readExponent?]
  · have hstop : takeDigits ('.' :: fraction) = [] := rfl
    simp [read?, h, hne, Numeral.takeDigits_append hw hstop, Numeral.dropDigits_append hw hstop,
      splitFraction, takeDigits_of_all hf, dropDigits_of_all hf, readExponent?]

open Binary64

theorem pow_le_of_length {n k : Nat} (hn : n ≠ 0) (h : k < (Nat.toDigits 10 n).length) :
    10 ^ k ≤ n := by
  rcases Nat.eq_zero_or_pos k with rfl | hk
  · exact Nat.pos_of_ne_zero hn
  · exact Nat.not_lt.1 fun hlt =>
      Nat.not_lt.2 ((Nat.length_toDigits_le_iff (by decide) hk).2 hlt) h

theorem lt_pow_length (n : Nat) : n < 10 ^ (Nat.toDigits 10 n).length :=
  (Nat.length_toDigits_le_iff (by decide) Nat.length_toDigits_pos).1 (Nat.le_refl _)

section Margins

variable {c a b r : Nat}

/-- From a margin above the grid on, the first digit settles that the nearest place is infinity. -/
theorem nearest_of_large (hr : 2 ^ 2099 ≤ 10 ^ r * scale) (hc : c ≠ 0)
    (h : r + b < a + (Nat.toDigits 10 c).length) :
    nearest (c * 10 ^ a) (10 ^ b) = infinity := by
  obtain ⟨k, hk⟩ : ∃ k, (Nat.toDigits 10 c).length = k + 1 :=
    Nat.exists_eq_add_one.2 Nat.length_toDigits_pos
  have hfirst : 10 ^ k ≤ c := pow_le_of_length hc (by omega)
  apply nearest_eq_infinity (Nat.le_refl 2099) (Nat.pow_pos (by decide))
  calc 2 ^ 2099 * 10 ^ b ≤ 10 ^ r * scale * 10 ^ b := Nat.mul_le_mul_right _ hr
    _ = 10 ^ (r + b) * scale := by rw [Nat.mul_right_comm, Nat.pow_add]
    _ ≤ 10 ^ (k + a) * scale :=
      Nat.mul_le_mul_right _ (Nat.pow_le_pow_right (by decide) (by omega))
    _ = 10 ^ k * 10 ^ a * scale := by rw [Nat.pow_add]
    _ ≤ c * 10 ^ a * scale := Nat.mul_le_mul_right _ (Nat.mul_le_mul_right _ hfirst)

theorem nearest_of_small (hr : 2 * scale ≤ 10 ^ r) (h : a + (Nat.toDigits 10 c).length + r ≤ b) :
    nearest (c * 10 ^ a) (10 ^ b) = 0 := by
  apply nearest_eq_zero
  calc 2 * (c * 10 ^ a * scale) = c * (10 ^ a * (2 * scale)) := by grind
    _ < 10 ^ (Nat.toDigits 10 c).length * (10 ^ a * (2 * scale)) :=
      Nat.mul_lt_mul_of_pos_right (lt_pow_length c)
        (Nat.mul_pos (Nat.pow_pos (by decide)) (Nat.mul_pos (by decide) scale_pos))
    _ ≤ 10 ^ (Nat.toDigits 10 c).length * (10 ^ a * 10 ^ r) :=
      Nat.mul_le_mul_left _ (Nat.mul_le_mul_left _ hr)
    _ = 10 ^ ((Nat.toDigits 10 c).length + (a + r)) := by rw [Nat.pow_add, Nat.pow_add]
    _ ≤ 10 ^ b := Nat.pow_le_pow_right (by decide) (by omega)

end Margins

/-- What the first digit settles is what rounding comes to, so the place of a decimal is always the
nearest one. -/
theorem place_eq_nearest (d : Decimal) : d.place =
    nearest (d.coefficient * 10 ^ d.exponent.toNat) (10 ^ (-d.exponent).toNat) := by
  obtain ⟨c, e⟩ := d
  simp only [place]
  split
  · rename_i hzero
    rw [hzero]
    have hpow : 0 < 10 ^ (-e).toNat := Nat.pow_pos (by decide)
    exact (nearest_eq_zero (by simpa only [Nat.zero_mul, Nat.mul_zero] using hpow)).symm
  · rename_i hc
    split
    · rename_i hlarge
      exact (nearest_of_large (r := 310) (by decide +kernel) hc (by omega)).symm
    · split
      · rename_i hsmall
        exact (nearest_of_small (r := 330) (by decide +kernel) (by omega)).symm
      · cases e with
        | ofNat k => simp
        | negSucc j => simp

theorem exists_readPlace? {w : Text} (h : IsNumeral w) :
    ∃ p ≤ infinity, Literal.readPlace? w = some p := by
  obtain ⟨d, hd⟩ := exists_read? h
  refine ⟨d.place, ?_, by rw [Literal.readPlace?, hd]; rfl⟩
  rw [place_eq_nearest]
  exact nearest_le_infinity _ _

theorem readPlace?_positional (d : Decimal) : Literal.readPlace? d.positional = some d.place := by
  obtain ⟨whole, fraction, htext, hw, hne, hf, hvalue⟩ := exists_positional d
  rw [htext, Literal.readPlace?, read?_digits hw hne hf, Option.map_some, Option.some_or,
    place_eq_nearest, place_eq_nearest]
  refine congrArg some (nearest_congr (Nat.pow_pos (by decide)) (Nat.pow_pos (by decide)) ?_)
  simpa using hvalue

theorem isNumeral_positional (d : Decimal) : IsNumeral d.positional := by
  obtain ⟨whole, fraction, htext, hw, hne, hf, -⟩ := exists_positional d
  exact isNumeral_of_read? (htext ▸ read?_digits hw hne hf)

end Decimal

namespace Shortest

open Binary64

variable {p : Nat}

theorem place_exact (h : p ≤ infinity) : (exact p).place = p := by
  have hpow : 10 ^ (- -1074 : Int).toNat = Nat.pow 5 1074 * scale := by decide +kernel
  have hexponent : 10 ^ (-(exact p).exponent).toNat = Nat.pow 5 1074 * scale := hpow
  have hvalue : (exact p).coefficient * 10 ^ (exact p).exponent.toNat * scale =
      units p * 10 ^ (-(exact p).exponent).toNat := by
    calc units p * Nat.pow 5 1074 * 1 * scale = units p * (Nat.pow 5 1074 * scale) := by
          rw [Nat.mul_one, Nat.mul_assoc]
      _ = units p * 10 ^ (-(exact p).exponent).toNat := congrArg (units p * ·) hexponent.symm
  rw [Decimal.place_eq_nearest, nearest_congr (Nat.pow_pos (by decide)) scale_pos hvalue,
    nearest_units h]

/-- The text of a place is a decimal of that place written out, the shortest one or the exact one. -/
theorem exists_ofPlace (h : p ≤ infinity) :
    ∃ d : Decimal, ofPlace p = d.positional ∧ d.place = p := by
  unfold ofPlace
  extract_lets readsBack found
  cases hfound : found with
  | none => exact ⟨exact p, Option.getD_none, place_exact h⟩
  | some s =>
    obtain ⟨i, -, hi⟩ := List.exists_of_findSome?_eq_some hfound
    obtain ⟨d, -, rfl⟩ := List.mem_map.1 (List.mem_of_find?_eq_some hi)
    have hreads := List.find?_some hi
    simp only [readsBack, Decimal.readPlace?_positional, beq_iff_eq, Option.some_inj] at hreads
    exact ⟨d, Option.getD_some, hreads⟩

theorem reads_ofPlace (h : p ≤ infinity) :
    IsNumeral (ofPlace p) ∧ Literal.readPlace? (ofPlace p) = some p := by
  obtain ⟨d, htext, hplace⟩ := exists_ofPlace h
  rw [htext, Decimal.readPlace?_positional, hplace]
  exact ⟨d.isNumeral_positional, rfl⟩

end Shortest
end DeskCalculator

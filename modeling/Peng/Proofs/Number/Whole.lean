import Mathlib.Data.Nat.Cast.Field
import Peng.Proofs.Number.Product

/-!
# Whole numbers

Which numbers are whole, `IsWhole`, and what is exact about them: taking such a number apart gives
the whole number (`bind_whole?_eq_some_iff`), whole numbers below `2 ^ 53` are numbers
(`exists_units_eq`), and converting one to an unsigned integer loses nothing
(`IsWhole.toNat_toUInt64`).
-/

namespace Peng

open Magnitude Float.Model

/-- The number is finite, and its value is a whole number. -/
def IsWhole (x : Float) (k : ℤ) : Prop :=
  ∃ b, Binary.ofFloat? x = some b ∧ b.toRat = k

/-! ## Taking whole numbers apart -/

namespace Binary

variable {b : Binary}

theorem abs_toRat (b : Binary) : |b.toRat| = b.mantissa * 2 ^ b.exponent := by
  have hsize : (0 : ℚ) ≤ b.mantissa * 2 ^ b.exponent := by positivity
  rw [toRat]
  split <;> simp [abs_of_nonneg hsize]

theorem signed_eq_iff {n : ℕ} (h : (b.mantissa : ℚ) * 2 ^ b.exponent = n) (k : ℤ) :
    (if b.negative then -(n : ℤ) else n) = k ↔ b.toRat = k := by
  rw [toRat, h, ← Int.cast_inj (α := ℚ)]
  split <;> simp

theorem whole?_eq_some_iff (b : Binary) (k : ℤ) : b.whole? = some k ↔ b.toRat = k := by
  rw [whole?]
  simp only [Nat.pow_eq]
  by_cases hexponent : 0 ≤ b.exponent
  · obtain ⟨e, he⟩ := Int.eq_ofNat_of_zero_le hexponent
    rw [if_pos hexponent, Option.some_inj, signed_eq_iff]
    rw [he, Int.toNat_natCast, zpow_natCast, Nat.cast_mul, Nat.cast_pow, Nat.cast_two]
  · obtain ⟨e, he⟩ : ∃ e : ℕ, b.exponent = -e := ⟨(-b.exponent).toNat, by omega⟩
    have hpower : (2 : ℚ) ^ b.exponent * 2 ^ e = 1 := by
      rw [he, zpow_neg, zpow_natCast, inv_mul_cancel₀ (by positivity)]
    rw [if_neg hexponent, he, neg_neg, Int.toNat_natCast]
    split
    case isTrue hdvd =>
      rw [Option.some_inj, signed_eq_iff]
      rw [Nat.cast_div (Nat.dvd_of_mod_eq_zero hdvd) (by positivity), he, zpow_neg, zpow_natCast,
        Nat.cast_pow, Nat.cast_two, div_eq_mul_inv]
    case isFalse hdvd =>
      -- a whole value would be the mantissa divided by the power of two
      refine iff_of_false nofun fun hk => hdvd (Nat.mod_eq_zero_of_dvd ⟨k.natAbs, ?_⟩)
      have habs : (b.mantissa : ℚ) * 2 ^ b.exponent = (k.natAbs : ℕ) := by
        rw [← abs_toRat, hk, Nat.cast_natAbs, Int.cast_abs]
      rw [← Nat.cast_inj (R := ℚ), Nat.cast_mul, Nat.cast_pow, Nat.cast_two, ← habs, mul_comm,
        mul_assoc, hpower, mul_one]

end Binary

section Whole

variable {x : Float} {k : ℤ}

theorem bind_whole?_eq_some_iff (x : Float) (k : ℤ) :
    (Binary.ofFloat? x).bind Binary.whole? = some k ↔ IsWhole x k := by
  simp only [Option.bind_eq_some_iff, Binary.whole?_eq_some_iff, IsWhole]

/-! ## Whole numbers in units -/

theorem IsWhole.lt_infinityBits (h : IsWhole x k) : magnitude x < infinityBits := by
  obtain ⟨b, hb, -⟩ := h
  exact (ofFloat?_eq_some_iff.mp hb).1

theorem IsWhole.units_eq (h : IsWhole x k) : (units (magnitude x) : ℚ) = |k| * unitsOfOne := by
  obtain ⟨b, hb, hk⟩ := h
  rw [← abs_toRat_mul_unitsOfOne hb, hk, Int.cast_abs]

theorem IsWhole.isNegative_eq (h : IsWhole x k) (hpos : 0 < k) : isNegative x = false := by
  obtain ⟨b, hb, hk⟩ := h
  obtain ⟨hlt, rfl⟩ := ofFloat?_eq_some_iff.mp hb
  by_contra hnegative
  rw [Bool.not_eq_false] at hnegative
  have hk' : (0 : ℚ) < k := by exact_mod_cast hpos
  rw [← hk, Binary.toRat, if_pos hnegative, neg_one_mul, neg_pos] at hk'
  exact absurd hk' (not_lt.mpr (by positivity))

theorem IsWhole.magnitude_ne_zero (h : IsWhole x k) (hpos : 0 < k) : magnitude x ≠ 0 := by
  have hk : (0 : ℚ) < |k| := by exact_mod_cast abs_pos.mpr hpos.ne'
  refine ne_zero_of_units_pos ?_
  rw [h.units_eq]
  exact mul_pos hk unitsOfOne_pos

/-- The whole numbers with at most 53 binary digits are numbers. -/
theorem exists_units_eq {v : ℕ} (hv : v < 2 ^ 53) : ∃ n, (units n : ℚ) = v * unitsOfOne := by
  obtain rfl | hpos := Nat.eq_zero_or_pos v
  · exact ⟨0, by rw [units_zero]; simp⟩
  have hlog : v.log2 ≤ 52 := Nat.le_of_lt_succ ((Nat.log2_lt hpos.ne').mpr hv)
  have hle := Nat.log2_self_le hpos.ne'
  have hlt := @Nat.lt_log2_self v
  -- the mantissa is `v` moved up to 53 digits
  obtain ⟨e, he⟩ : ∃ e, v.log2 + e = 52 := ⟨52 - v.log2, by omega⟩
  have hlower : 2 ^ 52 ≤ v * 2 ^ e := by
    rw [← he, pow_add]
    exact Nat.mul_le_mul_right _ hle
  have hupper : v * 2 ^ e ≤ 2 ^ 53 := by
    have h53 : 53 = v.log2 + 1 + e := by omega
    rw [h53, pow_add]
    exact Nat.mul_le_mul_right _ hlt.le
  refine ⟨(1074 - e) * 2 ^ 52 + v * 2 ^ e, ?_⟩
  rw [units_add hupper (.inr hlower), mul_assoc, ← pow_add, Nat.add_sub_cancel' (by omega),
    Nat.cast_mul, Nat.cast_pow, Nat.cast_two, unitsOfOne]

/-! ## Conversion to an unsigned integer -/

theorem IsShifted.mantissa_eq {m : UnpackedFloat.ExtendedMantissa} {n : ℕ}
    (h : IsShifted m n) : m.mantissa = n := by
  have hround := Bool.toNat_le m.roundBit
  have hle : 2 * m.mantissa + m.roundBit.toNat ≤ 2 * n := by exact_mod_cast h.le
  have hlt : 2 * n < 2 * m.mantissa + m.roundBit.toNat + 1 := by exact_mod_cast h.lt
  omega

theorem roundToInt_eq {m k : ℕ} {e : ℤ} (h : (m : ℚ) * 2 ^ e = k) :
    UnpackedFloat.roundToInt .positive m e = k := by
  have hshifted : IsShifted (UnpackedFloat.ExtendedMantissa.ofMantissaAndAccuracy
      (m <<< (e - 0).toNat) .exact >>> (0 - (e - (e - 0).toNat)).toNat) k := by
    convert (IsShifted.exact _).shiftRight _ using 1
    have he : e = (e - 0).toNat - (0 - (e - (e - 0).toNat)).toNat := by omega
    rw [← h, Nat.shiftLeft_eq, Nat.cast_mul, Nat.cast_pow, Nat.cast_two]
    nth_rewrite 1 [he]
    rw [zpow_sub₀ two_ne_zero, zpow_natCast, zpow_natCast, mul_div_assoc]
  exact congrArg Int.ofNat hshifted.mantissa_eq

/-- A whole number that fits converts to itself. -/
theorem IsWhole.toNat_toUInt64 {k : ℕ} (h : IsWhole x k) (hpos : 0 < k) (hlt : k < 2 ^ 64) :
    x.toUInt64.toNat = k := by
  have hpos' : (0 : ℤ) < k := by exact_mod_cast hpos
  have hsign := h.isNegative_eq hpos'
  have hfinite := h.lt_infinityBits
  obtain ⟨hmantissa, hunpack⟩ := (unpacks hfinite.le).exists_finite (h.magnitude_ne_zero hpos')
    hfinite
  obtain ⟨b, hb, hk⟩ := h
  obtain ⟨-, rfl⟩ := ofFloat?_eq_some_iff.mp hb
  rw [Binary.toRat, hsign, if_neg Bool.false_ne_true, one_mul] at hk
  show (UInt64.ofNatClamp (x.toModel.unpack.toInt 0 _).toNat).toNat = k
  rw [hunpack, hsign]
  show (UInt64.ofNatClamp (UnpackedFloat.roundToInt .positive _ _).toNat).toNat = k
  rw [roundToInt_eq hk, Int.toNat_natCast, UInt64.ofNatClamp,
    dif_pos (show k < UInt64.size from hlt)]
  rfl

end Whole

end Peng

import Mathlib.Data.Nat.Log
import Peng.Proofs.Number.Nearest

/-!
# Rounding quotients

`nearest` finds the number that a quotient of natural numbers is rounded to, `isNearest_nearest`.
The proof follows the steps of `nearestBits`: the spacing around the quotient is the one that
`unitExponent` finds (`lt_two_zpow_unitExponent`, `two_zpow_unitExponent_le`), the count of
spacings is rounded to a whole number (`isRounded_roundHalfEven`), and the two together are the
magnitude to round to (`IsRounded.isCell`).
-/

namespace Peng

open Magnitude

/-! ## Rounding to whole numbers -/

/-- The whole number `r` is the one that `y` is rounded to, a half going to an even number. -/
structure IsRounded (y : ℚ) (r : ℕ) : Prop where
  abs_sub_le : |y - r| ≤ 1 / 2
  even_of_half : |y - r| = 1 / 2 → Even r

theorem IsRounded.of_abs_sub_lt {y : ℚ} {r : ℕ} (h : |y - r| < 1 / 2) : IsRounded y r :=
  ⟨h.le, fun heq => absurd heq h.ne⟩

theorem IsRounded.of_half {y : ℚ} {low : ℕ} (h : 2 * y = 2 * low + 1) :
    IsRounded y (low + low % 2) := by
  refine ⟨?_, fun _ => by rw [Nat.even_iff]; omega⟩
  obtain hbit | hbit := Nat.mod_two_eq_zero_or_one low
  · rw [hbit, Nat.add_zero, abs_of_nonneg (by linarith)]
    linarith
  · rw [hbit, Nat.cast_succ, abs_of_nonpos (by linarith)]
    linarith

theorem isRounded_roundHalfEven (num : ℕ) {den : ℕ} (hden : 0 < den) :
    IsRounded (num / den) (roundHalfEven num den) := by
  have hpos : (0 : ℚ) < den := by exact_mod_cast hden
  have hrest : (num : ℚ) / den = (num / den : ℕ) + ((2 * (num % den) : ℕ) : ℚ) / den / 2 := by
    have hnum : (den : ℚ) * (num / den : ℕ) + (num % den : ℕ) = num := by
      exact_mod_cast Nat.div_add_mod num den
    rw [← hnum]
    push_cast
    field_simp
  have hlt : ((2 * (num % den) : ℕ) : ℚ) / den < 2 := by
    rw [div_lt_iff₀ hpos]
    exact_mod_cast Nat.mul_lt_mul_of_pos_left (Nat.mod_lt num hden) two_pos
  have hnonneg : (0 : ℚ) ≤ ((2 * (num % den) : ℕ) : ℚ) / den := by positivity
  have hbelow : 2 * (num % den) < den ↔ ((2 * (num % den) : ℕ) : ℚ) / den < 1 := by
    rw [div_lt_one hpos, Nat.cast_lt]
  have habove : den < 2 * (num % den) ↔ 1 < ((2 * (num % den) : ℕ) : ℚ) / den := by
    rw [one_lt_div hpos, Nat.cast_lt]
  rw [roundHalfEven]
  simp only [hbelow, habove, hrest]
  generalize ((2 * (num % den) : ℕ) : ℚ) / den = twice at *
  generalize num / den = low
  split_ifs with hbelow habove
  · apply IsRounded.of_abs_sub_lt
    rw [add_sub_cancel_left, abs_of_nonneg (by linarith)]
    linarith
  · apply IsRounded.of_abs_sub_lt
    rw [Nat.cast_succ, abs_of_nonpos (by linarith)]
    linarith
  · apply IsRounded.of_half
    linarith

section Rounded

variable {y : ℚ} {k r : ℕ}

theorem IsRounded.le_two_pow (h : IsRounded y r) (hlt : y < 2 ^ 53) : r ≤ 2 ^ 53 := by
  obtain ⟨hlower, hupper⟩ := abs_le.mp h.abs_sub_le
  refine Nat.le_of_lt_succ ?_
  rw [← Nat.cast_lt (α := ℚ), Nat.cast_succ, Nat.cast_pow, Nat.cast_two]
  linarith

theorem IsRounded.two_pow_le (h : IsRounded y r) (hle : 2 ^ 52 ≤ y) : 2 ^ 52 ≤ r := by
  obtain ⟨hlower, hupper⟩ := abs_le.mp h.abs_sub_le
  refine Nat.le_of_lt_succ ?_
  rw [← Nat.cast_lt (α := ℚ), Nat.cast_succ, Nat.cast_pow, Nat.cast_two]
  linarith

/-- A count of spacings, rounded, is the magnitude to round to. -/
theorem IsRounded.isCell (h : IsRounded y r) (hy : 0 ≤ y) (hlt : y < 2 ^ 53)
    (hk : k = 0 ∨ 2 ^ 52 ≤ y) : IsCell (y * 2 ^ k) (k * 2 ^ 52 + r) := by
  obtain ⟨hlower, hupper⟩ := abs_le.mp h.abs_sub_le
  have hpower : (0 : ℚ) < 2 ^ k := by positivity
  have hr := h.le_two_pow hlt
  have hnormal : k = 0 ∨ 2 ^ 52 ≤ r := hk.imp id h.two_pow_le
  have hunits : (units (k * 2 ^ 52 + r) : ℚ) = r * 2 ^ k := by
    rw [units_add hr hnormal, Nat.cast_mul, Nat.cast_pow, Nat.cast_two]
  have hnext : r * 2 ^ k + 2 ^ k ≤ (units (k * 2 ^ 52 + r + 1) : ℚ) := by
    have hshift : k ≤ shift (k * 2 ^ 52 + r) := by
      rw [shift]
      omega
    rw [units_succ, Nat.cast_add, hunits, Nat.cast_pow, Nat.cast_two]
    linarith [pow_le_pow_right₀ (one_le_two (α := ℚ)) hshift]
  have heven (hhalf : |y - r| = 1 / 2) : Even (k * 2 ^ 52 + r) :=
    (Nat.even_mul.mpr (.inr (by decide))).add (h.even_of_half hhalf)
  have hupper' := mul_le_mul_of_nonneg_right hupper hpower.le
  have heven_upper (heq : 2 * (y * 2 ^ k) = units (k * 2 ^ 52 + r) + units (k * 2 ^ 52 + r + 1)) :
      Even (k * 2 ^ 52 + r) := by
    have hhalf : 1 / 2 ≤ y - r := le_of_mul_le_mul_right (by linarith) hpower
    exact heven (by rw [le_antisymm hupper hhalf]; norm_num)
  obtain hle | hgt := le_or_gt (r : ℚ) y
  · have hle' := mul_le_mul_of_nonneg_right hle hpower.le
    have hprevious := units_le (Nat.sub_le (k * 2 ^ 52 + r) 1)
    refine ⟨by linarith, by linarith, fun heq => ?_, heven_upper⟩
    -- the magnitude is not below the one before it, so it is the first
    have hzero : k * 2 ^ 52 + r - 1 = k * 2 ^ 52 + r := eq_of_units_eq (by linarith)
    rw [Nat.even_iff]
    omega
  · have hpositive : 0 < r := by
      rw [← Nat.cast_pos (α := ℚ)]
      linarith
    have hwide : k = 0 ∨ 2 ^ 52 ≤ r - 1 := by
      refine hk.imp id fun hk => Nat.le_sub_one_of_lt ?_
      rw [← Nat.cast_lt (α := ℚ), Nat.cast_pow, Nat.cast_two]
      linarith
    have hprevious : (units (k * 2 ^ 52 + r - 1) : ℚ) = r * 2 ^ k - 2 ^ k := by
      rw [Nat.add_sub_assoc hpositive, units_add ((Nat.sub_le _ _).trans hr) hwide, Nat.cast_mul,
        Nat.cast_pow, Nat.cast_two, Nat.cast_pred hpositive]
      ring
    have hlower' := mul_le_mul_of_nonneg_right hlower hpower.le
    refine ⟨by linarith, by linarith, fun heq => ?_, heven_upper⟩
    have hhalf : y - r ≤ -(1 / 2) := le_of_mul_le_mul_right (by linarith) hpower
    exact heven (by rw [le_antisymm hhalf hlower]; norm_num)

end Rounded

/-! ## The spacing around a quotient -/

section Quotient

variable {num den : ℕ}

theorem scaleDown_snd_pos (num : ℕ) (hden : 0 < den) (q : ℤ) : 0 < (scaleDown num den q).2 := by
  rw [scaleDown]
  split
  · exact Nat.mul_pos hden (Nat.pow_pos two_pos)
  · exact hden

theorem scaleDown_fst_div_snd (num den : ℕ) (q : ℤ) :
    ((scaleDown num den q).1 : ℚ) / (scaleDown num den q).2 = num / den / 2 ^ q := by
  rw [scaleDown]
  split
  case isTrue hq =>
    obtain ⟨k, rfl⟩ := Int.eq_ofNat_of_zero_le hq
    rw [Int.toNat_natCast, Nat.pow_eq, Nat.cast_mul, Nat.cast_pow, Nat.cast_two, zpow_natCast,
      div_div]
  case isFalse hq =>
    obtain ⟨k, rfl⟩ : ∃ k : ℕ, q = -k := ⟨(-q).toNat, by omega⟩
    rw [neg_neg, Int.toNat_natCast, Nat.pow_eq, Nat.cast_mul, Nat.cast_pow, Nat.cast_two, zpow_neg,
      zpow_natCast, div_inv_eq_mul]
    ring

theorem scaleDown_fst_lt_snd_iff (num : ℕ) (hden : 0 < den) (q : ℤ) :
    (scaleDown num den q).1 < (scaleDown num den q).2 ↔ (num : ℚ) / den < 2 ^ q := by
  have hpos : (0 : ℚ) < (scaleDown num den q).2 := by
    exact_mod_cast scaleDown_snd_pos num hden q
  rw [← Nat.cast_lt (α := ℚ), ← div_lt_one hpos, scaleDown_fst_div_snd,
    div_lt_one (zpow_pos two_pos q)]

/-- A quotient lies between the powers of two next to the quotient of the greatest powers of two
below its parts. -/
theorem two_zpow_le_div (hnum : num ≠ 0) (hden : den ≠ 0) :
    (2 : ℚ) ^ ((num.log2 : ℤ) - den.log2 - 1) ≤ num / den := by
  have hpos : (0 : ℚ) < den := by positivity
  have hden' : (den : ℚ) ≤ 2 ^ (den.log2 + 1) := by exact_mod_cast Nat.lt_log2_self.le
  have hnum' : (2 : ℚ) ^ num.log2 ≤ num := by exact_mod_cast Nat.log2_self_le hnum
  rw [le_div_iff₀ hpos]
  calc (2 : ℚ) ^ ((num.log2 : ℤ) - den.log2 - 1) * den
      ≤ 2 ^ ((num.log2 : ℤ) - den.log2 - 1) * 2 ^ (den.log2 + 1) := by gcongr
    _ = 2 ^ num.log2 := by
      rw [← zpow_natCast, ← zpow_natCast, ← zpow_add₀ two_ne_zero]
      congr 1
      omega
    _ ≤ num := hnum'

theorem div_lt_two_zpow (num : ℕ) (hden : den ≠ 0) :
    (num : ℚ) / den < 2 ^ ((num.log2 : ℤ) - den.log2 + 1) := by
  have hpos : (0 : ℚ) < den := by positivity
  have hden' : (2 : ℚ) ^ den.log2 ≤ den := by exact_mod_cast Nat.log2_self_le hden
  have hnum' : (num : ℚ) < 2 ^ (num.log2 + 1) := by exact_mod_cast Nat.lt_log2_self
  rw [div_lt_iff₀ hpos]
  calc (num : ℚ) < 2 ^ (num.log2 + 1) := hnum'
    _ = 2 ^ ((num.log2 : ℤ) - den.log2 + 1) * 2 ^ den.log2 := by
      rw [← zpow_natCast, ← zpow_natCast, ← zpow_add₀ two_ne_zero]
      congr 1
      omega
    _ ≤ 2 ^ ((num.log2 : ℤ) - den.log2 + 1) * den := by gcongr

theorem two_zpow_mono {p q : ℤ} (h : p ≤ q) : (2 : ℚ) ^ p ≤ 2 ^ q :=
  zpow_le_zpow_right₀ one_le_two h

theorem le_unitExponent (num den : ℕ) : Binary.leastExponent ≤ unitExponent num den :=
  le_max_left _ _

theorem lt_two_zpow_unitExponent (num : ℕ) (hden : 0 < den) :
    (num : ℚ) / den < 2 ^ (unitExponent num den + 53) := by
  have hless := scaleDown_fst_lt_snd_iff num hden ((num.log2 : ℤ) - den.log2)
  rw [unitExponent]
  dsimp only
  split
  case isTrue h => exact (hless.mp h).trans_le (two_zpow_mono (by omega))
  case isFalse h => exact (div_lt_two_zpow num hden.ne').trans_le (two_zpow_mono (by omega))

theorem two_zpow_unitExponent_le (hnum : num ≠ 0) (hden : 0 < den) :
    unitExponent num den = Binary.leastExponent ∨
      2 ^ (unitExponent num den + 52) ≤ (num : ℚ) / den := by
  have hless := scaleDown_fst_lt_snd_iff num hden ((num.log2 : ℤ) - den.log2)
  refine or_iff_not_imp_left.mpr fun hne => ?_
  rw [unitExponent] at hne ⊢
  dsimp only at hne ⊢
  split_ifs at hne ⊢ with h
  · exact (two_zpow_mono (by omega)).trans (two_zpow_le_div hnum hden.ne')
  · exact (two_zpow_mono (by omega)).trans (not_lt.mp (hless.not.mp h))

/-! ## The nearest number -/

theorem exists_isCell_nearestBits (num : ℕ) (hden : 0 < den) :
    ∃ n, IsCell (num / den * unitsOfOne) n ∧ nearestBits num den = min n infinityBits := by
  rw [nearestBits]
  split
  case isTrue hzero =>
    refine ⟨0, ?_, rfl⟩
    rw [hzero, Nat.cast_zero, zero_div, zero_mul]
    exact .zero
  case isFalse hnum =>
    have hleast := le_unitExponent num den
    have hlt := lt_two_zpow_unitExponent num hden
    have hle := two_zpow_unitExponent_le hnum hden
    have hround := isRounded_roundHalfEven (scaleDown num den (unitExponent num den)).1
      (scaleDown_snd_pos num hden (unitExponent num den))
    rw [scaleDown_fst_div_snd] at hround
    generalize unitExponent num den = q at *
    obtain ⟨k, rfl⟩ : ∃ k : ℕ, q = Binary.leastExponent + k :=
      ⟨(q - Binary.leastExponent).toNat, by omega⟩
    have hpos : (0 : ℚ) < 2 ^ (Binary.leastExponent + (k : ℤ)) := zpow_pos two_pos _
    rw [zpow_add₀ two_ne_zero, mul_comm, ← div_lt_iff₀ hpos] at hlt
    rw [zpow_add₀ two_ne_zero _ 52, mul_comm, ← le_div_iff₀ hpos] at hle
    have hcell := hround.isCell (k := k) (by positivity) hlt (hle.imp (by omega) id)
    rw [← zpow_leastExponent_mul_unitsOfOne, ← mul_assoc, div_mul_cancel₀ _ hpos.ne'] at hcell
    refine ⟨_, hcell, ?_⟩
    have hk : (Binary.leastExponent + (k : ℤ) - Binary.leastExponent).toNat = k := by omega
    dsimp only
    rw [hk, Nat.pow_eq]

/-- The nearest number is nearest. -/
theorem isNearest_nearest (num : ℕ) (hden : 0 < den) : IsNearest (num / den) (nearest num den) := by
  obtain ⟨n, hcell, hbits⟩ := exists_isCell_nearestBits num hden
  obtain ⟨hnegative, hmagnitude⟩ := ofBits_toUInt64 (hbits.trans_le (min_le_right _ _))
  have hnonneg : (0 : ℚ) ≤ num / den := by positivity
  refine isNearest_of_isCell ?_ ?_ (hmagnitude.trans hbits)
  · rw [nearest, hnegative]
    exact iff_of_false Bool.false_ne_true (not_lt.mpr hnonneg)
  · rwa [abs_of_nonneg hnonneg]

end Quotient

end Peng

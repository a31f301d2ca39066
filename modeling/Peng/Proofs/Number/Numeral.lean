import Peng.Proofs.Number.Literal

/-!
# Written numbers

A number is written as a decimal that rounds to it. The main statements are that the shortest
decimal of a number is in its cell (`isCell_shortest`), and that writing a decimal out in full
denotes it (`isNumeral_layout`).
-/

namespace Peng

open Magnitude

/-- The value of a decimal. -/
def Decimal.toRat (d : Decimal) : ℚ :=
  d.digits * 10 ^ d.exponent

/-! ## The shortest decimal is in its window -/

namespace Window

variable {w : Window}

theorem contains_value (h : 0 < w.below) (h' : 0 < w.above) : w.contains w.value := by
  rw [contains]
  split
  · simp
  · simp [h, h']

theorem contains_of_point? {j digits : ℕ} (h : w.point? j = some digits) :
    w.contains (digits * 10 ^ j) := by
  simp only [point?, Nat.pow_eq] at h
  split_ifs at h with hlow hboth hhigh
  · cases h
    exact hboth.1
  · cases h
    exact hlow
  · cases h
    exact hhigh

/-- Every decimal that the search ends with is a point of the window. -/
theorem exists_contains_shortestFrom (h : 0 < w.below) (h' : 0 < w.above) (j : ℕ) :
    ∃ n, w.contains n ∧ (w.shortestFrom j).toRat = n * 10 ^ w.unit := by
  induction j with
  | zero => exact ⟨w.value, contains_value h h', rfl⟩
  | succ j ih =>
    rw [shortestFrom]
    split
    case h_1 digits hpoint =>
      refine ⟨_, contains_of_point? hpoint, ?_⟩
      rw [Decimal.toRat, zpow_add₀ (by norm_num), zpow_natCast, Nat.cast_mul, Nat.cast_pow,
        Nat.cast_ofNat]
      ring
    case h_2 => exact ih

/-! ## The window of a magnitude is its cell -/

/-- The window of the `n`-th magnitude. -/
def ofMagnitude (n : ℕ) : Window :=
  .ofBinary ⟨false, mantissa n, Binary.leastExponent + shift n⟩

/-- How many units of the window a spacing has, in hundreds. -/
def scale (e : ℤ) : ℕ :=
  if 0 ≤ e then 2 ^ e.toNat else 5 ^ (-e).toNat

theorem scale_mul (e : ℤ) : 100 * (scale e : ℚ) * 10 ^ (min e 0 - 2) = 2 ^ e := by
  have hten : (10 : ℚ) ≠ 0 := by norm_num
  rw [scale]
  split
  case isTrue he =>
    obtain ⟨k, rfl⟩ := Int.eq_ofNat_of_zero_le he
    rw [min_eq_right he, Int.toNat_natCast, Nat.cast_pow, Nat.cast_two, zpow_natCast]
    norm_num
    ring
  case isFalse he =>
    obtain ⟨k, rfl⟩ : ∃ k : ℕ, e = -k := ⟨(-e).toNat, by omega⟩
    have hpower : (10 : ℚ) ^ k = 2 ^ k * 5 ^ k := by rw [← mul_pow]; norm_num
    rw [min_eq_left (by omega), neg_neg, Int.toNat_natCast, Nat.cast_pow, Nat.cast_ofNat,
      zpow_sub₀ hten, zpow_neg, zpow_neg, zpow_natCast, zpow_natCast, hpower]
    field_simp
    norm_num

section Cell

variable {n : ℕ}

/-- A unit of the window, in units of magnitudes. -/
def unitSize (n : ℕ) : ℚ :=
  10 ^ (ofMagnitude n).unit * unitsOfOne

theorem unitSize_pos (n : ℕ) : 0 < unitSize n :=
  mul_pos (zpow_pos (by norm_num) _) unitsOfOne_pos

theorem scale_mul_unitSize (n : ℕ) :
    100 * (scale (Binary.leastExponent + shift n) : ℚ) * unitSize n = 2 ^ shift n := by
  rw [← zpow_leastExponent_mul_unitsOfOne, ← scale_mul, unitSize, mul_assoc, mul_assoc, mul_assoc]
  rfl

theorem value_mul_unitSize (n : ℕ) : ((ofMagnitude n).value : ℚ) * unitSize n = units n := by
  have hscale := scale_mul_unitSize n
  have hvalue : (ofMagnitude n).value =
      100 * mantissa n * scale (Binary.leastExponent + shift n) := rfl
  rw [hvalue, units, Nat.cast_mul, Nat.cast_mul, Nat.cast_mul, Nat.cast_pow, Nat.cast_two, ← hscale]
  push_cast
  ring

theorem above_mul_unitSize (n : ℕ) :
    2 * ((ofMagnitude n).above * unitSize n) = (units (n + 1) : ℚ) - units n := by
  have hscale := scale_mul_unitSize n
  have habove : (ofMagnitude n).above = 50 * scale (Binary.leastExponent + shift n) := rfl
  rw [habove, units_succ, Nat.cast_add, Nat.cast_pow, Nat.cast_two, ← hscale, Nat.cast_mul]
  push_cast
  ring

theorem below_mul_unitSize (hn : 0 < n) :
    2 * ((ofMagnitude n).below * unitSize n) = (units n : ℚ) - units (n - 1) := by
  have hscale := scale_mul_unitSize n
  have hprevious := units_succ (n - 1)
  rw [Nat.sub_add_cancel hn, shift_pred hn] at hprevious
  have hbelow : (ofMagnitude n).below =
      (if mantissa n = 2 ^ 52 ∧ Binary.leastExponent < Binary.leastExponent + shift n then 25
        else 50) * scale (Binary.leastExponent + shift n) := rfl
  have hnarrow : Binary.leastExponent < Binary.leastExponent + shift n ↔ 0 < shift n := by omega
  simp only [hnarrow] at hbelow
  rw [hbelow, hprevious]
  by_cases hdoubled : mantissa n = 2 ^ 52 ∧ 0 < shift n
  · have hhalf : (2 : ℚ) ^ shift n = 2 * 2 ^ (shift n - 1) := by
      rw [← pow_succ', Nat.sub_add_cancel hdoubled.2]
    rw [if_pos hdoubled, if_pos hdoubled, Nat.cast_add, Nat.cast_pow, Nat.cast_two, Nat.cast_mul,
      Nat.cast_ofNat]
    linarith
  · rw [if_neg hdoubled, if_neg hdoubled, Nat.cast_add, Nat.cast_pow, Nat.cast_two, Nat.cast_mul,
      Nat.cast_ofNat]
    linarith

/-- What lies in the window of a magnitude lies in its cell. -/
theorem isCell_of_contains (hn : 0 < n) {m : ℕ} (h : (ofMagnitude n).contains m) :
    IsCell (m * unitSize n) n := by
  have hpos := unitSize_pos n
  have hvalue := value_mul_unitSize n
  have hbelow := below_mul_unitSize hn
  have habove := above_mul_unitSize n
  have hclosed : (ofMagnitude n).closed = true ↔ Even n := by
    rw [← even_mantissa_iff, Nat.even_iff]
    exact decide_eq_true_iff
  rw [contains] at h
  split at h
  case isTrue hc =>
    obtain ⟨hle, hle'⟩ : (ofMagnitude n).value ≤ m + (ofMagnitude n).below ∧
        m ≤ (ofMagnitude n).value + (ofMagnitude n).above := by simpa using h
    have hlower := mul_le_mul_of_nonneg_right (Nat.cast_le (α := ℚ).mpr hle) hpos.le
    have hupper := mul_le_mul_of_nonneg_right (Nat.cast_le (α := ℚ).mpr hle') hpos.le
    rw [Nat.cast_add, add_mul] at hlower hupper
    exact ⟨by linarith, by linarith, fun _ => hclosed.mp hc, fun _ => hclosed.mp hc⟩
  case isFalse =>
    obtain ⟨hlt, hlt'⟩ : (ofMagnitude n).value < m + (ofMagnitude n).below ∧
        m < (ofMagnitude n).value + (ofMagnitude n).above := by simpa using h
    have hlower := mul_lt_mul_of_pos_right (Nat.cast_lt (α := ℚ).mpr hlt) hpos
    have hupper := mul_lt_mul_of_pos_right (Nat.cast_lt (α := ℚ).mpr hlt') hpos
    rw [Nat.cast_add, add_mul] at hlower hupper
    exact ⟨by linarith, by linarith, fun h => by linarith, fun h => by linarith⟩

theorem scale_pos (e : ℤ) : 0 < scale e := by
  rw [scale]
  split <;> positivity

/-- The shortest decimal of a number rounds to it. -/
theorem isCell_shortest (hn : 0 < n) :
    IsCell ((ofMagnitude n).shortest.toRat * unitsOfOne) n := by
  have hscale := scale_pos (Binary.leastExponent + shift n)
  have hbelow : 0 < (ofMagnitude n).below := by
    refine Nat.mul_pos ?_ hscale
    split <;> decide
  have habove : 0 < (ofMagnitude n).above := Nat.mul_pos (by decide) hscale
  obtain ⟨m, hm, htoRat⟩ := exists_contains_shortestFrom hbelow habove _
  have hcell := isCell_of_contains hn hm
  rwa [unitSize, ← mul_assoc, ← htoRat] at hcell

end Cell

end Window

/-! ## Decimals written out -/

namespace Decimal

variable (d : Decimal)

theorem isDigit_toDigits (n : ℕ) : ∀ c ∈ Nat.toDigits 10 n, c.isDigit :=
  fun _ hc => Nat.isDigit_of_mem_toDigits (by decide) (by decide) hc

/-- Writing a decimal out in full denotes it. -/
theorem isNumeral_layout : IsNumeral d.layout d.toRat := by
  have hne : Nat.toDigits 10 d.digits ≠ [] := Nat.toDigits_ne_nil
  have hdigits := isDigit_toDigits d.digits
  have hvalue : Nat.ofDigitChars 10 (Nat.toDigits 10 d.digits) 0 = d.digits :=
    Nat.ofDigitChars_ten_toDigits
  rw [layout, toRat]
  generalize Nat.toDigits 10 d.digits = digits at hne hdigits hvalue
  dsimp only
  by_cases hexponent : 0 ≤ d.exponent
  · obtain ⟨k, hk⟩ := Int.eq_ofNat_of_zero_le hexponent
    have hwhole : IsNumeral (digits ++ List.replicate k '0') _ := .whole (by simp [hne])
      (List.forall_mem_append.mpr ⟨hdigits, isDigit_of_mem_zeros k⟩)
    rw [Nat.ofDigitChars_append, hvalue, Nat.ofDigitChars_replicate_zero, Nat.cast_mul,
      Nat.cast_pow, mul_comm] at hwhole
    rw [if_pos hexponent, hk, Int.toNat_natCast, zpow_natCast]
    exact hwhole
  · obtain ⟨k, hk⟩ : ∃ k : ℕ, d.exponent = -k := ⟨(-d.exponent).toNat, by omega⟩
    rw [if_neg hexponent, hk, neg_neg, Int.toNat_natCast, zpow_neg, zpow_natCast, ← div_eq_mul_inv]
    by_cases hplaces : k < digits.length
    · have hpoint : IsNumeral (digits.take (digits.length - k) ++
          '.' :: digits.drop (digits.length - k)) _ :=
        .point (by simp [hne]; omega) (fun c hc => hdigits c (List.mem_of_mem_take hc))
          (fun c hc => hdigits c (List.mem_of_mem_drop hc))
      rw [List.take_append_drop, hvalue, List.length_drop, Nat.sub_sub_self hplaces.le] at hpoint
      rwa [if_pos hplaces]
    · have hpoint : IsNumeral (List.replicate 1 '0' ++
          '.' :: (List.replicate (k - digits.length) '0' ++ digits)) _ :=
        .point (by simp) (isDigit_of_mem_zeros 1)
          (List.forall_mem_append.mpr ⟨isDigit_of_mem_zeros _, hdigits⟩)
      rw [ofDigitChars_zeros_append, ofDigitChars_zeros_append, hvalue, List.length_append,
        List.length_replicate, Nat.sub_add_cancel (not_lt.mp hplaces)] at hpoint
      rwa [if_neg hplaces]

end Decimal

end Peng

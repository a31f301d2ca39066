import Mathlib.Algebra.Order.Field.Power
import Mathlib.Tactic.FieldSimp
import Peng.Proofs.Number.Bits

/-!
# Nearest numbers

What it is to round a rational number to the nearest 64-bit number, `IsNearest`, said by distances
alone. The main statement is that there is one such number at most (`IsNearest.unique`).

## Shape of the proof

All numbers are whole multiples of `2 ^ (-1074)`. In these units rounding is the matter of
`Magnitude.IsCell`: `isNearest_of_isCell` leads back from there, and `IsNearest.isCell` leads there.
-/

namespace Peng

open Magnitude

/-! ## Rounding to the nearest number -/

/-- The value of a number that was taken apart. -/
def Binary.toRat (b : Binary) : ℚ :=
  (if b.negative then -1 else 1) * (b.mantissa * 2 ^ b.exponent)

/-- The end of the range: half a spacing above the largest finite number. -/
def rangeEnd : ℚ :=
  2 ^ 1024 - 2 ^ 970

/-- The number is the one that `q` is rounded to. No finite number is nearer to `q`, and where
another one is as near the mantissa is even; beyond the range it is infinity. Zero takes the sign of
what it was rounded from. -/
inductive IsNearest (q : ℚ) (x : Float) : Prop where
  | finite {b : Binary} (hx : Binary.ofFloat? x = some b) (hsign : b.negative = true ↔ q < 0)
      (hrange : |q| < rangeEnd)
      (hnear : ∀ y c, Binary.ofFloat? y = some c → |q - b.toRat| ≤ |q - c.toRat|)
      (heven : ∀ y c, Binary.ofFloat? y = some c → c.toRat ≠ b.toRat →
        |q - c.toRat| = |q - b.toRat| → Even b.mantissa)
  | infinite (hx : x.isInf) (hsign : x < 0 ↔ q < 0) (hrange : rangeEnd ≤ |q|)

/-! ## Values in units -/

section Units

variable {x : Float} {b : Binary}

/-- How often a unit goes into one. -/
def unitsOfOne : ℚ :=
  2 ^ 1074

theorem unitsOfOne_pos : 0 < unitsOfOne :=
  pow_pos two_pos 1074

theorem zpow_leastExponent_mul_unitsOfOne (k : ℕ) :
    (2 : ℚ) ^ (Binary.leastExponent + k) * unitsOfOne = 2 ^ k := by
  rw [unitsOfOne, ← zpow_natCast, ← zpow_natCast, ← zpow_add₀ two_ne_zero, Binary.leastExponent]
  congr 1
  omega

theorem ofFloat?_eq_some_iff : Binary.ofFloat? x = some b ↔ magnitude x < infinityBits ∧
    b = ⟨isNegative x, mantissa (magnitude x), Binary.leastExponent + shift (magnitude x)⟩ := by
  rw [ofFloat?_eq]
  split
  case isTrue hlt => simp [hlt, eq_comm]
  case isFalse hlt => simp [hlt]

theorem exists_ofFloat?_eq (h : magnitude x < infinityBits) : ∃ b, Binary.ofFloat? x = some b ∧
    b.negative = isNegative x ∧ b.mantissa = mantissa (magnitude x) :=
  ⟨_, ofFloat?_eq_some_iff.mpr ⟨h, rfl⟩, rfl, rfl⟩

theorem toRat_mul_unitsOfOne (h : Binary.ofFloat? x = some b) :
    b.toRat * unitsOfOne = (if b.negative then -1 else 1) * units (magnitude x) := by
  obtain ⟨-, rfl⟩ := ofFloat?_eq_some_iff.mp h
  rw [Binary.toRat, units, Nat.cast_mul, Nat.cast_pow, Nat.cast_two,
    ← zpow_leastExponent_mul_unitsOfOne]
  ring

theorem abs_toRat_mul_unitsOfOne (h : Binary.ofFloat? x = some b) :
    |b.toRat| * unitsOfOne = units (magnitude x) := by
  rw [← abs_of_pos unitsOfOne_pos, ← abs_mul, toRat_mul_unitsOfOne h, abs_mul, Nat.abs_cast]
  cases b.negative <;> simp

/-- Two numbers of one sign are as far apart as their magnitudes. -/
theorem abs_sub_toRat {q : ℚ} (hsign : b.negative = true ↔ q < 0) :
    |q - b.toRat| = |(|q| - |b.toRat|)| := by
  have hsize : (0 : ℚ) ≤ b.mantissa * 2 ^ b.exponent := by positivity
  rw [Binary.toRat]
  by_cases hq : q < 0
  · rw [if_pos (hsign.mpr hq), neg_one_mul, abs_neg, abs_of_neg hq, abs_of_nonneg hsize,
      ← abs_neg (q - _)]
    congr 1
    ring
  · rw [if_neg (hsign.not.mpr hq), one_mul, abs_of_nonneg (not_lt.mp hq), abs_of_nonneg hsize]

end Units

/-! ## Cells and nearest numbers -/

/-- The end of the range is in the middle of the last finite magnitude and the one behind it. -/
theorem units_add_units_infinityBits :
    (units (infinityBits - 1) + units infinityBits : ℚ) = 2 * (rangeEnd * unitsOfOne) := by
  have hlast : infinityBits - 1 = 2045 * 2 ^ 52 + (2 ^ 53 - 1) := rfl
  have hnext : infinityBits = 2045 * 2 ^ 52 + 2 ^ 53 := rfl
  have hunits : (units (infinityBits - 1) : ℚ) = (2 ^ 53 - 1) * 2 ^ 2045 := by
    rw [hlast, units_add (Nat.sub_le _ _) (.inr (by norm_num)), Nat.cast_mul, Nat.cast_pow,
      Nat.cast_two]
    congr 1
    norm_num
  have hunits' : (units infinityBits : ℚ) = 2 ^ 53 * 2 ^ 2045 := by
    rw [hnext, units_add le_rfl (.inr (by norm_num)), Nat.cast_mul, Nat.cast_pow, Nat.cast_pow,
      Nat.cast_two]
  have hpower : (2 : ℚ) ^ 1024 * unitsOfOne = 2 ^ 53 * 2 ^ 2045 := by
    rw [unitsOfOne, ← pow_add, ← pow_add]
  have hhalf : 2 * ((2 : ℚ) ^ 970 * unitsOfOne) = 2 ^ 2045 := by
    rw [unitsOfOne, ← pow_add, ← pow_succ']
  rw [rangeEnd, sub_mul, mul_sub, hpower, hhalf, hunits, hunits']
  generalize (2 : ℚ) ^ 2045 = spacing
  ring

theorem even_mantissa_iff (n : ℕ) : Even (mantissa n) ↔ Even n := by
  have hn := shift_mul_add_mantissa n
  rw [Nat.even_iff, Nat.even_iff]
  omega

theorem Unpacks.isInf_iff {negative : Bool} {n : ℕ} {u : Float.Model.UnpackedFloat}
    (h : Unpacks negative n u) : u.isInf ↔ n = infinityBits := by
  cases h with
  | zero => exact iff_of_false Bool.false_ne_true (by decide)
  | finite h hpos hlt => exact iff_of_false Bool.false_ne_true hlt.ne
  | infinity => exact iff_of_true rfl rfl

theorem isInf_iff (x : Float) : x.isInf ↔ magnitude x = infinityBits := by
  show x.toModel.unpack.isInf ↔ _
  obtain hle | hlt := le_or_gt (magnitude x) infinityBits
  · exact (unpacks hle).isInf_iff
  · rw [unpack_of_lt_magnitude hlt]
    exact iff_of_false Bool.false_ne_true hlt.ne'

section Cell

variable {q : ℚ} {x y : Float} {b c : Binary} {n : ℕ}

/-- Distances of absolute values are distances of magnitudes. -/
theorem abs_sub_abs_toRat_mul_unitsOfOne (h : Binary.ofFloat? x = some b) :
    |(|q| - |b.toRat|)| * unitsOfOne = |(|q| * unitsOfOne - units (magnitude x))| := by
  rw [← abs_toRat_mul_unitsOfOne h, ← sub_mul, abs_mul, abs_of_pos unitsOfOne_pos]

theorem lt_rangeEnd (hcell : IsCell (|q| * unitsOfOne) n) (hlt : n < infinityBits) :
    |q| < rangeEnd := by
  have hupper := hcell.le_upper
  have hmiddle := units_add_units_infinityBits
  by_contra hrange
  have hend := mul_le_mul_of_nonneg_right (not_lt.mp hrange) unitsOfOne_pos.le
  have hn := units_le (by omega : n ≤ infinityBits - 1)
  have hn' := units_le (by omega : n + 1 ≤ infinityBits)
  -- the last finite magnitude is odd, so the middle above it is not in its cell
  obtain rfl : n = infinityBits - 1 := eq_of_units_eq (by linarith)
  exact absurd (hcell.even_of_upper (by linarith)) (by decide)

theorem rangeEnd_le (hcell : IsCell (|q| * unitsOfOne) n) (hle : infinityBits ≤ n) :
    rangeEnd ≤ |q| := by
  have hlower := hcell.lower_le
  have hmiddle := units_add_units_infinityBits
  have hn := units_le (by omega : infinityBits - 1 ≤ n - 1)
  have hn' := units_le hle
  exact le_of_mul_le_mul_right (by linarith) unitsOfOne_pos

/-- A tie with a number of the same magnitude is a tie around zero. -/
theorem eq_zero_of_tie (h : |b.toRat| = |c.toRat|) (hne : c.toRat ≠ b.toRat)
    (htie : |q - c.toRat| = |q - b.toRat|) : q = 0 := by
  obtain heq | hneg := abs_eq_abs.mp h
  · exact absurd heq.symm hne
  · obtain heq | hneg' := abs_eq_abs.mp htie
    · exact absurd (by linarith) hne
    · linarith

/-- Rounding a magnitude to its cell, and infinity behind the last of them, is rounding to the
nearest number. -/
theorem isNearest_of_isCell (hsign : isNegative x = true ↔ q < 0)
    (hcell : IsCell (|q| * unitsOfOne) n) (hx : magnitude x = min n infinityBits) :
    IsNearest q x := by
  obtain hlt | hle := lt_or_ge n infinityBits
  · obtain rfl : magnitude x = n := by rw [hx, min_eq_left hlt.le]
    obtain ⟨b, hb, hnegative, hmantissa⟩ := exists_ofFloat?_eq hlt
    rw [← hnegative] at hsign
    have hpos := unitsOfOne_pos
    refine .finite hb hsign (lt_rangeEnd hcell hlt) (fun y c hc => ?_) (fun y c hc hne htie => ?_)
    · rw [abs_sub_toRat hsign]
      refine le_trans ?_ (abs_abs_sub_abs_le q c.toRat)
      refine le_of_mul_le_mul_right ?_ hpos
      rw [abs_sub_abs_toRat_mul_unitsOfOne hb, abs_sub_abs_toRat_mul_unitsOfOne hc]
      exact hcell.abs_sub_le _
    · rw [hmantissa, even_mantissa_iff]
      by_cases hm : magnitude y = magnitude x
      · have habs : |b.toRat| = |c.toRat| := by
          refine mul_right_cancel₀ hpos.ne' ?_
          rw [abs_toRat_mul_unitsOfOne hb, abs_toRat_mul_unitsOfOne hc, hm]
        rw [eq_zero_of_tie habs hne htie, abs_zero, zero_mul] at hcell
        rw [hcell.unique .zero]
        exact Even.zero
      · refine hcell.even_of_abs_sub_eq hm (le_antisymm ?_ (hcell.abs_sub_le _))
        rw [← abs_sub_abs_toRat_mul_unitsOfOne hb, ← abs_sub_abs_toRat_mul_unitsOfOne hc]
        refine mul_le_mul_of_nonneg_right ?_ hpos.le
        rw [← abs_sub_toRat hsign, ← htie]
        exact abs_abs_sub_abs_le q c.toRat
  · rw [min_eq_right hle] at hx
    refine .infinite ((isInf_iff x).mpr hx) ?_ (rangeEnd_le hcell hle)
    rw [lt_zero_iff hx.le, hsign, hx]
    exact and_iff_left (by decide)

theorem IsNearest.isNegative_iff (h : IsNearest q x) : isNegative x = true ↔ q < 0 := by
  cases h with
  | finite hb hsign =>
    obtain ⟨-, rfl⟩ := ofFloat?_eq_some_iff.mp hb
    exact hsign
  | infinite hx hsign =>
    rw [isInf_iff] at hx
    rw [← hsign, lt_zero_iff hx.le, hx]
    exact (and_iff_left (by decide)).symm

/-- A finite number that `q` is rounded to has `q` in its cell. -/
theorem IsNearest.isCell (h : IsNearest q x) (hfinite : magnitude x < infinityBits) :
    IsCell (|q| * unitsOfOne) (magnitude x) := by
  cases h with
  | infinite hx =>
    rw [isInf_iff] at hx
    omega
  | @finite b hb hsign hrange hnear heven =>
    have hpos := unitsOfOne_pos
    have hmiddle := units_add_units_infinityBits
    obtain ⟨b', hb', -, hmantissa⟩ := exists_ofFloat?_eq hfinite
    obtain rfl : b' = b := by simpa [hb] using hb'.symm
    rw [hmantissa, even_mantissa_iff] at heven
    rw [abs_sub_toRat hsign] at hnear heven
    -- a magnitude next to this one is that of a finite number, or is beyond the end of the range
    have hneighbour {m : ℕ} (hm : m + 1 = magnitude x ∨ m = magnitude x + 1) :
        (∃ y c, Binary.ofFloat? y = some c ∧ magnitude y = m ∧
          |q - c.toRat| = |(|q| - |c.toRat|)|) ∨
        magnitude x < m ∧ 2 * (|q| * unitsOfOne) < units (magnitude x) + units m := by
      by_cases hlt : m < infinityBits
      · obtain ⟨y, hy, rfl⟩ := exists_magnitude_eq b'.negative hlt.le
        obtain ⟨c, hc, hcnegative, -⟩ := exists_ofFloat?_eq hlt
        exact .inl ⟨y, c, hc, rfl, abs_sub_toRat (by rw [hcnegative, hy, hsign])⟩
      · obtain rfl : m = infinityBits := by omega
        have hlast : magnitude x = infinityBits - 1 := by omega
        have hend := mul_lt_mul_of_pos_right hrange hpos
        exact .inr ⟨hfinite, by rw [hlast]; linarith⟩
    refine .of_abs_sub_le (by positivity) (fun m hm => ?_) (fun m hm hle => ?_)
    · obtain ⟨y, c, hc, rfl, hdistance⟩ | ⟨hlt, hbelow⟩ := hneighbour hm
      · rw [← abs_sub_abs_toRat_mul_unitsOfOne hb, ← abs_sub_abs_toRat_mul_unitsOfOne hc,
          ← hdistance]
        exact mul_le_mul_of_nonneg_right (hnear y c hc) hpos.le
      · exact (abs_sub_le_iff_le_add (units_lt hlt)).mpr hbelow.le
    · obtain ⟨y, c, hc, rfl, hdistance⟩ | ⟨hlt, hbelow⟩ := hneighbour hm
      · rw [← abs_sub_abs_toRat_mul_unitsOfOne hb, ← abs_sub_abs_toRat_mul_unitsOfOne hc,
          ← hdistance] at hle
        refine heven y c hc (fun heq => ?_)
          (le_antisymm (le_of_mul_le_mul_right hle hpos) (hnear y c hc))
        have hunits := abs_toRat_mul_unitsOfOne hc
        rw [heq, abs_toRat_mul_unitsOfOne hb] at hunits
        have := eq_of_units_eq hunits
        omega
      · exact absurd ((abs_sub_le_iff_add_le (units_lt hlt)).mp hle) (not_le.mpr hbelow)

theorem IsNearest.lt_infinityBits_iff (h : IsNearest q x) :
    magnitude x < infinityBits ↔ |q| < rangeEnd := by
  cases h with
  | finite hb hsign hrange => exact iff_of_true (ofFloat?_eq_some_iff.mp hb).1 hrange
  | infinite hx hsign hrange =>
    exact iff_of_false ((isInf_iff x).mp hx).not_lt (not_lt.mpr hrange)

/-- There is one number at most to round to. -/
theorem IsNearest.unique (h : IsNearest q x) (h' : IsNearest q y) : x = y := by
  have hsign : isNegative x = isNegative y := by
    rw [Bool.eq_iff_iff, h.isNegative_iff, h'.isNegative_iff]
  refine eq_of_magnitude_eq hsign ?_
  by_cases hrange : |q| < rangeEnd
  · exact (h.isCell (h.lt_infinityBits_iff.mpr hrange)).unique
      (h'.isCell (h'.lt_infinityBits_iff.mpr hrange))
  · cases h with
    | finite _ _ hx => exact absurd hx hrange
    | infinite hx =>
      cases h' with
      | finite _ _ hy => exact absurd hy hrange
      | infinite hy => rw [(isInf_iff x).mp hx, (isInf_iff y).mp hy]

end Cell

end Peng

import Mathlib.Algebra.Group.Nat.Even
import Mathlib.Algebra.Order.Field.Basic
import Mathlib.Data.Rat.Cast.Order
import Mathlib.Order.Monotone.Basic
import Mathlib.Tactic.Linarith
import Mathlib.Tactic.NormNum
import Mathlib.Tactic.Positivity
import Mathlib.Tactic.Ring

/-!
# Magnitudes

The bit patterns of the numbers that are not negative, read as natural numbers, count these numbers
in the order of their values. All of them are whole multiples of the least positive one, so the
`n`-th magnitude is a natural number of units, `Magnitude.units n`; the one behind the largest
finite number, whose pattern is that of infinity, goes on with the same rule.

A quantity rounds to the `n`-th magnitude if it lies between the middles to the magnitudes next to
it, `Magnitude.IsCell`. The main statements are that such a magnitude is a nearest one
(`IsCell.abs_sub_le`, `IsCell.even_of_abs_sub_eq`, and back `IsCell.of_abs_sub_le`) and that
rounding keeps the order (`IsCell.le_of_le`), so that there is at most one magnitude to round to
(`IsCell.unique`).
-/

namespace Peng.Magnitude

/-! ## The units of a magnitude -/

/-- How often the spacing of magnitudes has doubled up to the `n`-th one. -/
def shift (n : ℕ) : ℕ :=
  n / 2 ^ 52 - 1

/-- The `n`-th magnitude counted in its own spacing. -/
def mantissa (n : ℕ) : ℕ :=
  n - shift n * 2 ^ 52

/-- The `n`-th magnitude counted in the least spacing. -/
def units (n : ℕ) : ℕ :=
  mantissa n * 2 ^ shift n

/-- The spacing has doubled `k` times where `r` of it are a magnitude: `r` has 53 binary digits, or
fewer where the spacing is the least one. -/
structure IsPlace (k r : ℕ) : Prop where
  lt : r < 2 ^ 53
  normal : k = 0 ∨ 2 ^ 52 ≤ r

theorem isPlace (n : ℕ) : IsPlace (shift n) (mantissa n) := by
  constructor
  · simp only [mantissa, shift]
    omega
  · simp only [mantissa, shift]
    omega

theorem shift_mul_add_mantissa (n : ℕ) : shift n * 2 ^ 52 + mantissa n = n := by
  simp only [mantissa, shift]
  omega

theorem mantissa_ne_zero {n : ℕ} (hn : n ≠ 0) : mantissa n ≠ 0 := by
  have hsum := shift_mul_add_mantissa n
  have hnormal := (isPlace n).normal
  omega

section Place

variable {k r : ℕ}

theorem IsPlace.shift_eq (h : IsPlace k r) : shift (k * 2 ^ 52 + r) = k := by
  obtain ⟨hlt, hnormal⟩ := h
  rw [shift]
  omega

theorem IsPlace.mantissa_eq (h : IsPlace k r) : mantissa (k * 2 ^ 52 + r) = r := by
  rw [mantissa, h.shift_eq]
  omega

/-- Where the spacing is greater all magnitudes are. -/
theorem IsPlace.add_lt_add {k' r' : ℕ} (h : IsPlace k r) (h' : IsPlace k' r') (hk : k < k') :
    k * 2 ^ 52 + r < k' * 2 ^ 52 + r' := by
  have hlt := h.lt
  have hnormal := h'.normal
  omega

/-- A mantissa that has grown to the next power of two carries over. -/
theorem units_add (hr : r ≤ 2 ^ 53) (hnormal : k = 0 ∨ 2 ^ 52 ≤ r) :
    units (k * 2 ^ 52 + r) = r * 2 ^ k := by
  obtain hr | rfl := Nat.lt_or_eq_of_le hr
  · have hplace : IsPlace k r := ⟨hr, hnormal⟩
    rw [units, hplace.shift_eq, hplace.mantissa_eq]
  · have hnext : IsPlace (k + 1) (2 ^ 52) := ⟨by norm_num, .inr le_rfl⟩
    have hcarry : k * 2 ^ 52 + 2 ^ 53 = (k + 1) * 2 ^ 52 + 2 ^ 52 := by ring
    rw [hcarry, units, hnext.shift_eq, hnext.mantissa_eq]
    ring

end Place

theorem units_zero : units 0 = 0 := rfl

theorem units_succ (n : ℕ) : units (n + 1) = units n + 2 ^ shift n := by
  obtain ⟨hlt, hnormal⟩ := isPlace n
  have hn : n + 1 = shift n * 2 ^ 52 + (mantissa n + 1) := by
    rw [← Nat.add_assoc, shift_mul_add_mantissa]
  rw [hn, units_add (r := mantissa n + 1) hlt (hnormal.imp id Nat.le_succ_of_le), units]
  ring

/-- The spacing below a magnitude is half of that above it where it has just doubled. -/
theorem shift_pred {n : ℕ} (hn : 0 < n) :
    shift (n - 1) = if mantissa n = 2 ^ 52 ∧ 0 < shift n then shift n - 1 else shift n := by
  by_cases hdoubled : mantissa n = 2 ^ 52 ∧ 0 < shift n
  · rw [if_pos hdoubled]
    simp only [mantissa, shift] at hdoubled ⊢
    omega
  · rw [if_neg hdoubled]
    simp only [mantissa, shift] at hdoubled ⊢
    omega

theorem units_strictMono : StrictMono units := by
  refine strictMono_nat_of_lt_succ fun n => ?_
  rw [units_succ]
  exact Nat.lt_add_of_pos_right (by positivity)

/-- Units compare as the numbers of their magnitudes do, also as quotients. -/
theorem units_le {m n : ℕ} (h : m ≤ n) : (units m : ℚ) ≤ units n := by
  exact_mod_cast units_strictMono.monotone h

theorem units_lt {m n : ℕ} (h : m < n) : (units m : ℚ) < units n := by
  exact_mod_cast units_strictMono h

theorem ne_zero_of_units_pos {n : ℕ} (h : (0 : ℚ) < units n) : n ≠ 0 := by
  rintro rfl
  simp [units_zero] at h

theorem eq_of_units_eq {m n : ℕ} (h : (units m : ℚ) = units n) : m = n := by
  exact units_strictMono.injective (by exact_mod_cast h)

/-! ## Cells -/

section Middle

variable {a b t : ℚ}

/-- What is not above the middle is not nearer to the upper end. -/
theorem abs_sub_le_iff_le_add (h : a < b) : |t - a| ≤ |t - b| ↔ 2 * t ≤ a + b := by
  have hsquares : (t - b) ^ 2 - (t - a) ^ 2 = (b - a) * (a + b - 2 * t) := by ring
  rw [← sq_le_sq, ← sub_nonneg, hsquares, mul_nonneg_iff_of_pos_left (sub_pos.mpr h), sub_nonneg]

/-- What is not below the middle is not nearer to the lower end. -/
theorem abs_sub_le_iff_add_le (h : a < b) : |t - b| ≤ |t - a| ↔ a + b ≤ 2 * t := by
  have hsquares : (t - a) ^ 2 - (t - b) ^ 2 = (b - a) * (2 * t - (a + b)) := by ring
  rw [← sq_le_sq, ← sub_nonneg, hsquares, mul_nonneg_iff_of_pos_left (sub_pos.mpr h), sub_nonneg]

end Middle

/-- The `n`-th magnitude is the one to round `t` units to: `t` is not beyond the middles between it
and the magnitudes next to it, and on such a middle only if `n` is even. -/
structure IsCell (t : ℚ) (n : ℕ) : Prop where
  lower_le : units (n - 1) + units n ≤ 2 * t
  le_upper : 2 * t ≤ units n + units (n + 1)
  even_of_lower : 2 * t = units (n - 1) + units n → Even n
  even_of_upper : 2 * t = units n + units (n + 1) → Even n

namespace IsCell

variable {t t' : ℚ} {m n n' : ℕ}

/-- Rounding keeps the order. -/
theorem le_of_le (h : IsCell t n) (h' : IsCell t' n') (hle : t ≤ t') : n ≤ n' := by
  by_contra hlt
  rw [not_le] at hlt
  have hlow := units_le (by omega : n' ≤ n - 1)
  have hhigh := units_le (by omega : n' + 1 ≤ n)
  have hlower := h.lower_le
  have hupper := h'.le_upper
  -- all of these are equal, and of two neighbours one is odd
  have hn : n' + 1 = n := eq_of_units_eq (by linarith)
  have heven := h.even_of_lower (by linarith)
  have heven' := h'.even_of_upper (by linarith)
  rw [Nat.even_iff] at heven heven'
  omega

theorem unique (h : IsCell t n) (h' : IsCell t n') : n = n' :=
  Nat.le_antisymm (h.le_of_le h' le_rfl) (h'.le_of_le h le_rfl)

theorem pos (h : IsCell t n) (hn : n ≠ 0) : 0 < t := by
  have hlower := h.lower_le
  have hfirst := units_lt (Nat.pos_of_ne_zero hn)
  have hprevious : (0 : ℚ) ≤ units (n - 1) := Nat.cast_nonneg _
  rw [units_zero, Nat.cast_zero] at hfirst
  linarith

/-- A magnitude rounds to itself. -/
theorem of_units (n : ℕ) : IsCell (units n) n where
  lower_le := by linarith [units_le (Nat.sub_le n 1)]
  le_upper := by linarith [units_le (Nat.le_succ n)]
  even_of_lower h := by
    have hn : n - 1 = n := eq_of_units_eq (by linarith)
    obtain rfl : n = 0 := by omega
    exact Even.zero
  even_of_upper h := by
    have hn : n = n + 1 := eq_of_units_eq (by linarith)
    omega

theorem zero : IsCell 0 0 := by
  simpa [units_zero] using of_units 0

/-- No magnitude is nearer than the one of the cell. -/
theorem abs_sub_le (h : IsCell t n) (m : ℕ) : |t - units n| ≤ |t - units m| := by
  have hlower := h.lower_le
  have hupper := h.le_upper
  obtain hlt | rfl | hlt := Nat.lt_trichotomy m n
  · rw [abs_sub_le_iff_add_le (units_lt hlt)]
    linarith [units_le (by omega : m ≤ n - 1)]
  · exact le_rfl
  · rw [abs_sub_le_iff_le_add (units_lt hlt)]
    linarith [units_le (by omega : n + 1 ≤ m)]

/-- Where another magnitude is as near, the one of the cell is even. -/
theorem even_of_abs_sub_eq (h : IsCell t n) (hne : m ≠ n)
    (heq : |t - units m| = |t - units n|) : Even n := by
  have hlower := h.lower_le
  have hupper := h.le_upper
  obtain hlt | hlt := Nat.lt_or_gt_of_ne hne
  · have hm := units_le (by omega : m ≤ n - 1)
    have hle := (abs_sub_le_iff_le_add (units_lt hlt)).mp heq.le
    exact h.even_of_lower (by linarith)
  · have hm := units_le (by omega : n + 1 ≤ m)
    have hle := (abs_sub_le_iff_add_le (units_lt hlt)).mp heq.le
    exact h.even_of_upper (by linarith)

/-- A magnitude has `t` in its cell if neither of those next to it is nearer, nor as near unless
`n` is even. -/
theorem of_abs_sub_le (ht : 0 ≤ t)
    (hnear : ∀ m, m + 1 = n ∨ m = n + 1 → |t - units n| ≤ |t - units m|)
    (heven : ∀ m, m + 1 = n ∨ m = n + 1 → |t - units m| ≤ |t - units n| → Even n) :
    IsCell t n := by
  have habove := units_lt (Nat.lt_succ_self n)
  have hupper := (abs_sub_le_iff_le_add habove).mp (hnear _ (.inr rfl))
  have heven_upper (h : 2 * t = units n + units (n + 1)) : Even n :=
    heven _ (.inr rfl) ((abs_sub_le_iff_add_le habove).mpr h.ge)
  cases n with
  | zero => exact ⟨by simpa [units_zero] using ht, hupper, fun _ => Even.zero, heven_upper⟩
  | succ n =>
    have hbelow := units_lt (Nat.lt_succ_self n)
    exact ⟨(abs_sub_le_iff_add_le hbelow).mp (hnear _ (.inl rfl)), hupper,
      fun h => heven _ (.inl rfl) ((abs_sub_le_iff_le_add hbelow).mpr h.le), heven_upper⟩

end IsCell

end Peng.Magnitude

import Peng.Proofs.Number.Rounding

/-!
# Products

The product of two finite numbers is the number nearest to the exact product, `isNearest_mul`.

The arithmetic of numbers shifts the product of the mantissas to the right, and keeps in two bits
what it needs of the places that are dropped. `IsShifted` says what these bits mean, every shift
keeps it (`IsShifted.shiftRight`), and rounding by the two bits is rounding to a whole number
(`IsShifted.isRounded`).
-/

namespace Peng

open Magnitude Float.Model

/-! ## Shifting -/

/-- The mantissa and its round bit are `y` cut off behind the first binary place, and the other bit
says whether anything was cut off. -/
structure IsShifted (m : UnpackedFloat.ExtendedMantissa) (y : ℚ) : Prop where
  le : 2 * (m.mantissa : ℚ) + m.roundBit.toNat ≤ 2 * y
  lt : 2 * y < 2 * m.mantissa + m.roundBit.toNat + 1
  sticky_iff : m.stickyBit = false ↔ 2 * y = 2 * m.mantissa + m.roundBit.toNat

namespace IsShifted

variable {m : UnpackedFloat.ExtendedMantissa} {y : ℚ}

theorem exact (n : ℕ) : IsShifted (.ofMantissaAndAccuracy n .exact) n where
  le := by simp [UnpackedFloat.ExtendedMantissa.ofMantissaAndAccuracy]
  lt := by simp [UnpackedFloat.ExtendedMantissa.ofMantissaAndAccuracy]
  sticky_iff := by simp [UnpackedFloat.ExtendedMantissa.ofMantissaAndAccuracy]

/-- The round bit of a mantissa that is shifted is its last one. -/
theorem two_mul_div_two_add (n : ℕ) : 2 * ((n / 2 : ℕ) : ℚ) + (n % 2 != 0).toNat = n := by
  have hbit : (n % 2 != 0).toNat = n % 2 := by
    obtain h | h := Nat.mod_two_eq_zero_or_one n <;> rw [h] <;> rfl
  rw [hbit]
  exact_mod_cast Nat.div_add_mod n 2

theorem shiftRightOne (h : IsShifted m y) : IsShifted m.shiftRightOne (y / 2) := by
  obtain ⟨hle, hlt, hsticky⟩ := h
  have hbits := two_mul_div_two_add m.mantissa
  have hround : (0 : ℚ) ≤ m.roundBit.toNat := Nat.cast_nonneg _
  have hround' : (m.roundBit.toNat : ℚ) ≤ 1 := by exact_mod_cast Bool.toNat_le m.roundBit
  refine ⟨?_, ?_, ?_⟩
  · simp only [UnpackedFloat.ExtendedMantissa.shiftRightOne]
    linarith
  · simp only [UnpackedFloat.ExtendedMantissa.shiftRightOne]
    linarith
  · simp only [UnpackedFloat.ExtendedMantissa.shiftRightOne, hbits, Bool.or_eq_false_iff, hsticky]
    constructor
    · rintro ⟨hr, heq⟩
      rw [hr, Bool.toNat_false, Nat.cast_zero] at heq
      linarith
    · intro heq
      have hzero : (m.roundBit.toNat : ℚ) = 0 := le_antisymm (by linarith) hround
      exact ⟨by simpa using hzero, by linarith⟩

theorem shiftRight (h : IsShifted m y) (s : ℕ) : IsShifted (m >>> s) (y / 2 ^ s) := by
  show IsShifted (s.repeat UnpackedFloat.ExtendedMantissa.shiftRightOne m) _
  induction s with
  | zero => simpa [Nat.repeat] using h
  | succ s ih =>
    rw [Nat.repeat, pow_succ, ← div_div]
    exact ih.shiftRightOne

/-- The two bits tell on which side of the half `y` is. -/
theorem isRounded (h : IsShifted m y) : IsRounded y m.roundedMantissa := by
  obtain ⟨n, round, sticky⟩ := m
  obtain ⟨hle, hlt, hsticky⟩ := h
  dsimp only at hle hlt hsticky
  cases round with
  | false =>
    rw [Bool.toNat_false, Nat.cast_zero, add_zero] at hle hlt hsticky
    have hrounded : IsRounded y n := by
      apply IsRounded.of_abs_sub_lt
      rw [abs_of_nonneg (by linarith)]
      linarith
    cases sticky <;> exact hrounded
  | true =>
    rw [Bool.toNat_true, Nat.cast_one] at hle hlt hsticky
    cases sticky with
    | false => exact .of_half (hsticky.mp rfl)
    | true =>
      have hne : 2 * y ≠ 2 * n + 1 := hsticky.not.mp Bool.noConfusion
      have hgt := lt_of_le_of_ne hle hne.symm
      have hrounded : IsRounded y (n + 1) := by
        apply IsRounded.of_abs_sub_lt
        rw [Nat.cast_succ, abs_of_nonpos (by linarith)]
        linarith
      exact hrounded

end IsShifted

/-! ## Rounding a mantissa and its exponent -/

section Round

variable {n : ℕ} {e : ℤ}

theorem targetExponent_binary64 (n : ℕ) (e : ℤ) :
    Format.binary64.targetExponent (totalExponent n e) =
      max (n.log2 + e - 52) Binary.leastExponent := by
  have hleast : Format.binary64.minExponent = Binary.leastExponent := rfl
  have hbits : Format.binary64.mantissaBits = 53 := rfl
  rw [Format.targetExponent, hleast, hbits, totalExponent]
  congr 1
  omega

/-- The first shift, to the spacing of the numbers around the value. -/
theorem exists_isShifted (hn : 0 < n) (he : e ≤ Binary.leastExponent ∨ 2 ^ 52 ≤ n) :
    ∃ (m : UnpackedFloat.ExtendedMantissa) (k : ℕ) (y : ℚ),
      UnpackedFloat.shiftToTargetExponent .binary64 n e .exact = (m, Binary.leastExponent + k) ∧
      IsShifted m y ∧ y * 2 ^ k = n * 2 ^ e * unitsOfOne ∧
      0 ≤ y ∧ y < 2 ^ 53 ∧ (k = 0 ∨ 2 ^ 52 ≤ y) := by
  have hnormal : e ≤ Binary.leastExponent ∨ 52 ≤ n.log2 := he.imp id (Nat.le_log2 hn.ne').mpr
  rw [UnpackedFloat.shiftToTargetExponent, targetExponent_binary64]
  generalize htarget : max (n.log2 + e - 52) Binary.leastExponent = target
  obtain ⟨s, hs⟩ : ∃ s : ℕ, target = e + s := ⟨(target - e).toNat, by omega⟩
  obtain ⟨k, hk⟩ : ∃ k : ℕ, target = Binary.leastExponent + k :=
    ⟨(target - Binary.leastExponent).toNat, by omega⟩
  have hpos : (0 : ℚ) < 2 ^ s := by positivity
  refine ⟨_, k, n / 2 ^ s, ?_, (IsShifted.exact n).shiftRight s, ?_, by positivity, ?_, ?_⟩
  · have hshift : (target - e).toNat = s := by omega
    simp only [UnpackedFloat.shiftToExponent, hshift, ← hk, ← hs]
  · rw [← zpow_leastExponent_mul_unitsOfOne k, ← hk, hs, zpow_add₀ two_ne_zero, zpow_natCast]
    field_simp
  · have hlt : (n : ℚ) < 2 ^ (n.log2 + 1) := by exact_mod_cast Nat.lt_log2_self
    rw [div_lt_iff₀ hpos, ← pow_add]
    exact hlt.trans_le (pow_le_pow_right₀ one_le_two (by omega))
  · refine or_iff_not_imp_left.mpr fun hk0 => ?_
    have hle : (2 : ℚ) ^ n.log2 ≤ n := by exact_mod_cast Nat.log2_self_le hn.ne'
    rw [le_div_iff₀ hpos, ← pow_add]
    exact (pow_le_pow_right₀ one_le_two (by omega)).trans hle

/-- The second shift, after which the mantissa has no more digits than it may have. -/
theorem shiftToTargetExponent_exact {k r : ℕ} (hr : r ≤ 2 ^ 53) (hnormal : k = 0 ∨ 2 ^ 52 ≤ r) :
    (UnpackedFloat.shiftToTargetExponent .binary64 r (Binary.leastExponent + k) .exact).1.mantissa =
      mantissa (k * 2 ^ 52 + r) ∧
    (UnpackedFloat.shiftToTargetExponent .binary64 r (Binary.leastExponent + k) .exact).2 =
      Binary.leastExponent + shift (k * 2 ^ 52 + r) := by
  rw [UnpackedFloat.shiftToTargetExponent, targetExponent_binary64, UnpackedFloat.shiftToExponent]
  obtain hlt | rfl := Nat.lt_or_eq_of_le hr
  · have hplace : IsPlace k r := ⟨hlt, hnormal⟩
    have hlog : r.log2 ≤ 52 := by
      obtain rfl | hpos := Nat.eq_zero_or_pos r
      · exact Nat.zero_le _
      · exact Nat.le_of_lt_succ ((Nat.log2_lt hpos.ne').mpr hlt)
    have hshift : (max (r.log2 + (Binary.leastExponent + k) - 52) Binary.leastExponent -
        (Binary.leastExponent + k)).toNat = 0 := by omega
    dsimp only
    rw [hshift, hplace.mantissa_eq, hplace.shift_eq]
    exact ⟨rfl, add_zero _⟩
  · have hplace : IsPlace (k + 1) (2 ^ 52) := ⟨by norm_num, .inr le_rfl⟩
    have hcarry : k * 2 ^ 52 + 2 ^ 53 = (k + 1) * 2 ^ 52 + 2 ^ 52 := by ring
    have hshift : (max (((2 ^ 53).log2 : ℕ) + (Binary.leastExponent + k) - 52)
        Binary.leastExponent - (Binary.leastExponent + k)).toNat = 1 := by
      rw [Nat.log2_two_pow]
      omega
    dsimp only
    rw [hshift, hcarry, hplace.mantissa_eq, hplace.shift_eq]
    exact ⟨rfl, add_assoc _ _ _⟩

theorem exists_isCell_roundWithAccuracy (negative : Bool) (hn : 0 < n)
    (he : e ≤ Binary.leastExponent ∨ 2 ^ 52 ≤ n) :
    ∃ c, IsCell (n * 2 ^ e * unitsOfOne) c ∧
      (UnpackedFloat.pack .binary64 (UnpackedFloat.roundWithAccuracy .binary64 (signOf negative) n e
        .exact)).toNat = negative.toNat * 2 ^ 63 + min c infinityBits := by
  obtain ⟨m, k, y, hshift, hshifted, hy, hnonneg, hlt, hnormal⟩ := exists_isShifted hn he
  have hrounded := hshifted.isRounded
  have hcell := hrounded.isCell hnonneg hlt hnormal
  obtain ⟨hmantissa, hexponent⟩ :=
    shiftToTargetExponent_exact (hrounded.le_two_pow hlt) (hnormal.imp id hrounded.two_pow_le)
  obtain ⟨c, hc⟩ : ∃ c, k * 2 ^ 52 + m.roundedMantissa = c := ⟨_, rfl⟩
  rw [hc] at hcell hmantissa hexponent
  refine ⟨c, hy ▸ hcell, ?_⟩
  rw [UnpackedFloat.roundWithAccuracy, hshift]
  dsimp only
  generalize UnpackedFloat.shiftToTargetExponent .binary64 m.roundedMantissa _ .exact = final at *
  obtain ⟨⟨r, round, sticky⟩, e'⟩ := final
  obtain rfl : r = mantissa c := hmantissa
  obtain rfl : e' = Binary.leastExponent + shift c := hexponent
  have hc := shift_mul_add_mantissa c
  by_cases hzero : mantissa c = 0
  · have hc0 : c = 0 := not_not.mp fun hne => mantissa_ne_zero hne hzero
    rw [dif_pos hzero, hc0, min_eq_left (Nat.zero_le _)]
    exact Unpacks.zero.toNat_pack
  · rw [dif_neg hzero, toNat_pack_finite (isPlace c), hc]

end Round

/-! ## Multiplying numbers -/

theorem Unpacks.exists_finite {negative : Bool} {n : ℕ} {u : UnpackedFloat}
    (h : Unpacks negative n u) (hn : n ≠ 0) (hlt : n < infinityBits) :
    ∃ hpos, u = .finite (signOf negative) (mantissa n) (Binary.leastExponent + shift n) hpos := by
  cases h with
  | zero => exact absurd rfl hn
  | @finite k r h hpos =>
    have hfinite {m : ℕ} (hm : m = r) : ∃ hpos', UnpackedFloat.finite (signOf negative) r
        (Binary.leastExponent + k) hpos = .finite (signOf negative) m (Binary.leastExponent + k)
          hpos' := by
      subst hm
      exact ⟨hpos, rfl⟩
    rw [h.shift_eq]
    exact hfinite h.mantissa_eq
  | infinity => exact absurd hlt (lt_irrefl _)

theorem Unpacks.eq_infinity {negative : Bool} {n : ℕ} {u : UnpackedFloat}
    (h : Unpacks negative n u) (hn : n = infinityBits) : u = .infinity (signOf negative) := by
  cases h with
  | zero => exact absurd hn (by decide)
  | finite h hpos hlt => exact absurd hn hlt.ne
  | infinity => rfl

section Product

variable {x y : Float}

theorem mul_eq (x y : Float) :
    x * y = .ofModel (.pack (.mul .binary64 x.toModel.unpack y.toModel.unpack)) := rfl

theorem infinity_mul_finite (s s' : UnpackedFloat.Sign) (n : ℕ) (e : ℤ) (h : 0 < n) :
    UnpackedFloat.mul .binary64 (.infinity s) (.finite s' n e h) = .infinity (s * s') := rfl

theorem finite_mul_finite (s s' : UnpackedFloat.Sign) (n n' : ℕ) (e e' : ℤ) (h : 0 < n)
    (h' : 0 < n') : UnpackedFloat.mul .binary64 (.finite s n e h) (.finite s' n' e' h') =
      UnpackedFloat.roundWithAccuracy .binary64 (s * s') (n * n') (e + e') .exact := rfl

theorem signOf_mul (a b : Bool) : signOf a * signOf b = signOf (a ^^ b) := by
  cases a <;> cases b <;> rfl

/-- The magnitude of a product is the one to round the exact product to. -/
theorem exists_isCell_mul (hx : magnitude x ≠ 0) (hx' : magnitude x < infinityBits)
    (hy : magnitude y ≠ 0) (hy' : magnitude y < infinityBits) :
    ∃ c, IsCell (units (magnitude x) * units (magnitude y) / unitsOfOne) c ∧
      isNegative (x * y) = (isNegative x ^^ isNegative y) ∧
      magnitude (x * y) = min c infinityBits := by
  obtain ⟨hpos, hunpack⟩ := (unpacks hx'.le).exists_finite hx hx'
  obtain ⟨hpos', hunpack'⟩ := (unpacks hy'.le).exists_finite hy hy'
  have hexponent : Binary.leastExponent + (shift (magnitude x) : ℤ) +
        (Binary.leastExponent + shift (magnitude y)) ≤ Binary.leastExponent ∨
      2 ^ 52 ≤ mantissa (magnitude x) * mantissa (magnitude y) := by
    obtain hk | hm := (isPlace (magnitude x)).normal
    · obtain hk' | hm' := (isPlace (magnitude y)).normal
      · rw [hk, hk', Binary.leastExponent]
        exact .inl (by norm_num)
      · exact .inr (hm'.trans (Nat.le_mul_of_pos_left _ hpos))
    · exact .inr (hm.trans (Nat.le_mul_of_pos_right _ hpos'))
  obtain ⟨c, hcell, hbits⟩ := exists_isCell_roundWithAccuracy (isNegative x ^^ isNegative y)
    (Nat.mul_pos hpos hpos') hexponent
  refine ⟨c, ?_, isNegative_eq_and_magnitude_eq ?_ (min_le_right _ _)⟩
  · convert hcell using 1
    have hunits (n : ℕ) :
        (units n : ℚ) = mantissa n * 2 ^ (Binary.leastExponent + (shift n : ℤ)) * unitsOfOne := by
      rw [mul_assoc, zpow_leastExponent_mul_unitsOfOne, units, Nat.cast_mul, Nat.cast_pow,
        Nat.cast_two]
    rw [hunits, hunits, zpow_add₀ two_ne_zero (Binary.leastExponent + _), Nat.cast_mul,
      div_eq_iff unitsOfOne_pos.ne']
    ring
  · rw [mul_eq, hunpack, hunpack', finite_mul_finite, signOf_mul]
    exact hbits

theorem infinity_mul (hx : magnitude x = infinityBits) (hy : magnitude y ≠ 0)
    (hy' : magnitude y < infinityBits) :
    isNegative (x * y) = (isNegative x ^^ isNegative y) ∧ magnitude (x * y) = infinityBits := by
  obtain ⟨hpos, hunpack⟩ := (unpacks hy'.le).exists_finite hy hy'
  rw [mul_eq, (unpacks hx.le).eq_infinity hx, hunpack, infinity_mul_finite,
    signOf_mul]
  exact Unpacks.infinity.ofModel_pack

end Product

end Peng

import Peng.Number.Binary
import Peng.Proofs.Number.Magnitude

/-!
# Numbers and their bits

A 64-bit number is a sign and a magnitude, as its bits give them (`isNegative`, `magnitude`), and
all but NaN are told apart by them. `Unpacks` says what the arithmetic of numbers makes of a sign
and a magnitude; the main statements are that taking the bits of a number apart gives that
(`unpacks`), and that putting it together again gives the bits (`toNat_pack_finite`,
`Unpacks.toNat_pack`).
-/

namespace Peng

open Float.Model

/-- The sign of a number, which zero has as well. -/
def isNegative (x : Float) : Bool :=
  2 ^ 63 ≤ x.toBits.toNat

/-- The number of a number's magnitude. -/
def magnitude (x : Float) : ℕ :=
  x.toBits.toNat % 2 ^ 63

theorem infinityBits_eq : infinityBits = 2047 * 2 ^ 52 := rfl

/-! ## The fields of the bits -/

section Fields

variable (v : BitVec 64)

theorem toNat_unpackMantissa :
    (@UnpackedFloat.unpackMantissa .binary64 v).toNat = v.toNat % 2 ^ 52 := by
  simp [UnpackedFloat.unpackMantissa]

theorem toNat_unpackExponent :
    (@UnpackedFloat.unpackExponent .binary64 v).toNat = v.toNat / 2 ^ 52 % 2 ^ 11 := by
  simp [UnpackedFloat.unpackExponent, Nat.shiftRight_eq_div_pow]

theorem toNat_unpackSign :
    (@UnpackedFloat.unpackSign .binary64 v).toNat = v.toNat / 2 ^ 63 := by
  have hlt : v.toNat < 2 ^ 64 := v.isLt
  unfold UnpackedFloat.unpackSign
  simp only [BitVec.toNat_cast, BitVec.extractLsb_toNat, Nat.shiftRight_eq_div_pow]
  simp only [Nat.reduceAdd, Nat.reducePow, tsub_self, zero_add, pow_one, Nat.mod_succ_eq_iff_lt,
    Nat.succ_eq_add_one, gt_iff_lt]
  omega

theorem toNat_packComponents (s : UnpackedFloat.Sign) (e : BitVec 11) (m : BitVec 52) :
    (UnpackedFloat.packComponents .binary64 s e m).toNat =
      s.toBitVec.toNat * 2 ^ 63 + e.toNat * 2 ^ 52 + m.toNat := by
  rw [UnpackedFloat.packComponents, BitVec.toNat_append, BitVec.toNat_append,
    ← Nat.shiftLeft_add_eq_or_of_lt e.isLt, ← Nat.shiftLeft_add_eq_or_of_lt m.isLt,
    Nat.shiftLeft_eq, Nat.shiftLeft_eq]
  ring

theorem unpackExponent_eq_iff (e : BitVec 11) :
    @UnpackedFloat.unpackExponent .binary64 v = e ↔ v.toNat % 2 ^ 63 / 2 ^ 52 = e.toNat := by
  rw [← BitVec.toNat_inj, toNat_unpackExponent]
  omega

theorem unpackMantissa_eq_zero_iff :
    @UnpackedFloat.unpackMantissa .binary64 v = 0#_ ↔ v.toNat % 2 ^ 63 % 2 ^ 52 = 0 := by
  rw [← BitVec.toNat_inj, toNat_unpackMantissa]
  simp

end Fields

/-! ## Taking numbers apart -/

/-- The sign as the arithmetic of numbers has it. -/
def signOf (negative : Bool) : UnpackedFloat.Sign :=
  if negative then .negative else .positive

theorem toNat_toBitVec_signOf (negative : Bool) :
    (signOf negative).toBitVec.toNat = negative.toNat := by
  cases negative <;> rfl

theorem ofBitVec_unpackSign (v : BitVec 64) :
    UnpackedFloat.Sign.ofBitVec (@UnpackedFloat.unpackSign .binary64 v) =
      signOf (2 ^ 63 ≤ v.toNat) := by
  have hlt : v.toNat < 2 ^ 64 := v.isLt
  have hsign := toNat_unpackSign v
  unfold UnpackedFloat.Sign.ofBitVec signOf
  by_cases hnegative : 2 ^ 63 ≤ v.toNat
  · rw [if_neg, if_pos (by simpa using hnegative)]
    intro hzero
    rw [hzero, BitVec.toNat_zero] at hsign
    omega
  · rw [if_pos, if_neg (by simpa using hnegative)]
    apply BitVec.eq_of_toNat_eq
    rw [hsign]
    simp only [Nat.reducePow, BitVec.toNat_ofNat, pow_one, Nat.zero_mod, Nat.div_eq_zero_iff,
      OfNat.ofNat_ne_zero, false_or]
    omega

/-- What a sign and a magnitude are in the arithmetic of numbers. -/
inductive Unpacks (negative : Bool) : ℕ → UnpackedFloat → Prop where
  | zero : Unpacks negative 0 (.zero (signOf negative))
  | finite {k r : ℕ} (h : Magnitude.IsPlace k r) (hpos : 0 < r)
      (hlt : k * 2 ^ 52 + r < infinityBits) :
      Unpacks negative (k * 2 ^ 52 + r)
        (.finite (signOf negative) r (Binary.leastExponent + k) hpos)
  | infinity : Unpacks negative infinityBits (.infinity (signOf negative))

theorem Unpacks.of_eq {negative : Bool} {n m : ℕ} {e : ℤ} (hpos : 0 < m)
    (hm : Magnitude.mantissa n = m) (he : Binary.leastExponent + Magnitude.shift n = e)
    (hlt : n < infinityBits) : Unpacks negative n (.finite (signOf negative) m e hpos) := by
  subst hm he
  have hn := Magnitude.shift_mul_add_mantissa n
  have hfinite : Unpacks negative _ _ := .finite (Magnitude.isPlace n) hpos (by rwa [hn])
  rwa [hn] at hfinite

theorem unpacks_unpack (v : BitVec 64) (h : v.toNat % 2 ^ 63 ≤ infinityBits) :
    Unpacks (2 ^ 63 ≤ v.toNat) (v.toNat % 2 ^ 63) (UnpackedFloat.unpack .binary64 v) := by
  have hexponent := unpackExponent_eq_iff v
  have hmantissa := unpackMantissa_eq_zero_iff v
  generalize hn : v.toNat % 2 ^ 63 = n at h hexponent hmantissa
  rw [infinityBits_eq] at h
  unfold UnpackedFloat.unpack
  dsimp only
  rw [ofBitVec_unpackSign]
  by_cases hlast : n / 2 ^ 52 = 2047
  · rw [if_pos ((hexponent (-1#11)).mpr hlast)]
    obtain rfl : n = infinityBits := by
      rw [infinityBits_eq]
      omega
    rw [if_pos (hmantissa.mpr (by rw [infinityBits_eq]; norm_num))]
    exact .infinity
  · rw [if_neg ((hexponent (-1#11)).not.mpr hlast)]
    have hlt : n < infinityBits := by
      rw [infinityBits_eq]
      omega
    by_cases hfirst : n / 2 ^ 52 = 0
    · rw [if_pos ((hexponent (0#11)).mpr hfirst)]
      by_cases hzero : n % 2 ^ 52 = 0
      · rw [dif_pos (hmantissa.mpr hzero)]
        obtain rfl : n = 0 := by omega
        exact .zero
      · rw [dif_neg (hmantissa.not.mpr hzero)]
        refine .of_eq _ ?_ ?_ hlt
        · rw [toNat_unpackMantissa, Magnitude.mantissa, Magnitude.shift]
          omega
        · rw [toNat_unpackExponent, Magnitude.shift, Binary.leastExponent]
          simp only [Int.reduceNeg, Nat.reducePow, Int.natCast_emod, Int.natCast_ediv,
            Nat.cast_ofNat, Format.exponentBias, Nat.add_one_sub_one, Int.reduceAdd]
          omega
    · rw [if_neg ((hexponent (0#11)).not.mpr hfirst)]
      refine .of_eq _ ?_ ?_ hlt
      · rw [BitVec.toNat_append, ← Nat.shiftLeft_add_eq_or_of_lt (BitVec.isLt _),
          toNat_unpackMantissa, Nat.shiftLeft_eq, Magnitude.mantissa, Magnitude.shift]
        simp only [Nat.reducePow, BitVec.toNat_ofNat, pow_one, Nat.mod_succ, one_mul]
        omega
      · rw [toNat_unpackExponent, Magnitude.shift, Binary.leastExponent]
        simp only [Int.reduceNeg, Nat.reducePow, Int.natCast_emod, Int.natCast_ediv, Nat.cast_ofNat,
          Format.exponentBias, Nat.add_one_sub_one, Int.reduceAdd]
        omega

/-- Taking a number apart gives what its sign and its magnitude are. -/
theorem unpacks {x : Float} (h : magnitude x ≤ infinityBits) :
    Unpacks (isNegative x) (magnitude x) x.toModel.unpack :=
  unpacks_unpack x.toBits.toBitVec h

/-! ## Putting numbers together -/

/-- The bits of a mantissa and its exponent, which are those of infinity if the exponent is too
large. -/
theorem toNat_pack_finite {k r : ℕ} (h : Magnitude.IsPlace k r) (hpos : 0 < r) (negative : Bool) :
    (UnpackedFloat.pack .binary64
      (.finite (signOf negative) r (Binary.leastExponent + k) hpos)).toNat =
        negative.toNat * 2 ^ 63 + min (k * 2 ^ 52 + r) infinityBits := by
  obtain ⟨hlt, hnormal⟩ := h
  have hbits : Format.binary64.mantissaBits = 53 := rfl
  have hbiased : (Binary.leastExponent + k + (Format.binary64.exponentBias : ℤ) +
      (52 : ℕ)).toNat = k + 1 := by
    simp only [Binary.leastExponent, Int.reduceNeg, Format.exponentBias, Nat.add_one_sub_one,
      Nat.reducePow, Nat.cast_ofNat]
    omega
  rw [infinityBits_eq]
  unfold UnpackedFloat.pack
  dsimp only
  rw [hbiased, hbits]
  by_cases hlarge : 2 ^ 11 ≤ k + 1 + 1
  · rw [if_pos hlarge, UnpackedFloat.packedInfinity, toNat_packComponents, toNat_toBitVec_signOf]
    simp only [Nat.reducePow, BitVec.reduceNeg, BitVec.toNat_ofNat, Nat.mod_succ, Nat.reduceMul,
      BitVec.ofNat_eq_ofNat, Nat.zero_mod, add_zero, Nat.add_left_cancel_iff, right_eq_inf,
      ge_iff_le]
    omega
  · rw [if_neg hlarge]
    by_cases hr : 2 ^ 52 ≤ r
    · have hlog : r.log2 = 52 := (Nat.log2_eq_iff hpos.ne').mpr ⟨hr, hlt⟩
      rw [hlog, if_pos rfl, toNat_packComponents, toNat_toBitVec_signOf]
      simp only [Nat.reducePow, BitVec.toNat_ofNat, Nat.reduceMul]
      omega
    · have hlog : r.log2 < 52 := (Nat.log2_lt hpos.ne').mpr (by omega)
      rw [if_neg (by omega), toNat_packComponents, toNat_toBitVec_signOf]
      simp only [Nat.reducePow, BitVec.toNat_ofNat, Nat.zero_mod, zero_mul, add_zero, Nat.reduceMul,
        Nat.add_left_cancel_iff]
      omega

theorem Unpacks.toNat_pack {negative : Bool} {n : ℕ} {u : UnpackedFloat}
    (h : Unpacks negative n u) :
    (UnpackedFloat.pack .binary64 u).toNat = negative.toNat * 2 ^ 63 + n := by
  cases h with
  | zero =>
    show (UnpackedFloat.packedZero .binary64 _).toNat = _
    rw [UnpackedFloat.packedZero, toNat_packComponents, toNat_toBitVec_signOf]
    simp
  | finite h hpos hlt => rw [toNat_pack_finite h hpos, min_eq_left hlt.le]
  | infinity =>
    show (UnpackedFloat.packedInfinity .binary64 _).toNat = _
    rw [UnpackedFloat.packedInfinity, toNat_packComponents, toNat_toBitVec_signOf, infinityBits_eq]
    simp

/-! ## Numbers by sign and magnitude -/

theorem toNat_toBits (x : Float) :
    x.toBits.toNat = (isNegative x).toNat * 2 ^ 63 + magnitude x := by
  have hlt : x.toBits.toNat < 2 ^ 64 := x.toBits.toNat_lt
  rw [isNegative, magnitude]
  by_cases h : 2 ^ 63 ≤ x.toBits.toNat
  · rw [decide_eq_true h, Bool.toNat_true]
    omega
  · rw [decide_eq_false h, Bool.toNat_false]
    omega

theorem isNegative_eq_and_magnitude_eq {x : Float} {negative : Bool} {n : ℕ}
    (h : x.toBits.toNat = negative.toNat * 2 ^ 63 + n) (hn : n ≤ infinityBits) :
    isNegative x = negative ∧ magnitude x = n := by
  rw [infinityBits_eq] at hn
  rw [isNegative, magnitude, h]
  cases negative with
  | false =>
    rw [Bool.toNat_false]
    exact ⟨decide_eq_false (by omega), by omega⟩
  | true =>
    rw [Bool.toNat_true]
    exact ⟨decide_eq_true (by omega), by omega⟩

theorem eq_of_magnitude_eq {x y : Float} (hnegative : isNegative x = isNegative y)
    (hmagnitude : magnitude x = magnitude y) : x = y := by
  have hbits : x.toBits = y.toBits := by
    apply UInt64.toNat_inj.mp
    rw [toNat_toBits x, toNat_toBits y, hnegative, hmagnitude]
  obtain ⟨⟨_, _⟩⟩ := x
  obtain ⟨⟨_, _⟩⟩ := y
  cases hbits
  rfl

/-- A number that was put together has the sign and the magnitude it was put together from. -/
theorem Unpacks.ofModel_pack {negative : Bool} {n : ℕ} {u : UnpackedFloat}
    (h : Unpacks negative n u) :
    isNegative (.ofModel (.pack u)) = negative ∧ magnitude (.ofModel (.pack u)) = n := by
  refine isNegative_eq_and_magnitude_eq h.toNat_pack ?_
  cases h with
  | zero => exact Nat.zero_le _
  | finite h hpos hlt => exact hlt.le
  | infinity => exact le_rfl

theorem ofBits_toUInt64 {n : ℕ} (hn : n ≤ infinityBits) :
    isNegative (.ofBits n.toUInt64) = false ∧ magnitude (.ofBits n.toUInt64) = n := by
  have hlt := hn
  rw [infinityBits_eq] at hlt
  have hbits : (n.toUInt64).toBitVec.toNat = n := by
    show n % 2 ^ 64 = n
    omega
  have hn' : n % 2 ^ 63 = n := Nat.mod_eq_of_lt (by omega)
  have h := unpacks_unpack n.toUInt64.toBitVec (by rwa [hbits, hn'])
  rw [hbits, hn', decide_eq_false (by omega)] at h
  exact h.ofModel_pack

theorem Unpacks.neg {negative : Bool} {n : ℕ} {u : UnpackedFloat} (h : Unpacks negative n u) :
    Unpacks (!negative) n u.neg := by
  have hsign : -signOf negative = signOf !negative := by cases negative <;> rfl
  cases h with
  | zero =>
    show Unpacks _ _ (.zero (-signOf negative))
    rw [hsign]
    exact .zero
  | finite h hpos hlt =>
    show Unpacks _ _ (.finite (-signOf negative) _ _ hpos)
    rw [hsign]
    exact .finite h hpos hlt
  | infinity =>
    show Unpacks _ _ (.infinity (-signOf negative))
    rw [hsign]
    exact .infinity

/-- A sign before a number turns its sign and leaves its magnitude. -/
theorem neg_eq {x : Float} (h : magnitude x ≤ infinityBits) :
    isNegative (-x) = !isNegative x ∧ magnitude (-x) = magnitude x :=
  (unpacks h).neg.ofModel_pack

/-- Every sign and every magnitude up to that of infinity make a number. -/
theorem exists_magnitude_eq (negative : Bool) {n : ℕ} (hn : n ≤ infinityBits) :
    ∃ x, isNegative x = negative ∧ magnitude x = n := by
  obtain ⟨hnegative, hmagnitude⟩ := ofBits_toUInt64 hn
  cases negative with
  | false => exact ⟨_, hnegative, hmagnitude⟩
  | true =>
    obtain ⟨hnegative', hmagnitude'⟩ := neg_eq (hmagnitude.trans_le hn)
    exact ⟨_, by rw [hnegative', hnegative, Bool.not_false], by rw [hmagnitude', hmagnitude]⟩

/-! ## Finite numbers -/

theorem unpack_of_lt_magnitude {x : Float} (h : infinityBits < magnitude x) :
    x.toModel.unpack = .notANumber := by
  have hlt : magnitude x < 2 ^ 63 := Nat.mod_lt _ (by norm_num)
  rw [infinityBits_eq] at h
  show UnpackedFloat.unpack .binary64 x.toBits.toBitVec = _
  have hexponent := (unpackExponent_eq_iff x.toBits.toBitVec (-1#11)).mpr
    (show magnitude x / 2 ^ 52 = 2047 by omega)
  have hmantissa := (unpackMantissa_eq_zero_iff x.toBits.toBitVec).not.mpr
    (show magnitude x % 2 ^ 52 ≠ 0 by omega)
  unfold UnpackedFloat.unpack
  dsimp only
  rw [if_pos hexponent, if_neg hmantissa]

theorem Unpacks.isFinite_iff {negative : Bool} {n : ℕ} {u : UnpackedFloat}
    (h : Unpacks negative n u) : u.isFinite ↔ n < infinityBits := by
  cases h with
  | zero => exact iff_of_true rfl (by decide)
  | finite h hpos hlt => exact iff_of_true rfl hlt
  | infinity => exact iff_of_false Bool.false_ne_true (lt_irrefl _)

theorem isFinite_iff (x : Float) : x.isFinite ↔ magnitude x < infinityBits := by
  show x.toModel.unpack.isFinite ↔ _
  obtain hle | hlt := le_or_gt (magnitude x) infinityBits
  · exact (unpacks hle).isFinite_iff
  · rw [unpack_of_lt_magnitude hlt]
    exact iff_of_false Bool.false_ne_true hlt.not_gt

/-- A number taken apart. -/
theorem ofFloat?_eq (x : Float) :
    Binary.ofFloat? x = if magnitude x < infinityBits then
      some ⟨isNegative x, Magnitude.mantissa (magnitude x),
        Binary.leastExponent + Magnitude.shift (magnitude x)⟩ else none := by
  have hlt : x.toBits.toNat < 2 ^ 64 := x.toBits.toNat_lt
  rw [Binary.ofFloat?, Binary.ofBits?, magnitude, isNegative, infinityBits_eq]
  simp only [Nat.pow_eq]
  generalize x.toBits.toNat = bits at hlt
  have hfield : bits / 2 ^ 52 % 2 ^ 11 = bits % 2 ^ 63 / 2 ^ 52 := by omega
  have hfraction : bits % 2 ^ 52 = bits % 2 ^ 63 % 2 ^ 52 := by omega
  rw [hfield, hfraction]
  have hn : bits % 2 ^ 63 < 2 ^ 63 := Nat.mod_lt _ (by norm_num)
  generalize bits % 2 ^ 63 = n at hn
  rw [Magnitude.mantissa, Magnitude.shift]
  by_cases hlast : n / 2 ^ 52 = 2047
  · rw [if_pos hlast, if_neg (by omega)]
  · have hfinite : n < 2047 * 2 ^ 52 := by omega
    rw [if_neg hlast, if_pos hfinite]
    by_cases hfirst : n / 2 ^ 52 = 0
    · rw [if_pos hfirst, hfirst]
      simp only [Nat.reducePow, zero_tsub, zero_mul, tsub_zero, Nat.cast_zero, add_zero,
        Option.some.injEq, Binary.mk.injEq, Nat.mod_succ_eq_iff_lt, Nat.succ_eq_add_one,
        Nat.reduceAdd, and_true, true_and, gt_iff_lt]
      omega
    · have hmantissa : n - (n / 2 ^ 52 - 1) * 2 ^ 52 = 2 ^ 52 + n % 2 ^ 52 := by omega
      rw [if_neg hfirst, hmantissa]

/-! ## Comparing numbers -/

/-- Of two numbers that are not negative the one with the lesser magnitude is less. -/
theorem Unpacks.compare_eq {m n : ℕ} {u v : UnpackedFloat} (h : Unpacks false m u)
    (h' : Unpacks false n v) : u.compare v = some (compare m n) := by
  cases h with
  | zero =>
    cases h' with
    | zero => rfl
    | finite h' hpos' =>
      rw [compare_lt_iff_lt.mpr (by omega)]
      rfl
    | infinity => rfl
  | @finite k r h hpos hlt =>
    cases h' with
    | zero =>
      rw [compare_gt_iff_gt.mpr (by omega)]
      rfl
    | @finite k' r' h' hpos' hlt' =>
      show some ((compare (Binary.leastExponent + (k : ℤ)) (Binary.leastExponent + k')).then
        (compare r r')) = _
      -- a greater exponent makes a greater number, whatever the mantissas
      obtain hk | rfl | hk := lt_trichotomy k k'
      · have hexponent : Binary.leastExponent + (k : ℤ) < Binary.leastExponent + k' := by omega
        rw [compare_lt_iff_lt.mpr hexponent]
        exact congrArg some (compare_lt_iff_lt.mpr (h.add_lt_add h' hk)).symm
      · rw [compare_eq_iff_eq.mpr rfl, Nat.compare_eq_ite_lt, Nat.compare_eq_ite_lt]
        simp only [Nat.add_lt_add_iff_left]
        rfl
      · have hexponent : Binary.leastExponent + (k : ℤ) > Binary.leastExponent + k' := by omega
        rw [compare_gt_iff_gt.mpr hexponent]
        exact congrArg some (compare_gt_iff_gt.mpr (h'.add_lt_add h hk)).symm
    | infinity =>
      rw [compare_lt_iff_lt.mpr hlt]
      rfl
  | infinity =>
    cases h' with
    | zero => rfl
    | finite h hpos hlt =>
      rw [compare_gt_iff_gt.mpr hlt]
      rfl
    | infinity => rfl

section Order

variable {x y : Float}

theorem lt_iff_magnitude_lt (hx : isNegative x = false) (hx' : magnitude x ≤ infinityBits)
    (hy : isNegative y = false) (hy' : magnitude y ≤ infinityBits) :
    x < y ↔ magnitude x < magnitude y := by
  have h := unpacks hx'
  have h' := unpacks hy'
  rw [hx] at h
  rw [hy] at h'
  show decide (x.toModel < y.toModel) = true ↔ _
  rw [decide_eq_true_iff, ← compare_lt_iff_lt (a := magnitude x)]
  show (x.toModel.unpack.compare y.toModel.unpack == some .lt) = true ↔ _
  rw [h.compare_eq h']
  simp

theorem unpack_zero : (0 : Float).toModel.unpack = .zero .positive := by
  rfl

/-- Both zeros equal zero, and no other number does. -/
theorem beq_zero_iff (h : magnitude x ≤ infinityBits) : (x == 0) = true ↔ magnitude x = 0 := by
  have h := unpacks h
  show (x.toModel.unpack.compare (0 : Float).toModel.unpack == some .eq) = true ↔ _
  rw [unpack_zero]
  generalize magnitude x = n at h
  generalize x.toModel.unpack = u at h
  generalize isNegative x = negative at h
  cases h with
  | zero => exact iff_of_true rfl rfl
  | finite h hpos =>
    refine iff_of_false ?_ (by omega)
    cases negative <;> exact Bool.false_ne_true
  | infinity =>
    refine iff_of_false ?_ (by decide)
    cases negative <;> exact Bool.false_ne_true

theorem lt_zero_iff (h : magnitude x ≤ infinityBits) :
    x < 0 ↔ isNegative x = true ∧ magnitude x ≠ 0 := by
  have h := unpacks h
  show decide (x.toModel < (0 : Float).toModel) = true ↔ _
  rw [decide_eq_true_iff]
  show (x.toModel.unpack.compare (0 : Float).toModel.unpack == some .lt) = true ↔ _
  rw [unpack_zero]
  generalize magnitude x = n at h
  generalize x.toModel.unpack = u at h
  generalize isNegative x = negative at h
  cases h with
  | zero => exact iff_of_false Bool.false_ne_true fun h => h.2 rfl
  | finite h hpos =>
    cases negative with
    | false => exact iff_of_false Bool.false_ne_true fun h => Bool.false_ne_true h.1
    | true => exact iff_of_true rfl ⟨rfl, by omega⟩
  | infinity =>
    cases negative with
    | false => exact iff_of_false Bool.false_ne_true fun h => Bool.false_ne_true h.1
    | true => exact iff_of_true rfl ⟨rfl, by decide⟩

end Order

end Peng

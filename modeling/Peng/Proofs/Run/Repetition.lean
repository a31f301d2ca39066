import Peng.Fault
import Peng.Run.Evaluation
import Peng.Proofs.Number.Whole

/-!
# Repeating texts

The size of a text that is to be repeated is checked in floating point, before the text is made.
The main statement is that this check is exact, `multiply_isRepetition`: a product of sizes is
refused if and only if the product of the natural numbers is too large.

## Shape of the proof

Rounding keeps the order (`Magnitude.IsCell.le_of_le`), and both the limit and the whole number
above it are numbers. So a product that is exactly up to the limit is rounded up to the limit at
most (`not_limit_lt_of_le`), and one that is beyond it is rounded to the number above it or beyond
(`limit_lt_of_lt`), also if the size of the text was rounded before.
-/

namespace Peng

open Magnitude

/-! ## The limit -/

theorem isNegative_largestRepetition : isNegative largestRepetition = false := by
  decide +kernel

theorem magnitude_largestRepetition :
    magnitude largestRepetition = 1053 * 2 ^ 52 + (2 ^ 32 - 1) * 2 ^ 21 := by
  decide +kernel

theorem units_largestRepetition :
    (units (magnitude largestRepetition) : ℚ) = (2 ^ 32 - 1 : ℕ) * unitsOfOne := by
  rw [magnitude_largestRepetition, units_add (by norm_num) (.inr (by norm_num)), mul_assoc,
    ← pow_add, Nat.cast_mul, Nat.cast_pow, Nat.cast_two, unitsOfOne]

theorem magnitude_largestRepetition_lt : magnitude largestRepetition < infinityBits := by
  decide +kernel

/-- Whole numbers compare in units as they do. -/
theorem natCast_mul_unitsOfOne_le {a b : ℕ} (h : a ≤ b) : (a * unitsOfOne : ℚ) ≤ b * unitsOfOne :=
  mul_le_mul_of_nonneg_right (Nat.cast_le.mpr h) unitsOfOne_pos.le

section Guard

variable {count : Float} {size k : ℕ}

/-- The number for a size that is rounded: its magnitude is the one to round the size to, or that of
infinity. -/
theorem exists_isCell_nearest (size : ℕ) : ∃ n, IsCell (size * unitsOfOne) n ∧
    isNegative (nearest size 1) = false ∧ magnitude (nearest size 1) = min n infinityBits := by
  obtain ⟨n, hcell, hbits⟩ := exists_isCell_nearestBits size Nat.one_pos
  rw [Nat.cast_one, div_one] at hcell
  obtain ⟨hnegative, hmagnitude⟩ := ofBits_toUInt64 (hbits.trans_le (min_le_right _ _))
  exact ⟨n, hcell, hnegative, hmagnitude.trans hbits⟩

/-- A size that is a number stays as it is. -/
theorem units_eq_of_isCell {n : ℕ} (hcell : IsCell (size * unitsOfOne) n) (hsize : size < 2 ^ 53) :
    (units n : ℚ) = size * unitsOfOne := by
  obtain ⟨n', hn'⟩ := exists_units_eq hsize
  have hcell' := IsCell.of_units n'
  rw [hn'] at hcell'
  rw [hcell.unique hcell', hn']

/-- How a product by the count compares with the limit. -/
theorem exists_isCell_limit_lt_iff {x : Float} (h : IsWhole count k) (hk : 0 < k)
    (hx : isNegative x = false) (hx' : magnitude x ≠ 0) (hfinite : magnitude x < infinityBits) :
    ∃ c, IsCell (units (magnitude x) * k) c ∧
      (largestRepetition < x * count ↔ magnitude largestRepetition < c) := by
  have hk' : (0 : ℤ) < k := by exact_mod_cast hk
  have hcount : (units (magnitude count) : ℚ) = k * unitsOfOne := by
    rw [h.units_eq, Nat.abs_cast, Int.cast_natCast]
  obtain ⟨c, hcell, hnegative, hmagnitude⟩ :=
    exists_isCell_mul hx' hfinite (h.magnitude_ne_zero hk') h.lt_infinityBits
  rw [hcount, ← mul_assoc, mul_div_cancel_right₀ _ unitsOfOne_pos.ne'] at hcell
  rw [hx, h.isNegative_eq hk', Bool.xor_false] at hnegative
  refine ⟨c, hcell, ?_⟩
  rw [lt_iff_magnitude_lt isNegative_largestRepetition magnitude_largestRepetition_lt.le hnegative
    (hmagnitude.trans_le (min_le_right _ _)), hmagnitude, lt_min_iff]
  exact and_iff_left magnitude_largestRepetition_lt

theorem not_limit_lt_of_le (h : IsWhole count k) (hk : 0 < k) (hsize : 0 < size)
    (hle : size * k ≤ 2 ^ 32 - 1) : ¬largestRepetition < nearest size 1 * count := by
  have hlimit := units_largestRepetition
  have hsize' : size ≤ 2 ^ 32 - 1 := (Nat.le_mul_of_pos_right size hk).trans hle
  obtain ⟨n, hcell, hnegative, hmagnitude⟩ := exists_isCell_nearest size
  have hunits := units_eq_of_isCell hcell (by omega)
  have hn : n ≤ magnitude largestRepetition := by
    rw [← units_strictMono.le_iff_le, ← Nat.cast_le (α := ℚ), hunits, hlimit]
    exact natCast_mul_unitsOfOne_le hsize'
  have hfinite := hn.trans_lt magnitude_largestRepetition_lt
  rw [min_eq_left hfinite.le] at hmagnitude
  have hne : n ≠ 0 := by
    refine ne_zero_of_units_pos ?_
    rw [hunits]
    exact mul_pos (Nat.cast_pos.mpr hsize) unitsOfOne_pos
  obtain ⟨c, hcell', hiff⟩ := exists_isCell_limit_lt_iff h hk hnegative
    (hmagnitude.trans_ne hne) (hmagnitude.trans_lt hfinite)
  rw [hiff, not_lt]
  refine hcell'.le_of_le (.of_units _) ?_
  rw [hmagnitude, hunits, hlimit, mul_right_comm, ← Nat.cast_mul]
  exact natCast_mul_unitsOfOne_le hle

theorem limit_lt_of_lt (h : IsWhole count k) (hk : 0 < k) (hlt : 2 ^ 32 - 1 < size * k) :
    largestRepetition < nearest size 1 * count := by
  have hlimit := units_largestRepetition
  obtain ⟨n, hcell, hnegative, hmagnitude⟩ := exists_isCell_nearest size
  obtain ⟨above, habove⟩ := exists_units_eq (show 2 ^ 32 < 2 ^ 53 by norm_num)
  have hlimit_lt : magnitude largestRepetition < above := by
    rw [← units_strictMono.lt_iff_lt, ← Nat.cast_lt (α := ℚ), habove, hlimit]
    exact mul_lt_mul_of_pos_right (Nat.cast_lt.mpr (by norm_num)) unitsOfOne_pos
  have hk' : (0 : ℤ) < k := by exact_mod_cast hk
  have hk1 : (1 : ℚ) ≤ k := by exact_mod_cast hk
  obtain hinfinite | hfinite := le_or_gt infinityBits n
  · rw [min_eq_right hinfinite] at hmagnitude
    obtain ⟨hnegative', hmagnitude'⟩ :=
      infinity_mul hmagnitude (h.magnitude_ne_zero hk') h.lt_infinityBits
    rw [hnegative, h.isNegative_eq hk', Bool.xor_false] at hnegative'
    rw [lt_iff_magnitude_lt isNegative_largestRepetition magnitude_largestRepetition_lt.le
      hnegative' hmagnitude'.le, hmagnitude']
    exact magnitude_largestRepetition_lt
  · rw [min_eq_left hfinite.le] at hmagnitude
    have hproduct : (units above : ℚ) ≤ units n * k := by
      obtain hsize | hsize := le_or_gt size (2 ^ 32)
      · rw [units_eq_of_isCell hcell (by omega), habove, mul_right_comm, ← Nat.cast_mul]
        exact natCast_mul_unitsOfOne_le (by omega)
      · have hn : above ≤ n := by
          refine (IsCell.of_units above).le_of_le hcell ?_
          rw [habove]
          exact natCast_mul_unitsOfOne_le hsize.le
        exact (units_le hn).trans (le_mul_of_one_le_right (Nat.cast_nonneg _) hk1)
    have hne : n ≠ 0 := by
      refine ne_zero_of_units_pos (pos_of_mul_pos_left (lt_of_lt_of_le ?_ hproduct) (by linarith))
      rw [habove]
      exact mul_pos (by norm_num) unitsOfOne_pos
    obtain ⟨c, hcell', hiff⟩ := exists_isCell_limit_lt_iff h hk hnegative
      (hmagnitude.trans_ne hne) (hmagnitude.trans_lt hfinite)
    rw [hiff]
    rw [hmagnitude] at hcell'
    exact hlimit_lt.trans_le ((IsCell.of_units above).le_of_le hcell' hproduct)

/-- The check decides by the exact product. -/
theorem limit_lt_iff (h : IsWhole count k) (hk : 0 < k) (hsize : 0 < size) :
    largestRepetition < nearest size 1 * count ↔ 2 ^ 32 - 1 < size * k := by
  refine ⟨fun hlt => ?_, limit_lt_of_lt h hk⟩
  by_contra hle
  exact not_limit_lt_of_le h hk hsize (not_lt.mp hle) hlt

end Guard

/-! ## Repeated texts -/

section Text

variable (text : String) (k : ℕ)

theorem repeat_append_eq_join : k.repeat (· ++ text) "" = String.join (List.replicate k text) := by
  induction k with
  | zero => rfl
  | succ k ih =>
    rw [Nat.repeat, ih, List.replicate_succ', String.join_append]
    simp

theorem utf8ByteSize_join_replicate :
    (String.join (List.replicate k text)).utf8ByteSize = text.utf8ByteSize * k := by
  induction k with
  | zero => simp
  | succ k ih =>
    rw [List.replicate_succ, String.join_cons, String.utf8ByteSize_append, ih, Nat.mul_succ,
      Nat.add_comm]

end Text

/-- What repeating a text by a number has to give. -/
structure IsRepetition (text : String) (count : Float) (outcome : Except RunFault Value) :
    Prop where
  /-- A count that is not a whole number is refused by its name, also for the empty text. -/
  noCount : (¬count.isFinite ∨ ∀ k, ¬IsWhole count k) → ∃ fault, outcome = .error fault ∧
    fault.kind = .invalidOperation ∧
    fault.message = "Can't repeat a String " ++ numeral count ++ " times"
  nothing : ∀ k, IsWhole count k → k ≤ 0 ∨ text = "" → outcome = .ok (.string "")
  /-- What the check lets through is the text, as often as the count says. -/
  repeated : ∀ k : ℕ, IsWhole count k → 0 < k → text ≠ "" → text.utf8ByteSize * k ≤ 2 ^ 32 - 1 →
    ∃ result, outcome = .ok (.string result) ∧ result = String.join (List.replicate k text) ∧
      result.utf8ByteSize = text.utf8ByteSize * k ∧ count.toUInt64.toNat = k
  tooLarge : ∀ k : ℕ, IsWhole count k → 0 < k → text ≠ "" → 2 ^ 32 - 1 < text.utf8ByteSize * k →
    ∃ fault, outcome = .error fault ∧ fault.kind = .invalidOperation ∧
      fault.message = "Repeated String is too large"
  /-- The rounded product is beyond the limit if and only if the exact one is. -/
  check : ∀ k : ℕ, IsWhole count k → 0 < k → text ≠ "" →
    (largestRepetition < nearest text.utf8ByteSize 1 * count ↔
      2 ^ 32 - 1 < text.utf8ByteSize * k)

section Repetition

variable {text : String} {count : Float}

theorem repeatText_of_not_isWhole (h : ∀ k, ¬IsWhole count k) :
    repeatText text count = .error (.repetitionCount count) := by
  have hnone : (Binary.ofFloat? count).bind Binary.whole? = none := by
    rw [Option.eq_none_iff_forall_ne_some]
    exact fun k hk => h k ((bind_whole?_eq_some_iff count k).mp hk)
  rw [repeatText, hnone]

theorem repeatText_of_isWhole {k : ℤ} (h : IsWhole count k) :
    repeatText text count = if k ≤ 0 ∨ text = "" then .ok "" else
      if largestRepetition < nearest text.utf8ByteSize 1 * count then .error .repetitionTooLarge
      else .ok (String.join (List.replicate k.toNat text)) := by
  rw [repeatText, (bind_whole?_eq_some_iff count k).mpr h, ← repeat_append_eq_join]

theorem utf8ByteSize_pos (h : text ≠ "") : 0 < text.utf8ByteSize :=
  Nat.pos_of_ne_zero (String.utf8ByteSize_eq_zero_iff.not.mpr h)

theorem isRepetition_repeatText (text : String) (count : Float) :
    IsRepetition text count ((repeatText text count).map .string) where
  noCount h := by
    have hcount : ∀ k, ¬IsWhole count k := by
      obtain hfinite | hcount := h
      · exact fun k hk => hfinite ((isFinite_iff count).mpr hk.lt_infinityBits)
      · exact hcount
    rw [repeatText_of_not_isWhole hcount]
    exact ⟨_, rfl, rfl, rfl⟩
  nothing k hk hnothing := by
    rw [repeatText_of_isWhole hk, if_pos hnothing]
    rfl
  repeated k hk hpos htext hsize := by
    have hsize' := utf8ByteSize_pos htext
    have hk' : k < 2 ^ 64 := by
      have := Nat.le_mul_of_pos_left k hsize'
      omega
    rw [repeatText_of_isWhole hk, if_neg (by simp [htext]; omega),
      if_neg (not_limit_lt_of_le hk hpos hsize' hsize), Int.toNat_natCast]
    exact ⟨_, rfl, rfl, utf8ByteSize_join_replicate text k, hk.toNat_toUInt64 hpos hk'⟩
  tooLarge k hk hpos htext hsize := by
    rw [repeatText_of_isWhole hk, if_neg (by simp [htext]; omega),
      if_pos (limit_lt_of_lt hk hpos hsize)]
    exact ⟨_, rfl, rfl, rfl⟩
  check k hk hpos htext := limit_lt_iff hk hpos (utf8ByteSize_pos htext)

end Repetition

/-- Multiplying a text and a number, in either order, repeats the text: nothing is repeated that is
too large, and all that is not too large is. -/
theorem multiply_isRepetition {scope : Scope} {left right : Expr} {text : String} {count : Float}
    (h : left.value scope = .ok (.string text) ∧ right.value scope = .ok (.number count) ∨
      left.value scope = .ok (.number count) ∧ right.value scope = .ok (.string text))
    (span : Span) :
    ∃ outcome, (Expr.binary .multiply left right span).value scope = blame span outcome ∧
      IsRepetition text count outcome := by
  refine ⟨_, ?_, isRepetition_repeatText text count⟩
  obtain ⟨hleft, hright⟩ | ⟨hleft, hright⟩ := h
  · rw [Expr.value, hleft, hright]
    rfl
  · rw [Expr.value, hleft, hright]
    rfl

/-- Two bytes, `2 ^ 31` times over: one byte more than the limit. -/
theorem multiply_isRepetition_above_limit :
    let here : Span := .empty (.start "")
    IsWhole 2147483648 (2 ^ 31 : ℕ) ∧ "ab".utf8ByteSize * 2 ^ 31 = 2 ^ 32 - 1 + 1 ∧
    ∃ outcome, (Expr.binary .multiply (.number 2147483648 here) (.text "ab" here) here).value
        (.empty "main") = blame here outcome ∧
      IsRepetition "ab" 2147483648 outcome := by
  refine ⟨⟨⟨false, 2 ^ 52, -21⟩, by decide +kernel, by norm_num [Binary.toRat]⟩, by decide, ?_⟩
  exact multiply_isRepetition (.inr ⟨rfl, rfl⟩) _

end Peng

import Peng.Proofs.Number.Numeral

/-!
# Reading printed numbers

A finite number is printed as text that is read as the same number. The main statement is
`printed_numbers_read_back`: the decimal that is printed rounds to the number, so that scanning and
parsing it gives an expression with that value, and running it prints the same text again.
-/

namespace Peng

open Magnitude

/-- The rational number that is denoted by a number, or by a number behind a minus. -/
inductive IsSignedNumeral : List Char → ℚ → Prop where
  | unsigned {text : List Char} {q : ℚ} (h : IsNumeral text q) : IsSignedNumeral text q
  | negative {text : List Char} {q : ℚ} (h : IsNumeral text q) : IsSignedNumeral ('-' :: text) (-q)

/-- A number literal, behind a minus if it is to be `negative`. -/
inductive Expr.IsNumber : Expr → Bool → Prop where
  | unsigned {x : Float} {span : Span} : IsNumber (.number x span) false
  | negative {x : Float} {place span : Span} :
      IsNumber (.signed .minus (.number x place) span) true

/-- Printing the number and reading what was printed gives the number `read`. -/
structure ReadsBackAs (x read : Float) : Prop where
  /-- The decimal that is printed rounds to it. -/
  exists_numeral : ∃ q, IsSignedNumeral (Value.number x).text.toList q ∧ IsNearest q read
  exists_print : ∀ name, ∃ ts program e span,
    scan name ("say " ++ (Value.number x).text) = .ok ts ∧ parse ts = .ok program ∧
      program.statements = [.print [e] span] ∧ e.IsNumber (x < 0) ∧
      ∀ scope, e.value scope = .ok (.number read)
  run_eq : ∀ name sink, run name ("say " ++ (Value.number x).text) sink =
    (Session.fresh sink).write ((Value.number x).text ++ "\n")

/-! ## Reading numbers behind a minus -/

section Reading

variable {text : String} {kind : Token.Kind} {size : List Char} {y : Float}

theorem exists_print_unsigned (h : IsNumber kind text.toList) (hy : decimal? text.toList = some y)
    (name : String) : ∃ ts program e span,
      scan name ("say " ++ text) = .ok ts ∧ parse ts = .ok program ∧
        program.statements = [.print [e] span] ∧ e.IsNumber false ∧
        ∀ scope, e.value scope = .ok (.number y) := by
  obtain ⟨ts, program, place, span, hscan, hparse, hstatements⟩ := exists_print_number h hy name
  exact ⟨ts, program, _, span, hscan, hparse, hstatements, .unsigned, fun scope => rfl⟩

theorem Expr.eq_signed_of_unplaced {e operand : Expr} {sign : Sign} {span : Span}
    (h : e.unplaced = (Expr.signed sign operand span).unplaced) :
    ∃ operand' place, e = .signed sign operand' place ∧ operand'.unplaced = operand.unplaced := by
  cases e with
  | signed sign' operand' place =>
    injection h with hsign hoperand
    subst hsign
    exact ⟨operand', place, rfl, hoperand⟩
  | number | text | «variable» | binary => cases h

theorem exists_print_negative (h : IsNumber kind size) (hy : decimal? size = some y)
    (htext : text.toList = '-' :: size) (name : String) : ∃ ts program e span,
      scan name ("say " ++ text) = .ok ts ∧ parse ts = .ok program ∧
        program.statements = [.print [e] span] ∧ e.IsNumber true ∧
        ∀ scope, e.value scope = .ok (.number (-y)) := by
  have hnumber : (Expr.number y (.empty (.start name))).Renders _ _ := .number h hy
  have hrenders : (Expr.signed .minus (.number y (.empty (.start name)))
      (.empty (.start name))).Renders _ _ := .signed hnumber
  have hline : Tight [.sign .minus, .number h] text.toList :=
    htext ▸ .mark .minus (.last (.number h))
  obtain ⟨ts, program, e, span, hscan, hparse, hstatements, he⟩ := exists_print hrenders hline name
  obtain ⟨operand, place, rfl, hoperand⟩ := Expr.eq_signed_of_unplaced he
  obtain ⟨place', rfl⟩ := Expr.eq_number_of_unplaced hoperand
  exact ⟨ts, program, _, span, hscan, hparse, hstatements, .negative, fun scope => rfl⟩

end Reading

/-! ## Printed numbers -/

section Printed

variable {x y : Float}

/-- What is read prints as what it was read from. -/
theorem ReadsBackAs.of_exists_print
    (hnumeral : ∃ q, IsSignedNumeral (Value.number x).text.toList q ∧ IsNearest q y)
    (hprint : ∀ name, ∃ ts program e span,
      scan name ("say " ++ (Value.number x).text) = .ok ts ∧ parse ts = .ok program ∧
        program.statements = [.print [e] span] ∧ e.IsNumber (x < 0) ∧
        ∀ scope, e.value scope = .ok (.number y))
    (htext : (Value.number y).text = (Value.number x).text) : ReadsBackAs x y where
  exists_numeral := hnumeral
  exists_print := hprint
  run_eq name sink := by
    obtain ⟨ts, program, e, span, hscan, hparse, hstatements, -, hvalue⟩ := hprint name
    rw [run_eq_write hscan hparse hstatements (hvalue _), htext]

theorem isNearest_zero : IsNearest 0 0 := by
  have hnegative : isNegative 0 = false := by decide +kernel
  have hmagnitude : magnitude 0 = 0 := by decide +kernel
  refine isNearest_of_isCell (n := 0) ?_ ?_ ?_
  · rw [hnegative]
    exact iff_of_false Bool.false_ne_true (lt_irrefl 0)
  · rw [abs_zero, zero_mul]
    exact .zero
  · rw [hmagnitude, min_eq_left (Nat.zero_le _)]

/-- Both zeros are printed and read as zero. -/
theorem readsBackAs_zero (h : magnitude x = 0) : ReadsBackAs x 0 := by
  have hle : magnitude x ≤ infinityBits := by omega
  have htext : (Value.number x).text = "0" := if_pos ((beq_zero_iff hle).mpr h)
  have hsign : decide (x < 0) = false :=
    decide_eq_false fun hlt => ((lt_zero_iff hle).mp hlt).2 h
  have hdigits : ∀ c ∈ ['0'], c.isDigit := isDigit_of_mem_zeros 1
  have hvalue : Nat.ofDigitChars 10 ['0'] 0 = 0 := rfl
  have hnumeral := IsNumeral.whole (by simp) hdigits
  rw [hvalue, Nat.cast_zero] at hnumeral
  obtain ⟨kind, y, hnumber, hy, hnearest⟩ := hnumeral.exists_isNearest
  obtain rfl := hnearest.unique isNearest_zero
  refine .of_exists_print ⟨0, ?_, isNearest_zero⟩ ?_ ?_
  · rw [htext]
    exact .unsigned hnumeral
  · rw [htext, hsign]
    exact exists_print_unsigned hnumber hy
  · rw [htext]
    rfl

/-- A number that is not zero is printed as its shortest decimal. -/
theorem toList_text (h : magnitude x ≠ 0) (hlt : magnitude x < infinityBits) :
    (Value.number x).text.toList = if isNegative x
      then '-' :: (Window.ofMagnitude (magnitude x)).shortest.layout
      else (Window.ofMagnitude (magnitude x)).shortest.layout := by
  have hfinite : Binary.ofFloat? x = some _ := ofFloat?_eq_some_iff.mpr ⟨hlt, rfl⟩
  rw [Value.text, if_neg fun hzero => h ((beq_zero_iff hlt.le).mp hzero), numeral, hfinite]
  dsimp only
  rw [if_neg (mantissa_ne_zero h), String.toList_ofList]
  rfl

theorem readsBackAs_self (h : magnitude x ≠ 0) (hlt : magnitude x < infinityBits) :
    ReadsBackAs x x := by
  have hcell := Window.isCell_shortest (Nat.pos_of_ne_zero h)
  have hnumeral := (Window.ofMagnitude (magnitude x)).shortest.isNumeral_layout
  have htext := toList_text h hlt
  generalize (Window.ofMagnitude (magnitude x)).shortest = d at hcell hnumeral htext
  have hpos : 0 < d.toRat := pos_of_mul_pos_left (hcell.pos h) unitsOfOne_pos.le
  obtain ⟨kind, y, hnumber, hy, hnearest⟩ := hnumeral.exists_isNearest
  have hnearest' {z : Float} {q : ℚ} (hq : |q| = d.toRat) (hz : magnitude z = magnitude x)
      (hsign : isNegative z = true ↔ q < 0) : IsNearest q z :=
    isNearest_of_isCell hsign (hq.symm ▸ hcell) (by rw [hz, min_eq_left hlt.le])
  -- what is read is the number without its sign
  obtain ⟨z, hz, hz'⟩ := exists_magnitude_eq false hlt.le
  obtain rfl : y = z := hnearest.unique (hnearest' (abs_of_pos hpos) hz' (by simp [hz, hpos.le]))
  have hsign : decide (x < 0) = isNegative x := by
    rw [Bool.eq_iff_iff, decide_eq_true_iff, lt_zero_iff hlt.le]
    exact and_iff_left h
  cases hx : isNegative x with
  | false =>
    obtain rfl : x = y := eq_of_magnitude_eq (hx.trans hz.symm) hz'.symm
    rw [hx, if_neg Bool.false_ne_true] at htext
    refine .of_exists_print ⟨d.toRat, htext ▸ .unsigned hnumeral, hnearest⟩ ?_ rfl
    rw [hsign, hx]
    rw [← htext] at hnumber hy
    exact exists_print_unsigned hnumber hy
  | true =>
    obtain ⟨hneg, hneg'⟩ := neg_eq (hz'.trans_le hlt.le)
    obtain rfl : -y = x := by
      refine eq_of_magnitude_eq ?_ (hneg'.trans hz')
      rw [hneg, hz, hx, Bool.not_false]
    rw [hx, if_pos rfl] at htext
    refine .of_exists_print ⟨-d.toRat, htext ▸ .negative hnumeral, ?_⟩ ?_ rfl
    · exact hnearest' (by rw [abs_neg, abs_of_pos hpos]) rfl (by simp [hx, hpos])
    · rw [hsign, hx]
      exact exists_print_negative hnumber hy htext

end Printed

/-- The language reads back every number that it prints. -/
theorem printed_numbers_read_back {x : Float} (h : x.isFinite) :
    ReadsBackAs x (if x == 0 then 0 else x) := by
  rw [isFinite_iff] at h
  split
  case isTrue hzero => exact readsBackAs_zero ((beq_zero_iff h.le).mp hzero)
  case isFalse hzero => exact readsBackAs_self (fun hx => hzero ((beq_zero_iff h.le).mpr hx)) h

/-- A negative number that is not a sum of powers of two. -/
theorem printed_numbers_read_back_tenth :
    (-0.1 : Float).isFinite ∧ (Value.number (-0.1)).text = "-0.1" ∧
      ReadsBackAs (-0.1) (if (-0.1 : Float) == 0 then 0 else -0.1) :=
  ⟨by decide +kernel, by decide +kernel, printed_numbers_read_back (by decide +kernel)⟩

end Peng

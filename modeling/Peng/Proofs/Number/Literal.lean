import Peng.Proofs.Number.Rounding
import Peng.Proofs.Run.Saying

/-!
# Number literals

A number in a source stands for the 64-bit number nearest to what its digits denote. Digits alone
are read as a whole number if it has at most 63 binary digits, and rounded behind that; otherwise,
and with a point, they are rounded when they are read. The main statement is that this makes no
difference, `number_literals_agree`.
-/

namespace Peng

/-! ## What numbers denote -/

/-- The rational number that a number in a source denotes. -/
inductive IsNumeral : List Char → ℚ → Prop where
  | whole {digits : List Char} (hne : digits ≠ []) (h : ∀ c ∈ digits, c.isDigit) :
      IsNumeral digits (Nat.ofDigitChars 10 digits 0 : ℕ)
  | point {whole fraction : List Char} (hne : whole ≠ []) (hwhole : ∀ c ∈ whole, c.isDigit)
      (hfraction : ∀ c ∈ fraction, c.isDigit) :
      IsNumeral (whole ++ '.' :: fraction)
        (Nat.ofDigitChars 10 (whole ++ fraction) 0 / 10 ^ fraction.length)

theorem isNearest_readNumeral (whole fraction : List Char) :
    IsNearest (Nat.ofDigitChars 10 (whole ++ fraction) 0 / 10 ^ fraction.length)
      (readNumeral whole fraction) := by
  have hnearest := isNearest_nearest (Nat.ofDigitChars 10 (whole ++ fraction) 0)
    (Nat.pow_pos (n := fraction.length) (show 0 < 10 by decide))
  rwa [Nat.cast_pow, Nat.cast_ofNat] at hnearest

theorem isNearest_readNumeral_nil (digits : List Char) :
    IsNearest (Nat.ofDigitChars 10 digits 0 : ℕ) (readNumeral digits []) := by
  have hnearest := isNearest_readNumeral digits []
  rwa [List.append_nil, List.length_nil, pow_zero, div_one] at hnearest

/-- A number is read as the nearest one to what it denotes. -/
theorem IsNumeral.exists_isNearest {text : List Char} {q : ℚ} (h : IsNumeral text q) :
    ∃ kind x, IsNumber kind text ∧ decimal? text = some x ∧ IsNearest q x := by
  cases h with
  | whole hne h =>
    exact ⟨.integer, _, .integer hne h, decimal?_whole hne h, isNearest_readNumeral_nil _⟩
  | point hne hwhole hfraction =>
    exact ⟨.float, _, .float hne hwhole hfraction, decimal?_point hne hwhole hfraction,
      isNearest_readNumeral _ _⟩

/-! ## How number lexemes are read -/

/-- The lexeme gives a token of that kind and with that literal, by itself and wherever it stands in
a source, and the number that the token stands for is `x`. -/
structure IsReadAs (text : List Char) (kind : Token.Kind) (literal : Literal) (x : Float) :
    Prop where
  token_eq : ∀ name source ts t, scan name source = .ok ts → t ∈ ts → t.lexeme = .ofList text →
    t.kind = kind ∧ t.literal = some literal ∧ t.leaf? = some (.number x t.span)
  scan_eq : ∀ name, scan name (.ofList text) =
    .ok [⟨kind, .ofList text, some literal, .covering (.start name) text⟩,
      .atEnd (endOfText name (.ofList text))]
  exists_print : ∀ name, ∃ ts program place span,
    scan name ("say " ++ .ofList text) = .ok ts ∧ parse ts = .ok program ∧
      program.statements = [.print [.number x place] span]

theorem Expr.eq_number_of_unplaced {e : Expr} {x : Float} {span : Span}
    (h : e.unplaced = (Expr.number x span).unplaced) : ∃ place, e = .number x place := by
  cases e with
  | number y place =>
    cases h
    exact ⟨place, rfl⟩
  | text | «variable» | binary | signed => cases h

/-- A number literal is parsed as the number that it was rendered from. -/
theorem exists_print_number {kind : Token.Kind} {text : String} {x : Float}
    (h : IsNumber kind text.toList) (hx : decimal? text.toList = some x) (name : String) :
    ∃ ts program place span, scan name ("say " ++ text) = .ok ts ∧ parse ts = .ok program ∧
      program.statements = [.print [.number x place] span] := by
  have hrenders : (Expr.number x (.empty (.start name))).Renders _ _ := .number h hx
  obtain ⟨ts, program, e, span, hscan, hparse, hstatements, he⟩ :=
    exists_print hrenders (.last (.number h)) name
  obtain ⟨place, rfl⟩ := Expr.eq_number_of_unplaced he
  exact ⟨ts, program, place, span, hscan, hparse, hstatements⟩

theorem isReadAs {kind : Token.Kind} {text : List Char} {literal : Literal} {x : Float}
    (h : IsNumber kind text) (hx : decimal? text = some x)
    (hliteral : Denotes kind text (some literal)) : IsReadAs text kind literal x where
  token_eq name source ts t hscan ht hlexeme := by
    obtain rfl | ⟨before, text', after, -, hof⟩ :=
      (scanFrom_eq_iff_tokenised.mp hscan).exists_isOf rfl ht
    · -- the end is written as nothing
      have hnil : [] = text := String.ofList_injective hlexeme
      exact absurd hnil.symm (IsLexeme.number h).ne_nil
    · obtain rfl : text' = text := String.ofList_injective (hof.lexeme_eq.symm.trans hlexeme)
      have hkind := hof.isLexeme.kind_eq (.number h)
      have hdenotes := hof.denotes
      rw [hkind] at hdenotes
      have hgives : (Word.number h).Gives t := ⟨hkind, hlexeme, hdenotes⟩
      exact ⟨hkind, hdenotes.unique hliteral, Grammar.isLeaf_iff.mp
        (exists_isLeaf_of_number h hx hgives)⟩
  scan_eq name := by
    have hword : (String.ofList text).toList = (Word.number h).text := String.toList_ofList
    exact scan_word hword hliteral name
  exists_print name := by
    rw [← String.toList_ofList (l := text)] at h hx
    exact exists_print_number h hx name

/-! ## Digits, with zeros before and behind -/

section Digits

variable {digits : List Char}

theorem ofDigitChars_zeros_append (zeros : ℕ) (digits : List Char) :
    Nat.ofDigitChars 10 (List.replicate zeros '0' ++ digits) 0 = Nat.ofDigitChars 10 digits 0 := by
  rw [Nat.ofDigitChars_append, Nat.ofDigitChars_replicate_zero, Nat.mul_zero]

theorem ofDigitChars_append_zeros (digits : List Char) (zeros : ℕ) :
    (Nat.ofDigitChars 10 (digits ++ List.replicate zeros '0') 0 : ℚ) / 10 ^ zeros =
      Nat.ofDigitChars 10 digits 0 := by
  rw [Nat.ofDigitChars_append, Nat.ofDigitChars_replicate_zero, Nat.cast_mul, Nat.cast_pow,
    Nat.cast_ofNat, mul_div_cancel_left₀ _ (by positivity)]

theorem isDigit_of_mem_zeros (zeros : ℕ) : ∀ c ∈ List.replicate zeros '0', c.isDigit := by
  intro c hc
  rw [List.eq_of_mem_replicate hc]
  rfl

/-- Digits are read as the number they denote, or as the nearest one if that is too large. -/
theorem isReadAs_digits (hne : digits ≠ []) (h : ∀ c ∈ digits, c.isDigit) :
    IsReadAs digits .integer (if Nat.ofDigitChars 10 digits 0 ≤ 2 ^ 63 - 1
      then .int (Nat.ofDigitChars 10 digits 0 : ℕ) else .float (readNumeral digits []))
      (readNumeral digits []) := by
  refine isReadAs (.integer hne h) (decimal?_whole hne h) ?_
  have hdenotes := Denotes.integerLiteral hne h
  have hlt : digitsValue digits < Nat.pow 2 63 ↔ Nat.ofDigitChars 10 digits 0 ≤ 2 ^ 63 - 1 :=
    Nat.lt_iff_le_pred (by decide)
  rw [Lexeme.integerLiteral] at hdenotes
  simp only [hlt] at hdenotes
  exact hdenotes

end Digits

/-- However a natural number is written with digits, and with zeros behind a point, it stands for
the same number, the nearest one; only until it is rounded is it held exactly, if it has at most 63
binary digits. -/
theorem number_literals_agree {digits : List Char} (hne : digits ≠ [])
    (h : ∀ c ∈ digits, c.isDigit) :
    ∃ x, (∀ y, IsNearest (Nat.ofDigitChars 10 digits 0 : ℕ) y ↔ y = x) ∧
      (∀ zeros, IsReadAs (List.replicate zeros '0' ++ digits) .integer
        (if Nat.ofDigitChars 10 digits 0 ≤ 2 ^ 63 - 1
          then .int (Nat.ofDigitChars 10 digits 0 : ℕ) else .float x) x) ∧
      ∀ zeros, IsReadAs (digits ++ '.' :: List.replicate zeros '0') .float (.float x) x := by
  have hx := isNearest_readNumeral_nil digits
  refine ⟨readNumeral digits [], fun y => ⟨fun hy => hy.unique hx, ?_⟩, fun zeros => ?_,
    fun zeros => ?_⟩
  · rintro rfl
    exact hx
  · have hall : ∀ c ∈ List.replicate zeros '0' ++ digits, c.isDigit :=
      List.forall_mem_append.mpr ⟨isDigit_of_mem_zeros zeros, h⟩
    have hzeros := isNearest_readNumeral_nil (List.replicate zeros '0' ++ digits)
    rw [ofDigitChars_zeros_append] at hzeros
    have hread := isReadAs_digits (by simp [hne]) hall
    rwa [ofDigitChars_zeros_append, hzeros.unique hx] at hread
  · have hpoint := isNearest_readNumeral digits (List.replicate zeros '0')
    rw [List.length_replicate, ofDigitChars_append_zeros] at hpoint
    have hread := decimal?_point hne h (isDigit_of_mem_zeros zeros)
    rw [hpoint.unique hx] at hread
    exact isReadAs (.float hne h (isDigit_of_mem_zeros zeros)) hread (.decimal hread)

/-- The least number that has more than 63 binary digits. -/
theorem number_literals_agree_at_two_pow :
    let digits := "9223372036854775808".toList
    digits ≠ [] ∧ (∀ c ∈ digits, c.isDigit) ∧ Nat.ofDigitChars 10 digits 0 = 2 ^ 63 ∧
    ∃ x, (∀ y, IsNearest (Nat.ofDigitChars 10 digits 0 : ℕ) y ↔ y = x) ∧
      (∀ zeros, IsReadAs (List.replicate zeros '0' ++ digits) .integer
        (if Nat.ofDigitChars 10 digits 0 ≤ 2 ^ 63 - 1
          then .int (Nat.ofDigitChars 10 digits 0 : ℕ) else .float x) x) ∧
      ∀ zeros, IsReadAs (digits ++ '.' :: List.replicate zeros '0') .float (.float x) x := by
  intro digits
  have hne : digits ≠ [] := by decide
  have hdigits : ∀ c ∈ digits, c.isDigit :=
    List.all_eq_true.mp (show digits.all Char.isDigit = true by decide)
  exact ⟨hne, hdigits, by decide, number_literals_agree hne hdigits⟩

end Peng

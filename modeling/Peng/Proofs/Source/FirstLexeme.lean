import Mathlib.Data.List.TakeWhile
import Peng.Proofs.Source.Lexemes

/-!
# The first lexeme

Reading takes the lexeme at the front of a text that `IsLongest` tells of, with what it denotes
(`Lexeme.isFirst_of_read`), and it halts for the reasons that `Lexeme.IsHalt` lists
(`Lexeme.isHalt_of_read`).

A literal is converted by functions that refuse some texts, `decimal?` and `whole?`; that no lexeme
is refused is `IsLexeme.exists_denotes`.
-/

namespace Peng

/-! ## What lexemes denote -/

/-- The number nearest to a decimal, which is digits with at most one point among them. A point
alone is no decimal. -/
def decimal? (text : List Char) : Option Float :=
  let whole := text.takeWhile Char.isDigit
  match text.dropWhile Char.isDigit with
  | [] => if whole = [] then none else some (readNumeral whole [])
  | point :: fraction =>
    if point = '.' ∧ fraction.all Char.isDigit ∧ whole ++ fraction ≠ [] then
      some (readNumeral whole fraction)
    else none

/-- The whole number that digits denote, if it has at most 63 binary digits. -/
def whole? (text : List Char) : Option Int :=
  if text ≠ [] ∧ text.all Char.isDigit ∧ digitsValue text < Nat.pow 2 63 then
    some (digitsValue text)
  else none

/-- What a lexeme denotes, as far as the conversions succeed: a number without a point is a whole
number, or else a decimal. -/
inductive Denotes : Token.Kind → List Char → Option Literal → Prop where
  | whole {text : List Char} {v : Int} (h : whole? text = some v) :
      Denotes .integer text (some (.int v))
  | large {text : List Char} {x : Float} (h : whole? text = none) (hx : decimal? text = some x) :
      Denotes .integer text (some (.float x))
  | decimal {text : List Char} {x : Float} (h : decimal? text = some x) :
      Denotes .float text (some (.float x))
  | text {inside : List Char} :
      Denotes .string ('"' :: (inside ++ ['"'])) (some (.text (.ofList (Quoted.decode inside))))
  | nothing {kind : Token.Kind} {text : List Char} (hinteger : kind ≠ .integer)
      (hfloat : kind ≠ .float) (hstring : kind ≠ .string) : Denotes kind text none

theorem takeWhile_digits {digits : List Char} (h : ∀ c ∈ digits, c.isDigit) (rest : List Char) :
    (digits ++ rest).takeWhile Char.isDigit = digits ++ rest.takeWhile Char.isDigit :=
  List.takeWhile_append_of_pos h

theorem dropWhile_digits {digits : List Char} (h : ∀ c ∈ digits, c.isDigit) (rest : List Char) :
    (digits ++ rest).dropWhile Char.isDigit = rest.dropWhile Char.isDigit :=
  List.dropWhile_append_of_pos h

theorem decimal?_whole {digits : List Char} (hne : digits ≠ []) (h : ∀ c ∈ digits, c.isDigit) :
    decimal? digits = some (readNumeral digits []) := by
  have htake := takeWhile_digits h []
  have hdrop := dropWhile_digits h []
  rw [List.append_nil] at htake hdrop
  simp [decimal?, htake, hdrop, hne]

theorem decimal?_point {whole fraction : List Char} (hne : whole ≠ [])
    (hwhole : ∀ c ∈ whole, c.isDigit) (hfraction : ∀ c ∈ fraction, c.isDigit) :
    decimal? (whole ++ '.' :: fraction) = some (readNumeral whole fraction) := by
  have htake := takeWhile_digits hwhole ('.' :: fraction)
  have hdrop := dropWhile_digits hwhole ('.' :: fraction)
  have hpoint : '.'.isDigit = false := by decide
  simp only [List.takeWhile_cons, hpoint, List.dropWhile_cons] at htake hdrop
  simp [decimal?, htake, hdrop, hne]
  exact hfraction

theorem Denotes.integerLiteral {digits : List Char} (hne : digits ≠ [])
    (h : ∀ c ∈ digits, c.isDigit) :
    Denotes .integer digits (some (Lexeme.integerLiteral digits)) := by
  unfold Lexeme.integerLiteral
  dsimp only
  split
  case isTrue hlt => exact .whole (if_pos ⟨hne, List.all_eq_true.mpr h, hlt⟩)
  case isFalse hlt => exact .large (if_neg fun hall => hlt hall.2.2) (decimal?_whole hne h)

theorem IsMark.denotes {kind : Token.Kind} {text : List Char} (h : IsMark kind text) :
    Denotes kind text none := by
  apply Denotes.nothing <;> rintro rfl <;> cases h

theorem IsWord.denotes {kind : Token.Kind} {text : List Char} (h : IsWord kind text) :
    Denotes kind text none := by
  apply Denotes.nothing <;> rintro rfl <;> cases h

/-- No conversion fails for a lexeme. -/
theorem IsLexeme.exists_denotes {kind : Token.Kind} {text : List Char} (h : IsLexeme kind text) :
    ∃ literal, Denotes kind text literal := by
  cases h with
  | mark h => exact ⟨none, h.denotes⟩
  | number h =>
    cases h with
    | integer hne h => exact ⟨_, .integerLiteral hne h⟩
    | float hne hwhole hfraction => exact ⟨_, .decimal (decimal?_point hne hwhole hfraction)⟩
  | word h => exact ⟨none, h.denotes⟩
  | quoted h =>
    cases h
    exact ⟨_, .text⟩

theorem Denotes.unique {kind : Token.Kind} {text : List Char} {literal literal' : Option Literal}
    (h : Denotes kind text literal) (h' : Denotes kind text literal') : literal = literal' := by
  cases h with
  | whole h => cases h' <;> simp_all
  | large h hx => cases h' <;> simp_all
  | decimal h => cases h' <;> simp_all
  | text =>
    generalize htext : '"' :: (_ ++ ['"']) = text at h'
    cases h' with
    | text => simp_all
    | nothing => simp_all
  | nothing => cases h' <;> simp_all

/-! ## Reading a lexeme -/

theorem of_dropWhile_eq_cons {α : Type} {p : α → Bool} {l more : List α} {a : α}
    (h : l.dropWhile p = a :: more) : p a = false := by
  have hhead := List.head?_dropWhile_not p l
  rw [h] at hhead
  simpa using hhead

namespace Lexeme

variable {c digit : Char} {cs : List Char}

/-- The lexeme is the longest at its place, and has the literal that it denotes. A number that has
a point is not followed by another. -/
structure IsFirst {cs : List Char} (l : Lexeme cs) : Prop where
  isLongest : IsLongest l.kind l.text l.rest
  denotes : Denotes l.kind l.text l.literal
  rest_ne_point : l.kind = .float → ∀ more, l.rest ≠ '.' :: more

theorem forall_mem_takeWhile {p : Char → Bool} (cs : List Char) : ∀ c ∈ cs.takeWhile p, p c :=
  fun _ hc => List.mem_takeWhile_imp hc

theorem forall_mem_digits (hdigit : digit.isDigit) (cs : List Char) :
    ∀ c ∈ digit :: cs.takeWhile Char.isDigit, c.isDigit :=
  List.forall_mem_cons.mpr ⟨hdigit, forall_mem_takeWhile cs⟩

/-- Where a run of digits ends, a number goes on with a point or not at all. -/
theorem isLongest_integer {digits : List Char} (hne : digits ≠ []) (h : ∀ c ∈ digits, c.isDigit)
    {rest : List Char} (hrest : ∀ c more, rest = c :: more → c.isDigit = false)
    (hpoint : ∀ more, rest ≠ '.' :: more) : IsLongest .integer digits rest := by
  have hnumber : IsNumber .integer digits := .integer hne h
  apply (IsLexeme.number hnumber).isLongest_of_next
  rintro c more rfl kind'
  apply hnumber.not_isLexeme_concat (hrest c more rfl)
  rintro - rfl
  exact hpoint more rfl

theorem isLongest_float {whole fraction : List Char} (hne : whole ≠ [])
    (hwhole : ∀ c ∈ whole, c.isDigit) (hfraction : ∀ c ∈ fraction, c.isDigit) {rest : List Char}
    (hrest : ∀ c more, rest = c :: more → c.isDigit = false) :
    IsLongest .float (whole ++ '.' :: fraction) rest := by
  have hnumber : IsNumber .float (whole ++ '.' :: fraction) := .float hne hwhole hfraction
  apply (IsLexeme.number hnumber).isLongest_of_next
  rintro c more rfl kind'
  exact hnumber.not_isLexeme_concat (hrest c more rfl) (by simp)

theorem isFirst_of_number (hdigit : digit.isDigit) {l : Lexeme (digit :: cs)}
    (h : number digit cs = .ok l) : l.IsFirst := by
  have hdigits := forall_mem_digits hdigit cs
  have hdropped {cs : List Char} (c : Char) (more : List Char)
      (h : cs.dropWhile Char.isDigit = c :: more) : c.isDigit = false := of_dropWhile_eq_cons h
  by_cases hpoint : ∃ behind, cs.dropWhile Char.isDigit = '.' :: behind
  · obtain ⟨behind, hpoint⟩ := hpoint
    have hfraction := forall_mem_takeWhile (p := Char.isDigit) behind
    by_cases hsecond : ∃ more, behind.dropWhile Char.isDigit = '.' :: more
    · obtain ⟨more, hsecond⟩ := hsecond
      rw [number_eq_secondPoint hpoint hsecond] at h
      cases h
    · have hsecond := not_exists.mp hsecond
      rw [number_eq_fraction hpoint hsecond] at h
      cases h
      exact ⟨isLongest_float (by simp) hdigits hfraction hdropped,
        .decimal (decimal?_point (by simp) hdigits hfraction), fun _ => hsecond⟩
  · have hpoint := not_exists.mp hpoint
    rw [number_eq_whole hpoint] at h
    cases h
    exact ⟨isLongest_integer (by simp) hdigits hdropped hpoint,
      .integerLiteral (by simp) hdigits, by simp⟩

theorem isFirst_of_quoted {l : Lexeme ('"' :: cs)} (h : quoted '"' cs = .ok l) : l.IsFirst := by
  unfold quoted at h
  split at h
  case h_1 inside rest hsplit =>
    cases h
    have hquoted : IsQuoted .string ('"' :: (inside ++ ['"'])) := .intro (.of_split? hsplit)
    refine ⟨?_, .text, by simp⟩
    apply (IsLexeme.quoted hquoted).isLongest_of_next
    exact fun c more _ kind' => hquoted.not_isLexeme_concat c
  case h_2 => cases h

theorem isWord_ofWord {text : List Char} (h : IsSpelling text) :
    IsWord (Token.Kind.ofWord text) text := by
  unfold Token.Kind.ofWord
  by_cases hsay : text = ['s', 'a', 'y']
  · rw [if_pos hsay, hsay]
    exact .say
  · rw [if_neg hsay]
    by_cases his : text = ['i', 's']
    · rw [if_pos his, his]
      exact .is
    · rw [if_neg his]
      exact .identifier h hsay his

theorem isFirst_word (hletter : isLetter c) (cs : List Char) : (word c cs).IsFirst := by
  have hspelling : IsSpelling (c :: cs.takeWhile isWordCharacter) :=
    .intro hletter fun d hd => (isWordCharacter_iff d).mp (forall_mem_takeWhile cs d hd)
  have hword := isWord_ofWord hspelling
  refine ⟨?_, hword.denotes, fun hkind => ?_⟩
  · apply (IsLexeme.word hword).isLongest_of_next
    exact fun d more hd kind' => hword.not_isLexeme_concat (of_dropWhile_eq_cons hd)
  · have hkind : Token.Kind.ofWord (c :: cs.takeWhile isWordCharacter) = .float := hkind
    rw [hkind] at hword
    cases hword

/-- The lexeme that is read is the longest one. -/
theorem isFirst_of_read {l : Lexeme (c :: cs)} (h : read c cs = .ok l) : l.IsFirst := by
  unfold read at h
  split at h
  case h_1 kind hkind =>
    cases h
    have hmark : IsMark kind [c] := .of_ofCharacter? hkind
    refine ⟨?_, hmark.denotes, ?_⟩
    · apply (IsLexeme.mark hmark).isLongest_of_next
      exact fun d more _ kind' => hmark.not_isLexeme_concat d
    · rintro rfl
      cases hmark
  case h_2 =>
    by_cases hquote : c = '"'
    · subst hquote
      exact isFirst_of_quoted h
    · rw [if_neg hquote] at h
      by_cases hdigit : c.isDigit
      · rw [if_pos hdigit] at h
        exact isFirst_of_number hdigit h
      · rw [if_neg hdigit] at h
        by_cases hword : isWordCharacter c
        · rw [if_pos hword] at h
          cases h
          have hletter := ((isWordCharacter_iff c).mp hword).resolve_right hdigit
          exact isFirst_word hletter cs
        · rw [if_neg hword] at h
          cases h

/-- Why no lexeme is read: none begins with this character, or no quote ends the text that this one
opens, or the number that begins here is followed by a second point. -/
inductive IsHalt (c : Char) (cs : List Char) : Halt → Prop where
  | unknown (h : opening c = .other) : IsHalt c cs ⟨.unknownCharacter c, [], [c]⟩
  | unclosed (hc : c = '"') (h : Quoted.split? cs = none) :
      IsHalt c cs ⟨.unclosedText, [], c :: cs.takeWhile (· ≠ '\n')⟩
  | secondPoint {text more : List Char} (hcs : text ++ '.' :: more = c :: cs)
      (h : IsLongest .float text ('.' :: more)) : IsHalt c cs ⟨.secondPoint, text, ['.']⟩

theorem isHalt_of_number {halt : Halt} (hdigit : digit.isDigit)
    (h : number digit cs = .error halt) : IsHalt digit cs halt := by
  by_cases hpoint : ∃ behind, cs.dropWhile Char.isDigit = '.' :: behind
  · obtain ⟨behind, hpoint⟩ := hpoint
    by_cases hsecond : ∃ more, behind.dropWhile Char.isDigit = '.' :: more
    · obtain ⟨more, hsecond⟩ := hsecond
      rw [number_eq_secondPoint hpoint hsecond] at h
      cases h
      have hcs : cs.takeWhile Char.isDigit ++ '.' :: behind = cs := by
        rw [← hpoint, List.takeWhile_append_dropWhile]
      have hbehind : behind.takeWhile Char.isDigit ++ '.' :: more = behind := by
        rw [← hsecond, List.takeWhile_append_dropWhile]
      have hall : digit :: cs.takeWhile Char.isDigit ++ '.' :: behind.takeWhile Char.isDigit ++
          '.' :: more = digit :: cs := by
        simp [hbehind, hcs]
      refine .secondPoint hall ?_
      · apply isLongest_float (by simp) (forall_mem_digits hdigit cs) (forall_mem_takeWhile behind)
        rintro c rest hc
        cases hc
        decide
    · rw [number_eq_fraction hpoint (not_exists.mp hsecond)] at h
      cases h
  · rw [number_eq_whole (not_exists.mp hpoint)] at h
    cases h

theorem isHalt_of_read {halt : Halt} (h : read c cs = .error halt) : IsHalt c cs halt := by
  unfold read at h
  split at h
  case h_1 => cases h
  case h_2 hkind =>
    by_cases hquote : c = '"'
    · rw [if_pos hquote, quoted] at h
      split at h
      case h_1 => cases h
      case h_2 hsplit =>
        cases h
        exact .unclosed hquote hsplit
    · rw [if_neg hquote] at h
      by_cases hdigit : c.isDigit
      · rw [if_pos hdigit] at h
        exact isHalt_of_number hdigit h
      · rw [if_neg hdigit] at h
        by_cases hword : isWordCharacter c
        · rw [if_pos hword] at h
          cases h
        · rw [if_neg hword] at h
          cases h
          have hletter : ¬ isLetter c := fun h => hword ((isWordCharacter_iff c).mpr (.inl h))
          apply IsHalt.unknown
          rw [opening, if_neg hdigit, if_neg hletter, if_neg hquote, hkind]
          rfl

end Lexeme

end Peng

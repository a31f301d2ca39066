import Peng.Proofs.Source.Newline

/-!
# Lexemes

What is a lexeme, said without reading one, and which lexeme at the front of a text is the longest.
The main statements are that the next character decides whether a lexeme is the longest
(`IsLexeme.isLongest_of_next`), and that there is one longest lexeme at most, of one kind
(`IsLongest.text_eq`, `IsLexeme.kind_eq`).

## Shape of the proof

No two classes of lexemes begin with the same character (`IsLexeme.of_opening`), so each class is
looked at by itself. Texts apart, every front of a lexeme is a lexeme again
(`IsLexeme.exists_of_prefix`), and so the next character alone decides whether a lexeme is the
longest (`IsLexeme.isLongest_of_next`). Of a text in quotes no other lexeme is a front
(`IsQuoted.eq_of_append_eq`).
-/

namespace Peng

/-! ## Classes of lexemes -/

/-- The letters of words. -/
def isLetter (c : Char) : Bool :=
  c.isAlpha || c == '_'

/-- Marks, which are lexemes by themselves. -/
inductive IsMark : Token.Kind → List Char → Prop where
  | leftParen : IsMark .leftParen ['(']
  | rightParen : IsMark .rightParen [')']
  | comma : IsMark .comma [',']
  | minus : IsMark .minus ['-']
  | plus : IsMark .plus ['+']
  | star : IsMark .star ['*']
  | slash : IsMark .slash ['/']
  | newline : IsMark .newline ['\n']

/-- Numbers: digits, and at most one point behind the first of them. -/
inductive IsNumber : Token.Kind → List Char → Prop where
  | integer {digits : List Char} (hne : digits ≠ []) (h : ∀ c ∈ digits, c.isDigit) :
      IsNumber .integer digits
  | float {whole fraction : List Char} (hne : whole ≠ []) (hwhole : ∀ c ∈ whole, c.isDigit)
      (hfraction : ∀ c ∈ fraction, c.isDigit) : IsNumber .float (whole ++ '.' :: fraction)

/-- Letters and digits, a letter first. -/
inductive IsSpelling : List Char → Prop where
  | intro {letter : Char} {more : List Char} (h : isLetter letter)
      (hmore : ∀ c ∈ more, isLetter c ∨ c.isDigit) : IsSpelling (letter :: more)

/-- Words: two are reserved, and all others are identifiers. -/
inductive IsWord : Token.Kind → List Char → Prop where
  | say : IsWord .say ['s', 'a', 'y']
  | is : IsWord .is ['i', 's']
  | identifier {text : List Char} (h : IsSpelling text) (hsay : text ≠ ['s', 'a', 'y'])
      (his : text ≠ ['i', 's']) : IsWord .identifier text

/-- What may stand between two quotes: on one line, and a backslash takes the next character
along. -/
inductive IsInside : List Char → Prop where
  | nil : IsInside []
  | plain {c : Char} {cs : List Char} (hquote : c ≠ '"') (hbackslash : c ≠ '\\')
      (hnewline : c ≠ '\n') (h : IsInside cs) : IsInside (c :: cs)
  | escaped {c : Char} {cs : List Char} (hnewline : c ≠ '\n') (h : IsInside cs) :
      IsInside ('\\' :: c :: cs)

/-- Texts in quotes. -/
inductive IsQuoted : Token.Kind → List Char → Prop where
  | intro {inside : List Char} (h : IsInside inside) :
      IsQuoted .string ('"' :: (inside ++ ['"']))

/-- The lexemes, each with its kind. -/
inductive IsLexeme (kind : Token.Kind) (text : List Char) : Prop where
  | mark (h : IsMark kind text)
  | number (h : IsNumber kind text)
  | word (h : IsWord kind text)
  | quoted (h : IsQuoted kind text)

/-- The lexeme is the longest one at the front of `text ++ rest`. -/
structure IsLongest (kind : Token.Kind) (text rest : List Char) : Prop where
  isLexeme : IsLexeme kind text
  length_le : ∀ kind' text' rest', IsLexeme kind' text' → text' ++ rest' = text ++ rest →
    text'.length ≤ text.length

/-! ## First characters -/

/-- The classes of lexemes, by what they open with. -/
inductive Opening where
  | mark
  | digit
  | letter
  | quote
  | other

/-- What opens with a character. -/
def opening (c : Char) : Opening :=
  if c.isDigit then .digit
  else if isLetter c then .letter
  else if c = '"' then .quote
  else if (Token.Kind.ofCharacter? c).isSome then .mark
  else .other

/-- The lexemes of a class. -/
def Opening.IsLexeme : Opening → Token.Kind → List Char → Prop
  | .mark => IsMark
  | .digit => IsNumber
  | .letter => IsWord
  | .quote => IsQuoted
  | .other => fun _ _ => False

theorem isDigit_eq_false_of_isLetter {c : Char} (h : isLetter c) : c.isDigit = false := by
  have hletter : (decide (65 ≤ c.val ∧ c.val ≤ 90) || (decide (97 ≤ c.val) && decide (c.val ≤ 122)) ||
    c == '_') = true := h
  show (decide (48 ≤ c.val) && decide (c.val ≤ 57)) = false
  simp only [Bool.or_eq_true, Bool.and_eq_true, decide_eq_true_eq, beq_iff_eq,
    Bool.and_eq_false_iff, decide_eq_false_iff_not, UInt32.le_iff_toNat_le] at hletter ⊢
  obtain (h | h) | rfl := hletter
  · simp at h ⊢
    omega
  · simp at h ⊢
    omega
  · decide

theorem isWordCharacter_iff (c : Char) :
    Lexeme.isWordCharacter c ↔ isLetter c ∨ c.isDigit := by
  simp only [Lexeme.isWordCharacter, isLetter, Char.isAlphanum, Bool.or_eq_true]
  grind

theorem IsSpelling.exists_isWord {text : List Char} (h : IsSpelling text) :
    ∃ kind, IsWord kind text := by
  by_cases hsay : text = ['s', 'a', 'y']
  · exact ⟨.say, hsay ▸ .say⟩
  · by_cases his : text = ['i', 's']
    · exact ⟨.is, his ▸ .is⟩
    · exact ⟨.identifier, .identifier h hsay his⟩

theorem IsWord.isSpelling {kind : Token.Kind} {text : List Char} (h : IsWord kind text) :
    IsSpelling text := by
  cases h with
  | say =>
    exact .intro rfl (List.forall_mem_cons.mpr ⟨.inl rfl, List.forall_mem_singleton.mpr (.inl rfl)⟩)
  | is => exact .intro rfl (List.forall_mem_singleton.mpr (.inl rfl))
  | identifier h => exact h

theorem IsMark.of_ofCharacter? {c : Char} {kind : Token.Kind}
    (h : Token.Kind.ofCharacter? c = some kind) : IsMark kind [c] := by
  unfold Token.Kind.ofCharacter? at h
  split at h <;> cases h <;> constructor

theorem IsMark.length_eq {kind : Token.Kind} {text : List Char} (h : IsMark kind text) :
    text.length = 1 := by
  cases h <;> rfl

theorem IsMark.head?_opening {kind : Token.Kind} {text : List Char} (h : IsMark kind text) :
    text.head?.map opening = some .mark := by
  cases h <;> rfl

theorem IsNumber.head?_opening {kind : Token.Kind} {text : List Char} (h : IsNumber kind text) :
    text.head?.map opening = some .digit := by
  cases h with
  | integer hne h =>
    obtain ⟨c, more, rfl⟩ := List.exists_cons_of_ne_nil hne
    simp [opening, h c List.mem_cons_self]
  | float hne h _ =>
    obtain ⟨c, more, rfl⟩ := List.exists_cons_of_ne_nil hne
    simp [opening, h c List.mem_cons_self]

theorem IsSpelling.head?_opening {text : List Char} (h : IsSpelling text) :
    text.head?.map opening = some .letter := by
  obtain ⟨h, -⟩ := h
  simp [opening, isDigit_eq_false_of_isLetter h, h]

theorem IsQuoted.kind_eq {kind : Token.Kind} {text : List Char} (h : IsQuoted kind text) :
    kind = .string := by
  cases h
  rfl

theorem IsQuoted.head?_opening {kind : Token.Kind} {text : List Char} (h : IsQuoted kind text) :
    text.head?.map opening = some .quote := by
  cases h
  rfl

namespace IsLexeme

variable {kind : Token.Kind} {text : List Char}

theorem exists_opening (h : IsLexeme kind text) :
    ∃ o, text.head?.map opening = some o ∧ o.IsLexeme kind text := by
  cases h with
  | mark h => exact ⟨.mark, h.head?_opening, h⟩
  | number h => exact ⟨.digit, h.head?_opening, h⟩
  | word h => exact ⟨.letter, h.isSpelling.head?_opening, h⟩
  | quoted h => exact ⟨.quote, h.head?_opening, h⟩

theorem ne_nil (h : IsLexeme kind text) : text ≠ [] := by
  obtain ⟨o, ho, -⟩ := h.exists_opening
  rintro rfl
  cases ho

/-- The first character tells what class a lexeme is of. -/
theorem of_opening (h : IsLexeme kind text) {o : Opening}
    (ho : text.head?.map opening = some o) : o.IsLexeme kind text := by
  obtain ⟨o', ho', h'⟩ := h.exists_opening
  cases ho'.symm.trans ho
  exact h'

/-- A lexeme at the front of a text is of the class of the text's first character. -/
theorem of_append_eq (h : IsLexeme kind text) {rest cs : List Char} {c : Char}
    (heq : text ++ rest = c :: cs) : (opening c).IsLexeme kind text := by
  obtain ⟨d, more, rfl⟩ := List.exists_cons_of_ne_nil h.ne_nil
  cases heq
  exact h.of_opening rfl

/-- What begins like a lexeme of a class and is one itself is of the same class. -/
theorem of_append (h : IsLexeme kind text) {kind' : Token.Kind} {more : List Char}
    (h' : IsLexeme kind' (text ++ more)) {o : Opening} (ho : text.head?.map opening = some o) :
    o.IsLexeme kind' (text ++ more) := by
  obtain ⟨c, cs, rfl⟩ := List.exists_cons_of_ne_nil h.ne_nil
  exact h'.of_opening ho

end IsLexeme

/-! ## Characters behind a lexeme -/

section Next

variable {kind kind' : Token.Kind} {text : List Char} {c : Char}

theorem IsSpelling.isWordCharacter (h : IsSpelling text) :
    ∀ c ∈ text, Lexeme.isWordCharacter c := by
  obtain ⟨hletter, hmore⟩ := h
  refine List.forall_mem_cons.mpr ⟨(isWordCharacter_iff _).mpr (.inl hletter), fun c hc => ?_⟩
  exact (isWordCharacter_iff c).mpr (hmore c hc)

theorem IsNumber.isDigit_or_point (h : IsNumber kind text) : ∀ c ∈ text, c.isDigit ∨ c = '.' := by
  cases h with
  | integer hne h => exact fun c hc => .inl (h c hc)
  | float hne hwhole hfraction =>
    intro c hc
    obtain hc | hc := List.mem_append.mp hc
    · exact .inl (hwhole c hc)
    · obtain rfl | hc := List.mem_cons.mp hc
      · exact .inr rfl
      · exact .inl (hfraction c hc)

theorem IsMark.not_isLexeme_concat (h : IsMark kind text) (c : Char) :
    ¬ IsLexeme kind' (text ++ [c]) := by
  intro h'
  have hmark : IsMark kind' (text ++ [c]) := (IsLexeme.mark h).of_append h' h.head?_opening
  have hlength := hmark.length_eq
  rw [List.length_append, h.length_eq] at hlength
  cases hlength

theorem IsWord.not_isLexeme_concat (h : IsWord kind text)
    (hc : Lexeme.isWordCharacter c = false) : ¬ IsLexeme kind' (text ++ [c]) := by
  intro h'
  have hword : IsWord kind' (text ++ [c]) :=
    (IsLexeme.word h).of_append h' h.isSpelling.head?_opening
  have hletter := hword.isSpelling.isWordCharacter c (by simp)
  rw [hc] at hletter
  cases hletter

theorem count_point_of_digits {digits : List Char} (h : ∀ c ∈ digits, c.isDigit) :
    digits.count '.' = 0 := by
  refine List.count_eq_zero.mpr fun hmem => ?_
  exact absurd (h '.' hmem) (by decide)

/-- A number has a point or none, and that tells its kind. -/
theorem IsNumber.count_point (h : IsNumber kind text) :
    kind = .integer ∧ text.count '.' = 0 ∨ kind = .float ∧ text.count '.' = 1 := by
  cases h with
  | integer hne h => exact .inl ⟨rfl, count_point_of_digits h⟩
  | float hne hwhole hfraction =>
    refine .inr ⟨rfl, ?_⟩
    rw [List.count_append, List.count_cons_self, count_point_of_digits hwhole,
      count_point_of_digits hfraction]

theorem IsNumber.not_isLexeme_concat (h : IsNumber kind text) (hc : c.isDigit = false)
    (hpoint : kind = .integer → c ≠ '.') : ¬ IsLexeme kind' (text ++ [c]) := by
  intro h'
  have hnumber : IsNumber kind' (text ++ [c]) := (IsLexeme.number h).of_append h' h.head?_opening
  obtain hdigit | rfl := hnumber.isDigit_or_point c (by simp)
  · rw [hc] at hdigit
    cases hdigit
  · -- it would have two points
    obtain ⟨hkind, -⟩ | ⟨-, hone⟩ := h.count_point
    · exact hpoint hkind rfl
    · have hmore := hnumber.count_point
      rw [List.count_append, hone] at hmore
      simp at hmore

end Next

/-! ## Texts in quotes -/

theorem IsInside.split?_append {inside : List Char} (h : IsInside inside) (after : List Char) :
    Quoted.split? (inside ++ '"' :: after) = some (inside, after) := by
  induction h with
  | nil => rfl
  | @plain c cs hquote hbackslash hnewline h ih =>
    rw [List.cons_append, Quoted.split?, ih] <;> simp_all
  | @escaped c cs hnewline h ih =>
    rw [List.cons_append, List.cons_append, Quoted.split?, ih]
    simpa using hnewline

theorem IsInside.of_split? {cs inside after : List Char}
    (h : Quoted.split? cs = some (inside, after)) : IsInside inside := by
  fun_induction Quoted.split? cs generalizing inside after with
  | case1 | case3 | case4 | case5 | case7 | case9 => simp at h
  | case2 rest =>
    cases h
    exact .nil
  | case6 c rest hc inside' after' hrest ih =>
    cases h
    exact .escaped hc (ih hrest)
  | case8 c rest hquote hnewline hend _ hmore inside' after' hrest ih =>
    cases h
    exact .plain hquote (Quoted.ne_backslash hend hmore) hnewline (ih hrest)

/-- Two texts in quotes at one place are the same. -/
theorem IsQuoted.eq_of_append_eq {kind kind' : Token.Kind} {text text' rest rest' : List Char}
    (h : IsQuoted kind text) (h' : IsQuoted kind' text') (heq : text ++ rest = text' ++ rest') :
    text = text' := by
  obtain ⟨h⟩ := h
  obtain ⟨h'⟩ := h'
  have hsplit := h.split?_append rest
  have hsplit' := h'.split?_append rest'
  simp only [List.cons_append, List.append_assoc, List.nil_append, List.cons.injEq, true_and]
    at heq
  rw [heq, hsplit'] at hsplit
  cases hsplit
  rfl

theorem IsQuoted.not_isLexeme_concat {kind kind' : Token.Kind} {text : List Char}
    (h : IsQuoted kind text) (c : Char) : ¬ IsLexeme kind' (text ++ [c]) := by
  intro h'
  have hquoted : IsQuoted kind' (text ++ [c]) := (IsLexeme.quoted h).of_append h' h.head?_opening
  have hsame : text ++ [c] = text ++ [c] ++ [] := (List.append_nil _).symm
  have heq := h.eq_of_append_eq hquoted hsame
  simp at heq

/-! ## Fronts of lexemes -/

theorem IsNumber.exists_of_prefix {kind : Token.Kind} {text front : List Char}
    (h : IsNumber kind text) (hfront : front <+: text) (hne : front ≠ []) :
    ∃ kind', IsNumber kind' front := by
  cases h with
  | integer _ h => exact ⟨.integer, .integer hne fun c hc => h c (hfront.subset hc)⟩
  | @float whole fraction hwholene hwhole hfraction =>
    obtain ⟨behind, hbehind⟩ := hfront
    obtain ⟨more, rfl, -⟩ | ⟨more, rfl, hmore⟩ := List.append_eq_append_iff.mp hbehind
    · exact ⟨.integer, .integer hne fun c hc => hwhole c (List.mem_append_left more hc)⟩
    · cases more with
      | nil =>
        rw [List.append_nil]
        exact ⟨.integer, .integer hwholene hwhole⟩
      | cons c more =>
        cases hmore
        refine ⟨.float, .float hwholene hwhole fun c hc => ?_⟩
        exact hfraction c (List.mem_append_left behind hc)

theorem IsSpelling.of_prefix {text front : List Char} (h : IsSpelling text)
    (hfront : front <+: text) (hne : front ≠ []) : IsSpelling front := by
  obtain ⟨hletter, hmore⟩ := h
  obtain ⟨c, cs, rfl⟩ := List.exists_cons_of_ne_nil hne
  obtain ⟨rfl, hcs⟩ := List.cons_prefix_cons.mp hfront
  exact .intro hletter fun c hc => hmore c (hcs.subset hc)

namespace IsLexeme

variable {kind : Token.Kind} {text front rest : List Char}

/-- The front of a lexeme is a lexeme again, unless the lexeme is a text in quotes. -/
theorem exists_of_prefix (h : IsLexeme kind text) (hkind : kind ≠ .string)
    (hfront : front <+: text) (hne : front ≠ []) : ∃ kind', IsLexeme kind' front := by
  cases h with
  | mark h =>
    have hlength := h.length_eq
    have hpos := List.length_pos_iff.mpr hne
    have hle := hfront.length_le
    obtain rfl := hfront.eq_of_length (by omega)
    exact ⟨kind, .mark h⟩
  | number h =>
    obtain ⟨kind', h'⟩ := h.exists_of_prefix hfront hne
    exact ⟨kind', .number h'⟩
  | word h =>
    obtain ⟨kind', h'⟩ := (h.isSpelling.of_prefix hfront hne).exists_isWord
    exact ⟨kind', .word h'⟩
  | quoted h =>
    cases h
    exact absurd rfl hkind

theorem isQuoted (h : IsLexeme .string text) : IsQuoted .string text := by
  cases h with
  | mark h => cases h
  | number h => cases h
  | word h => cases h
  | quoted h => exact h

/-- A lexeme is the longest if the next character does not go on with it. -/
theorem isLongest_of_next (h : IsLexeme kind text)
    (hnext : ∀ c more, rest = c :: more → ∀ kind', ¬ IsLexeme kind' (text ++ [c])) :
    IsLongest kind text rest := by
  refine ⟨h, fun kind' text' rest' h' heq => Nat.le_of_not_lt fun hlength => ?_⟩
  obtain ⟨more, rfl, hmore⟩ | ⟨more, rfl, hmore⟩ := List.append_eq_append_iff.mp heq
  · rw [List.length_append] at hlength
    omega
  · obtain ⟨c, more, rfl⟩ := List.exists_cons_of_ne_nil (l := more) (by rintro rfl; simp at hlength)
    by_cases hkind : kind' = .string
    · -- a longer text in quotes
      subst hkind
      obtain ⟨d, ds, rfl⟩ := List.exists_cons_of_ne_nil h.ne_nil
      have hquoted : IsQuoted kind (d :: ds) := h.of_opening h'.isQuoted.head?_opening
      have heq := hquoted.eq_of_append_eq h'.isQuoted heq.symm
      simp at heq
    · have hfront : text ++ [c] <+: text ++ c :: more := ⟨more, by simp⟩
      obtain ⟨kind'', h''⟩ := h'.exists_of_prefix hkind hfront (by simp)
      exact hnext c _ hmore kind'' h''

end IsLexeme

namespace IsLongest

variable {kind kind' : Token.Kind} {text text' rest rest' : List Char}

theorem of_append {more : List Char} (h : IsLongest kind text (rest ++ more)) :
    IsLongest kind text rest := by
  refine ⟨h.isLexeme, fun kind' text' rest' h' heq => ?_⟩
  apply h.length_le kind' text' (rest' ++ more) h'
  rw [← List.append_assoc, heq, List.append_assoc]

/-- What is behind the next character is of no account. -/
theorem append {c : Char} (h : IsLongest kind text (c :: rest)) (more : List Char) :
    IsLongest kind text (c :: rest ++ more) := by
  apply h.isLexeme.isLongest_of_next
  intro d ds hd kind' h'
  cases hd
  have hlength := h.length_le kind' (text ++ [c]) rest h' (by simp)
  rw [List.length_append, List.length_singleton] at hlength
  omega

theorem text_eq (h : IsLongest kind text rest) (h' : IsLongest kind' text' rest')
    (heq : text ++ rest = text' ++ rest') : text = text' := by
  have hle := h.length_le kind' text' rest' h'.isLexeme heq.symm
  have hle' := h'.length_le kind text rest h.isLexeme heq
  exact (List.append_inj heq (by omega)).1

end IsLongest

/-- A text is a lexeme of one kind only. -/
theorem IsLexeme.kind_eq {kind kind' : Token.Kind} {text : List Char} (h : IsLexeme kind text)
    (h' : IsLexeme kind' text) : kind = kind' := by
  obtain ⟨o, ho, h⟩ := h.exists_opening
  have h' := h'.of_opening ho
  cases o with
  | mark =>
    have h : IsMark kind text := h
    have h' : IsMark kind' text := h'
    cases h <;> cases h' <;> rfl
  | digit =>
    have hcount := IsNumber.count_point h
    have hcount' := IsNumber.count_point h'
    grind
  | letter =>
    have h : IsWord kind text := h
    have h' : IsWord kind' text := h'
    cases h <;> cases h' <;> simp_all
  | quote =>
    exact (IsQuoted.kind_eq h).trans (IsQuoted.kind_eq h').symm
  | other => exact absurd h id

/-- A single character is a lexeme if it is a mark, a digit or a letter. -/
theorem exists_isLexeme_singleton {c : Char} (hquote : c ≠ '"') (hother : opening c ≠ .other) :
    ∃ kind, IsLexeme kind [c] := by
  by_cases hdigit : c.isDigit
  · exact ⟨.integer, .number (.integer (by simp) (List.forall_mem_singleton.mpr hdigit))⟩
  · by_cases hletter : isLetter c
    · have hspelling : IsSpelling [c] := .intro hletter (by simp)
      obtain ⟨kind, h⟩ := hspelling.exists_isWord
      exact ⟨kind, .word h⟩
    · rw [opening, if_neg hdigit, if_neg hletter, if_neg hquote] at hother
      obtain ⟨kind, h⟩ : ∃ kind, Token.Kind.ofCharacter? c = some kind := by
        rcases hkind : Token.Kind.ofCharacter? c with _ | kind
        · rw [hkind] at hother
          exact absurd rfl hother
        · exact ⟨kind, rfl⟩
      exact ⟨kind, .mark (.of_ofCharacter? h)⟩

end Peng

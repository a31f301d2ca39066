import Peng.Proofs.Source.LongestMatch

/-!
# Rendering

How statements are written as source text. `Expr.Renders` says where parentheses must stand, and
leaves open where else they may; `Laid` puts words on a line, with blanks between them; and
`RendersLines` puts every statement on a line of its own. The main statements are that everything
writable has a rendering (`exists_rendersLines`), and that scanning a line finds its words
(`Laid.exists_tokens`).
-/

namespace Peng

/-! ## Words -/

/-- A lexeme, of which a rendering is made. -/
structure Word where
  kind : Token.Kind
  text : List Char
  isLexeme : IsLexeme kind text

namespace Word

def leftParen : Word := ⟨.leftParen, ['('], .mark .leftParen⟩

def rightParen : Word := ⟨.rightParen, [')'], .mark .rightParen⟩

def comma : Word := ⟨.comma, [','], .mark .comma⟩

def say : Word := ⟨.say, ['s', 'a', 'y'], .word .say⟩

def is : Word := ⟨.is, ['i', 's'], .word .is⟩

/-- The mark of an operator. -/
def operator : BinaryOp → Word
  | .add => ⟨.plus, ['+'], .mark .plus⟩
  | .subtract => ⟨.minus, ['-'], .mark .minus⟩
  | .multiply => ⟨.star, ['*'], .mark .star⟩
  | .divide => ⟨.slash, ['/'], .mark .slash⟩

/-- The mark of a sign. -/
def sign : Sign → Word
  | .plus => ⟨.plus, ['+'], .mark .plus⟩
  | .minus => ⟨.minus, ['-'], .mark .minus⟩

def number {kind : Token.Kind} {text : List Char} (h : IsNumber kind text) : Word :=
  ⟨kind, text, .number h⟩

def identifier {text : List Char} (h : IsWord .identifier text) : Word :=
  ⟨.identifier, text, .word h⟩

/-- What stands between quotes, with the quotes. -/
def quoted {inside : List Char} (h : IsInside inside) : Word :=
  ⟨.string, '"' :: (inside ++ ['"']), .quoted (.intro h)⟩

end Word

/-! ## Texts -/

/-- The letters that stand for a character when a backslash is before them. -/
def escapes : List (Char × Char) :=
  [('\\', '\\'), ('"', '"'), ('t', '\t'), ('n', '\n'), ('r', '\r'), ('v', '\x0b'), ('f', '\x0c')]

/-- How a text is written between quotes: quotes, backslashes and newlines must be escaped, and the
other characters that can be escaped may be. -/
inductive Spells : List Char → List Char → Prop where
  | nil : Spells [] []
  | plain {c : Char} {inside text : List Char} (hquote : c ≠ '"') (hbackslash : c ≠ '\\')
      (hnewline : c ≠ '\n') (h : Spells inside text) : Spells (c :: inside) (c :: text)
  | escaped {letter c : Char} {inside text : List Char} (hescape : (letter, c) ∈ escapes)
      (h : Spells inside text) : Spells ('\\' :: letter :: inside) (c :: text)

theorem escape?_of_mem_escapes {letter c : Char} (h : (letter, c) ∈ escapes) :
    Quoted.escape? letter = some c := by
  simp only [escapes, List.mem_cons, Prod.mk.injEq, List.not_mem_nil, or_false] at h
  rcases h with ⟨rfl, rfl⟩ | ⟨rfl, rfl⟩ | ⟨rfl, rfl⟩ | ⟨rfl, rfl⟩ | ⟨rfl, rfl⟩ | ⟨rfl, rfl⟩ |
    ⟨rfl, rfl⟩ <;> rfl

namespace Spells

variable {inside text : List Char}

theorem isInside (h : Spells inside text) : IsInside inside := by
  induction h with
  | nil => exact .nil
  | plain hquote hbackslash hnewline h ih => exact .plain hquote hbackslash hnewline ih
  | escaped hescape h ih =>
    refine .escaped ?_ ih
    rintro rfl
    cases escape?_of_mem_escapes hescape

/-- What is written between the quotes denotes the text. -/
theorem decode_eq (h : Spells inside text) : Quoted.decode inside = text := by
  induction h with
  | nil => rfl
  | plain hquote hbackslash hnewline h ih =>
    rw [Quoted.decode, ih]
    exact fun c rest hc _ => hbackslash hc
  | escaped hescape h ih => rw [Quoted.decode, escape?_of_mem_escapes hescape, ih]

theorem exists_spells (text : List Char) : ∃ inside, Spells inside text := by
  induction text with
  | nil => exact ⟨[], .nil⟩
  | cons c text ih =>
    obtain ⟨inside, h⟩ := ih
    by_cases hescape : c = '"' ∨ c = '\\' ∨ c = '\n'
    · obtain ⟨letter, hletter⟩ : ∃ letter, (letter, c) ∈ escapes := by
        rcases hescape with rfl | rfl | rfl
        · exact ⟨'"', by decide⟩
        · exact ⟨'\\', by decide⟩
        · exact ⟨'n', by decide⟩
      exact ⟨'\\' :: letter :: inside, .escaped hletter h⟩
    · obtain ⟨hquote, hbackslash, hnewline⟩ := by simpa only [not_or] using hescape
      exact ⟨c :: inside, .plain hquote hbackslash hnewline h⟩

end Spells

/-! ## Expressions -/

/-- How tightly an operator holds its operands together. -/
def BinaryOp.precedence : BinaryOp → Nat
  | .add | .subtract => 0
  | .multiply | .divide => 1

/-- How tightly words hold together that are in parentheses, or that are only one. -/
def tightest : Nat := 3

/-- How expressions are written. The number says how tightly the words hold together. A left operand
that is held less tightly than by its operator must be in parentheses, and so must a right one that
is not held more tightly, and what a sign stands before if it is not a single word. All else may
be in parentheses, and in any number of them. -/
inductive Expr.Renders : Expr → Nat → List Word → Prop where
  | number {x : Float} {span : Span} {kind : Token.Kind} {text : List Char}
      (h : IsNumber kind text) (hx : decimal? text = some x) :
      Renders (.number x span) tightest [.number h]
  | text {s : String} {span : Span} {inside : List Char} (h : Spells inside s.toList) :
      Renders (.text s span) tightest [.quoted h.isInside]
  | identifier {name : String} {span : Span} (h : IsWord .identifier name.toList) :
      Renders (.variable name span) tightest [.identifier h]
  | binary {op : BinaryOp} {left right : Expr} {span : Span} {m n : Nat} {lefts rights : List Word}
      (hleft : Renders left m lefts) (hright : Renders right n rights) (hm : op.precedence ≤ m)
      (hn : op.precedence < n) :
      Renders (.binary op left right span) op.precedence (lefts ++ .operator op :: rights)
  | signed {sign : Sign} {operand : Expr} {span : Span} {words : List Word}
      (h : Renders operand tightest words) :
      Renders (.signed sign operand span) 2 (.sign sign :: words)
  | wrapped {e : Expr} {n : Nat} {words : List Word} (h : Renders e n words) :
      Renders e tightest (.leftParen :: (words ++ [.rightParen]))

/-- Numbers must be those of a number lexeme, and names must be identifiers. -/
inductive Expr.IsWritable : Expr → Prop where
  | number {x : Float} {span : Span} {kind : Token.Kind} {text : List Char}
      (h : IsNumber kind text) (hx : decimal? text = some x) : IsWritable (.number x span)
  | text {s : String} {span : Span} : IsWritable (.text s span)
  | identifier {name : String} {span : Span} (h : IsWord .identifier name.toList) :
      IsWritable (.variable name span)
  | binary {op : BinaryOp} {left right : Expr} {span : Span} (hleft : IsWritable left)
      (hright : IsWritable right) : IsWritable (.binary op left right span)
  | signed {sign : Sign} {operand : Expr} {span : Span} (h : IsWritable operand) :
      IsWritable (.signed sign operand span)

theorem BinaryOp.precedence_lt_tightest (op : BinaryOp) : op.precedence < tightest := by
  cases op <;> decide

theorem Expr.IsWritable.exists_renders {e : Expr} (h : e.IsWritable) :
    ∃ n words, e.Renders n words := by
  induction h with
  | number h hx => exact ⟨_, _, .number h hx⟩
  | @text s =>
    obtain ⟨inside, h⟩ := Spells.exists_spells s.toList
    exact ⟨_, _, .text h⟩
  | identifier h => exact ⟨_, _, .identifier h⟩
  | @binary op left right span hleft hright ihleft ihright =>
    obtain ⟨m, lefts, ihleft⟩ := ihleft
    obtain ⟨n, rights, ihright⟩ := ihright
    have hlt := op.precedence_lt_tightest
    exact ⟨_, _, .binary ihleft.wrapped ihright.wrapped (Nat.le_of_lt hlt) hlt⟩
  | signed h ih =>
    obtain ⟨n, words, ih⟩ := ih
    exact ⟨_, _, .signed ih.wrapped⟩

/-! ## Statements -/

/-- How the values of a print are written. There is at least one. -/
inductive RendersValues : List Expr → List Word → Prop where
  | last {e : Expr} {n : Nat} {words : List Word} (h : e.Renders n words) : RendersValues [e] words
  | next {e : Expr} {es : List Expr} {n : Nat} {words more : List Word} (h : e.Renders n words)
      (hmore : RendersValues es more) : RendersValues (e :: es) (words ++ .comma :: more)

/-- How statements are written. -/
inductive Statement.Renders : Statement → List Word → Prop where
  | print {values : List Expr} {span : Span} {words : List Word} (h : RendersValues values words) :
      Renders (.print values span) (.say :: words)
  | assign {name : String} {e : Expr} {span : Span} {n : Nat} {words : List Word}
      (hname : IsWord .identifier name.toList) (h : e.Renders n words) :
      Renders (.assign name e span) (.identifier hname :: .is :: words)

/-- A print must have a value, and what is assigned to must be an identifier. -/
inductive Statement.IsWritable : Statement → Prop where
  | print {values : List Expr} {span : Span} (hne : values ≠ [])
      (h : ∀ e ∈ values, e.IsWritable) : IsWritable (.print values span)
  | assign {name : String} {e : Expr} {span : Span} (hname : IsWord .identifier name.toList)
      (h : e.IsWritable) : IsWritable (.assign name e span)

theorem exists_rendersValues {values : List Expr} (hne : values ≠ [])
    (h : ∀ e ∈ values, e.IsWritable) : ∃ words, RendersValues values words := by
  induction values with
  | nil => exact absurd rfl hne
  | cons e values ih =>
    obtain ⟨he, hvalues⟩ := List.forall_mem_cons.mp h
    obtain ⟨n, words, he⟩ := he.exists_renders
    by_cases hlast : values = []
    · subst hlast
      exact ⟨words, .last he⟩
    · obtain ⟨more, hmore⟩ := ih hlast hvalues
      exact ⟨_, .next he hmore⟩

theorem Statement.IsWritable.exists_renders {s : Statement} (h : s.IsWritable) :
    ∃ words, s.Renders words := by
  cases h with
  | print hne h =>
    obtain ⟨words, hwords⟩ := exists_rendersValues hne h
    exact ⟨_, .print hwords⟩
  | assign hname h =>
    obtain ⟨n, words, hwords⟩ := h.exists_renders
    exact ⟨_, .assign hname hwords⟩

/-! ## Lines -/

/-- Nothing but blanks. -/
def IsGap (gap : List Char) : Prop :=
  ∀ c ∈ gap, c = ' ' ∨ c = '\t'

/-- How words are put on a line: blanks part them, and may stand at both ends. -/
inductive Laid : List Word → List Char → Prop where
  | done {gap : List Char} (hgap : IsGap gap) : Laid [] gap
  | word {gap rest : List Char} {w : Word} {words : List Word} (hgap : IsGap gap)
      (hrest : ∀ c ∈ rest.head?, c = ' ' ∨ c = '\t') (more : Laid words rest) :
      Laid (w :: words) (gap ++ w.text ++ rest)

/-- How statements are written, each on a line of its own. A newline may end the last line. -/
inductive RendersLines : List Statement → List Char → Prop where
  | none : RendersLines [] []
  | last {s : Statement} {words : List Word} {line : List Char} (h : s.Renders words)
      (hline : Laid words line) : RendersLines [s] line
  | next {s : Statement} {ss : List Statement} {words : List Word} {line rest : List Char}
      (h : s.Renders words) (hline : Laid words line) (more : RendersLines ss rest) :
      RendersLines (s :: ss) (line ++ '\n' :: rest)

/-- Words with a space before each. -/
def lay (words : List Word) : List Char :=
  words.flatMap fun w => ' ' :: w.text

theorem laid_lay (words : List Word) : Laid words (lay words) := by
  induction words with
  | nil => exact .done (by simp [lay, IsGap])
  | cons w words ih =>
    have hgap : IsGap [' '] := by simp [IsGap]
    refine .word hgap ?_ ih
    cases words with
    | nil => simp
    | cons w' words => simp

/-- Everything writable has a rendering. -/
theorem exists_rendersLines {ss : List Statement} (h : ∀ s ∈ ss, s.IsWritable) :
    ∃ text, RendersLines ss text := by
  induction ss with
  | nil => exact ⟨[], .none⟩
  | cons s ss ih =>
    obtain ⟨hs, hss⟩ := List.forall_mem_cons.mp h
    obtain ⟨words, hwords⟩ := hs.exists_renders
    obtain ⟨rest, hrest⟩ := ih hss
    exact ⟨_, .next hwords (laid_lay words) hrest⟩

/-! ## Scanning a line -/

/-- The token is what the word is scanned as. -/
structure Word.Gives (w : Word) (t : Token) : Prop where
  kind_eq : t.kind = w.kind
  lexeme_eq : t.lexeme = .ofList w.text
  denotes : Denotes w.kind w.text t.literal

/-- No lexeme goes on with a blank. -/
theorem IsLexeme.isLongest_of_blank {kind : Token.Kind} {text rest : List Char}
    (h : IsLexeme kind text) (hrest : ∀ c ∈ rest.head?, c = ' ' ∨ c = '\t') :
    IsLongest kind text rest := by
  apply h.isLongest_of_next
  rintro c more rfl kind'
  have hc := hrest c rfl
  have hword : Lexeme.isWordCharacter c = false := by rcases hc with rfl | rfl <;> decide
  have hdigit : c.isDigit = false := by rcases hc with rfl | rfl <;> decide
  have hpoint : c ≠ '.' := by rcases hc with rfl | rfl <;> decide
  cases h with
  | mark h => exact h.not_isLexeme_concat c
  | number h => exact h.not_isLexeme_concat hdigit fun _ => hpoint
  | word h => exact h.not_isLexeme_concat hword
  | quoted h => exact h.not_isLexeme_concat c

theorem Tokenised.gap_append {gap cs : List Char} {p : Position}
    {r : Except (Located ScanFault) (List Token)} (hgap : IsGap gap)
    (h : ∀ behind, Tokenised (p.advanceOver gap) behind cs r) (behind : Option Token.Kind) :
    Tokenised p behind (gap ++ cs) r := by
  induction gap generalizing p behind with
  | nil => exact h behind
  | cons c gap ih =>
    obtain ⟨hc, hgap⟩ := List.forall_mem_cons.mp hgap
    exact .blank hc (ih hgap h none)

theorem Laid.exists_tokenised {words : List Word} {line : List Char} (h : Laid words line)
    (p : Position) (behind : Option Token.Kind) :
    ∃ ts, Tokenised p behind line (.ok (ts ++ [.atEnd (p.advanceOver line)])) ∧
      List.Forall₂ Word.Gives words ts := by
  induction h generalizing p behind with
  | @done gap hgap =>
    have hdone := Tokenised.gap_append (p := p) hgap (fun _ => .done) behind
    rw [List.append_nil] at hdone
    exact ⟨[], hdone, .nil⟩
  | @word gap rest w words hgap hrest more ih =>
    obtain ⟨literal, hliteral⟩ := w.isLexeme.exists_denotes
    obtain ⟨ts, hts, hgives⟩ := ih ((p.advanceOver gap).advanceOver w.text) (some w.kind)
    have hword := Tokenised.gap_append (p := p) hgap
      (fun behind => .lexeme (w.isLexeme.isLongest_of_blank hrest) hliteral hts) behind
    rw [← List.append_assoc, ← Position.advanceOver_append, ← Position.advanceOver_append,
      ← List.append_assoc] at hword
    exact ⟨_ :: ts, hword, .cons ⟨rfl, rfl, hliteral⟩ hgives⟩

/-- Scanning a line finds the words that were put on it. -/
theorem Laid.exists_tokens {words : List Word} {line : List Char} (h : Laid words line)
    (p : Position) :
    ∃ ts, scanFrom p line = .ok (ts ++ [.atEnd (p.advanceOver line)]) ∧
      List.Forall₂ Word.Gives words ts := by
  obtain ⟨ts, hts, hgives⟩ := h.exists_tokenised p none
  exact ⟨ts, scanFrom_eq_iff_tokenised.mpr hts, hgives⟩

end Peng

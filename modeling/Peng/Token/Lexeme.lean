import Peng.Number.Numeral
import Peng.Token.Basic
import Peng.Token.Quoted

/-!
# Lexemes

The longest lexeme at the front of a text. Every kind of lexeme is known by its first
character:

* a punctuation mark or a newline is a lexeme by itself,
* a double quote opens a text that is closed on the same line,
* a digit begins a number, which may hold one decimal point,
* a letter or underscore begins a word.

A `Lexeme` carries the proof that its text and what follows it make up the whole, so a scanner
can neither drop nor invent a character.
-/

namespace Peng

/-- Why no lexeme can be read. -/
inductive ScanFault where
  | unknownCharacter (c : Char)
  /-- A decimal point right behind a number that already has one. -/
  | secondPoint
  | unclosedText
deriving DecidableEq

/-- The lexeme at the front of `cs`, and what follows it. -/
structure Lexeme (cs : List Char) where
  kind : Token.Kind
  literal : Option Literal
  text : List Char
  rest : List Char
  text_append_rest : text ++ rest = cs
  text_ne_nil : text ≠ []

/-- Where reading a lexeme comes to a halt: `passed` was read before the stretch that is to
blame. -/
structure Halt where
  cause : ScanFault
  passed : List Char
  blamed : List Char

namespace Lexeme

/-- The characters of words: ASCII letters, digits and the underscore. -/
def isWordCharacter (c : Char) : Bool :=
  c.isAlphanum || c == '_'

/-- What a run of digits denotes: a whole number of up to 63 binary digits exactly, and a
larger one by the nearest number. -/
def integerLiteral (digits : List Char) : Literal :=
  let v := digitsValue digits
  if v < Nat.pow 2 63 then .int v else .float (readNumeral digits [])

/-- The number that begins with `digit`. -/
def number (digit : Char) (cs : List Char) : Except Halt (Lexeme (digit :: cs)) :=
  let whole := digit :: cs.takeWhile Char.isDigit
  match h : cs.dropWhile Char.isDigit with
  | '.' :: behind =>
    let fraction := behind.takeWhile Char.isDigit
    match h' : behind.dropWhile Char.isDigit with
    | '.' :: _ => .error ⟨.secondPoint, whole ++ '.' :: fraction, ['.']⟩
    | rest =>
      .ok {
        kind := .float
        literal := some (.float (readNumeral whole fraction))
        text := whole ++ '.' :: fraction
        rest
        text_append_rest := by simp [whole, fraction, ← h', ← h]
        text_ne_nil := by simp [whole] }
  | rest =>
    .ok {
      kind := .integer
      literal := some (integerLiteral whole)
      text := whole
      rest
      text_append_rest := by simp [whole, ← h]
      text_ne_nil := by simp [whole] }

/-- The word that begins with `letter`. -/
def word (letter : Char) (cs : List Char) : Lexeme (letter :: cs) :=
  let text := letter :: cs.takeWhile isWordCharacter
  { kind := .ofWord text
    literal := none
    text
    rest := cs.dropWhile isWordCharacter
    text_append_rest := by simp [text]
    text_ne_nil := by simp [text] }

/-- The quoted text that begins with `quote`. When it is not closed, all the rest of the line
is to blame. -/
def quoted (quote : Char) (cs : List Char) : Except Halt (Lexeme (quote :: cs)) :=
  match h : Quoted.split? cs with
  | some (inside, rest) =>
    .ok {
      kind := .string
      literal := some (.text (String.ofList (Quoted.decode inside)))
      text := quote :: inside ++ ['"']
      rest
      text_append_rest := by simp [Quoted.eq_of_split? h]
      text_ne_nil := by simp }
  | none => .error ⟨.unclosedText, [], quote :: cs.takeWhile (· ≠ '\n')⟩

/-- The lexeme that begins with `c` and goes on in `cs`. -/
def read (c : Char) (cs : List Char) : Except Halt (Lexeme (c :: cs)) :=
  match Token.Kind.ofCharacter? c with
  | some kind => .ok ⟨kind, none, [c], cs, rfl, by simp⟩
  | none =>
    if c = '"' then quoted c cs
    else if c.isDigit then number c cs
    else if isWordCharacter c then .ok (word c cs)
    else .error ⟨.unknownCharacter c, [], [c]⟩

/-- Reading a lexeme consumes something. -/
theorem rest_length_lt {cs : List Char} (l : Lexeme cs) : l.rest.length < cs.length := by
  have h := congrArg List.length l.text_append_rest
  have := List.length_pos_iff.mpr l.text_ne_nil
  simp only [List.length_append] at h
  omega

end Lexeme

end Peng

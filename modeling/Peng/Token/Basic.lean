import Peng.Source.Position

/-!
# Tokens

The pieces that a source is made of, each with the text it was written as and the place where
it stands.
-/

namespace Peng

/-- What a literal token denotes. -/
inductive Literal where
  | int (value : Int)
  | float (value : Float)
  | text (value : String)

namespace Token

/-- The kinds of token. -/
inductive Kind where
  | leftParen
  | rightParen
  | comma
  | minus
  | plus
  | slash
  | star
  | newline
  | identifier
  | string
  | integer
  | float
  | say
  | is
  | endOfInput
deriving DecidableEq

/-- The tokens that are a single character. -/
def Kind.ofCharacter? : Char → Option Kind
  | '(' => some .leftParen
  | ')' => some .rightParen
  | ',' => some .comma
  | '-' => some .minus
  | '+' => some .plus
  | '*' => some .star
  | '/' => some .slash
  | '\n' => some .newline
  | _ => none

/-- The kind of a word: two words are reserved, and any other is an identifier. -/
def Kind.ofWord (word : List Char) : Kind :=
  if word = ['s', 'a', 'y'] then .say
  else if word = ['i', 's'] then .is
  else .identifier

end Token

/-- A token: `lexeme` is its source text, quotes and escapes as written. Nothing ties the
literal to the kind, for tokens may also be put together by hand. -/
structure Token where
  kind : Token.Kind
  lexeme : String
  literal : Option Literal
  span : Span

/-- The token that ends every scanned source. -/
def Token.atEnd (p : Position) : Token :=
  ⟨.endOfInput, "", none, .empty p⟩

end Peng

import Peng.Syntax.Grammar

/-!
# Reading programs

A `Reader` holds the tokens that are still to be read, and the token that ends the input. It
keeps its place: after a program it is at the end, and after a failure it is in front of the
token that no rule could use, so that reading can go on from there.
-/

namespace Peng

/-- The tokens not yet read, none of which ends the input, and the token that does. -/
structure Reader where
  ahead : List Token
  atEnd : Token

namespace Reader

/-- The token that ends a list: the first of its kind, or one put behind the last token. -/
def endOf (ts : List Token) : Token :=
  match ts.find? (·.kind = .endOfInput) with
  | some t => t
  | none =>
    match ts.getLast? with
    | some last => .atEnd last.span.finish
    | none => .atEnd (.start "<unknown>")

/-- A reader of the tokens before the first end of input. -/
def ofTokens (ts : List Token) : Reader :=
  ⟨ts.takeWhile (·.kind ≠ .endOfInput), endOf ts⟩

/-- The token that the reader is in front of. -/
def next (r : Reader) : Token :=
  r.ahead.headD r.atEnd

/-- A program reaches from its first to its last statement, and one without statements has
the empty stretch at the end of the input. -/
def programOf (r : Reader) : List Statement → Program
  | [] => ⟨[], r.atEnd.span⟩
  | first :: more => ⟨first :: more, first.span.upTo (more.getLastD first).span⟩

/-- Reads all that is left as a program. -/
def readProgram (r : Reader) : Except (Located SyntaxFault) Program × Reader :=
  match Grammar.statements r.ahead with
  | .ok statements => (.ok (r.programOf statements), ⟨[], r.atEnd⟩)
  | .error (wanted, rest) =>
    let r : Reader := ⟨rest, r.atEnd⟩
    (.error ⟨⟨wanted, r.next.found⟩, r.next.span⟩, r)

/-- What reading as often as `times` gives, with one reader. -/
def readPrograms (r : Reader) : Nat → List (Except (Located SyntaxFault) Program)
  | 0 => []
  | times + 1 => r.readProgram.1 :: r.readProgram.2.readPrograms times

end Reader

/-- The program that a list of tokens makes up. -/
def parse (ts : List Token) : Except (Located SyntaxFault) Program :=
  (Reader.ofTokens ts).readProgram.1

end Peng
